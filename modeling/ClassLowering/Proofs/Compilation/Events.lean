import ClassLowering.Proofs.Compilation.Failures

namespace ClassLowering

def EventLog.Routine (log : EventLog) : Prop :=
  ∀ e ∈ log, e.kind ≠ .error ∧ e.kind ≠ .codeEmitted

theorem EventLog.Routine.append {log later : EventLog} (h : log.Routine) (h' : later.Routine) :
    EventLog.Routine (log ++ later) := by
  intro e he
  exact (List.mem_append.1 he).elim (h e) (h' e)

theorem EventLog.ofKind_append (log later : EventLog) (kind : EventKind) :
    EventLog.ofKind (log ++ later) kind = log.ofKind kind ++ later.ofKind kind :=
  List.filter_append ..

theorem EventLog.Routine.ofKind_eq_nil {log : EventLog} (h : log.Routine) :
    log.ofKind .error = [] ∧ log.ofKind .codeEmitted = [] := by
  constructor
  · exact List.filter_eq_nil_iff.2 fun e he => by simpa using (h e he).1
  · exact List.filter_eq_nil_iff.2 fun e he => by simpa using (h e he).2

namespace Pipeline

theorem mem_dropStores {stores : List (Node × String)} {m : Method} {e : Event}
    (he : e ∈ (Pass.dropStores m stores).2) :
    ∃ method n name, e = Pass.removalEvent method n name := by
  induction stores generalizing m with
  | nil => cases he
  | cons store rest ih =>
    dsimp only [Pass.dropStores] at he
    split at he
    · rcases List.mem_cons.1 he with rfl | he
      · exact ⟨_, _, _, rfl⟩
      · exact ih he
    · exact ih he

theorem routine_removeDeadStores (m : Method) : (Pass.removeDeadStores m).2.1.Routine := by
  intro e he
  obtain ⟨method, n, name, rfl⟩ := mem_dropStores he
  exact ⟨nofun, nofun⟩

theorem routine_runPasses (passes : List Pass) (m : Method) : (runPasses passes m).2.1.Routine := by
  induction passes generalizing m with
  | nil => exact nofun
  | cons p rest ih =>
    cases p
    intro e he
    rcases List.mem_append.1 he with he | he
    · rcases List.mem_cons.1 he with rfl | he
      · exact ⟨nofun, nofun⟩
      · exact routine_removeDeadStores m e he
    · rcases List.mem_cons.1 he with rfl | he
      · exact ⟨nofun, nofun⟩
      · exact ih _ e he

theorem routine_runRounds (passes : List Pass) (bound : Nat) {p : Progress}
    (h : p.events.Routine) : (runRounds passes bound p).events.Routine := by
  induction bound generalizing p with
  | zero => exact h
  | succ bound ih =>
    have hround := h.append (routine_runPasses passes p.method)
    unfold runRounds
    dsimp only
    split
    · exact hround
    · exact ih (hround.append (List.forall_mem_singleton.2 ⟨EventKind.noConfusion, EventKind.noConfusion⟩))

theorem routine_run (pipeline : Pipeline) (m : Method) : (pipeline.run m).events.Routine := by
  have hrounds : (optimize pipeline.passes m).events.Routine := routine_runRounds _ _ nofun
  unfold run
  dsimp only
  split
  · exact hrounds
  · split
    · exact hrounds
    · exact hrounds.append (List.forall_mem_singleton.2 ⟨nofun, nofun⟩)

end Pipeline

namespace Compiler

open ClassUnit

variable {s : Settings} {c : Compiler} {u : ClassUnit} {m : Method} {fault : Fault}

def failure (method : String) (fault : Fault) : Event :=
  (Event.of .error).inMethod method |>.saying fault.message

theorem routine_prepare (s : Settings) (m : Method) : (prepare s m).events.Routine := by
  unfold prepare
  split
  · exact nofun
  · next m' _ =>
    dsimp only
    split <;> exact Pipeline.routine_run _ m'

theorem ofKind_prepareRecorded (s : Settings) (m : Method) :
    (prepareRecorded s m).events.ofKind .codeEmitted = [] ∧
      (prepareRecorded s m).events.ofKind .error =
        ((fault? (prepareRecorded s m)).map (failure m.name)).toList := by
  obtain ⟨herror, hemitted⟩ := (routine_prepare s m).ofKind_eq_nil
  unfold prepareRecorded
  split
  · exact ⟨rfl, rfl⟩
  · dsimp only
    split
    · next h => exact ⟨hemitted, by rw [fault?, h]; exact herror⟩
    · next fault h =>
      rw [EventLog.ofKind_append, EventLog.ofKind_append, herror, hemitted, fault?, h]
      exact ⟨rfl, rfl⟩

def preparationLog (s : Settings) (u : ClassUnit) : EventLog :=
  u.methods.flatMap fun m => (prepareRecorded s m).events

def failures (s : Settings) (u : ClassUnit) : EventLog :=
  u.compiled.filterMap fun m => (fault? (prepareRecorded s m)).map (failure m.name)

theorem ofKind_preparationLog (s : Settings) (u : ClassUnit) :
    (preparationLog s u).ofKind .codeEmitted = [] ∧
      (preparationLog s u).ofKind .error = failures s u := by
  unfold preparationLog failures compiled
  generalize u.methods = methods
  induction methods with
  | nil => exact ⟨rfl, rfl⟩
  | cons m rest ih =>
    obtain ⟨hemitted, herror⟩ := ofKind_prepareRecorded s m
    rw [List.flatMap_cons, EventLog.ofKind_append, EventLog.ofKind_append, hemitted, herror,
      ih.1, ih.2]
    refine ⟨rfl, ?_⟩
    cases hplain : m.isConstructor with
    | true => simp [hplain, fault?_constructor hplain]
    | false => cases hfault : fault? (prepareRecorded s m) <;> simp [hplain, hfault]

theorem events_of_fault
    (h : (u.compiled.findSome? fun m => fault? (prepareRecorded c.settings m)) = some fault) :
    (c.compile u).compiler.events = c.events ++ preparationLog c.settings u := by
  have hfind : (u.methods.map (prepareRecorded c.settings)).findSome? fault? = some fault := by
    rw [List.findSome?_map, ← h, ← findSome?_compiled]
    rfl
  unfold compile preparationLog
  dsimp only
  rw [hfind, List.flatMap_map]

theorem events_of_prepared
    (h : ∀ m ∈ u.compiled, (prepareRecorded c.settings m).outcome = .ok ()) :
    (c.compile u).compiler.events =
      c.events ++ (preparationLog c.settings u ++ (c.compile u).unit.listing.1) := by
  have hfind : (u.methods.map (prepareRecorded c.settings)).findSome? fault? = none := by
    have hnone : (u.compiled.findSome? fun m => fault? (prepareRecorded c.settings m)) = none :=
      List.findSome?_eq_none_iff.2 fun m hm => fault?_eq_none.2 (h m hm)
    rw [List.findSome?_map, ← hnone, ← findSome?_compiled]
    rfl
  unfold compile preparationLog
  dsimp only
  rw [hfind, List.flatMap_map, ← List.append_assoc]

structure Account (c : Compiler) (u : ClassUnit) (log : EventLog) : Prop where
  errors : log.ofKind .error = failures c.settings u
  compiled : ∀ text, (c.compile u).outcome = .ok text →
    failures c.settings u = [] ∧
      (log.ofKind .codeEmitted).map Event.method = u.compiled.map fun m => some m.name
  unprepared : ∀ first rest, failures c.settings u = first :: rest →
    log.ofKind .codeEmitted = [] ∧ ∃ m ∈ u.compiled, ∃ fault, first = failure m.name fault ∧
      (c.compile u).outcome = .error fault
  unlisted : ∀ fault, failures c.settings u = [] → (c.compile u).outcome = .error fault →
    ∃ before after, u.compiled = before ++ after ∧
      (log.ofKind .codeEmitted).map Event.method = before.map (fun m => some m.name) ∧
      (before = [] ∧ u.prologue = .error fault ∨ ∃ m ∈ after.head?,
        (prepareRecorded c.settings m).method.listing u.toClassHeader = .error fault)

theorem ofKind_of_emissions {log : EventLog} {l : List Method}
    (h : (log.map fun e => (e.kind, e.method)) = emissions l) :
    log.ofKind .error = [] ∧
      (log.ofKind .codeEmitted).map Event.method = l.map fun m => some m.name := by
  have hkind : ∀ e ∈ log, e.kind = .codeEmitted := by
    intro e he
    have hmem : (e.kind, e.method) ∈ emissions l := h ▸ List.mem_map_of_mem he
    obtain ⟨m, -, hm⟩ := List.mem_map.1 hmem
    exact (congrArg Prod.fst hm).symm
  have hall : log.ofKind .codeEmitted = log :=
    List.filter_eq_self.2 fun e he => decide_eq_true (hkind e he)
  have hmethods := congrArg (List.map Prod.snd) h
  rw [List.map_map, emissions, List.map_map] at hmethods
  refine ⟨List.filter_eq_nil_iff.2 fun e he => ?_, ?_⟩
  · rw [hkind e he]
    decide
  · rw [hall]
    exact hmethods

theorem failures_eq_nil_iff :
    failures s u = [] ↔ ∀ m ∈ u.compiled, (prepareRecorded s m).outcome = .ok () := by
  simp only [failures, List.filterMap_eq_nil_iff, Option.map_eq_none_iff, fault?_eq_none]

theorem first_of_failures {first : Event} {rest : List Event} (h : failures s u = first :: rest) :
    ∃ m ∈ u.compiled, ∃ fault, first = failure m.name fault ∧
      (u.compiled.findSome? fun m => fault? (prepareRecorded s m)) = some fault := by
  have hhead : (failures s u).head? = some first := by rw [h]; rfl
  rw [failures, List.head?_filterMap] at hhead
  obtain ⟨before, m, after, hsplit, hm, hbefore⟩ := List.findSome?_eq_some_iff.1 hhead
  obtain ⟨fault, hfault, rfl⟩ := Option.map_eq_some_iff.1 hm
  refine ⟨m, hsplit ▸ List.mem_append_right _ List.mem_cons_self, fault, rfl, ?_⟩
  exact List.findSome?_eq_some_iff.2 ⟨before, m, after, hsplit, hfault,
    fun m' hm' => Option.map_eq_none_iff.1 (hbefore m' hm')⟩

theorem emissions_prepared (s : Settings) (l : List Method) :
    emissions (l.map fun m => (prepareRecorded s m).method) = emissions l := by
  unfold emissions
  rw [List.map_map]
  refine List.map_congr_left fun m _ => ?_
  rw [Function.comp_apply, toSignature_prepareRecorded]

theorem account_of_unprepared {first : Event} {rest : List Event}
    (h : failures c.settings u = first :: rest) :
    Account c u (preparationLog c.settings u) := by
  obtain ⟨hemitted, herrors⟩ := ofKind_preparationLog c.settings u
  obtain ⟨m, hm, fault, hfirst, hphase⟩ := first_of_failures h
  have houtcome := outcome_of_fault hphase
  refine ⟨herrors, fun text htext => ?_, fun first' rest' h' => ?_, fun fault' hnone => ?_⟩
  · rw [houtcome] at htext
    cases htext
  · rw [h] at h'
    cases h'
    exact ⟨hemitted, m, hm, fault, hfirst, houtcome⟩
  · rw [h] at hnone
    cases hnone

theorem listing_prepared (h : failures c.settings u = []) :
    ((c.compile u).unit.listing.1.ofKind .error = []) ∧
      ((∃ text, (c.compile u).outcome = .ok text) ∧
          ((c.compile u).unit.listing.1.ofKind .codeEmitted).map Event.method =
            u.compiled.map (fun m => some m.name) ∨
        ∃ fault before after, (c.compile u).outcome = .error fault ∧ u.compiled = before ++ after ∧
          ((c.compile u).unit.listing.1.ofKind .codeEmitted).map Event.method =
            before.map (fun m => some m.name) ∧
          (before = [] ∧ u.prologue = .error fault ∨ ∃ m ∈ after.head?,
            (prepareRecorded c.settings m).method.listing u.toClassHeader = .error fault)) := by
  rw [outcome_of_prepared (failures_eq_nil_iff.1 h)]
  have hprologue := compile_prologue c u
  cases hfront : u.prologue with
  | error fault =>
    rw [hfront] at hprologue
    rw [listing, hprologue]
    exact ⟨rfl, .inr ⟨fault, [], u.compiled, rfl, rfl, rfl, .inl ⟨rfl, rfl⟩⟩⟩
  | ok front =>
    rw [hfront] at hprologue
    rw [listing_of_prologue hprologue, compiled_compile, toClassHeader_compile]
    rcases methodListings_spec u.toClassHeader
        (u.compiled.map fun m => (prepareRecorded c.settings m).method) with
      ⟨⟨text, hall⟩, -, hevents⟩ | ⟨before, m, after, fault, hl, -, hm, hfault, hevents⟩
    · rw [emissions_prepared] at hevents
      obtain ⟨herrors, hmethods⟩ := ofKind_of_emissions hevents
      rw [hall]
      exact ⟨herrors, .inl ⟨⟨_, rfl⟩, hmethods⟩⟩
    · obtain ⟨before, rest, hsplit, rfl, hrest⟩ := List.map_eq_append_iff.1 hl
      obtain ⟨m, after, rfl, rfl, -⟩ := List.map_eq_cons_iff.1 hrest
      rw [emissions_prepared] at hevents
      obtain ⟨herrors, hmethods⟩ := ofKind_of_emissions hevents
      rw [hfault]
      exact ⟨herrors, .inr ⟨fault, before, m :: after, rfl, hsplit, hmethods, .inr ⟨m, rfl, hm⟩⟩⟩

theorem account_of_prepared (h : failures c.settings u = []) :
    Account c u (preparationLog c.settings u ++ (c.compile u).unit.listing.1) := by
  obtain ⟨hemitted, herrors⟩ := ofKind_preparationLog c.settings u
  obtain ⟨hnone, hlisting⟩ := listing_prepared h
  refine ⟨?_, fun text htext => ⟨h, ?_⟩, fun first rest h' => ?_, fun fault _ hfault => ?_⟩
  · rw [EventLog.ofKind_append, herrors, hnone, List.append_nil]
  · rw [EventLog.ofKind_append, hemitted, List.nil_append]
    rcases hlisting with ⟨-, hmethods⟩ | ⟨fault, -, -, hfault, -⟩
    · exact hmethods
    · rw [htext] at hfault
      cases hfault
  · rw [h] at h'
    cases h'
  · rw [EventLog.ofKind_append, hemitted, List.nil_append]
    rcases hlisting with ⟨⟨text, htext⟩, -⟩ | ⟨fault', before, after, hfault', hrest⟩
    · rw [htext] at hfault
      cases hfault
    · rw [hfault'] at hfault
      cases hfault
      exact ⟨before, after, hrest⟩

theorem events_tell_outcome (c : Compiler) (u : ClassUnit) :
    ∃ log, (c.compile u).compiler.events = c.events ++ log ∧ Account c u log := by
  cases h : failures c.settings u with
  | nil => exact ⟨_, events_of_prepared (failures_eq_nil_iff.1 h), account_of_prepared h⟩
  | cons first rest =>
    obtain ⟨-, -, fault, -, hphase⟩ := first_of_failures h
    exact ⟨_, events_of_fault hphase, account_of_unprepared h⟩

theorem events_tell_crowd :
    ∃ log, (strict.compile failingUnit).compiler.events = log ∧
      log.ofKind .error = [failure "crowd" (.registerCapacity "crowd" 2 1)] ∧
      log.ofKind .codeEmitted = [] := by
  have hfailures : failures strict.settings failingUnit =
      [failure "crowd" (.registerCapacity "crowd" 2 1)] := by decide +kernel
  obtain ⟨log, hevents, haccount⟩ := events_tell_outcome strict failingUnit
  exact ⟨log, hevents, haccount.errors.trans hfailures, (haccount.unprepared _ _ hfailures).1⟩

def restEntries : List Entry := [.instruction (.ret none)]

def rest : Method :=
  { name := "rest", isStatic := true
    code := (Method.codeOf restEntries).toArray
    body := [⟨2⟩]
    flow := ⟨#[⟨[⟨2⟩], []⟩, ⟨[], [⟨2⟩]⟩, ⟨[⟨1⟩], [⟨0⟩]⟩]⟩ }

theorem listing_failure_unrecorded :
    Method.build { name := "rest", isStatic := true } restEntries = .ok rest ∧
      Method.build { name := "misfit", isStatic := true } misfitEntries = .ok misfit ∧
      let compilation := ({} : Compiler).compile { name := "Mixed", methods := [rest, misfit] }
      compilation.outcome = .error (.unsupported (.assignmentTo (.literal 1 .int))) ∧
        compilation.compiler.events.ofKind .error = [] ∧
        (compilation.compiler.events.ofKind .codeEmitted).map Event.method = [some "rest"] := by
  decide +kernel

end Compiler

end ClassLowering
