import ClassLowering.Proofs.Compilation.Repetition

namespace ClassLowering

namespace ClassUnit

def only (u : ClassUnit) (m : Method) : ClassUnit := { u with methods := [m] }

def Lists (header : ClassHeader) (m : Method) : Prop := ∃ text, m.listing header = .ok text

def emissions (methods : List Method) : List (EventKind × Option String) :=
  methods.map fun m => (.codeEmitted, some m.name)

theorem methodListings_spec (header : ClassHeader) (l : List Method) :
    ((∃ text, (methodListings header l).2 = .ok text) ∧ (∀ m ∈ l, Lists header m) ∧
        ((methodListings header l).1.map fun e => (e.kind, e.method)) = emissions l) ∨
      ∃ before m after fault, l = before ++ m :: after ∧ (∀ m' ∈ before, Lists header m') ∧
        m.listing header = .error fault ∧ (methodListings header l).2 = .error fault ∧
        ((methodListings header l).1.map fun e => (e.kind, e.method)) = emissions before := by
  induction l with
  | nil => exact .inl ⟨⟨_, rfl⟩, nofun, rfl⟩
  | cons first rest ih =>
    unfold methodListings
    cases hfirst : first.listing header with
    | error fault => exact .inr ⟨[], first, rest, fault, rfl, nofun, hfirst, rfl, rfl⟩
    | ok text =>
      dsimp only
      rcases ih with ⟨⟨others, hothers⟩, hall, hevents⟩ | ⟨before, m, after, fault, hl, hall, hm,
        hothers, hevents⟩
      · left
        rw [hothers, List.map_cons, hevents]
        exact ⟨⟨_, rfl⟩, List.forall_mem_cons.2 ⟨⟨text, hfirst⟩, hall⟩, rfl⟩
      · right
        refine ⟨first :: before, m, after, fault, by rw [hl]; rfl,
          List.forall_mem_cons.2 ⟨⟨text, hfirst⟩, hall⟩, hm, ?_, ?_⟩
        · rw [hothers]
          rfl
        · rw [List.map_cons, hevents]
          rfl

theorem exists_prologue {u : ClassUnit}
    (h : ∀ f ∈ u.fields, ∃ d, u.toClassHeader.descriptor f.ty = .ok d) :
    ∃ text, u.prologue = .ok text := by
  have hlistings : ∃ texts, (u.fields.mapM fun f => f.listing u.toClassHeader) = .ok texts := by
    generalize u.fields = fields at h
    induction fields with
    | nil => exact ⟨[], rfl⟩
    | cons f rest ih =>
      obtain ⟨⟨d, hd⟩, hrest⟩ := List.forall_mem_cons.1 h
      obtain ⟨texts, htexts⟩ := ih hrest
      rw [List.mapM_cons, htexts, Field.listing, hd]
      exact ⟨_, rfl⟩
  obtain ⟨texts, htexts⟩ := hlistings
  rw [prologue, htexts]
  exact ⟨_, rfl⟩

theorem listing_of_prologue {u : ClassUnit} {text : String} (h : u.prologue = .ok text) :
    u.listing = ((methodListings u.toClassHeader u.compiled).1,
      (methodListings u.toClassHeader u.compiled).2.map fun methods => text ++ methods) := by
  rw [listing, h]

end ClassUnit

namespace Compiler

open ClassUnit

variable {s : Settings} {c : Compiler} {u : ClassUnit} {m : Method} {fault : Fault}

theorem toSignature_prepareRecorded (s : Settings) (m : Method) :
    (prepareRecorded s m).method.toSignature = m.toSignature := by
  cases hplain : m.isConstructor with
  | true => rw [prepareRecorded_constructor hplain]
  | false =>
    cases hflow : m.bodyFlow with
    | error defect =>
      have hrebuild : m.rebuildFlow = .error defect := by
        rw [Method.rebuildFlow, hflow]
        rfl
      unfold prepareRecorded prepare
      rw [if_neg (by simp [hplain]), hrebuild]
    | ok g =>
      have hrebuild : m.rebuildFlow = .ok { m with flow := g } := by
        rw [Method.rebuildFlow, hflow]
        rfl
      rw [(prepareRecorded_spec hplain hrebuild).1, Pipeline.toSignature_run]

theorem isConstructor_prepareRecorded (s : Settings) (m : Method) :
    (prepareRecorded s m).method.isConstructor = m.isConstructor :=
  congrArg Signature.isConstructor (toSignature_prepareRecorded s m)

theorem compiled_compile (c : Compiler) (u : ClassUnit) :
    (c.compile u).unit.compiled =
      u.compiled.map fun m => (prepareRecorded c.settings m).method := by
  rw [unit_compile]
  unfold ClassUnit.compiled
  rw [List.filter_map]
  refine congrArg (List.map _) (List.filter_congr fun m _ => ?_)
  simp only [Function.comp_apply, isConstructor_prepareRecorded]

theorem fault?_eq_some {r : Report Unit} : fault? r = some fault ↔ r.outcome = .error fault := by
  unfold fault?
  cases r.outcome <;> simp

theorem fault?_constructor (h : m.isConstructor = true) : fault? (prepareRecorded s m) = none := by
  rw [prepareRecorded_constructor h]
  rfl

theorem mem_compiled : m ∈ u.compiled ↔ m ∈ u.methods ∧ m.isConstructor = false := by
  rw [compiled, List.mem_filter, Bool.not_eq_true']

theorem findSome?_compiled (s : Settings) (u : ClassUnit) :
    (u.methods.findSome? fun m => fault? (prepareRecorded s m)) =
      u.compiled.findSome? fun m => fault? (prepareRecorded s m) := by
  unfold compiled
  generalize u.methods = methods
  induction methods with
  | nil => rfl
  | cons m rest ih =>
    cases hplain : m.isConstructor with
    | true => simp [hplain, fault?_constructor hplain, ih]
    | false => simp only [hplain, Bool.not_false, List.filter_cons_of_pos, List.findSome?_cons, ih]

theorem outcome_of_fault
    (h : (u.compiled.findSome? fun m => fault? (prepareRecorded c.settings m)) = some fault) :
    (c.compile u).outcome = .error fault := by
  rw [outcome_compile, findSome?_compiled, h]

theorem outcome_of_prepared
    (h : ∀ m ∈ u.compiled, (prepareRecorded c.settings m).outcome = .ok ()) :
    (c.compile u).outcome = (c.compile u).unit.listing.2 := by
  have hnone : (u.compiled.findSome? fun m => fault? (prepareRecorded c.settings m)) = none :=
    List.findSome?_eq_none_iff.2 fun m hm => fault?_eq_none.2 (h m hm)
  rw [outcome_compile, findSome?_compiled, hnone]

theorem compile_prologue (c : Compiler) (u : ClassUnit) : (c.compile u).unit.prologue = u.prologue := by
  rw [unit_compile]
  rfl

theorem toClassHeader_compile (c : Compiler) (u : ClassUnit) :
    (c.compile u).unit.toClassHeader = u.toClassHeader := by
  rw [unit_compile]

theorem compiled_only (hm : m.isConstructor = false) : (u.only m).compiled = [m] := by
  simp [compiled, only, hm]

theorem only_of_fault (hm : m.isConstructor = false)
    (h : (prepareRecorded c.settings m).outcome = .error fault) :
    (c.compile (u.only m)).outcome = .error fault := by
  refine outcome_of_fault ?_
  rw [compiled_only hm, List.findSome?_cons, fault?_eq_some.2 h]

theorem outcome_only_of_prepared {front : String} (hm : m.isConstructor = false)
    (hfront : u.prologue = .ok front) (h : (prepareRecorded c.settings m).outcome = .ok ()) :
    (c.compile (u.only m)).outcome =
      ((prepareRecorded c.settings m).method.listing u.toClassHeader).map
        fun text => front ++ ("\n" ++ text ++ "") := by
  have hprepared : ∀ m' ∈ (u.only m).compiled,
      (prepareRecorded c.settings m').outcome = .ok () := by
    rw [compiled_only hm]
    exact List.forall_mem_singleton.2 h
  have hfront' : (c.compile (u.only m)).unit.prologue = .ok front :=
    (compile_prologue c (u.only m)).trans hfront
  have hheader : (c.compile (u.only m)).unit.toClassHeader = u.toClassHeader :=
    toClassHeader_compile c (u.only m)
  rw [outcome_of_prepared hprepared, listing_of_prologue hfront', compiled_compile,
    compiled_only hm, hheader, List.map_singleton, methodListings]
  cases (prepareRecorded c.settings m).method.listing u.toClassHeader <;> rfl

theorem first_failure_reported
    (hfields : ∀ f ∈ u.fields, ∃ descriptor, u.toClassHeader.descriptor f.ty = .ok descriptor)
    (h : (c.compile u).outcome = .error fault) :
    ∃ before m after, u.compiled = before ++ m :: after ∧
      (c.compile (u.only m)).outcome = .error fault ∧
      ∀ m' ∈ before, (∃ text, (c.compile (u.only m')).outcome = .ok text) ∨
        (prepareRecorded c.settings m).outcome = .error fault ∧
          (prepareRecorded c.settings m').outcome = .ok () := by
  obtain ⟨front, hfront⟩ := exists_prologue hfields
  have hplain {l r : List Method} {m : Method} (hsplit : u.compiled = l ++ m :: r) :
      m.isConstructor = false := (mem_compiled.1 (hsplit ▸ List.mem_append_right l List.mem_cons_self)).2
  cases hphase : u.compiled.findSome? fun m => fault? (prepareRecorded c.settings m) with
  | some first =>
    rw [outcome_of_fault hphase] at h
    cases h
    obtain ⟨before, m, after, hsplit, hm, hbefore⟩ := List.findSome?_eq_some_iff.1 hphase
    have hfault := fault?_eq_some.1 hm
    exact ⟨before, m, after, hsplit, only_of_fault (hplain hsplit) hfault,
      fun m' hm' => .inr ⟨hfault, fault?_eq_none.1 (hbefore m' hm')⟩⟩
  | none =>
    have hprepared : ∀ m ∈ u.compiled, (prepareRecorded c.settings m).outcome = .ok () :=
      fun m hm => fault?_eq_none.1 (List.findSome?_eq_none_iff.1 hphase m hm)
    rw [outcome_of_prepared hprepared,
      listing_of_prologue ((compile_prologue c u).trans hfront), compiled_compile,
      toClassHeader_compile] at h
    rcases methodListings_spec u.toClassHeader
        (u.compiled.map fun m => (prepareRecorded c.settings m).method) with
      ⟨⟨text, hall⟩, -⟩ | ⟨before, m, after, fault', hl, hbefore, hm, hfault, -⟩
    · rw [hall] at h
      cases h
    · rw [hfault] at h
      cases h
      obtain ⟨before, rest, hsplit, rfl, hrest⟩ := List.map_eq_append_iff.1 hl
      obtain ⟨m, after, rfl, rfl, -⟩ := List.map_eq_cons_iff.1 hrest
      have hmem := hsplit ▸ List.mem_append_right before (List.mem_cons_self (a := m) (l := after))
      refine ⟨before, m, after, hsplit, ?_, fun m' hm' => .inl ?_⟩
      · rw [outcome_only_of_prepared (hplain hsplit) hfront (hprepared m hmem), hm]
        rfl
      · have hmem' : m' ∈ u.compiled := hsplit ▸ List.mem_append_left _ hm'
        obtain ⟨text, htext⟩ := hbefore _ (List.mem_map_of_mem hm')
        rw [outcome_only_of_prepared (mem_compiled.1 hmem').2 hfront (hprepared m' hmem'), htext]
        exact ⟨_, rfl⟩

def misfitEntries : List Entry :=
  [.instruction (.assign (.literal 1 .int) (.single (.literal 2 .int)))]

def misfit : Method :=
  { name := "misfit", isStatic := true
    code := (Method.codeOf misfitEntries).toArray
    body := [⟨2⟩]
    flow := ⟨#[⟨[⟨2⟩], []⟩, ⟨[], [⟨2⟩]⟩, ⟨[⟨1⟩], [⟨0⟩]⟩]⟩ }

def crowdEntries : List Entry :=
  [.instruction (.assign (.var "x" .int) (.single (.literal 1 .int))),
    .instruction (.assign (.var "y" .int) (.single (.literal 2 .int))),
    .instruction (.binary .add (.var "x" .int) (.var "y" .int))]

def crowd : Method :=
  { name := "crowd", isStatic := true
    code := (Method.codeOf crowdEntries).toArray
    body := [⟨2⟩, ⟨3⟩, ⟨4⟩]
    table := (VariableTable.empty.insert "x" ⟨.int, some 0⟩).insert "y" ⟨.int, some 1⟩
    flow := ⟨#[⟨[⟨2⟩], []⟩, ⟨[], [⟨4⟩]⟩, ⟨[⟨3⟩], [⟨0⟩]⟩, ⟨[⟨4⟩], [⟨2⟩]⟩, ⟨[⟨1⟩], [⟨3⟩]⟩]⟩ }

def failingUnit : ClassUnit where
  name := "Failing"
  fields := [{ name := "count", ty := .int }]
  methods := [misfit, crowd]

def strict : Compiler := { settings := { allocation := .atMost 1 } }

theorem first_failure_misfit :
    (({} : Compiler).compile failingUnit).outcome =
        .error (.unsupported (.assignmentTo (.literal 1 .int))) ∧
      ∃ before m after, failingUnit.compiled = before ++ m :: after ∧
        (({} : Compiler).compile (failingUnit.only m)).outcome =
          .error (.unsupported (.assignmentTo (.literal 1 .int))) ∧
        ∀ m' ∈ before, (∃ text, (({} : Compiler).compile (failingUnit.only m')).outcome = .ok text) ∨
          (prepareRecorded {} m).outcome =
              .error (.unsupported (.assignmentTo (.literal 1 .int))) ∧
            (prepareRecorded {} m').outcome = .ok () := by
  have h : (({} : Compiler).compile failingUnit).outcome =
      .error (.unsupported (.assignmentTo (.literal 1 .int))) := by decide +kernel
  have hfields : ∀ f ∈ failingUnit.fields,
      ∃ descriptor, failingUnit.toClassHeader.descriptor f.ty = .ok descriptor :=
    List.forall_mem_singleton.2 ⟨"I", rfl⟩
  exact ⟨h, first_failure_reported hfields h⟩

theorem later_failure_reported :
    Method.build { name := "misfit", isStatic := true } misfitEntries = .ok misfit ∧
      Method.build { name := "crowd", isStatic := true } crowdEntries = .ok crowd ∧
      (strict.compile (failingUnit.only misfit)).outcome =
        .error (.unsupported (.assignmentTo (.literal 1 .int))) ∧
      (strict.compile failingUnit).outcome = .error (.registerCapacity "crowd" 2 1) := by
  decide +kernel

end Compiler

end ClassLowering
