import ClassLowering.Proofs.Compilation.Events
import ClassLowering.Proofs.Elimination.Confluence
import Mathlib.Data.List.Perm.Basic

namespace ClassLowering

def EventLog.removals (log : EventLog) : List (Option Nat) :=
  (log.ofKind .instructionRemoved).map Event.location

def Node.place (n : Node) : Option Nat := n.index

namespace EventLog

variable {log : EventLog} {e : Event}

theorem removals_append (log later : EventLog) :
    removals (log ++ later) = log.removals ++ later.removals := by
  unfold removals
  rw [ofKind_append, List.map_append]

theorem removals_cons (he : e.kind ≠ .instructionRemoved) : removals (e :: log) = log.removals := by
  unfold removals ofKind
  rw [List.filter_cons_of_neg (by simpa using he)]

theorem removals_concat (he : e.kind ≠ .instructionRemoved) :
    removals (log ++ [e]) = log.removals := by
  rw [removals_append, removals_cons he]
  exact List.append_nil _

theorem length_removals (log : EventLog) : log.removals.length = log.count .instructionRemoved :=
  List.length_map _

end EventLog

theorem Node.place_injective : Function.Injective Node.place := by
  rintro ⟨a⟩ ⟨b⟩ h
  exact congrArg Node.mk (Option.some.inj h)

namespace Method

structure NamesExactly (m : Method) : Prop where
  names_nodup : m.table.names.Nodup
  mem_names : ∀ v, v ∈ m.table.names ↔ m.isStatic = false ∧ v = "this" ∨
    v ∈ m.parameters.map Parameter.name ∨ v ∈ m.mentions.map Prod.fst

theorem namesExactly_renumber (m : Method) : m.renumber.NamesExactly :=
  ⟨m.renumber.table.names_nodup, fun _ => m.mem_names_renumber⟩

end Method

namespace Pipeline

open Method

variable {m : Method} {p : Progress} {passes : List Pass}

theorem removals_dropStores {stores : List (Node × String)} {m : Method}
    (hnodup : (stores.map Prod.fst).Nodup) (hbody : ∀ store ∈ stores, store.1 ∈ m.body) :
    (Pass.dropStores m stores).2.removals = (stores.map Prod.fst).map Node.place := by
  induction stores generalizing m with
  | nil => rfl
  | cons store rest ih =>
    obtain ⟨hnew, hnodup⟩ := List.nodup_cons.1 hnodup
    obtain ⟨hn, hrest⟩ := List.forall_mem_cons.1 hbody
    have hremoved : (m.removeInstruction store.1).1 = true := by
      rw [removeInstruction_fst, contains_iff]
      exact hn
    have hleft : ∀ later ∈ rest, later.1 ∈ (m.remove store.1).body := fun later hlater =>
      mem_body_remove.2 ⟨hrest later hlater, fun e => hnew (e ▸ List.mem_map_of_mem hlater)⟩
    have hlater := ih hnodup hleft
    dsimp only [Pass.dropStores]
    rw [if_pos hremoved]
    exact congrArg (store.1.place :: ·) hlater

theorem removals_removeDeadStores (hm : m.WellFormed) :
    (Pass.removeDeadStores m).2.1.removals = m.deadNodes.map Node.place :=
  removals_dropStores (deadNodes_nodup hm) fun _ hstore =>
    (deadNodes_sublist m).subset (List.mem_map_of_mem hstore)

theorem perm_removeDeadStores (hm : m.WellFormed) :
    (m.deadNodes ++ (Pass.removeDeadStores m).1.body).Perm m.body := by
  have hdead : m.deadNodes.Perm (m.body.filter (· ∈ m.deadNodes)) := by
    refine (List.perm_ext_iff_of_nodup (deadNodes_nodup hm) (hm.body_nodup.filter _)).2 fun n => ?_
    rw [List.mem_filter, decide_eq_true_eq]
    exact ⟨fun hn => ⟨(deadNodes_sublist _).subset hn, hn⟩, And.right⟩
  have hkept : (Pass.removeDeadStores m).1.body =
      m.body.filter fun n => !decide (n ∈ m.deadNodes) := by
    rw [body_removeDeadStores]
    exact List.filter_congr fun n _ => decide_not
  rw [hkept]
  exact (hdead.append_right _).trans (List.filter_append_perm _ m.body)

theorem perm_runPasses (passes : List Pass) (hm : m.WellFormed) :
    ((runPasses passes m).2.1.removals ++ (runPasses passes m).1.body.map Node.place).Perm
      (m.body.map Node.place) := by
  induction passes generalizing m with
  | nil => exact .refl _
  | cons pass rest ih =>
    cases pass
    have hrest := ih (removeDeadStores_induction (fun m n h => h.remove n) hm)
    have hpass := (perm_removeDeadStores hm).map Node.place
    rw [List.map_append, ← removals_removeDeadStores hm] at hpass
    have hevents : (runPasses (.deadStoreElimination :: rest) m).2.1.removals =
        (Pass.removeDeadStores m).2.1.removals ++
          (runPasses rest (Pass.removeDeadStores m).1).2.1.removals := by
      rw [runPasses, EventLog.removals_append, EventLog.removals_cons EventKind.noConfusion,
        EventLog.removals_cons EventKind.noConfusion]
      rfl
    rw [hevents, List.append_assoc]
    exact (hrest.append_left _).trans hpass

structure Ledger (m : Method) (p : Progress) : Prop where
  well_formed : p.method.WellFormed
  perm : (p.events.removals ++ p.method.body.map Node.place).Perm (m.body.map Node.place)
  removed_add : p.removed + p.method.body.length = m.body.length
  rounds_le : p.rounds ≤ p.removed

theorem Ledger.round (h : Ledger m p) (passes : List Pass) :
    (runPasses passes p.method).1.WellFormed ∧
      ((p.events ++ (runPasses passes p.method).2.1).removals ++
        (runPasses passes p.method).1.body.map Node.place).Perm (m.body.map Node.place) := by
  constructor
  · exact runPasses_induction (P := WellFormed)
      (fun m => removeDeadStores_induction fun m n h => h.remove n) passes h.well_formed
  · rw [EventLog.removals_append, List.append_assoc]
    exact ((perm_runPasses passes h.well_formed).append_left _).trans h.perm

theorem Ledger.runRounds (h : Ledger m p) (passes : List Pass) (bound : Nat) :
    Ledger m (runRounds passes bound p) := by
  induction bound generalizing p with
  | zero => exact h
  | succ bound ih =>
    obtain ⟨hwell, hperm⟩ := h.round passes
    cases hround : (runPasses passes p.method).2.2 with
    | false =>
      obtain ⟨hmethod, hrounds, hremoved, hevents⟩ := @runRounds_of_unchanged _ _ bound hround
      rw [runPasses_of_unchanged hround] at hperm
      constructor
      · rw [hmethod]
        exact h.well_formed
      · rw [hmethod, hevents]
        exact hperm
      · rw [hmethod, hremoved]
        exact h.removed_add
      · rw [hrounds, hremoved]
        exact h.rounds_le
    | true =>
      obtain ⟨compacted, hkind, hstep⟩ := runRounds_of_changed hround
      have hshorter := length_body_runPasses hround
      have hadd := h.removed_add
      rw [hstep]
      refine ih ⟨hwell.renumber, ?_, ?_, ?_⟩
      · rw [EventLog.removals_concat (by rw [hkind]; exact EventKind.noConfusion)]
        exact hperm
      · change _ + (_ - _) + (runPasses passes p.method).1.body.length = _
        omega
      · have hle := h.rounds_le
        dsimp only
        omega

theorem Ledger.of_build {signature : Signature} {entries : List Entry}
    (h : build signature entries = .ok m) : Ledger m { method := m } :=
  ⟨(build_spec h).1, .refl _, Nat.zero_add _, Nat.le_refl 0⟩

theorem Ledger.length_removals (h : Ledger m p) : p.events.removals.length = p.removed := by
  have hlength := h.perm.length_eq
  have hadd := h.removed_add
  simp only [List.length_append, List.length_map] at hlength
  omega

theorem Ledger.nodup (h : Ledger m p) (hm : m.body.Nodup) :
    (p.events.removals ++ p.method.body.map Node.place).Nodup :=
  h.perm.nodup_iff.2 (hm.map Node.place_injective)

theorem Ledger.mem_removals (h : Ledger m p) (hm : m.body.Nodup) {o : Option Nat} :
    o ∈ p.events.removals ↔ ∃ n ∈ m.body, n ∉ p.method.body ∧ o = n.place := by
  have hapart := List.disjoint_of_nodup_append (h.nodup hm)
  constructor
  · intro ho
    have hmem := h.perm.subset (List.mem_append_left _ ho)
    obtain ⟨n, hn, rfl⟩ := List.mem_map.1 hmem
    exact ⟨n, hn, fun hleft => hapart ho (List.mem_map_of_mem hleft), rfl⟩
  · rintro ⟨n, hn, hgone, rfl⟩
    have hmem := h.perm.symm.subset (List.mem_map_of_mem hn)
    refine (List.mem_append.1 hmem).resolve_right fun hleft => hgone ?_
    exact (List.mem_map_of_injective Node.place_injective).1 hleft

theorem runRounds_add {bound : Nat} (h : p.method.body.length < bound) (more : Nat) :
    Pipeline.runRounds passes (bound + more) p = Pipeline.runRounds passes bound p := by
  induction bound generalizing p with
  | zero => cases h
  | succ bound ih =>
    rw [Nat.succ_add]
    cases hround : (runPasses passes p.method).2.2 with
    | false => simp [Pipeline.runRounds, hround]
    | true =>
      obtain ⟨compacted, -, hstep⟩ := runRounds_of_changed hround
      rw [hstep, hstep]
      exact ih (Nat.lt_of_lt_of_le (length_body_runPasses hround) (Nat.le_of_lt_succ h))

theorem namesExactly_optimize {signature : Signature} {entries : List Entry}
    (hbuild : build signature entries = .ok m) (passes : List Pass) :
    (optimize passes m).method.NamesExactly := by
  refine optimize_renumbered namesExactly_renumber passes ?_
  obtain ⟨g, -, rfl⟩ := build_eq_ok hbuild
  exact namesExactly_renumber _

structure Account (m : Method) (r : Report Summary) (s : Summary) : Prop where
  outcome : r.outcome = .ok s
  rounds_le : s.rounds ≤ m.body.length
  none_dead : r.method.deadStores (.compute r.method) = []
  removed_add : s.removed + r.method.body.length = m.body.length
  count_removed : r.events.count .instructionRemoved = s.removed
  removals_nodup : r.events.removals.Nodup
  mem_removals : ∀ o, o ∈ r.events.removals ↔ ∃ n ∈ m.body, n ∉ r.method.body ∧ o = n.place
  signature_eq : r.method.toSignature = m.toSignature
  names_exactly : r.method.NamesExactly

theorem optimization_accounts {signature : Signature} {entries : List Entry}
    (hbuild : build signature entries = .ok m) (hpasses : passes ≠ []) :
    (∀ bound, m.body.length < bound →
      Pipeline.runRounds passes bound { method := m } = optimize passes m) ∧
    ∃ s, Account m (run { passes } m) s := by
  have hbody : m.body.Nodup := (build_spec hbuild).1.body_nodup
  have hledger : Ledger m (optimize passes m) := (Ledger.of_build hbuild).runRounds passes _
  refine ⟨fun bound hbound => ?_,
    { rounds := (optimize passes m).rounds, removed := (optimize passes m).removed }, ?_⟩
  · obtain ⟨more, rfl⟩ := Nat.exists_eq_add_of_le hbound
    exact runRounds_add (p := { method := m }) (Nat.lt_succ_self _) more
  · exact {
      outcome := rfl
      rounds_le := hledger.rounds_le.trans (Nat.le.intro hledger.removed_add)
      none_dead := List.map_eq_nil_iff.1 (deadNodes_optimize hpasses m)
      removed_add := hledger.removed_add
      count_removed := (EventLog.length_removals _).symm.trans hledger.length_removals
      removals_nodup := (hledger.nodup hbody).of_append_left
      mem_removals := fun _ => hledger.mem_removals hbody
      signature_eq := ((Reduct.of_build hbuild).optimize passes).signature_eq
      names_exactly := namesExactly_optimize hbuild passes }

theorem optimization_accounts_detour :
    let r := run { passes := [.deadStoreElimination, .deadStoreElimination] } detour
    build countdownSignature detourEntries = .ok detour ∧
      r.outcome = .ok { rounds := 1, removed := 4 } ∧
      r.events.removals = [some 3, some 7, some 8, some 2] ∧
      Account detour r { rounds := 1, removed := 4 } := by
  have hbuild : build countdownSignature detourEntries = .ok detour := by decide +kernel
  obtain ⟨-, s, haccount⟩ := optimization_accounts hbuild
    (List.cons_ne_nil Pass.deadStoreElimination [.deadStoreElimination])
  have houtcome :
      (run { passes := [.deadStoreElimination, .deadStoreElimination] } detour).outcome =
        .ok { rounds := 1, removed := 4 } := by decide +kernel
  have hs : s = { rounds := 1, removed := 4 } :=
    Except.ok.inj (haccount.outcome.symm.trans houtcome)
  rw [hs] at haccount
  exact ⟨hbuild, houtcome, by decide +kernel, haccount⟩

end Pipeline

end ClassLowering
