import ClassLowering.Optimization
import ClassLowering.Proofs.Method.Table

namespace ClassLowering

namespace Pipeline

variable {P : Method → Prop}

theorem dropStores_fst (m : Method) (stores : List (Node × String)) :
    (Pass.dropStores m stores).1 = (stores.map Prod.fst).foldl Method.remove m := by
  induction stores generalizing m with
  | nil => rfl
  | cons store rest ih => exact ih (m.remove store.1)

theorem removeDeadStores_method (m : Method) :
    (Pass.removeDeadStores m).1 =
      ((m.deadStores (.compute m)).map Prod.fst).foldl Method.remove m :=
  dropStores_fst m _

theorem removeDeadStores_induction (hremove : ∀ m n, P m → P (m.remove n)) {m : Method}
    (hm : P m) : P (Pass.removeDeadStores m).1 := by
  rw [removeDeadStores_method]
  generalize (m.deadStores (.compute m)).map Prod.fst = nodes
  induction nodes generalizing m with
  | nil => exact hm
  | cons n rest ih => exact ih (hremove m n hm)

theorem runPasses_induction (hpass : ∀ m, P m → P (Pass.removeDeadStores m).1)
    (passes : List Pass) {m : Method} (hm : P m) : P (runPasses passes m).1 := by
  induction passes generalizing m with
  | nil => exact hm
  | cons p rest ih =>
    cases p
    exact ih (hpass m hm)

theorem runRounds_induction (hpass : ∀ m, P m → P (Pass.removeDeadStores m).1)
    (hrenumber : ∀ m, P m → P m.renumber) (passes : List Pass) (bound : Nat) {p : Progress}
    (hp : P p.method) : P (runRounds passes bound p).method := by
  induction bound generalizing p with
  | zero => exact hp
  | succ bound ih =>
    have hround := runPasses_induction hpass passes hp
    unfold runRounds
    dsimp only
    split
    · exact hround
    · exact ih (hrenumber _ hround)

theorem optimize_induction (hpass : ∀ m, P m → P (Pass.removeDeadStores m).1)
    (hrenumber : ∀ m, P m → P m.renumber) (passes : List Pass) {m : Method} (hm : P m) :
    P (optimize passes m).method :=
  runRounds_induction hpass hrenumber passes _ hm

theorem removeDeadStores_of_unchanged {m : Method} (h : (Pass.removeDeadStores m).2.2 = false) :
    (Pass.removeDeadStores m).1 = m := by
  have hnone : m.deadStores (.compute m) = [] := by
    simpa [Pass.removeDeadStores] using h
  rw [removeDeadStores_method, hnone]
  rfl

theorem runPasses_of_unchanged {passes : List Pass} {m : Method}
    (h : (runPasses passes m).2.2 = false) : (runPasses passes m).1 = m := by
  induction passes generalizing m with
  | nil => rfl
  | cons p rest ih =>
    cases p
    obtain ⟨hpass, hrest⟩ := Bool.or_eq_false_iff.1 h
    have hlast : (runPasses rest (Pass.removeDeadStores m).1).1 = (Pass.removeDeadStores m).1 :=
      ih hrest
    exact hlast.trans (removeDeadStores_of_unchanged hpass)

theorem body_foldl_remove (nodes : List Node) (m : Method) :
    (nodes.foldl Method.remove m).body = m.body.filter (· ∉ nodes) := by
  induction nodes generalizing m with
  | nil => simp
  | cons n rest ih =>
    rw [List.foldl_cons, ih, Method.body_remove, List.filter_filter]
    refine List.filter_congr fun x _ => ?_
    simp [Bool.and_comm]

theorem body_removeDeadStores (m : Method) :
    (Pass.removeDeadStores m).1.body =
      m.body.filter (· ∉ (m.deadStores (.compute m)).map Prod.fst) := by
  rw [removeDeadStores_method]
  exact body_foldl_remove _ m

theorem length_body_removeDeadStores {m : Method} (h : (Pass.removeDeadStores m).2.2 = true) :
    (Pass.removeDeadStores m).1.body.length < m.body.length := by
  have hsome : m.deadStores (.compute m) ≠ [] := by
    simpa [Pass.removeDeadStores] using h
  obtain ⟨e, he⟩ := List.exists_mem_of_ne_nil _ hsome
  obtain ⟨i, hi, -⟩ := Method.mem_deadStores.1 he
  have hbody : e.1 ∈ m.body := (Method.instruction?_eq_some.1 (Method.mem_instructions.1 hi)).1
  rw [body_removeDeadStores]
  refine List.length_filter_lt_length_iff_exists.2 ⟨e.1, hbody, ?_⟩
  simpa using ⟨e.2, he⟩

theorem length_body_runPasses {passes : List Pass} {m : Method}
    (h : (runPasses passes m).2.2 = true) :
    (runPasses passes m).1.body.length < m.body.length := by
  induction passes generalizing m with
  | nil => cases h
  | cons p rest ih =>
    cases p
    change (runPasses rest (Pass.removeDeadStores m).1).1.body.length < _
    cases hpass : (Pass.removeDeadStores m).2.2 with
    | false =>
      have hsame := removeDeadStores_of_unchanged hpass
      have hchanged : ((Pass.removeDeadStores m).2.2 ||
        (runPasses rest (Pass.removeDeadStores m).1).2.2) = true := h
      rw [hpass, Bool.false_or, hsame] at hchanged
      rw [hsame]
      exact ih hchanged
    | true =>
      have hshorter := length_body_removeDeadStores hpass
      cases hrest : (runPasses rest (Pass.removeDeadStores m).1).2.2 with
      | false => rwa [runPasses_of_unchanged hrest]
      | true => exact Nat.lt_trans (ih hrest) hshorter

theorem runRounds_of_unchanged {passes : List Pass} {p : Progress} {bound : Nat}
    (h : (runPasses passes p.method).2.2 = false) :
    (runRounds passes (bound + 1) p).method = p.method ∧
      (runRounds passes (bound + 1) p).rounds = p.rounds ∧
      (runRounds passes (bound + 1) p).removed = p.removed ∧
      (runRounds passes (bound + 1) p).events = p.events ++ (runPasses passes p.method).2.1 := by
  unfold runRounds
  dsimp only
  rw [h]
  exact ⟨runPasses_of_unchanged h, rfl, rfl, rfl⟩

theorem runRounds_of_changed {passes : List Pass} {p : Progress}
    (h : (runPasses passes p.method).2.2 = true) :
    ∃ compacted : Event, compacted.kind = .variablesCompacted ∧
      ∀ bound, runRounds passes (bound + 1) p = runRounds passes bound
        { method := (runPasses passes p.method).1.renumber
          events := p.events ++ (runPasses passes p.method).2.1 ++ [compacted]
          rounds := p.rounds + 1
          removed := p.removed +
            (p.method.body.length - (runPasses passes p.method).1.body.length) } := by
  refine ⟨((Event.of .variablesCompacted).inMethod ?_).saying ?_, rfl, fun bound => ?_⟩
  rotate_left 2
  · rw [runRounds]
    dsimp only
    rw [h]
    rfl

theorem optimize_renumbered (hrenumber : ∀ m : Method, P m.renumber) (passes : List Pass)
    {m : Method} (hm : P m) : P (optimize passes m).method := by
  have hrounds (bound : Nat) {p : Progress} (hp : P p.method) :
      P (runRounds passes bound p).method := by
    induction bound generalizing p with
    | zero => exact hp
    | succ bound ih =>
      cases hround : (runPasses passes p.method).2.2 with
      | false => rwa [(runRounds_of_unchanged hround).1]
      | true =>
        obtain ⟨compacted, -, hstep⟩ := runRounds_of_changed hround
        rw [hstep]
        exact ih (hrenumber _)
  exact hrounds _ hm

theorem runPasses_runRounds {passes : List Pass} {bound : Nat} {p : Progress}
    (h : p.method.body.length < bound) :
    (runPasses passes (runRounds passes bound p).method).2.2 = false := by
  induction bound generalizing p with
  | zero => cases h
  | succ bound ih =>
    cases hround : (runPasses passes p.method).2.2 with
    | false => rwa [(runRounds_of_unchanged hround).1]
    | true =>
      have hshorter := length_body_runPasses hround
      obtain ⟨compacted, -, hstep⟩ := runRounds_of_changed hround
      rw [hstep]
      exact ih (Nat.lt_of_lt_of_le hshorter (Nat.le_of_lt_succ h))

theorem runPasses_optimize (passes : List Pass) (m : Method) :
    (runPasses passes (optimize passes m).method).2.2 = false :=
  runPasses_runRounds (Nat.lt_succ_self _)

theorem length_body_runRounds (passes : List Pass) (bound : Nat) (p : Progress) :
    (runRounds passes bound p).method.body.length ≤ p.method.body.length := by
  induction bound generalizing p with
  | zero => exact Nat.le_refl _
  | succ bound ih =>
    cases hround : (runPasses passes p.method).2.2 with
    | false => exact Nat.le_of_eq (by rw [(runRounds_of_unchanged hround).1])
    | true =>
      obtain ⟨compacted, -, hstep⟩ := runRounds_of_changed hround
      rw [hstep]
      exact Nat.le_trans (ih _) (Nat.le_of_lt (length_body_runPasses hround))

theorem optimize_of_length_body {passes : List Pass} {m : Method}
    (h : (optimize passes m).method.body.length = m.body.length) :
    (optimize passes m).method = m := by
  cases hround : (runPasses passes m).2.2 with
  | false => exact (runRounds_of_unchanged (p := { method := m }) hround).1
  | true =>
    obtain ⟨compacted, -, hstep⟩ := runRounds_of_changed (p := { method := m }) hround
    have hshorter : (optimize passes m).method.body.length < m.body.length := by
      rw [optimize, hstep]
      exact Nat.lt_of_le_of_lt (length_body_runRounds ..) (length_body_runPasses hround)
    exact absurd h (Nat.ne_of_lt hshorter)

theorem optimize_nil (m : Method) : (optimize [] m).method = m :=
  (runRounds_of_unchanged (p := { method := m }) rfl).1

def finish (a : Allocation) (m : Method) : Method × Except Fault Unit :=
  if !a.isEnabled then (m, .ok ())
  else match m.allocate (.compute m) a.ceiling? with
    | .error fault => (m, .error fault)
    | .ok (m', _) => (m', .ok ())

theorem run_eq_finish (pipeline : Pipeline) (m : Method) :
    (pipeline.run m).method = (finish pipeline.allocation (optimize pipeline.passes m).method).1 ∧
      ((pipeline.run m).outcome.map fun _ => ()) =
        (finish pipeline.allocation (optimize pipeline.passes m).method).2 := by
  unfold run finish
  dsimp only
  split
  · exact ⟨rfl, rfl⟩
  · cases (optimize pipeline.passes m).method.allocate
      (.compute (optimize pipeline.passes m).method) pipeline.allocation.ceiling? with
    | error fault => exact ⟨rfl, rfl⟩
    | ok result => exact ⟨rfl, rfl⟩

theorem finish_retable (a : Allocation) (m : Method) :
    ∃ table, (finish a m).1 = { m with table } ∧ table.names = m.table.names := by
  unfold finish
  split
  · exact ⟨m.table, rfl, rfl⟩
  · split
    · exact ⟨m.table, rfl, rfl⟩
    · next m' k h =>
      obtain ⟨g, -, rfl⟩ := Method.allocate_eq_ok h
      exact ⟨_, rfl, by rw [VariableTable.names_setRegister, VariableTable.names_assign]⟩

theorem run_retable (pipeline : Pipeline) (m : Method) :
    ∃ table, (pipeline.run m).method = { (optimize pipeline.passes m).method with table } := by
  obtain ⟨table, hfinish, -⟩ :=
    finish_retable pipeline.allocation (optimize pipeline.passes m).method
  exact ⟨table, (run_eq_finish pipeline m).1.trans hfinish⟩

theorem run_of_disabled {pipeline : Pipeline} (h : pipeline.allocation = .disabled) (m : Method) :
    (pipeline.run m).method = (optimize pipeline.passes m).method ∧
      (pipeline.run m).outcome = .ok
        { rounds := (optimize pipeline.passes m).rounds
          removed := (optimize pipeline.passes m).removed } := by
  have hdisabled : (!pipeline.allocation.isEnabled) = true := by rw [h]; rfl
  unfold run
  dsimp only
  rw [if_pos hdisabled]
  exact ⟨rfl, rfl⟩

theorem method_of_run {pipeline : Pipeline} {m : Method} {summary : Summary}
    (h : (pipeline.run m).outcome = .ok summary) :
    (pipeline.run m).method = (optimize pipeline.passes m).method ∨
      ∃ k, (optimize pipeline.passes m).method.allocate
        (.compute (optimize pipeline.passes m).method) pipeline.allocation.ceiling? =
          .ok ((pipeline.run m).method, k) := by
  unfold run at h ⊢
  dsimp only at h ⊢
  split
  · exact .inl rfl
  · next henabled =>
    rw [if_neg henabled] at h
    split at h
    · cases h
    · next m' k ha => exact .inr ⟨k, ha⟩

end Pipeline

namespace Method

structure Reduct (m₀ m : Method) : Prop where
  well_formed : m.WellFormed
  tabled : m.Tabled
  signature_eq : m.toSignature = m₀.toSignature
  mentions_subset : ∀ v ∈ m.mentions.map Prod.fst, v ∈ m₀.mentions.map Prod.fst

variable {m₀ m : Method}

theorem Reduct.remove (h : Reduct m₀ m) (n : Node) : Reduct m₀ (m.remove n) :=
  ⟨h.well_formed.remove n, h.tabled.remove n, (m.toSignature_remove n).trans h.signature_eq,
    fun v hv => h.mentions_subset v (m.mentions_remove_subset n hv)⟩

theorem Reduct.renumber (h : Reduct m₀ m) : Reduct m₀ m.renumber :=
  ⟨h.well_formed.renumber, m.tabled_renumber, h.signature_eq, h.mentions_subset⟩

theorem Reduct.of_build {signature : Signature} {entries : List Entry}
    (h : build signature entries = .ok m) : Reduct m m :=
  ⟨(build_spec h).1, (tabled_of_build h).1, rfl, fun _ => id⟩

theorem Reduct.optimize (h : Reduct m₀ m) (passes : List Pass) :
    Reduct m₀ (Pipeline.optimize passes m).method := by
  refine Pipeline.optimize_induction (P := Reduct m₀) (fun m hm => ?_) (fun m hm => ?_) passes h
  · exact Pipeline.removeDeadStores_induction (fun m n hm => hm.remove n) hm
  · exact hm.renumber

end Method

end ClassLowering
