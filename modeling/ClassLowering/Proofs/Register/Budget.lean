import Mathlib.Data.List.Dedup
import ClassLowering.Proofs.Register.Allocation
import ClassLowering.Proofs.Rounds

namespace ClassLowering

namespace InterferenceGraph

variable {g g' : InterferenceGraph} {method : String}

theorem register?_lt_of_select {base limit : Nat} {order : List Nat}
    (ho : ∀ v ∈ order, v < g.locals.size) (hlt : ∀ v r, g.register? v = some r → r < limit)
    (h : select method base limit order g = (g', .ok ())) :
    ∀ v r, g'.register? v = some r → r < limit := by
  induction order generalizing g with
  | nil =>
    cases h
    exact hlt
  | cons v rest ih =>
    obtain ⟨hv, hrest⟩ := List.forall_mem_cons.1 ho
    unfold select at h
    dsimp only at h
    split at h
    · cases h
    · next hfree =>
      refine ih (fun w hw => ?_) (fun w r hr => ?_) h
      · rw [setRegister, size_locals_modify]
        exact hrest w hw
      · rw [register?_setRegister hv] at hr
        split at hr
        · cases hr
          exact Nat.not_le.1 hfree
        · exact hlt w r hr

theorem register?_lt_of_color {ceiling? : Option Nat} {k : Nat} (hs : g.Sound) (hg : g.Untouched)
    (h : g.color method ceiling? = (g', .ok k)) {v r : Nat} (hr : g'.register? v = some r) :
    r < g.parameters.length + k := by
  obtain ⟨rfl, hselect⟩ := color_eq_ok h
  have hshape := (simplify_of hg.isVisible_eq).shape
  refine register?_lt_of_select (fun w hw => ?_) (fun w r hw => ?_) hselect v r hr
  · have hlt := (mem_hidden_simplify hs hg.isVisible_eq).1 (List.mem_reverse.1 hw)
    exact hshape.size_eq.symm ▸ hlt
  · have hnone : g.simplify.graph.pinParameters.register? w = none :=
      (hshape.register?_eq w).trans (hg.register?_eq w)
    rw [hnone] at hw
    cases hw

theorem color_some (g : InterferenceGraph) (method : String) (ceiling : Nat) :
    g.color method (some ceiling) =
      if ceiling < g.simplify.budget then
        (g.simplify.graph, .error (.registerCapacity method g.simplify.budget ceiling))
      else g.color method none := by
  by_cases above : ceiling < g.simplify.budget
  · simp only [color, checkCeiling, if_pos above]
  · simp only [color, checkCeiling, if_neg above]

end InterferenceGraph

namespace Pipeline

variable (pipeline : Pipeline) {m m' : Method} {k : Nat} {fault : Fault}

theorem run_of_allocate (henabled : pipeline.allocation.isEnabled = true)
    (h : (optimize pipeline.passes m).method.allocate
      (.compute (optimize pipeline.passes m).method) pipeline.allocation.ceiling? = .ok (m', k)) :
    (run pipeline m).method = m' ∧
      (run pipeline m).outcome = .ok
        { rounds := (optimize pipeline.passes m).rounds
          removed := (optimize pipeline.passes m).removed
          registers := some k } := by
  simp only [run, henabled, h, Bool.not_true, Bool.false_eq_true, if_false, and_self]

theorem outcome_of_allocate_error (henabled : pipeline.allocation.isEnabled = true)
    (h : (optimize pipeline.passes m).method.allocate
      (.compute (optimize pipeline.passes m).method) pipeline.allocation.ceiling? = .error fault) :
    (run pipeline m).outcome = .error fault := by
  simp only [run, henabled, h, Bool.not_true, Bool.false_eq_true, if_false]

end Pipeline

namespace Method

open InterferenceGraph

variable {m m' : Method} {l : Liveness} {k : Nat}

def localRegisters (m : Method) : List Nat :=
  ((localNames m).filterMap m.table.register?).dedup

theorem localNames_assignRegisters (m : Method) (g : InterferenceGraph) :
    localNames (m.assignRegisters g) = localNames m := by
  unfold localNames assignRegisters
  rw [VariableTable.names_setRegister, VariableTable.names_assign]

theorem register?_of_allocate {ceiling? : Option Nat}
    (h : m.allocate l ceiling? = .ok (m', k)) {a : String} (ha : a ∈ localNames m') :
    ∃ r, m'.table.register? a = some r ∧ m'.firstLocal ≤ r ∧ r < m'.firstLocal + k := by
  obtain ⟨hs, hu, hn, hpar, -⟩ := ofMethod_spec m l
  obtain ⟨g, hc, rfl⟩ := allocate_eq_ok h
  obtain ⟨hproper, hgn, -, -, hall⟩ := color_spec hs hu hc
  rw [← size_locals_of_names hgn] at hall
  rw [localNames_assignRegisters] at ha
  obtain ⟨v, r, -, hr, hreg⟩ := register?_local (hgn.trans hn) hall ha
  have hlow := hproper.base_le v r hr
  have hhigh := register?_lt_of_color hs hu hc hr
  rw [hpar, length_parameters_vertices] at hlow hhigh
  exact ⟨r, hreg, hlow, hhigh⟩

theorem name_of_allocate {ceiling? : Option Nat} (h : m.allocate l ceiling? = .ok (m', k)) :
    m'.name = m.name := by
  obtain ⟨g, -, rfl⟩ := allocate_eq_ok h
  rfl

theorem length_localRegisters_le
    (h : ∀ a ∈ localNames m, ∃ r, m.table.register? a = some r ∧ m.firstLocal ≤ r ∧
      r < m.firstLocal + k) : m.localRegisters.length ≤ k := by
  have hsub : m.localRegisters ⊆ List.range' m.firstLocal k := by
    intro r hr
    obtain ⟨a, ha, har⟩ := List.mem_filterMap.1 (List.mem_dedup.1 hr)
    obtain ⟨s, hs, hlow, hhigh⟩ := h a ha
    obtain rfl : s = r := Option.some.inj (hs.symm.trans har)
    exact List.mem_range'_1.2 ⟨hlow, hhigh⟩
  have hnodup : m.localRegisters.Nodup := List.nodup_dedup _
  simpa using (List.subperm_of_subset hnodup hsub).length_le

theorem allocate_some (h : m.allocate l none = .ok (m', k)) (ceiling : Nat) :
    m.allocate l (some ceiling) =
      if ceiling < k then .error (.registerCapacity m.name k ceiling) else .ok (m', k) := by
  have hbudget : k = (ofMethod m l).simplify.budget := by
    obtain ⟨g, hc, -⟩ := allocate_eq_ok h
    exact (color_eq_ok hc).1
  subst hbudget
  rw [← h, allocate, allocate, color_some]
  by_cases above : ceiling < (ofMethod m l).simplify.budget
  · rw [if_pos above, if_pos above]
    rfl
  · rw [if_neg above, if_neg above]

def ringEntries : List Entry :=
  [.instruction (.assign (.var "a" .int) (.single (.literal 1 .int))),
    .instruction (.assign (.var "b" .int) (.single (.literal 2 .int))),
    .instruction (.binary .add (.var "a" .int) (.var "b" .int)),
    .instruction (.assign (.var "c" .int) (.single (.literal 3 .int))),
    .instruction (.binary .add (.var "b" .int) (.var "c" .int)),
    .instruction (.assign (.var "d" .int) (.single (.literal 4 .int))),
    .instruction (.binary .add (.var "c" .int) (.var "d" .int)),
    .instruction (.assign (.var "a" .int) (.single (.literal 5 .int))),
    .instruction (.binary .add (.var "d" .int) (.var "a" .int))]

def ringSignature : Signature := { name := "ring", isStatic := true }

def ring : Method :=
  { ringSignature with
    code := (codeOf ringEntries).toArray
    body := [⟨2⟩, ⟨3⟩, ⟨4⟩, ⟨5⟩, ⟨6⟩, ⟨7⟩, ⟨8⟩, ⟨9⟩, ⟨10⟩]
    table := { entries := [("a", ⟨.int, some 0⟩), ("b", ⟨.int, some 1⟩), ("c", ⟨.int, some 2⟩),
      ("d", ⟨.int, some 3⟩)] }
    flow := ⟨#[⟨[⟨2⟩], []⟩, ⟨[], [⟨10⟩]⟩, ⟨[⟨3⟩], [⟨0⟩]⟩, ⟨[⟨4⟩], [⟨2⟩]⟩, ⟨[⟨5⟩], [⟨3⟩]⟩,
      ⟨[⟨6⟩], [⟨4⟩]⟩, ⟨[⟨7⟩], [⟨5⟩]⟩, ⟨[⟨8⟩], [⟨6⟩]⟩, ⟨[⟨9⟩], [⟨7⟩]⟩, ⟨[⟨10⟩], [⟨8⟩]⟩,
      ⟨[⟨1⟩], [⟨9⟩]⟩]⟩ }

theorem reported_registers_bound (passes : List Pass) {s : Summary}
    (h : (Pipeline.run { passes, allocation := .minimal } m).outcome = .ok s) :
    let m' := (Pipeline.run { passes, allocation := .minimal } m).method
    ∃ k, s.registers = some k ∧ m'.localRegisters.length ≤ k ∧
      (∀ a ∈ localNames m', ∃ r, m'.table.register? a = some r ∧ m'.firstLocal ≤ r ∧
        r < m'.firstLocal + k) ∧
      ∀ n, (Pipeline.run { passes, allocation := .atMost n } m).outcome =
        if n < k then .error (.registerCapacity m'.name k n) else .ok s := by
  generalize ha : (Pipeline.optimize passes m).method.allocate
    (.compute (Pipeline.optimize passes m).method) none = allocated
  cases allocated with
  | error fault =>
    rw [Pipeline.outcome_of_allocate_error ⟨passes, .minimal⟩ rfl ha] at h
    cases h
  | ok result =>
    obtain ⟨m', k⟩ := result
    obtain ⟨hmethod, houtcome⟩ := Pipeline.run_of_allocate ⟨passes, .minimal⟩ rfl ha
    rw [houtcome] at h
    cases h
    rw [hmethod]
    have hwithin {a : String} (hl : a ∈ localNames m') := register?_of_allocate ha hl
    refine ⟨k, rfl, length_localRegisters_le fun a hl => hwithin hl, fun a hl => hwithin hl,
      fun n => ?_⟩
    have hceiling := allocate_some ha n
    rw [name_of_allocate ha]
    by_cases above : n < k
    · rw [if_pos above] at hceiling ⊢
      exact Pipeline.outcome_of_allocate_error ⟨passes, .atMost n⟩ rfl hceiling
    · rw [if_neg above] at hceiling ⊢
      exact (Pipeline.run_of_allocate ⟨passes, .atMost n⟩ rfl hceiling).2

theorem reported_registers_bound_ring :
    build ringSignature ringEntries = .ok ring ∧
      (Pipeline.run { allocation := .atMost 3 } ring).outcome =
        .ok { registers := some 3 } := by
  have hrun : (Pipeline.run { allocation := .minimal } ring).outcome =
      .ok { registers := some 3 } := by decide +kernel
  obtain ⟨k, hk, -, -, hceiling⟩ := reported_registers_bound (m := ring) [] hrun
  cases hk
  exact ⟨by decide +kernel, hceiling 3⟩

theorem reported_registers_ring :
    build ringSignature ringEntries = .ok ring ∧
      (Pipeline.run { allocation := .minimal } ring).outcome = .ok { registers := some 3 } ∧
      (Pipeline.run { allocation := .minimal } ring).method.localRegisters = [1, 0] ∧
      (Pipeline.run { allocation := .atMost 2 } ring).outcome =
        .error (.registerCapacity "ring" 3 2) := by
  decide +kernel

end Method

end ClassLowering
