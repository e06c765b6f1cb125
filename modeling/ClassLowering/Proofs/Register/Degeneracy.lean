import Mathlib.Data.Finset.Lattice.Fold
import Mathlib.Data.Finset.Powerset
import Mathlib.Order.Lattice.Nat
import ClassLowering.Proofs.Register.Drawing

namespace ClassLowering

namespace InterferenceGraph

variable {g g' : InterferenceGraph} {method : String} {ceiling? : Option Nat}

def degreeIn (g : InterferenceGraph) (set : Finset Nat) (v : Nat) : Nat :=
  (g.neighbours v).countP (· ∈ set)

def minDegree (g : InterferenceGraph) (set : Finset Nat) : Nat :=
  if h : set.Nonempty then set.inf' h (g.degreeIn set) else 0

def degeneracy (g : InterferenceGraph) : Nat :=
  ((Finset.range g.locals.size).powerset.filter Finset.Nonempty).sup g.minDegree

theorem minDegree_of_nonempty {set : Finset Nat} (h : set.Nonempty) :
    g.minDegree set = set.inf' h (g.degreeIn set) := dif_pos h

theorem dense_minDegree {set : Finset Nat} (hset : set ⊆ Finset.range g.locals.size)
    (hne : set.Nonempty) : g.Dense (· ∈ set) (g.minDegree set) := by
  refine ⟨?_, fun v hv => ?_, fun v hv => ?_⟩
  · obtain ⟨v, hv⟩ := hne
    exact ⟨v, decide_eq_true hv⟩
  · exact Finset.mem_range.1 (hset (of_decide_eq_true hv))
  · rw [minDegree_of_nonempty hne]
    exact Finset.inf'_le _ (of_decide_eq_true hv)

theorem le_degeneracy_of_dense {set : Nat → Bool} {d : Nat} (h : g.Dense set d) :
    d ≤ g.degeneracy := by
  let members := (Finset.range g.locals.size).filter fun v => set v = true
  have hmem (v : Nat) : v ∈ members ↔ set v = true := by
    rw [Finset.mem_filter, Finset.mem_range, and_iff_right_iff_imp]
    exact h.lt_size v
  have hne : members.Nonempty := h.nonempty.imp fun v hv => (hmem v).2 hv
  have hle : d ≤ g.minDegree members := by
    rw [minDegree_of_nonempty hne]
    refine Finset.le_inf' hne _ fun v hv => (h.le_degree v ((hmem v).1 hv)).trans_eq ?_
    exact List.countP_congr fun w _ => by rw [decide_eq_true_iff, hmem]
  refine hle.trans (Finset.le_sup ?_)
  exact Finset.mem_filter.2 ⟨Finset.mem_powerset.2 (Finset.filter_subset _ _), hne⟩

theorem budget_eq (hs : g.Sound) (hv : g.AllVisible) :
    g.simplify.budget = if g.locals.size = 0 then 0 else 1 + g.degeneracy := by
  split
  · next hsize =>
    by_contra hbudget
    obtain ⟨d, hd⟩ := Nat.exists_eq_succ_of_ne_zero hbudget
    obtain ⟨set, hdense⟩ := dense_of_lt_budget hv hd
    obtain ⟨v, hmem⟩ := hdense.nonempty
    have hlt := hdense.lt_size v hmem
    omega
  · next hsize =>
    have hfirst : g.Dense (· == 0) 0 := by
      refine ⟨⟨0, rfl⟩, fun v h => ?_, fun v _ => Nat.zero_le _⟩
      rw [eq_of_beq h]
      exact Nat.pos_of_ne_zero hsize
    have hpositive : 0 < g.simplify.budget := lt_budget_of_dense hs hv hfirst
    have habove : g.degeneracy < g.simplify.budget := by
      refine (Finset.sup_lt_iff hpositive).2 fun set hset => ?_
      obtain ⟨hsub, hne⟩ := Finset.mem_filter.1 hset
      exact lt_budget_of_dense hs hv (dense_minDegree (Finset.mem_powerset.1 hsub) hne)
    obtain ⟨d, hd⟩ := Nat.exists_eq_succ_of_ne_zero hpositive.ne'
    obtain ⟨set, hdense⟩ := dense_of_lt_budget hv hd
    have hbelow := le_degeneracy_of_dense hdense
    omega

inductive Made : InterferenceGraph → Prop where
  | drawn {g : InterferenceGraph} (h : Drawn g) : Made g
  | addLocal {g : InterferenceGraph} (h : Made g) (name : String) : Made (g.addLocal name)
  | addEdge {g : InterferenceGraph} (h : Made g) (v w : Nat) : Made (g.addEdge v w)
  | simplify {g : InterferenceGraph} (h : Made g) : Made g.simplify.graph
  | color {g : InterferenceGraph} (h : Made g) (method : String) (ceiling? : Option Nat) :
    Made (g.color method ceiling?).1

theorem simplify_shape (g : InterferenceGraph) : g.SameShape g.simplify.graph := by
  refine Simplification.sweeps_induction (P := fun s => g.SameShape s.graph) (fun s v h => ?_)
    (fun s h _ _ => h) _ ⟨rfl, rfl, fun _ => rfl, fun _ => rfl⟩
  unfold Simplification.visit
  split
  · exact h.hide v
  · exact h

theorem Sound.select {base limit : Nat} (order : List Nat) (h : g.Sound) :
    (select method base limit order g).1.Sound := by
  induction order generalizing g with
  | nil => exact h
  | cons v rest ih =>
    unfold InterferenceGraph.select
    dsimp only
    split
    · exact h
    · exact ih (h.setRegister v _)

theorem Sound.simplify (h : g.Sound) : g.simplify.graph.Sound :=
  h.congr g.simplify_shape.names_eq g.simplify_shape.neighbours_eq

theorem Sound.color (h : g.Sound) : (g.color method ceiling?).1.Sound := by
  have hpinned : g.simplify.graph.pinParameters.Sound := h.simplify.congr rfl fun _ => rfl
  unfold InterferenceGraph.color
  dsimp only
  split
  · exact h.simplify
  · split
    · exact hpinned
    · split
      · exact hpinned
      · exact hpinned.select _

theorem Made.sound (h : g.Made) : g.Sound := by
  induction h with
  | drawn h => exact h.blank.sound
  | addLocal _ name ih => exact ih.addLocal name
  | addEdge _ v w ih => exact ih.addEdge v w
  | simplify _ ih => exact ih.simplify
  | color _ method ceiling? ih => exact ih.color

theorem select_outcome {base limit : Nat} (order : List Nat) :
    (select method base limit order g).2 = .ok () ∨
      ∃ name, (select method base limit order g).2 = .error (.noFreeRegister method name limit) := by
  induction order generalizing g with
  | nil => exact .inl rfl
  | cons v rest ih =>
    unfold select
    dsimp only
    split
    · exact .inr ⟨_, rfl⟩
    · exact ih

theorem color_eq_capacity_iff {other : String} {required ceiling : Nat} :
    (g.color method ceiling?).2 = .error (.registerCapacity other required ceiling) ↔
      ceiling? = some ceiling ∧ ceiling < g.simplify.budget ∧ other = method ∧
        required = g.simplify.budget := by
  unfold color
  dsimp only
  split
  · next fault he =>
    obtain ⟨limit, hsome, hlt, rfl⟩ := checkCeiling_eq_error_iff.1 he
    simp only [hsome, Except.error.injEq, Fault.registerCapacity.injEq, Option.some.injEq]
    constructor
    · rintro ⟨rfl, rfl, rfl⟩
      exact ⟨rfl, hlt, rfl, rfl⟩
    · rintro ⟨rfl, -, rfl, rfl⟩
      exact ⟨rfl, rfl, rfl⟩
  · next he =>
    refine iff_of_false (fun h => ?_) fun ⟨hsome, hlt, _⟩ => ?_
    · split at h
      · cases h
      · split at h
        · cases h
        · rcases @select_outcome g.simplify.graph.pinParameters method g.parameters.length
            (g.parameters.length + g.simplify.budget) g.simplify.hidden.reverse with ho | ⟨_, ho⟩
          all_goals
            dsimp only at h
            rw [ho] at h
            cases h
    · exact Nat.not_le.2 hlt (checkCeiling_eq_ok_iff.1 he ceiling hsome)

theorem sweeps_of_visibleCount {s : Simplification} {bound bound' : Nat}
    (h : (Simplification.sweeps bound s).graph.visibleCount = 0) (hle : bound ≤ bound') :
    Simplification.sweeps bound' s = Simplification.sweeps bound s := by
  induction bound generalizing s bound' with
  | zero =>
    have hs : s.graph.visibleCount = 0 := h
    cases bound' with
    | zero => rfl
    | succ bound' => exact if_pos hs
  | succ bound ih =>
    obtain ⟨bound', rfl⟩ := Nat.exists_eq_add_of_le' (Nat.le_trans (Nat.succ_pos bound) hle)
    unfold Simplification.sweeps at h ⊢
    split
    · rfl
    · next hvisible =>
      rw [if_neg hvisible] at h
      exact ih h (Nat.le_of_succ_le_succ hle)

theorem simplify_degenerate (hg : g.Made) (hv : g.AllVisible) :
    (g.simplify.graph.visibleCount = 0 ∧ ∀ bound, 2 * g.locals.size ≤ bound →
      Simplification.sweeps bound ⟨g, [], 0⟩ = g.simplify) ∧
    g.simplify.hidden.Perm (List.range g.locals.size) ∧
    g.simplify.budget = (if g.locals.size = 0 then 0 else 1 + g.degeneracy) ∧
    (∀ g' : InterferenceGraph, g'.Made → g'.AllVisible → (∀ a, a ∈ g'.names ↔ a ∈ g.names) →
      (∀ a b, g'.interferes a b = g.interferes a b) → g'.simplify.budget = g.simplify.budget) ∧
    ∀ method ceiling?,
      (∀ fault, checkCeiling method ceiling? g.simplify.budget = .error fault ↔
        ∃ ceiling, ceiling? = some ceiling ∧ ceiling < g.simplify.budget ∧
          fault = .registerCapacity method g.simplify.budget ceiling) ∧
      ∀ other required ceiling,
        (g.color method ceiling?).2 = .error (.registerCapacity other required ceiling) ↔
          ceiling? = some ceiling ∧ ceiling < g.simplify.budget ∧ other = method ∧
            required = g.simplify.budget := by
  have hs := hg.sound
  have hcount := visibleCount_simplify hs hv
  refine ⟨⟨hcount, fun bound hle => sweeps_of_visibleCount hcount hle⟩, ?_, budget_eq hs hv,
    fun g' hg' hv' hnames hinterferes => ?_,
    fun method ceiling? => ⟨fun fault => checkCeiling_eq_error_iff,
      fun other required ceiling => color_eq_capacity_iff⟩⟩
  · refine (List.perm_ext_iff_of_nodup (simplify_of hv).hidden_nodup List.nodup_range).2 fun v => ?_
    rw [mem_hidden_simplify hs hv, List.mem_range]
  · have hwithin : g'.Within g := ⟨fun a => (hnames a).1, fun a b h => hinterferes a b ▸ h⟩
    have hwithin' : g.Within g' := ⟨fun a => (hnames a).2, fun a b h => (hinterferes a b).trans h⟩
    exact Nat.le_antisymm (budget_le_of_within hwithin hs hg'.sound hv hv')
      (budget_le_of_within hwithin' hg'.sound hs hv' hv)

theorem simplify_degenerate_sketch :
    sketch.Made ∧ sketch.AllVisible ∧ sketch.degeneracy = 1 ∧ sketch.simplify.budget = 1 + 1 ∧
      sketch.simplify.hidden.Perm [0, 1, 2] ∧
      (sketch.color "count" (some 1)).2 = .error (.registerCapacity "count" 2 1) := by
  have hmade : sketch.Made := .drawn drawn_sketch
  have hvisible : sketch.AllVisible := drawn_sketch.blank.untouched.isVisible_eq
  have hdegeneracy : sketch.degeneracy = 1 := by decide +kernel
  have hsize : sketch.locals.size = 3 := by decide +kernel
  obtain ⟨-, hperm, hbudget, -, hceiling⟩ := simplify_degenerate hmade hvisible
  rw [hsize] at hperm hbudget
  rw [hdegeneracy] at hbudget
  refine ⟨hmade, hvisible, hdegeneracy, hbudget, hperm, ?_⟩
  exact ((hceiling "count" (some 1)).2 _ _ _).2 ⟨rfl, hbudget ▸ Nat.lt_add_one 1, rfl, hbudget.symm⟩

end InterferenceGraph

end ClassLowering
