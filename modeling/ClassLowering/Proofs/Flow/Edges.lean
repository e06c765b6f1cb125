import ClassLowering.Flow.Graph
import Mathlib.Data.List.Nodup

namespace ClassLowering

namespace FlowGraph

def Edge (g : FlowGraph) (a b : Node) : Prop := b ∈ g.successors a

instance (g : FlowGraph) (a b : Node) : Decidable (g.Edge a b) :=
  inferInstanceAs (Decidable (b ∈ g.successors a))

structure Mirrored (g : FlowGraph) : Prop where
  mirror : ∀ a b, b ∈ g.successors a ↔ a ∈ g.predecessors b
  successors_nodup : ∀ a, (g.successors a).Nodup
  predecessors_nodup : ∀ b, (g.predecessors b).Nodup

theorem linksOf_of_size_le {g : FlowGraph} {n : Node} (h : g.size ≤ n.index) :
    g.linksOf n = {} := by
  have hn : g.links[n.index]? = none := Array.getElem?_eq_none h
  simp [linksOf, hn]

theorem Edge.target_lt {g : FlowGraph} (hg : g.Mirrored) {a b : Node} (h : g.Edge a b) :
    b.index < g.size := by
  by_contra hle
  have hl := linksOf_of_size_le (Nat.not_lt.1 hle)
  have hm := (hg.mirror a b).1 h
  simp [predecessors, hl] at hm

theorem successors_modify {g : FlowGraph} {n m : Node} {f : Links → Links}
    (hf : ∀ l, (f l).successors = l.successors) :
    (g.modify n f).successors m = g.successors m := by
  unfold successors
  rw [linksOf_modify]
  split
  · exact hf _
  · rfl

theorem predecessors_modify {g : FlowGraph} {n m : Node} {f : Links → Links}
    (hf : ∀ l, (f l).predecessors = l.predecessors) :
    (g.modify n f).predecessors m = g.predecessors m := by
  unfold predecessors
  rw [linksOf_modify]
  split
  · exact hf _
  · rfl

theorem successors_grow (g : FlowGraph) (count : Nat) (n : Node) :
    (g.grow count).successors n = g.successors n := by
  unfold successors
  rw [linksOf_grow]

theorem predecessors_grow (g : FlowGraph) (count : Nat) (n : Node) :
    (g.grow count).predecessors n = g.predecessors n := by
  unfold predecessors
  rw [linksOf_grow]

theorem successors_addEdge (g : FlowGraph) (a b x : Node) :
    (g.addEdge a b).successors x =
      if x = a ∧ ¬ g.Edge a b then g.successors x ++ [b] else g.successors x := by
  unfold addEdge
  simp only [successors_grow]
  by_cases h : b ∈ g.successors a
  · have he : g.Edge a b := h
    simp only [h, he, not_true, and_false, if_true, if_false, successors_grow]
  · have he : ¬ g.Edge a b := h
    have ha : a.index < (g.grow (max a.index b.index + 1)).size := by
      rw [size_grow]; omega
    simp only [h, he, if_false, not_false_iff, and_true]
    rw [successors_modify fun _ => by rfl]
    unfold successors
    rw [linksOf_modify, linksOf_grow]
    by_cases hx : x = a
    · subst hx; simp only [true_and, ha, if_true]
    · have hx' : a ≠ x := fun e => hx e.symm
      simp only [hx', false_and, if_false, hx]

theorem predecessors_addEdge (g : FlowGraph) (a b x : Node) :
    (g.addEdge a b).predecessors x =
      if x = b ∧ ¬ g.Edge a b then g.predecessors x ++ [a] else g.predecessors x := by
  unfold addEdge
  simp only [successors_grow]
  by_cases h : b ∈ g.successors a
  · have he : g.Edge a b := h
    simp only [h, he, not_true, and_false, if_true, if_false, predecessors_grow]
  · have he : ¬ g.Edge a b := h
    have hb : b.index < (g.grow (max a.index b.index + 1)).size := by
      rw [size_grow]; omega
    have hm := predecessors_modify (g := g.grow (max a.index b.index + 1)) (n := a) (m := x)
      (f := fun l => { l with successors := l.successors ++ [b] }) (fun _ => rfl)
    rw [predecessors_grow] at hm
    simp only [h, he, if_false, not_false_iff, and_true]
    unfold predecessors at hm ⊢
    rw [linksOf_modify, size_modify]
    by_cases hx : x = b
    · subst hx; simp only [true_and, hb, if_true, hm]
    · have hx' : b ≠ x := fun e => hx e.symm
      simp only [hx', false_and, if_false, hx, hm]

theorem edge_addEdge (g : FlowGraph) (a b x y : Node) :
    (g.addEdge a b).Edge x y ↔ g.Edge x y ∨ x = a ∧ y = b := by
  unfold Edge
  rw [successors_addEdge]
  split
  · next h => rw [List.mem_append, List.mem_singleton, h.1]; simp
  · next h =>
    constructor
    · exact Or.inl
    · rintro (he | ⟨rfl, rfl⟩)
      · exact he
      · by_contra hn
        exact h ⟨rfl, hn⟩

theorem Mirrored.addEdge {g : FlowGraph} (hg : g.Mirrored) (a b : Node) :
    (g.addEdge a b).Mirrored := by
  have hp (x y : Node) :
      x ∈ (g.addEdge a b).predecessors y ↔ x ∈ g.predecessors y ∨ x = a ∧ y = b := by
    rw [predecessors_addEdge]
    split
    · next h => rw [List.mem_append, List.mem_singleton, h.1]; simp
    · next h =>
      constructor
      · exact Or.inl
      · rintro (he | ⟨rfl, rfl⟩)
        · exact he
        · by_contra hn
          exact h ⟨rfl, fun he => hn ((hg.mirror _ _).1 he)⟩
  refine ⟨fun x y => ?_, fun x => ?_, fun y => ?_⟩
  · rw [hp, ← hg.mirror x y]
    exact edge_addEdge g a b x y
  · rw [successors_addEdge]
    split
    · next h =>
      rw [h.1, ← List.concat_eq_append]
      exact (hg.successors_nodup a).concat h.2
    · exact hg.successors_nodup x
  · rw [predecessors_addEdge]
    split
    · next h =>
      rw [h.1, ← List.concat_eq_append]
      exact (hg.predecessors_nodup b).concat fun he => h.2 ((hg.mirror _ _).2 he)
    · exact hg.predecessors_nodup y

theorem successors_removeEdge (g : FlowGraph) (a b x : Node) :
    (g.removeEdge a b).successors x =
      if x = a then (g.successors x).filter (· ≠ b) else g.successors x := by
  unfold removeEdge
  rw [successors_modify fun _ => by rfl]
  by_cases hx : x = a
  · subst hx
    by_cases hs : x.index < g.size
    · unfold successors
      rw [linksOf_modify]
      simp only [true_and, hs, if_true]
    · have hl := linksOf_of_size_le (Nat.not_lt.1 hs)
      unfold successors
      rw [linksOf_modify]
      simp [hs, hl]
  · have hx' : a ≠ x := fun e => hx e.symm
    unfold successors
    rw [linksOf_modify]
    simp only [hx', hx, false_and, if_false]

theorem predecessors_removeEdge (g : FlowGraph) (a b x : Node) :
    (g.removeEdge a b).predecessors x =
      if x = b then (g.predecessors x).filter (· ≠ a) else g.predecessors x := by
  have hm (y : Node) :
      (g.modify a fun l => { l with successors := l.successors.filter (· ≠ b) }).predecessors y =
        g.predecessors y := predecessors_modify (fun _ => rfl)
  unfold predecessors at hm
  unfold removeEdge predecessors
  rw [linksOf_modify, size_modify]
  by_cases hx : x = b
  · subst hx
    by_cases hs : x.index < g.size
    · simp only [true_and, hs, if_true, hm]
    · have hl := linksOf_of_size_le (Nat.not_lt.1 hs)
      simp only [true_and, hs, if_false, if_true, hm, hl]
      rfl
  · have hx' : b ≠ x := fun e => hx e.symm
    simp only [hx', hx, false_and, if_false, hm]

theorem edge_removeEdge (g : FlowGraph) (a b x y : Node) :
    (g.removeEdge a b).Edge x y ↔ g.Edge x y ∧ ¬ (x = a ∧ y = b) := by
  unfold Edge
  rw [successors_removeEdge]
  split
  · next h => simp [h]
  · next h => simp [h]

theorem Mirrored.removeEdge {g : FlowGraph} (hg : g.Mirrored) (a b : Node) :
    (g.removeEdge a b).Mirrored := by
  refine ⟨fun x y => ?_, fun x => ?_, fun y => ?_⟩
  · have hs := edge_removeEdge g a b x y
    unfold Edge at hs
    rw [hs, predecessors_removeEdge, hg.mirror x y]
    split
    · next h => simp [h]
    · next h => simp [h]
  · rw [successors_removeEdge]
    split
    · exact (hg.successors_nodup x).filter _
    · exact hg.successors_nodup x
  · rw [predecessors_removeEdge]
    split
    · exact (hg.predecessors_nodup y).filter _
    · exact hg.predecessors_nodup y

theorem Mirrored.foldl {α : Type} {f : FlowGraph → α → FlowGraph}
    (hf : ∀ g, g.Mirrored → ∀ a, (f g a).Mirrored) (l : List α) {g : FlowGraph}
    (hg : g.Mirrored) : (l.foldl f g).Mirrored := by
  induction l generalizing g with
  | nil => exact hg
  | cons a l ih => exact ih (hf g hg a)

theorem edge_removeEdges_into (l : List Node) (g : FlowGraph) (n x y : Node) :
    (l.foldl (fun g a => g.removeEdge a n) g).Edge x y ↔ g.Edge x y ∧ ¬ (x ∈ l ∧ y = n) := by
  induction l generalizing g with
  | nil => simp
  | cons a l ih =>
    rw [List.foldl_cons, ih, edge_removeEdge]
    simp only [List.mem_cons]
    tauto

theorem edge_removeEdges_from (l : List Node) (g : FlowGraph) (n x y : Node) :
    (l.foldl (fun g b => g.removeEdge n b) g).Edge x y ↔ g.Edge x y ∧ ¬ (x = n ∧ y ∈ l) := by
  induction l generalizing g with
  | nil => simp
  | cons b l ih =>
    rw [List.foldl_cons, ih, edge_removeEdge]
    simp only [List.mem_cons]
    tauto

theorem edge_addEdges_from (l : List Node) (g : FlowGraph) (a x y : Node) :
    (l.foldl (fun g b => g.addEdge a b) g).Edge x y ↔ g.Edge x y ∨ x = a ∧ y ∈ l := by
  induction l generalizing g with
  | nil => simp
  | cons b l ih =>
    rw [List.foldl_cons, ih, edge_addEdge]
    simp only [List.mem_cons]
    tauto

theorem edge_addEdges (before after : List Node) (g : FlowGraph) (x y : Node) :
    (before.foldl (fun g a => after.foldl (fun g b => g.addEdge a b) g) g).Edge x y ↔
      g.Edge x y ∨ x ∈ before ∧ y ∈ after := by
  induction before generalizing g with
  | nil => simp
  | cons a l ih =>
    rw [List.foldl_cons, ih, edge_addEdges_from]
    simp only [List.mem_cons]
    tauto

theorem edge_splice {g : FlowGraph} (hg : g.Mirrored) (n x y : Node) :
    (g.splice n).Edge x y ↔ x ≠ n ∧ y ≠ n ∧ (g.Edge x y ∨ g.Edge x n ∧ g.Edge n y) := by
  have hm (a : Node) : a ∈ g.predecessors n ↔ g.Edge a n := (hg.mirror a n).symm
  unfold splice
  rw [edge_addEdges, edge_removeEdges_from, edge_removeEdges_into]
  simp only [List.mem_filter, decide_eq_true_eq, hm, ne_eq]
  change (_ ∧ ¬ (x = n ∧ g.Edge n y)) ∨ _ ∧ (g.Edge n y ∧ _) ↔ _
  by_cases hx : x = n
  · subst hx; tauto
  · by_cases hy : y = n
    · subst hy; tauto
    · tauto

theorem Mirrored.splice {g : FlowGraph} (hg : g.Mirrored) (n : Node) : (g.splice n).Mirrored := by
  unfold FlowGraph.splice
  refine Mirrored.foldl (fun g hg a => ?_) _ ?_
  · exact Mirrored.foldl (fun g hg b => hg.addEdge a b) _ hg
  · refine Mirrored.foldl (fun g hg b => hg.removeEdge n b) _ ?_
    exact Mirrored.foldl (fun g hg a => hg.removeEdge a n) _ hg

theorem successors_empty (count : Nat) (n : Node) : (empty count).successors n = [] := by
  simp only [successors, linksOf, empty, Array.getElem?_replicate]
  split <;> rfl

theorem predecessors_empty (count : Nat) (n : Node) : (empty count).predecessors n = [] := by
  simp only [predecessors, linksOf, empty, Array.getElem?_replicate]
  split <;> rfl

theorem not_edge_empty (count : Nat) (a b : Node) : ¬ (empty count).Edge a b := by
  simp [Edge, successors_empty]

theorem Mirrored.empty (count : Nat) : (FlowGraph.empty count).Mirrored := by
  refine ⟨fun a b => ?_, fun a => ?_, fun b => ?_⟩
  · simp [successors_empty, predecessors_empty]
  · simp [successors_empty]
  · simp [predecessors_empty]

end FlowGraph

end ClassLowering
