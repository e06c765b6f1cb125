import ClassLowering.Proofs.Flow.Reachability

namespace ClassLowering

namespace FlowGraph

variable {g : FlowGraph}

theorem traverse_of_nil {t : Traversal} (h : t.stack = []) (bound : Nat) :
    g.traverse bound t = t := by
  cases bound with
  | zero => rfl
  | succ bound => rw [traverse, h]; rfl

theorem traverse_add (a b : Nat) (t : Traversal) :
    g.traverse (a + b) t = g.traverse b (g.traverse a t) := by
  induction a generalizing t with
  | zero => rw [Nat.zero_add, traverse]
  | succ a ih =>
    rw [Nat.succ_add]
    cases h : t.stack with
    | nil => rw [traverse_of_nil h, traverse_of_nil h, traverse_of_nil h]
    | cons top rest => rw [traverse, traverse, h, List.isEmpty_cons, if_neg Bool.false_ne_true, ih,
        if_neg Bool.false_ne_true]

theorem visitsOf_perm {l k : List Node} (h : l.Perm k) : g.visitsOf l = g.visitsOf k := by
  induction h with
  | nil => rfl
  | cons n _ ih => rw [visitsOf, visitsOf, ih]
  | swap n s rest => simp only [visitsOf]; omega
  | trans _ _ ih ih' => exact ih.trans ih'

theorem visitsOf_sublist {l k : List Node} (h : l.Sublist k) : g.visitsOf l ≤ g.visitsOf k := by
  induction h with
  | slnil => exact Nat.le_refl _
  | cons n _ ih => exact Nat.le_add_left_of_le ih
  | cons_cons n _ ih => exact Nat.add_le_add_left ih _

theorem visitsOf_le_traversalBound (hg : g.Mirrored) {l : List Node} (hl : l.Nodup)
    (h : ∀ x ∈ l, g.Reachable x) : g.visitsOf l ≤ g.traversalBound := by
  have hsub : l ⊆ (List.range (g.size + 1)).map Node.mk := fun x hx =>
    List.mem_map.2 ⟨x.index, List.mem_range.2 (Nat.lt_succ_of_le ((h x hx).index_le hg)), rfl⟩
  obtain ⟨k, hperm, hsublist⟩ := List.subperm_of_subset hl hsub
  rw [visitsOf_perm hperm.symm]
  exact visitsOf_sublist hsublist

def Walk.underway (w : Walk) (stack : List (Node × Nat)) : Traversal :=
  ⟨w.reached, stack, w.finished.reverse⟩

section Simulation

variable {w : Walk} {n s : Node} {child : Nat} {rest : List (Node × Nat)}

theorem advance_leave (h : (g.successors n)[child]? = none) :
    g.advance (w.underway ((n, child) :: rest)) =
      Walk.underway { w with finished := n :: w.finished } rest := by
  simp [advance, Walk.underway, h]

theorem advance_skip (h : (g.successors n)[child]? = some s) (hs : s ∈ w.reached) :
    g.advance (w.underway ((n, child) :: rest)) = w.underway ((n, child + 1) :: rest) := by
  simp [advance, Walk.underway, h, hs]

theorem advance_enter (h : (g.successors n)[child]? = some s) (hs : s ∉ w.reached) :
    g.advance (w.underway ((n, child) :: rest)) =
      Walk.underway { w with reached := s :: w.reached } ((s, 0) :: (n, child + 1) :: rest) := by
  simp [advance, Walk.underway, h, hs]

theorem traverse_succ (bound : Nat) (top : Node × Nat) :
    g.traverse (bound + 1) (w.underway (top :: rest)) =
      g.traverse bound (g.advance (w.underway (top :: rest))) := rfl

end Simulation

def Follows (g : FlowGraph) (depth : Nat) : Prop :=
  ∀ {w : Walk} {n : Node} (rest : List (Node × Nat)), w.Valid g → g.Reachable n → n ∉ w.reached →
    g.size < depth + w.reached.length →
    ∃ bound, g.traverse bound (Walk.underway { w with reached := n :: w.reached } ((n, 0) :: rest)) =
        (g.walk depth w n).underway rest ∧
      bound + g.visitsOf w.reached = g.visitsOf (g.walk depth w n).reached

theorem Follows.successors {depth : Nat} (ih : g.Follows depth) (hg : g.Mirrored) {n : Node}
    (hn : g.Reachable n) {front l : List Node} (hsplit : g.successors n = front ++ l) {w : Walk}
    (hw : w.Valid g) (hd : g.size < depth + w.reached.length) (rest : List (Node × Nat)) :
    let w' := l.foldl (g.walk depth) w
    ∃ bound, g.traverse bound (w.underway ((n, front.length) :: rest)) =
        Walk.underway { w' with finished := n :: w'.finished } rest ∧
      bound + g.visitsOf w.reached = g.visitsOf w'.reached + l.length + 1 := by
  induction l generalizing front w with
  | nil =>
    have hend : (g.successors n)[front.length]? = none := by simp [hsplit]
    exact ⟨1, by rw [traverse_succ, advance_leave hend]; rfl, Nat.add_comm _ _⟩
  | cons s l ihl =>
    have hchild : (g.successors n)[front.length]? = some s := by simp [hsplit]
    have hs : g.Reachable s := hn.tail (show s ∈ g.successors n by simp [hsplit])
    have hsplit' : g.successors n = (front ++ [s]) ++ l := by simp [hsplit]
    obtain ⟨hv, he, -⟩ := walk_spec hg depth hw hs hd
    have hlen : w.reached.length ≤ (g.walk depth w s).reached.length :=
      (List.subperm_of_subset hw.reached_nodup he.reached).length_le
    obtain ⟨later, hlater, hcount⟩ := ihl hsplit' hv (by omega)
    rw [List.length_append, List.length_singleton] at hlater
    by_cases hm : s ∈ w.reached
    · have hstay : g.walk depth w s = w := by
        cases depth with
        | zero => rfl
        | succ depth => rw [walk, if_pos hm]
      rw [hstay] at hlater hcount
      refine ⟨later + 1, ?_, ?_⟩
      · rw [traverse_succ, advance_skip hchild hm, hlater, List.foldl_cons, hstay]
      · rw [List.foldl_cons, hstay, List.length_cons]
        omega
    · obtain ⟨inner, hinner, hcost⟩ := ih ((n, front.length + 1) :: rest) hw hs hm hd
      refine ⟨inner + later + 1, ?_, ?_⟩
      · rw [traverse_succ, advance_enter hchild hm, traverse_add, hinner, hlater]
        rfl
      · rw [List.foldl_cons, List.length_cons]
        omega

theorem follows (hg : g.Mirrored) (depth : Nat) : g.Follows depth := by
  induction depth with
  | zero =>
    -- No depth is left only once every reachable node is reached.
    intro w n rest hw hn hm hd
    have hlength := length_le_of_reachable hg (List.nodup_cons.2 ⟨hm, hw.reached_nodup⟩)
      (List.forall_mem_cons.2 ⟨hn, hw.reachable⟩)
    rw [List.length_cons] at hlength
    omega
  | succ depth ih =>
    intro w n rest hw hn hm hd
    have hd' : g.size < depth + (n :: w.reached).length := by
      rw [List.length_cons]
      omega
    have hsplit : g.successors n = [] ++ g.successors n := rfl
    obtain ⟨bound, hrun, hcount⟩ := ih.successors hg hn hsplit (hw.enter hn hm) hd' rest
    dsimp only at hcount
    rw [visitsOf] at hcount
    refine ⟨bound, ?_, ?_⟩
    · rw [walk, if_neg hm]
      exact hrun
    · rw [walk, if_neg hm]
      dsimp only
      omega

theorem postorder_eq_walk (hg : g.Mirrored) :
    g.postorder = (g.walk (g.size + 1) {} .entry).finished.reverse := by
  have hv : Walk.Valid g {} := ⟨List.nodup_nil, List.nodup_nil, by simp, by simp⟩
  obtain ⟨bound, hrun, hcount⟩ := follows hg (g.size + 1) [] hv (n := .entry) .refl (by simp) (by simp)
  obtain ⟨hv', -, -⟩ := walk_spec hg (g.size + 1) hv (n := .entry) .refl (by simp)
  have hbound : bound ≤ g.traversalBound :=
    Nat.le_trans (Nat.le_of_eq hcount)
      (visitsOf_le_traversalBound hg hv'.reached_nodup hv'.reachable)
  obtain ⟨more, hmore⟩ := Nat.exists_eq_add_of_le hbound
  have hstart : g.traverse bound { reached := [.entry], stack := [(.entry, 0)] } = _ := hrun
  rw [postorder, hmore, traverse_add, hstart, traverse_of_nil rfl]
  rfl

theorem postorder_spec (hg : g.Mirrored) :
    g.postorder.Nodup ∧ ∀ n, n ∈ g.postorder ↔ g.Reachable n := by
  have hv : Walk.Valid g {} := ⟨List.nodup_nil, List.nodup_nil, by simp, by simp⟩
  rw [postorder_eq_walk hg]
  obtain ⟨hv', he, hm⟩ := walk_spec hg (g.size + 1) hv (n := .entry) .refl (by simp)
  refine ⟨List.nodup_reverse.2 hv'.finished_nodup, fun n => ?_⟩
  rw [List.mem_reverse]
  constructor
  · exact fun h => hv'.reachable n (hv'.finished_reached n h)
  · intro h
    have hr : n ∈ (g.walk (g.size + 1) {} .entry).reached := by
      induction h with
      | refl => exact hm
      | tail _ hxy ih =>
        rcases he.closed _ ih with hx | hx
        · simp at hx
        · exact hx _ hxy
    rw [he.finished]
    exact .inr ⟨hr, by simp⟩

end FlowGraph

end ClassLowering
