import ClassLowering.Flow.Postorder
import ClassLowering.Proofs.Flow.Edges
import Mathlib.Data.List.Perm.Subperm
import Mathlib.Logic.Relation

namespace ClassLowering

namespace FlowGraph

structure Walk where
  reached : List Node := []
  finished : List Node := []

def walk (g : FlowGraph) : Nat → Walk → Node → Walk
  | 0, w, _ => w
  | depth + 1, w, n =>
    if n ∈ w.reached then w
    else
      let w := (g.successors n).foldl (g.walk depth) { w with reached := n :: w.reached }
      { w with finished := n :: w.finished }

def Reachable (g : FlowGraph) (n : Node) : Prop := Relation.ReflTransGen g.Edge .entry n

namespace Walk

structure Valid (g : FlowGraph) (w : Walk) : Prop where
  reached_nodup : w.reached.Nodup
  finished_nodup : w.finished.Nodup
  finished_reached : ∀ x ∈ w.finished, x ∈ w.reached
  reachable : ∀ x ∈ w.reached, g.Reachable x

structure Extends (g : FlowGraph) (w w' : Walk) : Prop where
  reached : ∀ x ∈ w.reached, x ∈ w'.reached
  closed : ∀ x ∈ w'.reached, x ∈ w.reached ∨ ∀ y, g.Edge x y → y ∈ w'.reached
  finished : ∀ x, x ∈ w'.finished ↔ x ∈ w.finished ∨ x ∈ w'.reached ∧ x ∉ w.reached

theorem Extends.refl (g : FlowGraph) (w : Walk) : Extends g w w :=
  ⟨fun _ h => h, fun _ h => .inl h, fun _ => by tauto⟩

theorem Extends.trans {g : FlowGraph} {w₁ w₂ w₃ : Walk} (h : Extends g w₁ w₂)
    (k : Extends g w₂ w₃) : Extends g w₁ w₃ := by
  refine ⟨fun x hx => k.reached x (h.reached x hx), fun x hx => ?_, fun x => ?_⟩
  · rcases k.closed x hx with hx | hx
    · rcases h.closed x hx with hx | hx
      · exact .inl hx
      · exact .inr fun y hy => k.reached y (hx y hy)
    · exact .inr hx
  · rw [k.finished x, h.finished x]
    have h₁ := h.reached x
    have h₂ := k.reached x
    tauto

end Walk

variable {g : FlowGraph}

theorem Reachable.index_le (hg : g.Mirrored) {n : Node} (h : g.Reachable n) :
    n.index ≤ g.size := by
  rcases Relation.ReflTransGen.cases_tail h with rfl | ⟨m, -, hm⟩
  · exact Nat.zero_le _
  · exact Nat.le_of_lt (hm.target_lt hg)

theorem length_le_of_reachable (hg : g.Mirrored) {l : List Node} (hl : l.Nodup)
    (h : ∀ x ∈ l, g.Reachable x) : l.length ≤ g.size + 1 := by
  have hi : (l.map Node.index).Nodup :=
    hl.map fun a b he => by cases a; cases b; simpa using he
  have hs : l.map Node.index ⊆ List.range (g.size + 1) := by
    intro i hi
    obtain ⟨x, hx, rfl⟩ := List.mem_map.1 hi
    exact List.mem_range.2 (Nat.lt_succ_of_le ((h x hx).index_le hg))
  simpa using (List.subperm_of_subset hi hs).length_le

theorem foldl_walk {depth : Nat}
    (ih : ∀ {w : Walk} {n : Node}, w.Valid g → g.Reachable n → g.size < depth + w.reached.length →
      (g.walk depth w n).Valid g ∧ w.Extends g (g.walk depth w n) ∧
        n ∈ (g.walk depth w n).reached)
    (l : List Node) {w : Walk} (hw : w.Valid g) (hl : ∀ x ∈ l, g.Reachable x)
    (hd : g.size < depth + w.reached.length) :
    (l.foldl (g.walk depth) w).Valid g ∧ w.Extends g (l.foldl (g.walk depth) w) ∧
      ∀ x ∈ l, x ∈ (l.foldl (g.walk depth) w).reached := by
  induction l generalizing w with
  | nil => exact ⟨hw, .refl g w, by simp⟩
  | cons a l ihl =>
    obtain ⟨hv, he, ha⟩ := ih hw (hl a (by simp)) hd
    have hlen : w.reached.length ≤ (g.walk depth w a).reached.length :=
      (List.subperm_of_subset hw.reached_nodup he.reached).length_le
    obtain ⟨hv', he', hm⟩ := ihl hv (fun x hx => hl x (by simp [hx])) (by omega)
    refine ⟨hv', he.trans he', fun x hx => ?_⟩
    rcases List.mem_cons.1 hx with rfl | hx
    · exact he'.reached x ha
    · exact hm x hx

theorem Walk.Valid.enter {w : Walk} {n : Node} (hw : w.Valid g) (hn : g.Reachable n)
    (hm : n ∉ w.reached) : Walk.Valid g { w with reached := n :: w.reached } := by
  refine ⟨List.nodup_cons.2 ⟨hm, hw.reached_nodup⟩, hw.finished_nodup, ?_, ?_⟩
  · exact fun x hx => List.mem_cons_of_mem n (hw.finished_reached x hx)
  · exact List.forall_mem_cons.2 ⟨hn, hw.reachable⟩

theorem Walk.Valid.leave {w w' : Walk} {n : Node} (hw' : w'.Valid g) (hw : w.Valid g)
    (hm : n ∉ w.reached) (he : Walk.Extends g { w with reached := n :: w.reached } w')
    (hs : ∀ y ∈ g.successors n, y ∈ w'.reached) :
    Walk.Valid g { w' with finished := n :: w'.finished } ∧
      w.Extends g { w' with finished := n :: w'.finished } ∧ n ∈ w'.reached := by
  have hn : n ∈ w'.reached := he.reached n (by simp)
  have hf : n ∉ w'.finished := by
    rw [he.finished n]
    have hf : n ∉ w.finished := fun h => hm (hw.finished_reached n h)
    simp [hf]
  refine ⟨⟨hw'.reached_nodup, List.nodup_cons.2 ⟨hf, hw'.finished_nodup⟩, ?_, hw'.reachable⟩,
    ⟨fun x hx => he.reached x (by simp [hx]), fun x hx => ?_, fun x => ?_⟩, hn⟩
  · exact List.forall_mem_cons.2 ⟨hn, hw'.finished_reached⟩
  · rcases he.closed x hx with hx | hx
    · rcases List.mem_cons.1 hx with rfl | hx
      · exact .inr hs
      · exact .inl hx
    · exact .inr hx
  · simp only [List.mem_cons, he.finished x]
    by_cases hx : x = n
    · subst hx
      simp [hn, hm]
    · simp [hx]

theorem walk_spec (hg : g.Mirrored) (depth : Nat) {w : Walk} {n : Node} (hw : w.Valid g)
    (hn : g.Reachable n) (hd : g.size < depth + w.reached.length) :
    (g.walk depth w n).Valid g ∧ w.Extends g (g.walk depth w n) ∧
      n ∈ (g.walk depth w n).reached := by
  induction depth generalizing w n with
  | zero =>
    -- No depth is left only once every reachable node is reached.
    have hm : n ∈ w.reached := by
      by_contra hm
      have := length_le_of_reachable hg (List.nodup_cons.2 ⟨hm, hw.reached_nodup⟩)
        (by simpa using ⟨hn, hw.reachable⟩)
      simp only [List.length_cons] at this
      omega
    exact ⟨hw, .refl g w, hm⟩
  | succ depth ih =>
    by_cases hm : n ∈ w.reached
    · simp only [walk, hm, if_true]
      exact ⟨hw, .refl g w, trivial⟩
    · simp only [walk, hm, if_false]
      have hv := hw.enter hn hm
      obtain ⟨hv', he, hs⟩ := foldl_walk ih (g.successors n) hv
        (fun x hx => hn.tail hx) (by simp only [List.length_cons]; omega)
      exact hv'.leave hw hm he hs

end FlowGraph

end ClassLowering
