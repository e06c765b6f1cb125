import ClassLowering.Proofs.Flow.Traversal

namespace ClassLowering

namespace FlowGraph

open Relation

variable {g : FlowGraph}

def LoopFree (g : FlowGraph) : Prop := ∀ n, g.Reachable n → ¬ TransGen g.Edge n n

theorem LoopFree.of_rank (rank : Node → Nat)
    (h : ∀ slot < g.size, ∀ s ∈ g.successors ⟨slot⟩, rank ⟨slot⟩ < rank s) : g.LoopFree := by
  have hedge (a b : Node) (hab : g.Edge a b) : rank a < rank b := by
    refine h a.index ?_ b hab
    by_contra hlt
    have hnone := linksOf_of_size_le (n := a) (Nat.not_lt.1 hlt)
    rw [Edge, successors, hnone] at hab
    cases hab
  intro n _ hloop
  have hrise : TransGen (· < ·) (rank n) (rank n) := hloop.lift rank hedge
  rw [transGen_eq_self] at hrise
  exact Nat.lt_irrefl _ hrise

def Grounded (g : FlowGraph) (l : List Node) : Prop :=
  ∀ front n back, l = front ++ n :: back → ∀ s, g.Edge n s → s ∈ back

theorem Grounded.cons {l : List Node} {n : Node} (h : g.Grounded l)
    (hn : ∀ s, g.Edge n s → s ∈ l) : g.Grounded (n :: l) := by
  intro front k back hsplit
  cases front with
  | nil =>
    cases hsplit
    exact hn
  | cons _ rest =>
    cases hsplit
    exact h rest k back rfl

namespace Walk

variable {w w' : Walk} {n s : Node}

def LeadsTo (g : FlowGraph) (w : Walk) (n : Node) : Prop :=
  ∀ x ∈ w.reached, x ∉ w.finished → ReflTransGen g.Edge x n

theorem LeadsTo.of_extends (h : w.LeadsTo g n) (he : w.Extends g w') : w'.LeadsTo g n := by
  intro x hx hopen
  rw [he.finished x] at hopen
  have hold : x ∈ w.reached := by
    by_contra hnew
    exact hopen (.inr ⟨hx, hnew⟩)
  exact h x hold fun hf => hopen (.inl hf)

theorem LeadsTo.enter (h : w.LeadsTo g n) :
    LeadsTo g { w with reached := n :: w.reached } n := by
  intro x hx hopen
  rcases List.mem_cons.1 hx with rfl | hx
  · exact .refl
  · exact h x hx hopen

theorem LeadsTo.tail (h : w.LeadsTo g n) (hs : g.Edge n s) : w.LeadsTo g s :=
  fun x hx hopen => (h x hx hopen).tail hs

end Walk

theorem foldl_grounded (hg : g.Mirrored) {depth : Nat}
    (ih : ∀ {w : Walk} {n : Node}, w.Valid g → g.Reachable n → g.size < depth + w.reached.length →
      w.LeadsTo g n → g.Grounded w.finished → g.Grounded (g.walk depth w n).finished)
    (l : List Node) {w : Walk} (hw : w.Valid g) (hl : ∀ x ∈ l, g.Reachable x ∧ w.LeadsTo g x)
    (hd : g.size < depth + w.reached.length) (hb : g.Grounded w.finished) :
    g.Grounded (l.foldl (g.walk depth) w).finished := by
  induction l generalizing w with
  | nil => exact hb
  | cons a l ihl =>
    obtain ⟨⟨ha, hleads⟩, hrest⟩ := List.forall_mem_cons.1 hl
    obtain ⟨hv, he, -⟩ := walk_spec hg depth hw ha hd
    have hlen : w.reached.length ≤ (g.walk depth w a).reached.length :=
      (List.subperm_of_subset hw.reached_nodup he.reached).length_le
    exact ihl hv (fun x hx => ⟨(hrest x hx).1, (hrest x hx).2.of_extends he⟩) (by omega)
      (ih hw ha hd hleads hb)

theorem walk_grounded (hg : g.Mirrored) (hfree : g.LoopFree) (depth : Nat) {w : Walk} {n : Node}
    (hw : w.Valid g) (hn : g.Reachable n) (hd : g.size < depth + w.reached.length)
    (hp : w.LeadsTo g n) (hb : g.Grounded w.finished) :
    g.Grounded (g.walk depth w n).finished := by
  induction depth generalizing w n with
  | zero => exact hb
  | succ depth ih =>
    by_cases hm : n ∈ w.reached
    · simpa only [walk, hm, if_true] using hb
    · simp only [walk, hm, if_false]
      have hd' : g.size < depth + (n :: w.reached).length := by
        simp only [List.length_cons]
        omega
      have hsuccessors (s : Node) (hs : s ∈ g.successors n) :
          g.Reachable s ∧ Walk.LeadsTo g { w with reached := n :: w.reached } s :=
        ⟨hn.tail hs, hp.enter.tail hs⟩
      obtain ⟨-, he, hreached⟩ := foldl_walk (fun hw hn hd => walk_spec hg depth hw hn hd)
        (g.successors n) (hw.enter hn hm) (fun s hs => (hsuccessors s hs).1) hd'
      refine (foldl_grounded hg ih _ (hw.enter hn hm) hsuccessors hd' hb).cons fun s hs => ?_
      -- A successor that is not finished lies on the path to the node, which closes a loop.
      by_contra hopen
      exact hfree n hn (.head' hs (hp.enter.of_extends he s (hreached s hs) hopen))

theorem postorder_grounded (hg : g.Mirrored) (hfree : g.LoopFree) :
    g.Grounded g.postorder.reverse := by
  rw [postorder_eq_walk hg, List.reverse_reverse]
  have hv : Walk.Valid g {} := ⟨List.nodup_nil, List.nodup_nil, by simp, by simp⟩
  have hnone : Walk.LeadsTo g {} .entry := by simp [Walk.LeadsTo]
  exact walk_grounded hg hfree _ hv .refl (by simp) hnone (by simp [Grounded])

end FlowGraph

end ClassLowering
