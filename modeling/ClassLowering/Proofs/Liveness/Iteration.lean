import ClassLowering.Proofs.Liveness.Passes
import Mathlib.Data.Finset.Powerset
import Mathlib.Dynamics.PeriodicPts.Defs

namespace ClassLowering

section Settle

variable {α : Type} [DecidableEq α] {step : α → α} {value : α} {done bound : Nat}

theorem settle_eq_none_iff : settle step value done bound = none ↔
    ∀ k < bound, step^[k + 1] value ≠ step^[k] value := by
  induction bound generalizing value done with
  | zero => exact ⟨fun _ k hk => absurd hk (Nat.not_lt_zero k), fun _ => rfl⟩
  | succ bound ih =>
    simp only [settle]
    split
    · next same =>
      exact iff_of_false (Option.some_ne_none _) fun h => h 0 (Nat.succ_pos bound) same
    · next changed =>
      rw [ih]
      refine ⟨fun h k hk => ?_, fun h k hk => h (k + 1) (Nat.succ_lt_succ hk)⟩
      cases k with
      | zero => exact changed
      | succ k => exact h k (Nat.lt_of_succ_lt_succ hk)

theorem settle_eq_some {result : α} {count : Nat}
    (h : settle step value done bound = some (result, count)) :
    ∃ k, result = step^[k] value ∧ step result = result := by
  induction bound generalizing value done with
  | zero => cases h
  | succ bound ih =>
    simp only [settle] at h
    split at h
    · next same =>
      cases h
      exact ⟨0, rfl, same⟩
    · obtain ⟨k, hk, hfixed⟩ := ih h
      exact ⟨k + 1, hk, hfixed⟩

end Settle

namespace Liveness

variable {g : FlowGraph} {l : Liveness} {F : Array Facts}

def passed (g : FlowGraph) (l : Liveness) (k : Nat) : Array Facts := (pass g l)^[k] l.facts

theorem passed_succ (g : FlowGraph) (l : Liveness) (k : Nat) :
    passed g l (k + 1) = pass g l (passed g l k) :=
  Function.iterate_succ_apply' _ _ _

theorem fits_passed (hl : l.Regular) (hF : l.Fits l.facts) (g : FlowGraph) (k : Nat) :
    l.Fits (passed g l k) := by
  induction k with
  | zero => exact hF
  | succ k ih => exact passed_succ g l k ▸ fits_pass hl ih g

def Early (l : Liveness) (s n : Node) : Prop := l.order.idxOf s < l.order.idxOf n

instance (l : Liveness) (s n : Node) : Decidable (l.Early s n) := inferInstanceAs (Decidable (_ < _))

theorem early_iff {front back : List Node} {n : Node} (hnodup : l.order.Nodup)
    (hsplit : l.order = front ++ n :: back) (s : Node) : l.Early s n ↔ s ∈ front := by
  rw [hsplit] at hnodup
  have hn : n ∉ front := fun h => List.disjoint_of_nodup_append hnodup h List.mem_cons_self
  have hat : l.order.idxOf n = front.length := by
    rw [hsplit, List.idxOf_append_of_notMem hn, List.idxOf_cons_self, Nat.add_zero]
  rw [Early, hat, hsplit]
  by_cases hs : s ∈ front
  · rw [List.idxOf_append_of_mem hs]
    exact iff_of_true (List.idxOf_lt_length_of_mem hs) hs
  · rw [List.idxOf_append_of_notMem hs]
    exact iff_of_false (Nat.not_lt.2 (Nat.le_add_right _ _)) hs

def InAt (g : FlowGraph) (l : Liveness) (F : Array Facts) (n s : Node) (i : Nat) : Prop :=
  if l.Early s n then l.In (pass g l F) s i else l.In F s i

theorem factsIn_pass_of_not_mem (hl : l.Regular) (hF : l.Fits F) {n : Node} (hn : n ∉ l.order) :
    l.factsIn (pass g l F) n = l.factsIn F n :=
  (factsIn_foldl_update hl g (fun _ => id) hn hF).2

theorem pass_at (hl : l.Regular) (hF : l.Fits F) {n : Node} (hn : n ∈ l.order) (i : Nat) :
    (l.In (pass g l F) n i ↔
      l.Reads n i ∨ (∃ s, g.Edge n s ∧ InAt g l F n s i) ∧ ¬ l.Writes n i) ∧
    (l.Out (pass g l F) n i ↔ ∃ s, g.Edge n s ∧ InAt g l F n s i) := by
  obtain ⟨front, back, hsplit⟩ := List.append_of_mem hn
  obtain ⟨G, hG, hat, hkept, hrest⟩ := exists_update_pass hl hF g hsplit
  have hnodup := hl.order_nodup
  have hin (s : Node) : l.In G s i ↔ InAt g l F n s i := by
    have hearly := early_iff hnodup hsplit s
    unfold InAt
    split
    · next hs =>
      rw [hsplit] at hnodup
      have hrest := List.disjoint_of_nodup_append hnodup (hearly.1 hs)
      rw [In, In, hkept s hrest]
    · next hs => rw [In, In, hrest s (mt hearly.2 hs)]
  have hsome : (∃ s, g.Edge n s ∧ l.In G s i) ↔ ∃ s, g.Edge n s ∧ InAt g l F n s i :=
    exists_congr fun s => and_congr_right fun _ => hin s
  refine ⟨?_, ?_⟩
  · rw [In, hat, ← hsome]
    exact (in_update hl hG g hn n i).trans (if_pos rfl).to_iff
  · rw [Out, hat, ← hsome]
    exact (out_update hl hG g hn n i).trans (if_pos rfl).to_iff

theorem alive_inj {G : Array Facts} (hF : l.Fits F) (hG : l.Fits G) (h : l.alive F = l.alive G) :
    F = G := by
  refine hF.ext hG (fun n hn i => ?_) fun n hn i => ?_
  · rw [← mem_alive_in hF hn, ← mem_alive_in hG hn, h]
  · rw [← mem_alive_out hF hn, ← mem_alive_out hG hn, h]

theorem exists_passed_eq (hl : l.Regular) (hF : l.Fits l.facts) (g : FlowGraph) :
    ∃ i j, i < j ∧ j ≤ l.stateCount ∧ passed g l i = passed g l j := by
  have hcard : l.places.powerset.card < (Finset.range (l.stateCount + 1)).card := by
    rw [Finset.card_powerset, Finset.card_range, stateCount, Nat.one_shiftLeft]
    exact Nat.lt_succ_of_le (Nat.pow_le_pow_right Nat.two_pos l.card_places_le)
  obtain ⟨i, hi, j, hj, hne, heq⟩ := Finset.exists_ne_map_eq_of_card_lt_of_maps_to hcard
    (f := fun k => l.alive (passed g l k)) fun k _ => Finset.mem_powerset.2 (Finset.filter_subset _ _)
  have hsame := alive_inj (fits_passed hl hF g i) (fits_passed hl hF g j) heq
  rw [Finset.mem_range] at hi hj
  obtain hlt | hlt := Nat.lt_or_gt_of_ne hne
  · exact ⟨i, j, hlt, Nat.le_of_lt_succ hj, hsame⟩
  · exact ⟨j, i, hlt, Nat.le_of_lt_succ hi, hsame.symm⟩

theorem passed_add (g : FlowGraph) (l : Liveness) (j k : Nat) :
    passed g l (j + k) = (pass g l)^[j] (passed g l k) :=
  Function.iterate_add_apply _ _ _ _

theorem passed_eq_of_le {k k' : Nat} (h : passed g l (k + 1) = passed g l k) (hle : k ≤ k') :
    passed g l k' = passed g l k := by
  rw [passed_succ] at h
  rw [← Nat.sub_add_cancel hle, passed_add]
  exact Function.iterate_fixed h _

theorem settled_of_repeat {i j k : Nat} (hlt : i < j) (heq : passed g l i = passed g l j)
    (h : passed g l (k + 1) = passed g l k) : passed g l (i + 1) = passed g l i := by
  have hperiod : Function.IsPeriodicPt (pass g l) (j - i) (passed g l i) := by
    rw [Function.IsPeriodicPt, Function.IsFixedPt, ← passed_add, Nat.sub_add_cancel hlt.le, heq]
  have hmany : passed g l (k * (j - i) + i) = passed g l i := by
    rw [passed_add]
    exact hperiod.const_mul k
  have hle : k ≤ k * (j - i) + i :=
    Nat.le_add_right_of_le (Nat.le_mul_of_pos_right k (Nat.sub_pos_of_lt hlt))
  have hsame : passed g l i = passed g l k := hmany.symm.trans (passed_eq_of_le h hle)
  rw [passed_succ, hsame, ← passed_succ, h]

theorem solve?_eq_none_iff (hl : l.Regular) (hF : l.Fits l.facts) :
    solve? g l = none ↔ ∀ k, passed g l (k + 1) ≠ passed g l k := by
  rw [solve?, Option.map_eq_none_iff, settle_eq_none_iff]
  refine ⟨fun h k hk => ?_, fun h k _ => h k⟩
  obtain ⟨i, j, hlt, hj, heq⟩ := exists_passed_eq hl hF g
  exact h i (Nat.lt_succ_of_le (hlt.le.trans hj)) (settled_of_repeat hlt heq hk)

theorem solve?_isSome (hl : l.Regular) (hF : l.Fits l.facts) {k : Nat}
    (h : passed g l (k + 1) = passed g l k) : (solve? g l).isSome = true := by
  rw [← Option.ne_none_iff_isSome, Ne, solve?_eq_none_iff hl hF]
  exact fun hne => hne k h

theorem solves_of_solve? (hl : l.Regular) (hF : l.Fits l.facts) {solved : Liveness}
    (h : solve? g l = some solved) : solved.order = l.order ∧ Solves g l solved.facts := by
  rw [solve?, Option.map_eq_some_iff] at h
  obtain ⟨⟨facts, passes⟩, hsettle, rfl⟩ := h
  obtain ⟨k, rfl, hfixed⟩ := settle_eq_some hsettle
  exact ⟨rfl, solves_of_pass_eq hl (fits_passed hl hF g k) hfixed⟩

structure Saturated (g : FlowGraph) (l : Liveness) (F : Array Facts) : Prop where
  out : ∀ n ∈ l.order, ∀ i, (∃ s, g.Edge n s ∧ l.In F s i) → l.Out F n i
  into : ∀ n ∈ l.order, ∀ i,
    l.Reads n i ∨ (∃ s, g.Edge n s ∧ l.In F s i) ∧ ¬ l.Writes n i → l.In F n i

theorem Saturated.update (hl : l.Regular) (hF : l.Fits F) (hs : Saturated g l F) {n : Node}
    (hn : n ∈ l.order) :
    Saturated g l (update g l.bound F n) ∧ l.Below (Liveness.update g l.bound F n) F := by
  have hin (k : Node) (i : Nat) (h : l.In (Liveness.update g l.bound F n) k i) : l.In F k i := by
    rw [in_update hl hF g hn] at h
    split at h
    · next e => exact e ▸ hs.into n hn i h
    · exact h
  have hsome (k : Node) (i : Nat) :
      (∃ s, g.Edge k s ∧ l.In (Liveness.update g l.bound F n) s i) →
        ∃ s, g.Edge k s ∧ l.In F s i :=
    fun ⟨s, hs, h⟩ => ⟨s, hs, hin s i h⟩
  refine ⟨⟨fun k hk i h => ?_, fun k hk i h => ?_⟩, fun k i => ⟨hin k i, fun h => ?_⟩⟩
  · rw [out_update hl hF g hn]
    split
    · next e => exact e ▸ hsome k i h
    · exact hs.out k hk i (hsome k i h)
  · have hdue := h.imp_right fun h => And.intro (hsome k i h.1) h.2
    rw [in_update hl hF g hn]
    split
    · next e => exact e ▸ hdue
    · exact hs.into k hk i hdue
  · rw [out_update hl hF g hn] at h
    split at h
    · next e => exact e ▸ hs.out n hn i h
    · exact h

theorem Below.trans {G H : Array Facts} (h : l.Below F G) (h' : l.Below G H) : l.Below F H :=
  fun n i => ⟨(h' n i).1 ∘ (h n i).1, (h' n i).2 ∘ (h n i).2⟩

theorem Reasoned.pass (hl : l.Regular) (hF : l.Fits F) (hr : Reasoned g l F) :
    Reasoned g l (pass g l F) ∧ l.Below F (Liveness.pass g l F) := by
  refine (pass_preserves (P := fun G => l.Fits G ∧ Reasoned g l G ∧ l.Below F G) ?_
    ⟨hF, hr, fun _ _ => ⟨id, id⟩⟩).2
  rintro G n hn ⟨hG, hr, hb⟩
  obtain ⟨hr', hb'⟩ := hr.update hl hG hn
  exact ⟨hG.update hl g hn, hr', hb.trans hb'⟩

theorem Saturated.pass (hl : l.Regular) (hF : l.Fits F) (hs : Saturated g l F) :
    Saturated g l (pass g l F) ∧ l.Below (Liveness.pass g l F) F := by
  refine (pass_preserves (P := fun G => l.Fits G ∧ Saturated g l G ∧ l.Below G F) ?_
    ⟨hF, hs, fun _ _ => ⟨id, id⟩⟩).2
  rintro G n hn ⟨hG, hs, hb⟩
  obtain ⟨hs', hb'⟩ := hs.update hl hG hn
  exact ⟨hG.update hl g hn, hs', hb'.trans hb⟩

theorem solve?_of_measure {Inv : Array Facts → Prop} {μ : Array Facts → Nat}
    (hstep : ∀ F, Inv F → Inv (pass g l F) ∧ (pass g l F ≠ F → μ F < μ (pass g l F)))
    (hmost : ∀ F, Inv F → μ F ≤ l.places.card) (h : Inv l.facts) :
    (solve? g l).isSome = true := by
  have hcount := l.card_places_lt
  obtain ⟨F, passes, hs, -⟩ := settle_of_measure hstep hmost h 0 (l.stateCount + 1) (by omega)
  rw [solve?, hs]
  rfl

theorem solve?_of_reasoned (hl : l.Regular) (hF : l.Fits l.facts) (hr : Reasoned g l l.facts) :
    (solve? g l).isSome = true := by
  have hstep (F : Array Facts) (h : l.Fits F ∧ Reasoned g l F) :
      (l.Fits (pass g l F) ∧ Reasoned g l (pass g l F)) ∧
        (pass g l F ≠ F → (l.alive F).card < (l.alive (pass g l F)).card) := by
    obtain ⟨hfit, hreason⟩ := h
    obtain ⟨hreason', hbelow⟩ := hreason.pass hl hfit
    have hfit' := fits_pass hl hfit g
    exact ⟨⟨hfit', hreason'⟩, fun hne => Finset.card_lt_card (alive_ssubset hfit hfit' hbelow hne)⟩
  exact solve?_of_measure hstep (fun F _ => l.card_alive_le F) ⟨hF, hr⟩

theorem solve?_of_saturated (hl : l.Regular) (hF : l.Fits l.facts) (hs : Saturated g l l.facts) :
    (solve? g l).isSome = true := by
  have hstep (F : Array Facts) (h : l.Fits F ∧ Saturated g l F) :
      (l.Fits (pass g l F) ∧ Saturated g l (pass g l F)) ∧
        (pass g l F ≠ F → l.places.card - (l.alive F).card <
          l.places.card - (l.alive (pass g l F)).card) := by
    obtain ⟨hfit, hfull⟩ := h
    obtain ⟨hfull', hbelow⟩ := hfull.pass hl hfit
    have hfit' := fits_pass hl hfit g
    refine ⟨⟨hfit', hfull'⟩, fun hne => ?_⟩
    have hlt := Finset.card_lt_card (alive_ssubset hfit' hfit hbelow hne.symm)
    have hle := l.card_alive_le F
    omega
  exact solve?_of_measure hstep (fun F _ => Nat.sub_le _ _) ⟨hF, hs⟩

end Liveness

end ClassLowering
