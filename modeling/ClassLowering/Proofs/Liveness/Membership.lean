import ClassLowering.Liveness.Basic
import Mathlib.Data.List.Nodup

namespace ClassLowering

namespace IndexSet

structure Within (s : IndexSet) (bound : Nat) : Prop where
  bound_eq : s.bound = bound
  lt_bound : ∀ i, s.bits.testBit i = true → i < bound

variable {s t : IndexSet} {bound : Nat}

theorem Within.contains_iff (hs : s.Within bound) (i : Nat) :
    s.contains i = true ↔ s.bits.testBit i = true := by
  simp only [contains, Bool.and_eq_true, decide_eq_true_eq, hs.bound_eq, and_iff_right_iff_imp]
  exact hs.lt_bound i

theorem Within.lt (hs : s.Within bound) {i : Nat} (h : s.contains i = true) : i < bound :=
  hs.lt_bound i ((hs.contains_iff i).1 h)

theorem Within.ext (hs : s.Within bound) (ht : t.Within bound)
    (h : ∀ i, s.contains i = true ↔ t.contains i = true) : s = t := by
  obtain ⟨b, n⟩ := s
  obtain ⟨c, k⟩ := t
  have hb : b = c := hs.bound_eq.trans ht.bound_eq.symm
  have hn : n = k := by
    refine Nat.eq_of_testBit_eq fun i => Bool.eq_iff_iff.2 ?_
    rw [← hs.contains_iff i, ← ht.contains_iff i]
    exact h i
  rw [hb, hn]

theorem within_empty (bound : Nat) : (empty bound).Within bound :=
  ⟨rfl, fun i h => by simp [empty] at h⟩

theorem contains_empty (bound i : Nat) : (empty bound).contains i = false := by
  simp [contains, empty]

theorem Within.insert (hs : s.Within bound) (i : Nat) : (s.insert i).Within bound := by
  refine ⟨(bound_insert s i).trans hs.bound_eq, fun j h => ?_⟩
  rw [testBit_insert, Bool.or_eq_true, decide_eq_true_eq] at h
  rcases h with h | ⟨rfl, h⟩
  · exact hs.lt_bound j h
  · exact hs.bound_eq ▸ h

theorem contains_insert (hs : s.Within bound) {i : Nat} (hi : i < bound) (j : Nat) :
    (s.insert i).contains j = true ↔ s.contains j = true ∨ i = j := by
  rw [(hs.insert i).contains_iff, hs.contains_iff, testBit_insert, Bool.or_eq_true,
    decide_eq_true_eq, hs.bound_eq]
  simp only [hi, and_true]

theorem Within.union (hs : s.Within bound) (ht : t.Within bound) : (s.union t).Within bound := by
  refine ⟨hs.bound_eq, fun i h => ?_⟩
  rw [testBit_union, Bool.or_eq_true, Bool.and_eq_true] at h
  rcases h with h | ⟨-, h⟩
  · exact hs.lt_bound i h
  · exact ht.lt_bound i h

theorem contains_union (hs : s.Within bound) (ht : t.Within bound) (i : Nat) :
    (s.union t).contains i = true ↔ s.contains i = true ∨ t.contains i = true := by
  rw [(hs.union ht).contains_iff, hs.contains_iff, ht.contains_iff, testBit_union, Bool.or_eq_true,
    Bool.and_eq_true, decide_eq_true_eq]
  refine or_congr_right ⟨And.right, fun h => ⟨?_, h⟩⟩
  exact Nat.lt_of_lt_of_le (hs.bound_eq ▸ ht.lt_bound i h) s.bound_le_capacity

theorem Within.diff (hs : s.Within bound) (t : IndexSet) : (s.diff t).Within bound := by
  refine ⟨hs.bound_eq, fun i h => hs.lt_bound i ?_⟩
  rw [testBit_diff, Bool.and_eq_true] at h
  exact h.1

theorem contains_diff (hs : s.Within bound) (ht : t.Within bound) (i : Nat) :
    (s.diff t).contains i = true ↔ s.contains i = true ∧ ¬ t.contains i = true := by
  rw [(hs.diff t).contains_iff, hs.contains_iff, ht.contains_iff, testBit_diff]
  simp

theorem mem_toList_iff (hs : s.Within bound) (i : Nat) :
    i ∈ s.toList ↔ s.contains i = true := by
  rw [mem_toList, hs.contains_iff]
  refine ⟨And.right, fun h => ⟨?_, h⟩⟩
  exact Nat.lt_of_lt_of_le (hs.bound_eq ▸ hs.lt_bound i h) s.bound_le_capacity

theorem foldl_insert_spec (l : List Nat) (hl : ∀ i ∈ l, i < bound) (hs : s.Within bound) :
    (l.foldl insert s).Within bound ∧
      ∀ i, (l.foldl insert s).contains i = true ↔ s.contains i = true ∨ i ∈ l := by
  induction l generalizing s with
  | nil => exact ⟨hs, by simp⟩
  | cons a l ih =>
    obtain ⟨hw, hc⟩ := ih (fun i hi => hl i (by simp [hi])) (hs.insert a)
    refine ⟨hw, fun i => ?_⟩
    rw [List.foldl_cons, hc, contains_insert hs (hl a (by simp)), List.mem_cons, or_assoc,
      eq_comm (a := a)]

theorem foldl_union_spec (l : List IndexSet) (hl : ∀ t ∈ l, t.Within bound) (hs : s.Within bound) :
    (l.foldl union s).Within bound ∧
      ∀ i, (l.foldl union s).contains i = true ↔
        s.contains i = true ∨ ∃ t ∈ l, t.contains i = true := by
  induction l generalizing s with
  | nil => exact ⟨hs, by simp⟩
  | cons a l ih =>
    have ha := hl a (by simp)
    obtain ⟨hw, hc⟩ := ih (fun t ht => hl t (by simp [ht])) (hs.union ha)
    refine ⟨hw, fun i => ?_⟩
    rw [List.foldl_cons, hc, contains_union hs ha, or_assoc]
    simp only [List.mem_cons, exists_eq_or_imp]

end IndexSet

theorem exists_idxOf? {l : List String} {v : String} (h : v ∈ l) : ∃ i, l.idxOf? v = some i := by
  cases hi : l.idxOf? v with
  | none => exact absurd h (List.idxOf?_eq_none_iff.1 hi)
  | some i => exact ⟨i, rfl⟩

theorem idxOf?_lt {l : List String} {v : String} {i : Nat} (h : l.idxOf? v = some i) :
    i < l.length :=
  (List.getElem?_eq_some_iff.1 (getElem?_of_idxOf? h)).1

theorem idxOf?_of_getElem? {l : List String} {v : String} {i : Nat} (hl : l.Nodup)
    (h : l[i]? = some v) : l.idxOf? v = some i := by
  obtain ⟨j, hj⟩ := exists_idxOf? (List.mem_of_getElem? h)
  have hi := (List.getElem?_eq_some_iff.1 h).1
  rw [hj, (List.getElem?_inj hi hl).1 (h.trans (getElem?_of_idxOf? hj).symm)]

namespace Liveness

def Has (l : Liveness) (s : IndexSet) (v : String) : Prop :=
  ∃ i, l.index? v = some i ∧ s.contains i = true

variable {l : Liveness}

theorem liveOutHas_iff {n : Node} {v : String} :
    l.liveOutHas n v = true ↔ l.Has (l.factsAt n).liveOut v := by
  simp [liveOutHas, Has, Option.any_eq_true]

theorem writesHas_iff {n : Node} {v : String} :
    l.writesHas n v = true ↔ l.Has (l.factsAt n).writes v := by
  simp [writesHas, Has, Option.any_eq_true]

theorem mem_names {s : IndexSet} (hl : l.tracked.Nodup) (hs : s.Within l.bound) {v : String} :
    v ∈ l.names s ↔ l.Has s v := by
  simp only [names, List.mem_filterMap, IndexSet.mem_toList_iff hs, name?, Has, index?]
  constructor
  · rintro ⟨i, hi, hv⟩
    exact ⟨i, idxOf?_of_getElem? hl hv, hi⟩
  · rintro ⟨i, hv, hi⟩
    exact ⟨i, hi, getElem?_of_idxOf? hv⟩

theorem setOf_spec (tracked names : List String) :
    (setOf tracked names).Within tracked.length ∧
      ∀ i, (setOf tracked names).contains i = true ↔ ∃ v ∈ names, tracked.idxOf? v = some i := by
  have hl : ∀ i ∈ names.filterMap tracked.idxOf?, i < tracked.length := by
    intro i hi
    obtain ⟨v, -, hv⟩ := List.mem_filterMap.1 hi
    exact idxOf?_lt hv
  obtain ⟨hw, hc⟩ := IndexSet.foldl_insert_spec _ hl (IndexSet.within_empty _)
  refine ⟨hw, fun i => ?_⟩
  have hi := hc i
  rw [IndexSet.contains_empty] at hi
  unfold setOf
  simpa using hi

end Liveness

end ClassLowering
