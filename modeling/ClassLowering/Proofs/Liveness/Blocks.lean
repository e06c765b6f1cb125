import ClassLowering.Proofs.Liveness.Membership
import Mathlib.Data.Nat.Bitwise

namespace ClassLowering

structure BlockSet where
  bound : Nat
  blocks : List (BitVec 64)
  deriving DecidableEq, Repr, Inhabited

namespace BlockSet

def merge (f : BitVec 64 → BitVec 64 → BitVec 64) :
    List (BitVec 64) → List (BitVec 64) → List (BitVec 64)
  | a :: as, b :: bs => f a b :: merge f as bs
  | as, _ => as

def empty (bound : Nat) : BlockSet := ⟨bound, List.replicate ((bound + 63) / 64) 0⟩

def contains (s : BlockSet) (i : Nat) : Bool :=
  i < s.bound && (s.blocks[i / 64]?.getD 0).getLsbD (i % 64)

def insert (s : BlockSet) (i : Nat) : BlockSet :=
  if i < s.bound then
    { s with blocks := s.blocks.modify (i / 64) (· ||| BitVec.twoPow 64 (i % 64)) }
  else s

def erase (s : BlockSet) (i : Nat) : BlockSet :=
  if i < s.bound then
    { s with blocks := s.blocks.modify (i / 64) (· &&& ~~~ BitVec.twoPow 64 (i % 64)) }
  else s

def union (s t : BlockSet) : BlockSet := { s with blocks := merge (· ||| ·) s.blocks t.blocks }

def diff (s t : BlockSet) : BlockSet := { s with blocks := merge (· &&& ~~~ ·) s.blocks t.blocks }

def isEmpty (s : BlockSet) : Bool := s.blocks.all (· == 0)

def size (s : BlockSet) : Nat := (s.blocks.map fun b => b.cpop.toNat).sum

def toList (s : BlockSet) : List Nat :=
  s.blocks.zipIdx.flatMap fun (b, k) => ((List.range 64).filter b.getLsbD).map (64 * k + ·)

theorem getElem?_merge (f : BitVec 64 → BitVec 64 → BitVec 64) (as bs : List (BitVec 64)) (k : Nat) :
    (merge f as bs)[k]? = as[k]?.map fun a => (bs[k]?.map (f a)).getD a := by
  induction as, bs using merge.induct generalizing k with
  | case1 a as b bs ih =>
    cases k with
    | zero => rfl
    | succ k => simpa [merge] using ih k
  | case2 as bs h =>
    cases as with
    | nil => cases bs <;> rfl
    | cons a as =>
      cases bs with
      | nil => simp [merge]
      | cons b bs => exact absurd rfl (h a as b bs rfl)

end BlockSet

theorem cpopNatRec_eq_countP {w : Nat} (b : BitVec w) (k : Nat) :
    b.cpopNatRec k 0 = (List.range k).countP b.getLsbD := by
  induction k with
  | zero => rfl
  | succ k ih =>
    rw [BitVec.cpopNatRec_succ, BitVec.cpopNatRec_add, ih, List.range_succ, List.countP_append]
    cases hk : b.getLsbD k <;> simp [hk]

theorem filter_range_mul (w m : Nat) (p : Nat → Bool) :
    (List.range (w * m)).filter p =
      (List.range m).flatMap fun k =>
        ((List.range w).filter fun j => p (w * k + j)).map (w * k + ·) := by
  induction m with
  | zero => simp
  | succ m ih =>
    rw [Nat.mul_succ, List.range_add, List.filter_append, ih, List.range_succ, List.flatMap_append,
      List.filter_map]
    simp [Function.comp_def]

namespace IndexSet

def blockCount (s : IndexSet) : Nat := (s.bound + 63) / 64

def block (s : IndexSet) (k : Nat) : BitVec 64 := BitVec.ofNat 64 (s.bits >>> (64 * k))

def toBlocks (s : IndexSet) : BlockSet := ⟨s.bound, (List.range s.blockCount).map s.block⟩

def Fits (s : IndexSet) : Prop := ∀ i, s.bits.testBit i = true → i < s.capacity

theorem capacity_eq (s : IndexSet) : s.capacity = 64 * s.blockCount := rfl

theorem getLsbD_block (s : IndexSet) (k j : Nat) :
    (s.block k).getLsbD j = (decide (j < 64) && s.bits.testBit (64 * k + j)) := by
  rw [block, BitVec.getLsbD_ofNat, Nat.testBit_shiftRight]

theorem testBit_eq_getLsbD (s : IndexSet) (i : Nat) :
    s.bits.testBit i = (s.block (i / 64)).getLsbD (i % 64) := by
  rw [getLsbD_block, decide_eq_true (Nat.mod_lt i (by decide)), Bool.true_and, Nat.div_add_mod]

theorem getElem_block (s : IndexSet) (k : Nat) {j : Nat} (hj : j < 64) :
    (s.block k)[j] = s.bits.testBit (64 * k + j) := by
  rw [← BitVec.getLsbD_eq_getElem, getLsbD_block, decide_eq_true hj, Bool.true_and]

theorem Fits.testBit_eq_false {s : IndexSet} (hs : s.Fits) {k j : Nat} (hk : ¬ k < s.blockCount) :
    s.bits.testBit (64 * k + j) = false := by
  refine Bool.eq_false_iff.2 fun hbit => ?_
  have hlt := hs _ hbit
  rw [capacity_eq] at hlt
  omega

theorem getElem?_toBlocks (s : IndexSet) (k : Nat) :
    s.toBlocks.blocks[k]? = if k < s.blockCount then some (s.block k) else none := by
  rw [toBlocks, List.getElem?_map]
  split
  · next h => rw [List.getElem?_range h, Option.map_some]
  · next h => rw [List.getElem?_eq_none (by simpa using h), Option.map_none]

theorem toBlocks_eq {s : IndexSet} {blocks : List (BitVec 64)}
    (h : ∀ k, blocks[k]? = if k < s.blockCount then some (s.block k) else none) :
    s.toBlocks = ⟨s.bound, blocks⟩ := by
  have heq : s.toBlocks.blocks = blocks :=
    List.ext_getElem? fun k => (s.getElem?_toBlocks k).trans (h k).symm
  rw [← heq]
  rfl

theorem toBlocks_modify {s t : IndexSet} {q : Nat} {f : BitVec 64 → BitVec 64}
    (hbound : t.bound = s.bound)
    (h : ∀ k, t.block k = if q = k then f (s.block k) else s.block k) :
    t.toBlocks = { s.toBlocks with blocks := s.toBlocks.blocks.modify q f } := by
  have hcount : t.blockCount = s.blockCount := by rw [blockCount, hbound, blockCount]
  refine (toBlocks_eq fun k => ?_).trans (by rw [hbound]; rfl)
  rw [List.getElem?_modify, getElem?_toBlocks, hcount, h]
  by_cases hk : k < s.blockCount
  · rw [if_pos hk, if_pos hk]
    rfl
  · rw [if_neg hk, if_neg hk]
    rfl

theorem toBlocks_merge {s t u : IndexSet} {f : BitVec 64 → BitVec 64 → BitVec 64}
    (hbound : u.bound = s.bound)
    (h : ∀ k < s.blockCount, u.block k =
      if k < t.blockCount then f (s.block k) (t.block k) else s.block k) :
    u.toBlocks =
      { s.toBlocks with blocks := BlockSet.merge f s.toBlocks.blocks t.toBlocks.blocks } := by
  have hcount : u.blockCount = s.blockCount := by rw [blockCount, hbound, blockCount]
  refine (toBlocks_eq fun k => ?_).trans (by rw [hbound]; rfl)
  rw [BlockSet.getElem?_merge, getElem?_toBlocks, getElem?_toBlocks, hcount]
  by_cases hk : k < s.blockCount
  · rw [if_pos hk, if_pos hk, h k hk]
    split <;> rfl
  · rw [if_neg hk, if_neg hk]
    rfl

theorem testBit_erase (s : IndexSet) (i j : Nat) :
    (s.erase i).bits.testBit j = (s.bits.testBit j && !decide (i = j ∧ i < s.bound)) := by
  unfold erase
  split
  · next h =>
    rw [Bool.and_eq_true, decide_eq_true_eq] at h
    simp only [Nat.testBit_xor, Nat.one_shiftLeft, Nat.testBit_two_pow, h.1, and_true]
    by_cases hij : i = j
    · subst hij
      simp [h.2]
    · simp [hij]
  · next h =>
    rw [Bool.and_eq_true, decide_eq_true_eq, not_and] at h
    by_cases hij : i = j ∧ i < s.bound
    · obtain ⟨rfl, hi⟩ := hij
      simp [h hi]
    · simp [hij]

theorem fits_empty (bound : Nat) : (empty bound).Fits := fun i hi => by simp [empty] at hi

theorem Fits.insert {s : IndexSet} (hs : s.Fits) (i : Nat) : (s.insert i).Fits := by
  have hcapacity : (s.insert i).capacity = s.capacity := by rw [capacity, bound_insert, capacity]
  intro j hj
  rw [testBit_insert, Bool.or_eq_true, decide_eq_true_eq] at hj
  rw [hcapacity]
  obtain hj | ⟨rfl, hi⟩ := hj
  · exact hs j hj
  · exact Nat.lt_of_lt_of_le hi s.bound_le_capacity

theorem Fits.erase {s : IndexSet} (hs : s.Fits) (i : Nat) : (s.erase i).Fits := by
  have hcapacity : (s.erase i).capacity = s.capacity := by rw [capacity, bound_erase, capacity]
  intro j hj
  rw [testBit_erase, Bool.and_eq_true] at hj
  exact hcapacity ▸ hs j hj.1

theorem Fits.union {s : IndexSet} (hs : s.Fits) (t : IndexSet) : (s.union t).Fits := by
  intro j hj
  rw [testBit_union, Bool.or_eq_true, Bool.and_eq_true, decide_eq_true_eq] at hj
  exact hj.elim (hs j) And.left

theorem Fits.diff {s : IndexSet} (hs : s.Fits) (t : IndexSet) : (s.diff t).Fits := by
  intro j hj
  rw [testBit_diff, Bool.and_eq_true] at hj
  exact hs j hj.1

theorem Fits.mem_toList_iff {s : IndexSet} (hs : s.Fits) {i : Nat} :
    i ∈ s.toList ↔ s.bits.testBit i = true :=
  mem_toList.trans (and_iff_right_of_imp (hs i))

theorem Fits.isEmpty_iff_toList {s : IndexSet} (hs : s.Fits) :
    s.isEmpty = true ↔ s.toList = [] := by
  rw [isEmpty, decide_eq_true_eq]
  constructor
  · intro hzero
    simp [toList, hzero]
  · intro hnil
    refine Nat.eq_of_testBit_eq fun i => ?_
    rw [Nat.zero_testBit, Bool.eq_false_iff, Ne, ← hs.mem_toList_iff, hnil]
    exact List.not_mem_nil

theorem toBlocks_empty (bound : Nat) : (empty bound).toBlocks = BlockSet.empty bound := by
  refine toBlocks_eq fun k => ?_
  have hzero : (empty bound).block k = 0 := by simp [block, empty]
  rw [hzero, List.getElem?_replicate]
  rfl

theorem eq_mul_add_iff {i k j : Nat} (hj : j < 64) : i = 64 * k + j ↔ i / 64 = k ∧ i % 64 = j := by
  omega

theorem toBlocks_insert (s : IndexSet) (i : Nat) : (s.insert i).toBlocks = s.toBlocks.insert i := by
  by_cases hi : i < s.bound
  · refine (toBlocks_modify (bound_insert s i) fun k => ?_).trans (if_pos hi).symm
    refine BitVec.eq_of_getElem_eq fun j hj => ?_
    rw [getElem_block]
    simp only [testBit_insert, eq_mul_add_iff hj, hi, and_true]
    by_cases hk : i / 64 = k
    · simp [hk, getElem_block, eq_comm]
    · simp [hk, getElem_block]
  · rw [insert, if_neg hi, BlockSet.insert]
    exact (if_neg hi).symm

theorem toBlocks_erase (s : IndexSet) (i : Nat) : (s.erase i).toBlocks = s.toBlocks.erase i := by
  by_cases hi : i < s.bound
  · refine (toBlocks_modify (bound_erase s i) fun k => ?_).trans (if_pos hi).symm
    refine BitVec.eq_of_getElem_eq fun j hj => ?_
    rw [getElem_block]
    simp only [testBit_erase, eq_mul_add_iff hj, hi, and_true]
    by_cases hk : i / 64 = k
    · simp [hk, getElem_block, eq_comm]
    · simp [hk, getElem_block]
  · have hcan : ¬ (i < s.bound && s.bits.testBit i) = true := by simp [hi]
    rw [erase, if_neg hcan, BlockSet.erase]
    exact (if_neg hi).symm

theorem toBlocks_union {s t : IndexSet} (ht : t.Fits) :
    (s.union t).toBlocks = s.toBlocks.union t.toBlocks := by
  refine toBlocks_merge (bound_union s t) fun k hk => BitVec.eq_of_getElem_eq fun j hj => ?_
  have hcapacity : 64 * k + j < s.capacity := by
    rw [capacity_eq]
    omega
  rw [getElem_block, testBit_union, decide_eq_true hcapacity, Bool.true_and]
  split
  · simp [getElem_block]
  · next hkt => simp [getElem_block, ht.testBit_eq_false hkt]

theorem toBlocks_diff {s t : IndexSet} (ht : t.Fits) :
    (s.diff t).toBlocks = s.toBlocks.diff t.toBlocks := by
  refine toBlocks_merge (bound_diff s t) fun k hk => BitVec.eq_of_getElem_eq fun j hj => ?_
  rw [getElem_block, testBit_diff]
  split
  · simp [getElem_block]
  · next hkt => simp [getElem_block, ht.testBit_eq_false hkt]

theorem contains_toBlocks (s : IndexSet) (i : Nat) : s.toBlocks.contains i = s.contains i := by
  unfold BlockSet.contains contains
  by_cases hi : i < s.bound
  · have hk : i / 64 < s.blockCount := by
      unfold blockCount
      omega
    rw [getElem?_toBlocks, if_pos hk, Option.getD_some, ← testBit_eq_getLsbD]
    rfl
  · simp [hi, toBlocks]

theorem toList_eq_flatMap (s : IndexSet) :
    s.toList = (List.range s.blockCount).flatMap fun k =>
      ((List.range 64).filter (s.block k).getLsbD).map (64 * k + ·) := by
  rw [toList, capacity_eq, filter_range_mul]
  refine List.flatMap_congr fun k _ => congrArg _ (List.filter_congr fun j hj => ?_)
  rw [getLsbD_block, decide_eq_true (List.mem_range.1 hj), Bool.true_and]

theorem toList_toBlocks (s : IndexSet) : s.toBlocks.toList = s.toList := by
  have hindexed : s.toBlocks.blocks.zipIdx = (List.range s.blockCount).map fun k => (s.block k, k) := by
    refine List.ext_getElem? fun k => ?_
    rw [List.getElem?_zipIdx, getElem?_toBlocks, List.getElem?_map]
    by_cases hk : k < s.blockCount
    · rw [if_pos hk, List.getElem?_range hk, Nat.zero_add]
      rfl
    · rw [if_neg hk, List.getElem?_eq_none (by simpa using hk)]
      rfl
  rw [BlockSet.toList, hindexed, List.flatMap_map, toList_eq_flatMap]

theorem size_toBlocks (s : IndexSet) : s.toBlocks.size = s.size := by
  rw [size, toList_eq_flatMap, List.length_flatMap, BlockSet.size, toBlocks, List.map_map]
  refine congrArg List.sum (List.map_congr_left fun k _ => ?_)
  rw [Function.comp_apply, BitVec.toNat_cpop, cpopNatRec_eq_countP, List.countP_eq_length_filter,
    List.length_map]

theorem Fits.eq_of_blocks {s t : IndexSet} (hs : s.Fits) (ht : t.Fits) (hbound : s.bound = t.bound)
    (hblock : ∀ k < s.blockCount, s.block k = t.block k) : s = t := by
  obtain ⟨b, n⟩ := s
  obtain ⟨c, m⟩ := t
  obtain rfl : b = c := hbound
  refine congrArg (IndexSet.mk b) (Nat.eq_of_testBit_eq fun i => ?_)
  by_cases hk : i / 64 < blockCount ⟨b, n⟩
  · exact (testBit_eq_getLsbD ⟨b, n⟩ i).trans
      ((congrArg (·.getLsbD (i % 64)) (hblock _ hk)).trans (testBit_eq_getLsbD ⟨b, m⟩ i).symm)
  · rw [← Nat.div_add_mod i 64]
    exact (hs.testBit_eq_false hk).trans (ht.testBit_eq_false hk).symm

theorem toBlocks_inj {s t : IndexSet} (hs : s.Fits) (ht : t.Fits) :
    s.toBlocks = t.toBlocks ↔ s = t := by
  refine ⟨fun h => ?_, congrArg toBlocks⟩
  have hbound : s.bound = t.bound := congrArg BlockSet.bound h
  have hcount : t.blockCount = s.blockCount := by rw [blockCount, ← hbound, blockCount]
  refine hs.eq_of_blocks ht hbound fun k hk => ?_
  have hget := congrArg (fun b => b.blocks[k]?) h
  rw [getElem?_toBlocks, getElem?_toBlocks, hcount, if_pos hk, if_pos hk] at hget
  exact Option.some.inj hget

theorem isEmpty_toBlocks {s : IndexSet} (hs : s.Fits) : s.toBlocks.isEmpty = s.isEmpty := by
  rw [Bool.eq_iff_iff, BlockSet.isEmpty, List.all_eq_true, isEmpty, decide_eq_true_eq]
  constructor
  · intro h
    refine Nat.eq_of_testBit_eq fun i => ?_
    rw [Nat.zero_testBit, Bool.eq_false_iff]
    intro hbit
    have hk : i / 64 < s.blockCount := by
      have hlt := hs i hbit
      rw [capacity_eq] at hlt
      omega
    have hmem : s.block (i / 64) ∈ s.toBlocks.blocks :=
      List.mem_map.2 ⟨_, List.mem_range.2 hk, rfl⟩
    rw [testBit_eq_getLsbD, eq_of_beq (h _ hmem)] at hbit
    simp at hbit
  · intro h b hb
    obtain ⟨k, -, rfl⟩ := List.mem_map.1 hb
    simp [block, h]

end IndexSet

structure BlockSet.Shows (b : BlockSet) (s : IndexSet) : Prop where
  bound : b.bound = s.bound
  contains : ∀ i, b.contains i = s.contains i
  toList : b.toList = s.toList
  size : b.size = s.size
  isEmpty : b.isEmpty = s.isEmpty

theorem IndexSet.Fits.shows {s : IndexSet} (hs : s.Fits) : s.toBlocks.Shows s :=
  ⟨rfl, s.contains_toBlocks, s.toList_toBlocks, s.size_toBlocks, isEmpty_toBlocks hs⟩

end ClassLowering
