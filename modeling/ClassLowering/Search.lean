namespace ClassLowering

def firstFrom (test : Nat → Bool) (start : Nat) : Nat → Nat
  | 0 => start
  | bound + 1 => if test start then start else firstFrom test (start + 1) bound

theorem le_firstFrom (test : Nat → Bool) (start bound : Nat) :
    start ≤ firstFrom test start bound := by
  induction bound generalizing start with
  | zero => exact Nat.le_refl start
  | succ bound ih =>
    unfold firstFrom
    split
    · exact Nat.le_refl start
    · exact Nat.le_trans (Nat.le_succ start) (ih (start + 1))

theorem firstFrom_le (test : Nat → Bool) (start bound : Nat) :
    firstFrom test start bound ≤ start + bound := by
  induction bound generalizing start with
  | zero => exact Nat.le_refl start
  | succ bound ih =>
    unfold firstFrom
    split
    · exact Nat.le_add_right start (bound + 1)
    · have := ih (start + 1)
      omega

theorem test_eq_false_of_lt_firstFrom {test : Nat → Bool} {start bound n : Nat}
    (from_start : start ≤ n) (before : n < firstFrom test start bound) : test n = false := by
  induction bound generalizing start with
  | zero => exact absurd before (Nat.not_lt.2 from_start)
  | succ bound ih =>
    unfold firstFrom at before
    split at before
    · exact absurd before (Nat.not_lt.2 from_start)
    · next failed =>
      rcases Nat.eq_or_lt_of_le from_start with rfl | later
      · simpa using failed
      · exact ih later before

theorem test_firstFrom {test : Nat → Bool} {start bound n : Nat} (from_start : start ≤ n)
    (within : n ≤ start + bound) (passes : test n = true) :
    test (firstFrom test start bound) = true := by
  induction bound generalizing start with
  | zero =>
    have : n = start := by omega
    simpa [firstFrom, this] using this ▸ passes
  | succ bound ih =>
    unfold firstFrom
    split
    · assumption
    · next failed =>
      have : start ≠ n := fun same => failed (same ▸ passes)
      exact ih (by omega) (by omega)

end ClassLowering
