namespace ClassLowering

def settle {α : Type} [DecidableEq α] (step : α → α) (value : α) (done : Nat) :
    Nat → Option (α × Nat)
  | 0 => none
  | bound + 1 =>
    let next := step value
    if next = value then some (value, done + 1) else settle step next (done + 1) bound

theorem step_of_settle {α : Type} [DecidableEq α] {step : α → α} {value result : α}
    {done bound count : Nat} (h : settle step value done bound = some (result, count)) :
    step result = result := by
  induction bound generalizing value done with
  | zero => simp [settle] at h
  | succ bound ih =>
    simp only [settle] at h
    split at h
    · next same => simp_all
    · exact ih h

end ClassLowering
