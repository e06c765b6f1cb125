import Mathlib.Data.List.Nodup
import Mathlib.Data.List.Perm.Subperm
import ClassLowering.Code.LabelSupply

namespace ClassLowering

namespace LabelSupply

variable {stem : String} {s : LabelSupply}

theorem repr_injective : Function.Injective Nat.repr := by
  intro a b h
  have hdigits : Nat.toDigits 10 a = Nat.toDigits 10 b := by
    simpa only [Nat.toList_repr] using congrArg String.toList h
  have hvalue := congrArg (fun digits => Nat.ofDigitChars 10 digits 0) hdigits
  simpa using hvalue

theorem numbered_injective (stem : String) : Function.Injective (numbered stem) := by
  intro a b h
  have hlist : stem.toList ++ '_' :: a.repr.toList = stem.toList ++ '_' :: b.repr.toList := by
    simpa [numbered] using congrArg String.toList h
  have hdigits : a.repr.toList = b.repr.toList := by simpa using hlist
  exact repr_injective (String.toList_injective hdigits)

theorem exists_unused (s : LabelSupply) (stem : String) :
    ∃ n, s.next ≤ n ∧ n ≤ s.next + s.used.length ∧ numbered stem n ∉ s.used := by
  by_contra h
  let candidates := (List.range' s.next (s.used.length + 1)).map (numbered stem)
  have hnodup : candidates.Nodup :=
    (List.nodup_map_iff (numbered_injective stem)).2 (List.nodup_range' 1)
  have hsub : candidates ⊆ s.used := by
    intro label hlabel
    obtain ⟨n, hn, rfl⟩ := List.mem_map.1 hlabel
    rw [List.mem_range'_1] at hn
    by_contra hunused
    exact h ⟨n, hn.1, by omega, hunused⟩
  have hle := (List.subperm_of_subset hnodup hsub).length_le
  rw [List.length_map, List.length_range'] at hle
  omega

theorem fresh_not_mem (s : LabelSupply) (stem : String) : (s.fresh stem).1 ∉ s.used := by
  obtain ⟨n, hlow, hhigh, hunused⟩ := s.exists_unused stem
  have htest : decide (numbered stem n ∉ s.used) = true := decide_eq_true hunused
  exact of_decide_eq_true
    (@test_firstFrom (fun n => numbered stem n ∉ s.used) s.next _ n hlow hhigh htest)

end LabelSupply

end ClassLowering
