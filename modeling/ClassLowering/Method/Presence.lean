import ClassLowering.Flow.Node

namespace ClassLowering

def presence (size : Nat) (body : List Node) : Array Bool :=
  ((List.range size).map fun slot => decide (Node.ofSlot slot ∈ body)).toArray

def unflag (present : Array Bool) (n : Node) : Array Bool :=
  match n.slot? with
  | some slot => present.setIfInBounds slot false
  | none => present

theorem presence_range (size : Nat) :
    Array.replicate size true = presence size ((List.range size).map .ofSlot) := by
  refine Array.ext' (List.ext_getElem? fun slot => ?_)
  simp only [presence, Array.toList_replicate, List.getElem?_replicate, List.getElem?_map]
  split
  · next h =>
    rw [List.getElem?_range h, Option.map_some]
    exact congrArg some (decide_eq_true (List.mem_map_of_mem (List.mem_range.2 h))).symm
  · next h => rw [List.getElem?_eq_none (by simpa using h), Option.map_none]

theorem unflag_presence (size : Nat) (body : List Node) (n : Node) :
    unflag (presence size body) n = presence size (body.filter (· ≠ n)) := by
  have hmem (slot : Nat) :
      decide (Node.ofSlot slot ∈ body.filter (· ≠ n)) =
        (decide (Node.ofSlot slot ∈ body) && decide (Node.ofSlot slot ≠ n)) := by simp
  unfold unflag presence
  simp only [hmem]
  cases hslot : n.slot? with
  | none =>
    have hne (slot : Nat) : Node.ofSlot slot ≠ n := by
      rintro rfl
      simp at hslot
    simp [hne]
  | some slot =>
    obtain rfl := Node.slot?_eq_some_iff.1 hslot
    refine Array.ext' (List.ext_getElem? fun k => ?_)
    have hne : slot ≠ k → Node.ofSlot k ≠ .ofSlot slot := fun he h => by
      simp [Node.ofSlot] at h
      exact he h.symm
    simp only [Array.toList_setIfInBounds, List.getElem?_set, List.getElem?_map]
    by_cases hk : k < size
    · by_cases he : slot = k
      · simp [he, hk]
      · simp [he, hk, hne he]
    · by_cases he : slot = k
      · simp [he, hk]
      · simp [he, hk]

end ClassLowering
