import ClassLowering.Liveness.Basic

namespace ClassLowering

def Instruction.removableStore? : Instruction → Option String
  | .assign (.var _ _) (.call _) => none
  | .assign (.var name _) _ => some name
  | _ => none

namespace Method

def deadStores (m : Method) (l : Liveness) : List (Node × String) :=
  m.instructions.filterMap fun (n, i) =>
    match i.removableStore? with
    | some name =>
      if n ∈ l.order ∧ l.writesHas n name = true ∧ l.liveOutHas n name = false
      then some (n, name) else none
    | none => none

theorem mem_deadStores {m : Method} {l : Liveness} {n : Node} {name : String} :
    (n, name) ∈ m.deadStores l ↔
      ∃ i, (n, i) ∈ m.instructions ∧ i.removableStore? = some name ∧
        n ∈ l.order ∧ l.writesHas n name = true ∧ l.liveOutHas n name = false := by
  simp only [deadStores, List.mem_filterMap, Prod.exists]
  constructor
  · rintro ⟨k, i, member, h⟩
    split at h
    · next other removable =>
      split at h
      · next dead =>
        cases h
        exact ⟨i, member, removable, dead⟩
      · cases h
    · cases h
  · rintro ⟨i, member, removable, dead⟩
    exact ⟨n, i, member, by simp [removable, dead]⟩

end Method

end ClassLowering
