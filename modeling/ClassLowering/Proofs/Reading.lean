import ClassLowering.Liveness.Basic
import ClassLowering.Proofs.Method.BodyFlow

namespace ClassLowering

inductive Operand.Uses : Operand → String → Prop
  | var (name : String) (ty : Ty) : Uses (.var name ty) name
  | base (array : String) (index : Operand) (ty : Ty) : Uses (.element array index ty) array
  | index {array : String} {index : Operand} {ty : Ty} {name : String} :
      index.Uses name → Uses (.element array index ty) name

namespace Instruction

def ReadsVar (i : Instruction) (v : String) : Prop :=
  (∃ x ∈ i.reads, x.Uses v) ∨
    ∃ array index ty, i.destination? = some (.element array index ty) ∧
      (Operand.element array index ty).Uses v

def Assigns (i : Instruction) (v : String) : Prop := ∃ ty, i.destination? = some (.var v ty)

end Instruction

namespace Method

def ReadsAt (m : Method) (n : Node) (v : String) : Prop :=
  ∃ i, m.instruction? n = some i ∧ i.ReadsVar v

def AssignsAt (m : Method) (n : Node) (v : String) : Prop :=
  ∃ i, m.instruction? n = some i ∧ i.Assigns v

end Method

theorem Operand.uses_iff {x : Operand} {v : String} :
    x.Uses v ↔ v ∈ x.mentions.map Prod.fst := by
  induction x with
  | literal value ty => exact ⟨nofun, fun h => absurd h List.not_mem_nil⟩
  | self => exact ⟨nofun, fun h => absurd h List.not_mem_nil⟩
  | var name ty =>
    simp only [mentions, List.map_cons, List.map_nil, List.mem_singleton]
    constructor
    · intro h
      cases h
      rfl
    · rintro rfl
      exact .var v ty
  | element array index ty ih =>
    simp only [mentions, List.map_cons, List.mem_cons, ← ih]
    constructor
    · intro h
      cases h with
      | base => exact .inl rfl
      | index h => exact .inr h
    · rintro (rfl | h)
      · exact .base v index ty
      · exact .index h

namespace Liveness

theorem mem_operandNames {operands : List Operand} {v : String} :
    v ∈ operandNames operands ↔ ∃ x ∈ operands, x.Uses v := by
  simp only [operandNames, List.map_flatMap, List.mem_flatMap, Operand.uses_iff]

theorem mem_readBy {i : Instruction} {v : String} : v ∈ readBy i ↔ i.ReadsVar v := by
  unfold readBy Instruction.ReadsVar
  split
  · next array index ty hd =>
    rw [mem_operandNames]
    simp only [List.mem_cons, exists_eq_or_imp, hd, Option.some.injEq, Operand.element.injEq]
    constructor
    · rintro (h | h)
      · exact .inr ⟨array, index, ty, ⟨rfl, rfl, rfl⟩, h⟩
      · exact .inl h
    · rintro (h | ⟨_, _, _, ⟨rfl, rfl, rfl⟩, h⟩)
      · exact .inr h
      · exact .inl h
  · next hd =>
    rw [mem_operandNames]
    refine ⟨.inl, ?_⟩
    rintro (h | ⟨array, index, ty, he, -⟩)
    · exact h
    · exact absurd he (hd array index ty)

theorem mem_written {i : Instruction} {v : String} :
    v ∈ written i ↔
      i.Assigns v ∨ ∃ index ty, i.destination? = some (.element v index ty) := by
  unfold written Instruction.Assigns
  cases i.destination? with
  | none => simp
  | some x =>
    cases x with
    | var name ty => simp [Operand.name?, eq_comm]
    | element array index ty => simp [Operand.name?, eq_comm]
    | literal value ty => simp [Operand.name?]
    | self => simp [Operand.name?]

end Liveness

theorem Instruction.readsVar_of_element {i : Instruction} {v : String} {index : Operand} {ty : Ty}
    (h : i.destination? = some (.element v index ty)) : i.ReadsVar v :=
  .inr ⟨v, index, ty, h, .base v index ty⟩

theorem Instruction.mem_mentions {i : Instruction} {v : String} :
    v ∈ i.mentions.map Prod.fst ↔ i.ReadsVar v ∨ i.Assigns v := by
  have hm : v ∈ i.mentions.map Prod.fst ↔
      (∃ x ∈ i.destination?.toList, x.Uses v) ∨ ∃ x ∈ i.reads, x.Uses v := by
    simp only [mentions, List.map_flatMap, List.mem_flatMap, List.mem_append, or_and_right,
      exists_or, Operand.uses_iff]
  rw [hm]
  unfold ReadsVar Assigns
  constructor
  · rintro (⟨x, hx, h⟩ | h)
    · have hd : i.destination? = some x := Option.mem_toList.1 hx
      cases x with
      | var name ty => cases h; exact .inr ⟨ty, hd⟩
      | element array index ty => exact .inl (.inr ⟨array, index, ty, hd, h⟩)
      | literal value ty => cases h
      | self => cases h
    · exact .inl (.inl h)
  · rintro ((h | ⟨array, index, ty, hd, h⟩) | ⟨ty, hd⟩)
    · exact .inr h
    · exact .inl ⟨_, Option.mem_toList.2 hd, h⟩
    · exact .inl ⟨_, Option.mem_toList.2 hd, .var v ty⟩

theorem Method.mem_mentions {m : Method} {v : String} :
    v ∈ m.mentions.map Prod.fst ↔ ∃ n, m.ReadsAt n v ∨ m.AssignsAt n v := by
  have hm : v ∈ m.mentions.map Prod.fst ↔
      ∃ n i, m.instruction? n = some i ∧ v ∈ i.mentions.map Prod.fst := by
    simp only [mentions, List.map_flatMap, List.mem_flatMap, Prod.exists, mem_instructions]
  rw [hm]
  refine exists_congr fun n => ?_
  simp only [Instruction.mem_mentions, ReadsAt, AssignsAt, ← exists_or, and_or_left]

end ClassLowering
