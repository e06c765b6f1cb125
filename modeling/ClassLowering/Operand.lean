import ClassLowering.Ty

namespace ClassLowering

inductive Operand where
  | literal (value : Int32) (ty : Ty)
  | var (name : String) (ty : Ty)
  | element (array : String) (index : Operand) (ty : Ty)
  | self
  deriving DecidableEq, Repr, Inhabited

namespace Operand

def text : Operand → String
  | literal value ty => s!"{value}.{ty}"
  | var name ty => s!"{name}.{ty}"
  | element array index ty => s!"{array}[{index.text}].{ty}"
  | self => "this"

instance : ToString Operand := ⟨text⟩

def ty : Operand → Ty
  | literal _ ty | var _ ty | element _ _ ty => ty
  | self => .self

def name? : Operand → Option String
  | var name _ | element name _ _ => some name
  | literal _ _ | self => none

def literal? : Operand → Option Int32
  | literal value _ => some value
  | _ => none

def isVariable (name : String) : Operand → Bool
  | var other _ => other == name
  | _ => false

def mentions : Operand → List (String × Ty)
  | var name ty => [(name, ty)]
  | element array index ty => (array, .array ty) :: index.mentions
  | literal _ _ | self => []

theorem isVariable_iff {name : String} {x : Operand} :
    x.isVariable name = true ↔ ∃ ty, x = var name ty := by
  cases x <;> simp [isVariable]

theorem literal?_eq_some_iff {value : Int32} {x : Operand} :
    x.literal? = some value ↔ ∃ ty, x = literal value ty := by
  cases x <;> simp [literal?]

end Operand

end ClassLowering
