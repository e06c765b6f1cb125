namespace ClassLowering

inductive Ty where
  | int
  | bool
  | string
  | void
  | array (element : Ty)
  | object (className : String)
  | self
  deriving DecidableEq, Repr, Inhabited

namespace Ty

def text : Ty → String
  | int => "i32"
  | bool => "bool"
  | string => "String"
  | void => "V"
  | array element => "array." ++ element.text
  | object className => className
  | self => "this"

instance : ToString Ty := ⟨text⟩

def isArray : Ty → Bool
  | array _ => true
  | _ => false

def isScalar : Ty → Bool
  | int | bool => true
  | _ => false

def isReference : Ty → Bool
  | string | array _ | object _ | self => true
  | _ => false

def element? : Ty → Option Ty
  | array element => some element
  | _ => none

end Ty

inductive ValueKind where
  | int
  | reference
  deriving DecidableEq, Repr, Inhabited

def Ty.kind (ty : Ty) : ValueKind :=
  if ty.isReference then .reference else .int

end ClassLowering
