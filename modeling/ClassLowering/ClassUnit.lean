import ClassLowering.ClassHeader
import ClassLowering.Method.Basic

namespace ClassLowering

structure Field where
  name : String
  ty : Ty
  access : Access := .privateAccess
  isStatic : Bool := false
  isFinal : Bool := false
  initial : Option Int32 := none
  deriving DecidableEq, Repr, Inhabited

structure ClassUnit extends ClassHeader where
  fields : List Field := []
  methods : List Method := []
  deriving DecidableEq, Repr

namespace ClassUnit

def method? (u : ClassUnit) (name : String) : Option Method :=
  u.methods.find? (·.name == name)

def compiled (u : ClassUnit) : List Method :=
  u.methods.filter fun m => !m.isConstructor

end ClassUnit

end ClassLowering
