import ClassLowering.Fault

namespace ClassLowering

structure ClassHeader where
  name : String
  package : Option String := none
  imports : List String := []
  superclass : Option String := none
  deriving DecidableEq, Repr, Inhabited

namespace ClassHeader

def objectClass : String := "java/lang/Object"

def stringClass : String := "java/lang/String"

def slashed (name : String) : String :=
  name.map fun c => if c = '.' then '/' else c

def lastPart (name : String) : String :=
  .ofList (name.toList.reverse.takeWhile (· ≠ '.')).reverse

def ownName (h : ClassHeader) : String :=
  match h.package with
  | some package => if package.isEmpty then h.name else s!"{slashed package}/{h.name}"
  | none => h.name

def qualifiedName (h : ClassHeader) (simple : String) : String :=
  if simple = h.name then h.ownName
  else
    match h.imports.find? fun name => lastPart name = simple with
    | some name => slashed name
    | none => h.ownName

def superName (h : ClassHeader) : String :=
  match h.superclass with
  | some simple => h.qualifiedName simple
  | none => objectClass

def memberOwner (h : ClassHeader) : Ty → Except Fault String
  | .object className => .ok (h.qualifiedName className)
  | .self => .ok h.ownName
  | .string => .ok stringClass
  | ty => .error (.unsupported (.memberAccess ty))

def descriptor (h : ClassHeader) : Ty → Except Fault String
  | .int => .ok "I"
  | .bool => .ok "Z"
  | .string => .ok s!"L{stringClass};"
  | .void => .ok "V"
  | .array .void => .error (.unsupported (.arrayOf .void))
  | .array element => do return "[" ++ (← h.descriptor element)
  | .object className => .ok s!"L{h.qualifiedName className};"
  | .self => .ok s!"L{h.ownName};"

def methodDescriptor (h : ClassHeader) (parameters : List Ty) (result : Ty) :
    Except Fault String := do
  let parameters ← parameters.mapM h.descriptor
  let result ← h.descriptor result
  return s!"({String.join parameters}){result}"

end ClassHeader

end ClassLowering
