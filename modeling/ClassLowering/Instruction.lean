import ClassLowering.Operand

namespace ClassLowering

inductive BinaryOp where
  | add
  | sub
  | mul
  | div
  | and
  | or
  | lt
  | ge
  deriving DecidableEq, Repr, Inhabited

inductive Comparison where
  | lt
  | ge
  deriving DecidableEq, Repr, Inhabited

namespace BinaryOp

def text : BinaryOp → String
  | add => "+"
  | sub => "-"
  | mul => "*"
  | div => "/"
  | and => "&&"
  | or => "||"
  | lt => "<"
  | ge => ">="

instance : ToString BinaryOp := ⟨text⟩

def comparison? : BinaryOp → Option Comparison
  | lt => some .lt
  | ge => some .ge
  | _ => none

end BinaryOp

inductive Callee where
  | new
  | special (receiver : Operand) (method : String)
  | static (className method : String)
  | virtual (receiver : Operand) (method : String)
  | length (array : Operand)
  deriving DecidableEq, Repr, Inhabited

structure Call where
  callee : Callee
  arguments : List Operand
  result : Ty
  deriving DecidableEq, Repr, Inhabited

structure FieldRef where
  name : String
  ty : Ty
  deriving DecidableEq, Repr, Inhabited

inductive Instruction where
  | assign (destination : Operand) (value : Instruction)
  | call (call : Call)
  | ret (value : Option Operand)
  | getField (object : Operand) (field : FieldRef)
  | putField (object : Operand) (field : FieldRef) (value : Operand)
  | not (operand : Operand)
  | binary (op : BinaryOp) (left right : Operand)
  | single (operand : Operand)
  | goto (label : String)
  | branch (condition : Instruction) (label : String)
  deriving DecidableEq, Repr, Inhabited

namespace Callee

def text : Callee → String
  | new => "new("
  | special receiver method => s!"invokespecial({receiver}, \"{method}\""
  | static className method => s!"invokestatic({className}, \"{method}\""
  | virtual receiver method => s!"invokevirtual({receiver}, \"{method}\""
  | length array => s!"arraylength({array}"

def receiver? : Callee → Option Operand
  | special receiver _ | virtual receiver _ | length receiver => some receiver
  | new | static _ _ => none

end Callee

namespace Call

def text (call : Call) : String :=
  let arguments := ", ".intercalate (call.arguments.map Operand.text)
  let gap := if call.callee = .new || call.arguments.isEmpty then "" else ", "
  s!"{call.callee.text}{gap}{arguments}).{call.result}"

instance : ToString Call := ⟨text⟩

def isConstructorInit (call : Call) : Bool :=
  match call.callee with
  | .special _ method => method == "<init>"
  | _ => false

def reads (call : Call) : List Operand :=
  call.callee.receiver?.toList ++ call.arguments

end Call

def FieldRef.text (field : FieldRef) : String :=
  s!"{field.name}.{field.ty}"

instance : ToString FieldRef := ⟨FieldRef.text⟩

namespace Instruction

def text : Instruction → String
  | assign destination value => s!"{destination} := {value.text}"
  | call c => c.text
  | ret (some value) => s!"ret {value}"
  | ret none => "ret.V"
  | getField object field => s!"getfield({object}, {field})"
  | putField object field value => s!"putfield({object}, {field}, {value})"
  | not operand => s!"!{operand}"
  | binary op left right => s!"{left} {op} {right}"
  | single operand => operand.text
  | goto label => s!"goto {label}"
  | branch condition label => s!"if ({condition.text}) goto {label}"

instance : ToString Instruction := ⟨text⟩

def target? : Instruction → Option String
  | goto label | branch _ label => some label
  | _ => none

def reads : Instruction → List Operand
  | assign _ value => value.reads
  | call c => c.reads
  | ret value => value.toList
  | getField object _ => [object]
  | putField object _ value => [object, value]
  | not operand => [operand]
  | binary _ left right => [left, right]
  | single operand => [operand]
  | goto _ => []
  | branch condition _ => condition.reads

def destination? : Instruction → Option Operand
  | assign destination _ => some destination
  | _ => none

def mentions (i : Instruction) : List (String × Ty) :=
  (i.destination?.toList ++ i.reads).flatMap Operand.mentions

theorem mentions_assign (destination : Operand) (value : Instruction) :
    (assign destination value).mentions =
      destination.mentions ++ value.reads.flatMap Operand.mentions := by
  simp [mentions, destination?, reads]

theorem mentions_of_destination?_eq_none {i : Instruction} (h : i.destination? = none) :
    i.mentions = i.reads.flatMap Operand.mentions := by
  simp [mentions, h]

end Instruction

end ClassLowering
