import ClassLowering.Code.Lowering
import ClassLowering.Proofs.Execution.Runs
import ClassLowering.Proofs.Execution.StackMachine
import ClassLowering.Proofs.Encoding.Targets

namespace ClassLowering

open StackMachine

namespace Scope

variable {Memory : Type} (s : Scope) (w : World Memory)

def place (name : String) : Nat := (s.method.table.register? name).getD 0

def arrayRequest : Ty → Request
  | .int => .newIntArray
  | .bool => .newBoolArray
  | element => .newReferenceArray (s.header.memberClass element)

def callText (c : Call) : String :=
  (s.header.machineSignature (c.arguments.map Operand.ty) c.result).text

def specialClass (receiver : Operand) : String :=
  if receiver = .self then s.header.superClass else s.header.memberClass receiver.ty

def requestFor (c : Call) : Request :=
  match c.callee with
  | .new =>
    match c.result with
    | .array element => s.arrayRequest element
    | ty => .newObject (s.header.memberClass ty)
  | .length _ => .arrayLength
  | .static className method =>
    .invoke .static (s.header.classPath className) method (s.callText c)
  | .virtual receiver method =>
    .invoke .virtual (s.header.memberClass receiver.ty) method (s.callText c)
  | .special receiver method => .invoke .special (s.specialClass receiver) method (s.callText c)

def value : Operand → Run Memory Datum
  | .literal value _ => pure (.int value)
  | .var name ty => Run.load ty.slotKind (s.place name)
  | .element array index ty => do
    let base ← Run.load .reference (s.place array)
    let i ← value index
    Run.request w (.loadElement ty.arrayKind) [base, i]
  | .self => Run.load .reference 0

def holds (op : Comparison) (x y : Int32) : Bool :=
  match op with
  | .lt => x < y
  | .ge => y ≤ x

def compareValues (op : Comparison) (left right : Operand) : Run Memory Bool := do
  let x ← s.value w left
  let y ← s.value w right
  return holds op x.word y.word

def eitherFails (left right : Operand) : Run Memory Bool := do
  let x ← s.value w left
  if x.word = 0 then return true
  else
    let y ← s.value w right
    return decide (y.word = 0)

def binaryValue (op : BinaryOp) (left right : Operand) : Run Memory Datum :=
  match op with
  | .add => do
    let x ← s.value w left
    let y ← s.value w right
    return .int (x.word + y.word)
  | .sub => do
    let x ← s.value w left
    let y ← s.value w right
    return .int (x.word - y.word)
  | .mul => do
    let x ← s.value w left
    let y ← s.value w right
    return .int (x.word * y.word)
  | .div => do
    let x ← s.value w left
    let y ← s.value w right
    Run.quotient w x.word y.word
  | .or => do
    let x ← s.value w left
    let y ← s.value w right
    let p ← Run.truth x
    let q ← Run.truth y
    return .ofBool (p || q)
  | .and => do
    let fails ← s.eitherFails w left right
    return .ofBool !fails
  | .lt => do
    let b ← s.compareValues w .lt left right
    return .ofBool b
  | .ge => do
    let b ← s.compareValues w .ge left right
    return .ofBool b

def evaluate (i : Instruction) : Run Memory Datum :=
  match i with
  | .single x => s.value w x
  | .not x => do
    let d ← s.value w x
    let b ← Run.truth d
    return .ofBool !b
  | .binary op left right => s.binaryValue w op left right
  | .call c => do
    let inputs ← c.inputs.mapM (s.value w)
    Run.request w (s.requestFor c) inputs
  | .getField object field => do
    let d ← s.value w object
    Run.request w (.getField (s.header.memberClass object.ty) field.name
      (s.header.machineType field.ty).text) [d]
  | .assign _ _ | .ret _ | .putField _ _ _ | .goto _ | .branch _ _ => pure (.int 0)

def execute (i : Instruction) : Run Memory (Control Datum) :=
  match i with
  | .assign (.var name ty) value => do
    let d ← s.evaluate w value
    Run.store ty.slotKind (s.place name) d
    return .next
  | .assign (.element array index ty) value => do
    let base ← Run.load .reference (s.place array)
    let i ← s.value w index
    let d ← s.evaluate w value
    let _ ← Run.request w (.storeElement ty.arrayKind) [base, i, d]
    return .next
  | .ret none => return .ret none
  | .ret (some x) => do
    let d ← s.value w x
    return .ret (some (d.as x.ty.slotKind))
  | .putField object field value => do
    let target ← s.value w object
    let d ← s.value w value
    let _ ← Run.request w (.putField (s.header.memberClass object.ty) field.name
      (s.header.machineType field.ty).text) [target, d]
    return .next
  | .goto label => return .jump label
  | .branch condition label => do
    let d ← s.evaluate w condition
    let taken := decide (d.word ≠ 0)
    Run.note (.branch taken)
    return if taken then .jump label else .next
  | .assign _ _ | .call _ | .getField _ _ | .not _ | .binary _ _ _ | .single _ => do
    let _ ← s.evaluate w i
    return .next

def phaseAfter (n : Node) : Control Datum → Phase Node
  | .ret value => .ended (.returned value)
  | control => .running (s.method.destination n control)

def step : State Node Memory → Option (State Node Memory)
  | (.running n, st) =>
    match s.method.instruction? n with
    | some i => some (proceed (s.phaseAfter n) (s.execute w i st))
    | none => some (.ended (.returned none), st)
  | (.ended _, _) => none

end Scope

end ClassLowering
