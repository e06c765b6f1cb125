import ClassLowering.ClassHeader
import ClassLowering.Code.Body
import ClassLowering.Code.Lower
import ClassLowering.Method.Basic

namespace ClassLowering

structure Scope where
  header : ClassHeader
  method : Method

namespace Scope

def register (s : Scope) (name : String) : Except Fault Nat :=
  match s.method.table.register? name with
  | some register => .ok register
  | none => .error (.malformed (.noRegister name s.method.name))

def load (s : Scope) : Operand → Lower Unit
  | .literal value _ => .op (.const value)
  | .var name ty => do
    let register ← s.register name
    .op (.load ty.kind register)
  | .element array index ty => do
    let register ← s.register array
    .op (.load .reference register)
    s.load index
    .op (.loadElement ty.elementKind)
  | .self =>
    if s.method.isStatic then .fail (.unsupported (.receiverInStatic s.method.name))
    else .op (.load .reference 0)

def loadAll (s : Scope) : List Operand → Lower Unit
  | [] => pure ()
  | x :: rest => do
    s.load x
    s.loadAll rest

def loadArguments (s : Scope) (arguments : List Operand) : Lower Nat := do
  s.loadAll arguments
  if Body.depthLimit < arguments.length then .fail (.malformed .tooManyArguments)
  else pure arguments.length

def callDescriptor (s : Scope) (call : Call) : Except Fault String :=
  s.header.methodDescriptor (call.arguments.map Operand.ty) call.result

def fieldTarget (s : Scope) (object : Operand) (field : FieldRef) :
    Except Fault (String × String) := do
  let owner ← s.header.memberOwner object.ty
  let descriptor ← s.header.descriptor field.ty
  return (owner, descriptor)

def newArray (s : Scope) (element : Ty) (length : Operand) : Lower Unit := do
  s.load length
  match element with
  | .int => .op .newIntArray
  | .bool => .op .newBoolArray
  | _ => do
    let className ← s.header.memberOwner element
    .op (.newReferenceArray className)

def newObject (s : Scope) (ty : Ty) : Lower Unit := do
  let className ← s.header.memberOwner ty
  .op (.newObject className)
  .op .dup

def specialOwner (s : Scope) (receiver : Operand) : Except Fault String :=
  if receiver = .self then .ok s.header.superName else s.header.memberOwner receiver.ty

def call (s : Scope) (c : Call) : Lower Unit :=
  let pushes := if c.result = .void then 0 else 1
  match c.callee with
  | .new =>
    match c.result, c.arguments with
    | .array element, [length] => s.newArray element length
    | .array _, arguments =>
      .fail (.malformed (.arrayLengthCount s.method.name arguments.length))
    | ty, [] => s.newObject ty
    | _, _ => .fail (.unsupported (.constructorArguments c))
  | .length array => do
    s.load array
    .op .arrayLength
  | .static className method => do
    let count ← s.loadArguments c.arguments
    let descriptor ← s.callDescriptor c
    .op (.invoke .static (s.header.qualifiedName className) method descriptor count pushes)
  | .virtual receiver method => do
    s.load receiver
    let count ← s.loadArguments c.arguments
    let owner ← s.header.memberOwner receiver.ty
    let descriptor ← s.callDescriptor c
    .op (.invoke .virtual owner method descriptor (count + 1) pushes)
  | .special receiver method => do
    s.load receiver
    let count ← s.loadArguments c.arguments
    let owner ← s.specialOwner receiver
    let descriptor ← s.callDescriptor c
    .op (.invoke .special owner method descriptor (count + 1) pushes)

def withZero : Comparison → Jump
  | .lt => .ltZero
  | .ge => .geZero

def zeroWith : Comparison → Jump
  | .lt => .gtZero
  | .ge => .leZero

def withOther : Comparison → Jump
  | .lt => .lt
  | .ge => .ge

def compare (s : Scope) (op : Comparison) (left right : Operand) (label : String) : Lower Unit :=
  if right.literal? = some 0 then do
    s.load left
    .jump (withZero op) label
  else if left.literal? = some 0 then do
    s.load right
    .jump (zeroWith op) label
  else do
    s.load left
    s.load right
    .jump (withOther op) label

def comparison (s : Scope) (op : Comparison) (left right : Operand) : Lower Unit := do
  let holds ← Lower.fresh "CMP_TRUE"
  let done ← Lower.fresh "CMP_END"
  s.compare op left right holds
  .op (.const 0)
  .jump .always done
  .line (.label holds)
  .op (.const 1)
  .line (.label done)

def conjunction (s : Scope) (left right : Operand) : Lower Unit := do
  let fails ← Lower.fresh "AND_FALSE"
  let done ← Lower.fresh "AND_END"
  s.load left
  .jump .eqZero fails
  s.load right
  .jump .eqZero fails
  .op (.const 1)
  .jump .always done
  .line (.label fails)
  .op (.const 0)
  .line (.label done)

def arithmetic (s : Scope) (op : Arithmetic) (left right : Operand) : Lower Unit := do
  s.load left
  s.load right
  .op (.arithmetic op)

def binary (s : Scope) (op : BinaryOp) (left right : Operand) : Lower Unit :=
  match op with
  | .add => s.arithmetic .add left right
  | .sub => s.arithmetic .sub left right
  | .mul => s.arithmetic .mul left right
  | .div => s.arithmetic .div left right
  | .or => s.arithmetic .or left right
  | .and => s.conjunction left right
  | .lt => s.comparison .lt left right
  | .ge => s.comparison .ge left right

def expression (s : Scope) (i : Instruction) : Lower Unit :=
  match i with
  | .single x => s.load x
  | .binary op left right => s.binary op left right
  | .not x => do
    .op (.const 1)
    s.load x
    .op (.arithmetic .sub)
  | .call c =>
    if c.result = .void then .fail (.unsupported (.valueOfVoidCall c)) else s.call c
  | .getField object field => do
    s.load object
    let (owner, descriptor) ← s.fieldTarget object field
    .op (.getField owner field.name descriptor)
  | .assign _ _ | .ret _ | .putField _ _ _ | .goto _ | .branch _ _ =>
    .fail (.unsupported (.usedAsValue i))

def increment? (destination : Operand) (value : Instruction) : Option (String × Int) :=
  match destination, value with
  | .var name ty, .binary op left right =>
    let delta? : Option Int := match op with
      | .add =>
        if left.isVariable name then right.literal?.map Int32.toInt
        else if right.isVariable name then left.literal?.map Int32.toInt
        else none
      | .sub => if left.isVariable name then right.literal?.map fun v => -v.toInt else none
      | _ => none
    if ty.isScalar then
      (delta?.filter Op.fitsIncrement).map fun delta => (name, delta)
    else none
  | _, _ => none

def assign (s : Scope) (destination : Operand) (value : Instruction) : Lower Unit :=
  match increment? destination value with
  | some (name, delta) => do
    let register ← s.register name
    .op (.increment register delta)
  | none =>
    match destination with
    | .var name ty => do
      s.expression value
      let register ← s.register name
      .op (.store ty.kind register)
    | .element array index ty => do
      let register ← s.register array
      .op (.load .reference register)
      s.load index
      s.expression value
      .op (.storeElement ty.elementKind)
    | .literal _ _ | .self => .fail (.unsupported (.assignmentTo destination))

def branch (s : Scope) (condition : Instruction) (label : String) : Lower Unit :=
  let byValue : Lower Unit := do
    s.expression condition
    .jump .neZero label
  match condition with
  | .binary op left right =>
    match op.comparison? with
    | some comparison => s.compare comparison left right label
    | none => byValue
  | _ => byValue

def statement (s : Scope) (i : Instruction) : Lower Unit :=
  match i with
  | .assign destination value => s.assign destination value
  | .call c => do
    s.call c
    if c.result ≠ .void || c.isConstructorInit then .op .pop else pure ()
  | .ret none => .line (.exit .void)
  | .ret (some value) => do
    s.load value
    .line (.exit (.value value.ty.kind))
  | .putField object field value => do
    s.load object
    s.load value
    let (owner, descriptor) ← s.fieldTarget object field
    .op (.putField owner field.name descriptor)
  | .goto label => .jump .always label
  | .branch condition label => s.branch condition label
  | .getField _ _ | .not _ | .binary _ _ _ | .single _ => do
    s.expression i
    .op .pop

def labels : List String → Lower Unit
  | [] => pure ()
  | name :: rest => do
    .line (.label name)
    labels rest

def statements (s : Scope) : List (Node × Instruction) → Lower Unit
  | [] => pure ()
  | (n, i) :: rest => do
    labels (s.method.labelsAt n)
    s.statement i
    s.statements rest

def body (s : Scope) : Lower Unit := do
  s.statements s.method.instructions
  labels (s.method.labelsAt .exit)

def lower (s : Scope) : Written Unit :=
  s.body { used := s.method.labels.map Prod.fst }

def emptyBody (s : Scope) : Body :=
  (List.range s.method.firstLocal).foldl Body.touch {}

def assemble (s : Scope) : Except Fault Body :=
  let written := s.lower
  match s.emptyBody.addAll written.lines with
  | .error defect => .error (.malformed defect)
  | .ok body => written.outcome.map fun () => body

theorem increment?_eq_some {destination : Operand} {value : Instruction} {name : String} {delta : Int}
    (h : increment? destination value = some (name, delta)) :
    ∃ ty, destination = .var name ty ∧ ty.isScalar = true ∧ ∃ (other other' : Ty) (v : Int32),
      value = .binary .add (.var name other) (.literal v other') ∧ delta = v.toInt ∨
      value = .binary .add (.literal v other') (.var name other) ∧ delta = v.toInt ∨
      value = .binary .sub (.var name other) (.literal v other') ∧ delta = -v.toInt := by
  unfold increment? at h
  split at h
  · next name' ty op left right =>
    dsimp only at h
    split at h
    · next hscalar =>
      obtain ⟨_, hdelta, he⟩ := Option.map_eq_some_iff.1 h
      cases he
      obtain ⟨hsome, -⟩ := Option.filter_eq_some_iff.1 hdelta
      refine ⟨ty, rfl, hscalar, ?_⟩
      split at hsome
      · split at hsome
        · next hl =>
          obtain ⟨other, rfl⟩ := Operand.isVariable_iff.1 hl
          obtain ⟨v, hv, rfl⟩ := Option.map_eq_some_iff.1 hsome
          obtain ⟨other', rfl⟩ := Operand.literal?_eq_some_iff.1 hv
          exact ⟨other, other', v, .inl ⟨rfl, rfl⟩⟩
        · split at hsome
          · next hr =>
            obtain ⟨other, rfl⟩ := Operand.isVariable_iff.1 hr
            obtain ⟨v, hv, rfl⟩ := Option.map_eq_some_iff.1 hsome
            obtain ⟨other', rfl⟩ := Operand.literal?_eq_some_iff.1 hv
            exact ⟨other, other', v, .inr (.inl ⟨rfl, rfl⟩)⟩
          · cases hsome
      · split at hsome
        · next hl =>
          obtain ⟨other, rfl⟩ := Operand.isVariable_iff.1 hl
          obtain ⟨v, hv, rfl⟩ := Option.map_eq_some_iff.1 hsome
          obtain ⟨other', rfl⟩ := Operand.literal?_eq_some_iff.1 hv
          exact ⟨other, other', v, .inr (.inr ⟨rfl, rfl⟩)⟩
        · cases hsome
      · cases hsome
    · cases h
  · cases h

end Scope

end ClassLowering
