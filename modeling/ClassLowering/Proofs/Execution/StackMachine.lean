import Mathlib.Computability.StateTransition
import Mathlib.Logic.Function.Basic
import ClassLowering.Code.Line

namespace ClassLowering

namespace StackMachine

structure Datum where
  kind : ValueKind
  word : Int32
  deriving DecidableEq, Repr

namespace Datum

def int (value : Int32) : Datum := ⟨.int, value⟩

def as (kind : ValueKind) (d : Datum) : Datum := { d with kind }

def ofBool (b : Bool) : Datum := int (if b then 1 else 0)

def truth? (d : Datum) : Option Bool :=
  if d.word = 0 then some false else if d.word = 1 then some true else none

end Datum

inductive Request where
  | newObject (className : String)
  | newIntArray
  | newBoolArray
  | newReferenceArray (className : String)
  | arrayLength
  | loadElement (kind : ElementKind)
  | storeElement (kind : ElementKind)
  | getField (owner name descriptor : String)
  | putField (owner name descriptor : String)
  | invoke (how : Invocation) (owner name descriptor : String)
  deriving DecidableEq, Repr

structure World (Memory : Type) where
  perform : Request → List Datum → EStateM Datum Memory Datum
  divisionByZero : Datum

inductive Act where
  | request (request : Request) (arguments : List Datum)
  | branch (taken : Bool)
  deriving DecidableEq, Repr

structure Store (Memory : Type) where
  locals : Nat → Datum
  memory : Memory
  acts : List Act := []

inductive Failure where
  | thrown (exception : Datum)
  | notBoolean
  deriving DecidableEq, Repr

inductive Verdict where
  | returned (value : Option Datum)
  | failed (failure : Failure)
  deriving DecidableEq, Repr

abbrev Run (Memory : Type) := EStateM Failure (Store Memory)

variable {Memory : Type}

namespace Run

def load (kind : ValueKind) (register : Nat) : Run Memory Datum := fun st =>
  .ok ((st.locals register).as kind) st

def store (kind : ValueKind) (register : Nat) (d : Datum) : Run Memory Unit := fun st =>
  .ok () { st with locals := Function.update st.locals register (d.as kind) }

def note (act : Act) : Run Memory Unit := fun st => .ok () { st with acts := st.acts ++ [act] }

def request (w : World Memory) (r : Request) (arguments : List Datum) : Run Memory Datum := fun st =>
  let acts := st.acts ++ [.request r arguments]
  match w.perform r arguments st.memory with
  | .ok d memory => .ok d { st with memory, acts }
  | .error exception memory => .error (.thrown exception) { st with memory, acts }

def truth (d : Datum) : Run Memory Bool :=
  match d.truth? with
  | some b => pure b
  | none => throw .notBoolean

def quotient (w : World Memory) (x y : Int32) : Run Memory Datum :=
  if y = 0 then throw (.thrown w.divisionByZero) else pure (.int (x / y))

def arithmetic (w : World Memory) (op : Arithmetic) (x y : Int32) : Run Memory Datum :=
  match op with
  | .add => pure (.int (x + y))
  | .sub => pure (.int (x - y))
  | .mul => pure (.int (x * y))
  | .div => quotient w x y
  | .or => pure (.int (x ||| y))

end Run

def requestOf : Op → Option Request
  | .newObject className => some (.newObject className)
  | .newIntArray => some .newIntArray
  | .newBoolArray => some .newBoolArray
  | .newReferenceArray className => some (.newReferenceArray className)
  | .arrayLength => some .arrayLength
  | .loadElement kind => some (.loadElement kind)
  | .storeElement kind => some (.storeElement kind)
  | .getField owner name descriptor => some (.getField owner name descriptor)
  | .putField owner name descriptor => some (.putField owner name descriptor)
  | .invoke how owner name descriptor _ _ => some (.invoke how owner name descriptor)
  | _ => none

def exchange : Op → Nat × Nat
  | .newObject _ => (0, 1)
  | .newIntArray | .newBoolArray | .newReferenceArray _ | .arrayLength | .getField _ _ _ => (1, 1)
  | .loadElement _ => (2, 1)
  | .storeElement _ => (3, 0)
  | .putField _ _ _ => (2, 0)
  | .invoke _ _ _ _ pops pushes => (pops, pushes)
  | _ => (0, 0)

def runOp (w : World Memory) (o : Op) (stack : List Datum) : Option (Run Memory (List Datum)) :=
  match requestOf o with
  | some r =>
    let (takes, leaves) := exchange o
    if takes ≤ stack.length then
      some do
        let d ← Run.request w r (stack.take takes).reverse
        return List.replicate leaves d ++ stack.drop takes
    else none
  | none =>
    match o, stack with
    | .const value, stack => some (pure (.int value :: stack))
    | .load kind register, stack => some do
      let d ← Run.load kind register
      return d :: stack
    | .store kind register, d :: stack => some do
      Run.store kind register d
      return stack
    | .increment register delta, stack => some do
      let d ← Run.load .int register
      Run.store .int register (.int (d.word + .ofInt delta))
      return stack
    | .arithmetic op, y :: x :: stack => some do
      let d ← Run.arithmetic w op x.word y.word
      return d :: stack
    | .dup, d :: stack => some (pure (d :: d :: stack))
    | .pop, _ :: stack => some (pure stack)
    | _, _ => none

def decideJump : Jump → List Datum → Option (Bool × List Datum)
  | .always, stack => some (true, stack)
  | .eqZero, x :: stack => some (decide (x.word = 0), stack)
  | .neZero, x :: stack => some (decide (x.word ≠ 0), stack)
  | .ltZero, x :: stack => some (decide (x.word < 0), stack)
  | .geZero, x :: stack => some (decide (0 ≤ x.word), stack)
  | .gtZero, x :: stack => some (decide (0 < x.word), stack)
  | .leZero, x :: stack => some (decide (x.word ≤ 0), stack)
  | .lt, y :: x :: stack => some (decide (x.word < y.word), stack)
  | .ge, y :: x :: stack => some (decide (y.word ≤ x.word), stack)
  | _, _ => none

inductive Phase (α : Type) where
  | running (point : α)
  | ended (verdict : Verdict)
  deriving DecidableEq, Repr

abbrev State (α Memory : Type) := Phase α × Store Memory

def proceed {α β : Type} (next : β → Phase α) :
    EStateM.Result Failure (Store Memory) β → State α Memory
  | .ok b st => (next b, st)
  | .error failure st => (.ended (.failed failure), st)

structure Program where
  lines : List Line
  labels : List String

namespace Program

def find (p : Program) (label : String) : Option Nat := p.lines.idxOf? (.label label)

def noteBranch (p : Program) (target : String) (taken : Bool) (st : Store Memory) : Store Memory :=
  if target ∈ p.labels then { st with acts := st.acts ++ [.branch taken] } else st

def follow (p : Program) (pc : Nat) (target : String) (taken : Bool) : Option Nat :=
  if taken then p.find target else some (pc + 1)

def runLine (p : Program) (w : World Memory) (pc : Nat) (stack : List Datum) (st : Store Memory) :
    Line → Option (State (Nat × List Datum) Memory)
  | .label _ => some (.running (pc + 1, stack), st)
  | .op o => (runOp w o stack).map fun run => proceed (fun stack => .running (pc + 1, stack)) (run st)
  | .jump j target => do
    let (taken, stack) ← decideJump j stack
    let next ← p.follow pc target taken
    return (.running (next, stack), if j = .always then st else p.noteBranch target taken st)
  | .exit .void => some (.ended (.returned none), st)
  | .exit (.value kind) => stack.head?.map fun d => (.ended (.returned (some (d.as kind))), st)
  | .exit (.other _ _) => none

def step (p : Program) (w : World Memory) :
    State (Nat × List Datum) Memory → Option (State (Nat × List Datum) Memory)
  | (.running (pc, stack), st) =>
    match p.lines[pc]? with
    | some l => p.runLine w pc stack st l
    | none => some (.ended (.returned none), st)
  | (.ended _, _) => none

end Program

end StackMachine

end ClassLowering
