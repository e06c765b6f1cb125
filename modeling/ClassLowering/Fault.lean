import ClassLowering.Flow.Node
import ClassLowering.Instruction

namespace ClassLowering

inductive Unsupported where
  | memberAccess (ty : Ty)
  | arrayOf (element : Ty)
  | assignmentTo (destination : Operand)
  | usedAsValue (instruction : Instruction)
  | valueOfVoidCall (call : Call)
  | constructorArguments (call : Call)
  | receiverInStatic (method : String)
  deriving DecidableEq, Repr

def Unsupported.construct : Unsupported → String
  | memberAccess ty => s!"member access on a value of type {ty}"
  | arrayOf element => s!"array of {element}"
  | assignmentTo destination => s!"assignment to {destination}"
  | usedAsValue instruction => s!"{instruction} used as a value"
  | valueOfVoidCall call => s!"value of void call {call}"
  | constructorArguments call => s!"constructor arguments in {call}"
  | receiverInStatic method => s!"receiver in static method '{method}'"

inductive Defect where
  | labelDeclaredTwice (label method : String)
  | unknownLabel (label method : String)
  | noInstruction (n : Node) (method : String)
  | noRegister (variableName method : String)
  | arrayLengthCount (method : String) (count : Nat)
  | tooManyArguments
  | tooManyParameters (method : String)
  | tooManyRegisters (method : String)
  | labelDefinedTwice (label : String)
  | stackUnderflow (depth : Int) (pops pushes : Nat)
  | stackOverflow
  | branchDepth (label : String) (expected depth : Int)
  | labelDepth (label : String) (expected depth : Int)
  | incrementRange (delta : Int)
  deriving DecidableEq, Repr

def Defect.message : Defect → String
  | labelDeclaredTwice label method => s!"Label '{label}' declared twice in method '{method}'"
  | unknownLabel label method => s!"Unknown label '{label}' in method '{method}'"
  | noInstruction n method => s!"Node {n} of method '{method}' has no instruction"
  | noRegister variableName method =>
    s!"Variable '{variableName}' has no register in method '{method}'"
  | arrayLengthCount method count =>
    s!"Array creation in '{method}' takes one length operand, got {count}"
  | tooManyArguments => "Too many call arguments"
  | tooManyParameters method => s!"Method '{method}' has too many parameters"
  | tooManyRegisters method => s!"Method '{method}' needs too many registers"
  | labelDefinedTwice label => s!"Label '{label}' defined twice"
  | stackUnderflow depth pops pushes =>
    s!"Stack underflow: depth became {depth} after instruction with {pops} pops, {pushes} pushes"
  | stackOverflow => "Stack depth exceeds u16 range"
  | branchDepth label expected depth =>
    s!"Stack depth mismatch for branch to '{label}': expected {expected}, but branch has {depth}"
  | labelDepth label expected depth =>
    s!"Stack depth mismatch at label '{label}': expected {expected} (from branch), " ++
      s!"got {depth} (current)"
  | incrementRange delta => s!"iinc delta {delta} out of range"

inductive BadSetting where
  | flag (key value : String)
  | integer (key value : String)
  deriving DecidableEq, Repr

def BadSetting.message : BadSetting → String
  | flag key value => s!"{key} expects true or false, got '{value}'"
  | integer key value => s!"{key} expects an integer, got '{value}'"

inductive Fault where
  | registerCapacity (method : String) (required ceiling : Nat)
  | noFreeRegister (method variableName : String) (limit : Nat)
  | unsupported (cause : Unsupported)
  | badSetting (cause : BadSetting)
  | malformed (cause : Defect)
  deriving DecidableEq, Repr

def Fault.message : Fault → String
  | registerCapacity method required ceiling =>
    s!"Method '{method}' requires at least {required} local registers, " ++
      s!"but only {ceiling} were allowed"
  | noFreeRegister method variableName limit =>
    s!"Allocator invariant violated in '{method}': " ++
      s!"variable '{variableName}' has no free register below {limit}"
  | unsupported cause => s!"Unsupported construct: {cause.construct}"
  | badSetting cause => s!"Invalid configuration - {cause.message}"
  -- Where in the compiler the defect was found is not part of the message.
  | malformed cause => cause.message

end ClassLowering
