import ClassLowering.Ty

namespace ClassLowering

inductive ElementKind where
  | int
  | bool
  | reference
  deriving DecidableEq, Repr, Inhabited

def Ty.elementKind (ty : Ty) : ElementKind :=
  if ty = .bool then .bool else if ty.isReference then .reference else .int

inductive Arithmetic where
  | add
  | sub
  | mul
  | div
  | or
  deriving DecidableEq, Repr, Inhabited

inductive Invocation where
  | special
  | static
  | virtual
  deriving DecidableEq, Repr, Inhabited

inductive Op where
  | const (value : Int32)
  | load (kind : ValueKind) (register : Nat)
  | store (kind : ValueKind) (register : Nat)
  | increment (register : Nat) (delta : Int)
  | arithmetic (op : Arithmetic)
  | loadElement (kind : ElementKind)
  | storeElement (kind : ElementKind)
  | newObject (className : String)
  | newIntArray
  | newBoolArray
  | newReferenceArray (className : String)
  | arrayLength
  | getField (owner name descriptor : String)
  | putField (owner name descriptor : String)
  | invoke (how : Invocation) (owner name descriptor : String) (pops pushes : Nat)
  | dup
  | pop
  | other (mnemonic : String) (operand : Option String) (pops pushes : Nat)
  deriving DecidableEq, Repr, Inhabited

inductive Jump where
  | always
  | eqZero
  | neZero
  | ltZero
  | geZero
  | gtZero
  | leZero
  | lt
  | ge
  | other (mnemonic : String) (pops : Nat)
  deriving DecidableEq, Repr, Inhabited

inductive Exit where
  | void
  | value (kind : ValueKind)
  | other (mnemonic : String) (pops : Nat)
  deriving DecidableEq, Repr, Inhabited

inductive Line where
  | op (op : Op)
  | jump (jump : Jump) (target : String)
  | exit (exit : Exit)
  | label (name : String)
  deriving DecidableEq, Repr, Inhabited

def ValueKind.letter : ValueKind → String
  | int => "i"
  | reference => "a"

def ElementKind.letter : ElementKind → String
  | int => "i"
  | bool => "b"
  | reference => "a"

def Arithmetic.mnemonic : Arithmetic → String
  | add => "iadd"
  | sub => "isub"
  | mul => "imul"
  | div => "idiv"
  | or => "ior"

def Invocation.mnemonic : Invocation → String
  | special => "invokespecial"
  | static => "invokestatic"
  | virtual => "invokevirtual"

namespace Op

def fitsIncrement (delta : Int) : Bool := -128 ≤ delta && delta ≤ 127

def constText (value : Int) : String :=
  if value = -1 then "iconst_m1"
  else if 0 ≤ value ∧ value ≤ 5 then s!"iconst_{value}"
  else if -128 ≤ value ∧ value ≤ 127 then s!"bipush {value}"
  else if -32768 ≤ value ∧ value ≤ 32767 then s!"sipush {value}"
  else s!"ldc {value}"

def registerText (mnemonic : String) (register : Nat) : String :=
  if register ≤ 3 then s!"{mnemonic}_{register}" else s!"{mnemonic} {register}"

def text : Op → String
  | const value => constText value.toInt
  | load kind register => registerText (kind.letter ++ "load") register
  | store kind register => registerText (kind.letter ++ "store") register
  | increment register delta => s!"iinc {register} {delta}"
  | arithmetic op => op.mnemonic
  | loadElement kind => kind.letter ++ "aload"
  | storeElement kind => kind.letter ++ "astore"
  | newObject className => s!"new {className}"
  | newIntArray => "newarray int"
  | newBoolArray => "newarray boolean"
  | newReferenceArray className => s!"anewarray {className}"
  | arrayLength => "arraylength"
  | getField owner name descriptor => s!"getfield {owner}/{name} {descriptor}"
  | putField owner name descriptor => s!"putfield {owner}/{name} {descriptor}"
  | invoke how owner name descriptor _ _ => s!"{how.mnemonic} {owner}/{name}{descriptor}"
  | dup => "dup"
  | pop => "pop"
  | other mnemonic none _ _ => mnemonic
  | other mnemonic (some operand) _ _ => s!"{mnemonic} {operand}"

def pops : Op → Nat
  | const _ | load _ _ | increment _ _ | newObject _ | dup => 0
  | store _ _ | newIntArray | newBoolArray | newReferenceArray _ | arrayLength | getField _ _ _
  | pop => 1
  | arithmetic _ | loadElement _ | putField _ _ _ => 2
  | storeElement _ => 3
  | invoke _ _ _ _ pops _ | other _ _ pops _ => pops

def pushes : Op → Nat
  | store _ _ | increment _ _ | storeElement _ | putField _ _ _ | pop => 0
  | const _ | load _ _ | arithmetic _ | loadElement _ | newObject _ | newIntArray | newBoolArray
  | newReferenceArray _ | arrayLength | getField _ _ _ | dup => 1
  | invoke _ _ _ _ _ pushes | other _ _ _ pushes => pushes

def register? : Op → Option Nat
  | load _ register | store _ register | increment register _ => some register
  | _ => none

end Op

namespace Jump

def mnemonic : Jump → String
  | always => "goto"
  | eqZero => "ifeq"
  | neZero => "ifne"
  | ltZero => "iflt"
  | geZero => "ifge"
  | gtZero => "ifgt"
  | leZero => "ifle"
  | lt => "if_icmplt"
  | ge => "if_icmpge"
  | other mnemonic _ => mnemonic

def pops : Jump → Nat
  | always => 0
  | eqZero | neZero | ltZero | geZero | gtZero | leZero => 1
  | lt | ge => 2
  | other _ pops => pops

def isUnconditional (j : Jump) : Bool := j.mnemonic == "goto"

end Jump

namespace Exit

def mnemonic : Exit → String
  | void => "return"
  | value kind => kind.letter ++ "return"
  | other mnemonic _ => mnemonic

def pops : Exit → Nat
  | void => 0
  | value _ => 1
  | other _ pops => pops

end Exit

namespace Line

def text : Line → String
  | op o => s!"    {o.text}\n"
  | jump j target => s!"    {j.mnemonic} {target}\n"
  | exit e => s!"    {e.mnemonic}\n"
  | label name => s!"  {name}:\n"

def pops : Line → Nat
  | op o => o.pops
  | jump j _ => j.pops
  | exit e => e.pops
  | label _ => 0

def pushes : Line → Nat
  | op o => o.pushes
  | _ => 0

def register? : Line → Option Nat
  | op o => o.register?
  | _ => none

end Line

theorem Jump.isUnconditional_iff {j : Jump} :
    j.isUnconditional = true ↔ j = .always ∨ ∃ pops, j = .other "goto" pops := by
  cases j <;> simp [isUnconditional, mnemonic]

end ClassLowering
