import ClassLowering.Fault
import ClassLowering.Text.Blank
import ClassLowering.Text.Numeral

namespace ClassLowering

inductive Allocation where
  | disabled
  | minimal
  | atMost (ceiling : Nat)
  deriving DecidableEq, Repr, Inhabited

namespace Allocation

def ofSetting (value : Int) : Allocation :=
  if value < 0 then disabled else if value = 0 then minimal else atMost value.toNat

def isEnabled : Allocation → Bool
  | disabled => false
  | _ => true

def ceiling? : Allocation → Option Nat
  | atMost ceiling => some ceiling
  | _ => none

end Allocation

structure Settings where
  optimize : Bool := false
  allocation : Allocation := .disabled
  debug : Bool := false
  deriving DecidableEq, Repr, Inhabited

namespace Settings

def readFlag (key value : String) : Except BadSetting Bool :=
  let text := (Text.trim value.toList).map Char.toLower
  if text = "true".toList then .ok true
  else if text = "false".toList then .ok false
  else .error (.flag key value)

def readAllocation (key value : String) : Except BadSetting Allocation :=
  match Text.word? (Text.trim value.toList) with
  | some number => .ok (.ofSetting number)
  | none => .error (.integer key value)

def readKey {α : Type} (values : List (String × String)) (key : String)
    (read : String → String → Except BadSetting α) (absent : α) : Except BadSetting α :=
  match values.lookup key with
  | some value => read key value
  | none => .ok absent

def read (values : List (String × String)) : Except Fault Settings :=
  let settings : Except BadSetting Settings := do
    let optimize ← readKey values "optimize" readFlag false
    let debug ← readKey values "debug" readFlag false
    let allocation ← readKey values "registerAllocation" readAllocation .disabled
    return { optimize, allocation, debug }
  settings.mapError .badSetting

end Settings

end ClassLowering
