namespace ClassLowering

inductive EventKind where
  | instructionRemoved
  | variablesCompacted
  | registersAllocated
  | codeEmitted
  | passStarted
  | passCompleted
  | error
  deriving DecidableEq, Repr, Inhabited

def EventKind.description : EventKind → String
  | instructionRemoved => "instruction removed"
  | variablesCompacted => "variables compacted"
  | registersAllocated => "registers allocated"
  | codeEmitted => "method emitted"
  | passStarted => "pass started"
  | passCompleted => "pass completed"
  | error => "error"

structure Event where
  kind : EventKind
  method : Option String := none
  location : Option Nat := none
  pass : Option String := none
  message : String := kind.description
  deriving DecidableEq, Repr

namespace Event

def of (kind : EventKind) : Event := { kind }

def atNode (e : Event) (method : String) (location : Nat) : Event :=
  { e with method, location }

def inMethod (e : Event) (method : String) : Event :=
  { e with method }

def inPass (e : Event) (pass : String) : Event :=
  { e with pass }

def saying (e : Event) (message : String) : Event :=
  { e with message }

end Event

abbrev EventLog := List Event

namespace EventLog

def ofKind (log : EventLog) (kind : EventKind) : List Event :=
  log.filter (·.kind = kind)

def count (log : EventLog) (kind : EventKind) : Nat :=
  (log.ofKind kind).length

def has (log : EventLog) (kind : EventKind) : Bool :=
  log.any (·.kind = kind)

end EventLog

end ClassLowering
