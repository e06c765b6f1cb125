import ClassLowering.DeadStore
import ClassLowering.Event
import ClassLowering.Register.Allocation
import ClassLowering.Settings

namespace ClassLowering

inductive Pass where
  | deadStoreElimination
  deriving DecidableEq, Repr, Inhabited

namespace Pass

def name : Pass → String
  | deadStoreElimination => "dead-code-elimination"

def removalEvent (method : String) (n : Node) (name : String) : Event :=
  (Event.of .instructionRemoved).atNode method n.index
    |>.inPass deadStoreElimination.name |>.saying s!"dead store to '{name}'"

def dropStores (m : Method) : List (Node × String) → Method × EventLog
  | [] => (m, [])
  | (n, name) :: rest =>
    let (removed, left) := m.removeInstruction n
    let (final, later) := dropStores left rest
    (final, if removed then removalEvent m.name n name :: later else later)

def removeDeadStores (m : Method) : Method × EventLog × Bool :=
  let dead := m.deadStores (.compute m)
  let (left, events) := dropStores m dead
  (left, events, !dead.isEmpty)

def run : Pass → Method → Method × EventLog × Bool
  | deadStoreElimination => removeDeadStores

end Pass

structure Summary where
  rounds : Nat := 0
  removed : Nat := 0
  registers : Option Nat := none
  deriving DecidableEq, Repr, Inhabited

structure Progress where
  method : Method
  events : EventLog := []
  rounds : Nat := 0
  removed : Nat := 0

structure Report (α : Type) where
  method : Method
  events : EventLog := []
  log : List String := []
  outcome : Except Fault α

structure Pipeline where
  passes : List Pass := []
  allocation : Allocation := .disabled
  deriving DecidableEq, Repr, Inhabited

namespace Pipeline

def ofSettings (s : Settings) : Pipeline :=
  { passes := if s.optimize then [.deadStoreElimination] else [], allocation := s.allocation }

def runPasses : List Pass → Method → Method × EventLog × Bool
  | [], m => (m, [], false)
  | p :: rest, m =>
    let (after, events, changed) := p.run m
    let started := (Event.of .passStarted).inMethod m.name |>.inPass p.name
    let completed := (Event.of .passCompleted).inMethod m.name |>.inPass p.name
      |>.saying (if changed then "changed" else "unchanged")
    let (final, later, changedLater) := runPasses rest after
    (final, started :: events ++ completed :: later, changed || changedLater)

def runRounds (passes : List Pass) : Nat → Progress → Progress
  | 0, p => p
  | bound + 1, p =>
    let (m, events, changed) := runPasses passes p.method
    if !changed then { p with method := m, events := p.events ++ events }
    else
      let renumbered := m.renumber
      let compacted := (Event.of .variablesCompacted).inMethod m.name |>.saying
        s!"variable table rebuilt: {m.table.size} -> {renumbered.table.size} entries"
      runRounds passes bound
        { method := renumbered
          events := p.events ++ events ++ [compacted]
          rounds := p.rounds + 1
          removed := p.removed + (p.method.body.length - m.body.length) }

def optimize (passes : List Pass) (m : Method) : Progress :=
  runRounds passes (m.body.length + 1) { method := m }

def run (pipeline : Pipeline) (m : Method) : Report Summary :=
  let p := optimize pipeline.passes m
  let summary : Summary := { rounds := p.rounds, removed := p.removed }
  if !pipeline.allocation.isEnabled then
    { method := p.method, events := p.events, outcome := .ok summary }
  else
    match p.method.allocate (.compute p.method) pipeline.allocation.ceiling? with
    | .error fault => { method := p.method, events := p.events, outcome := .error fault }
    | .ok (m, count) =>
      let allocated := (Event.of .registersAllocated).inMethod m.name
        |>.saying s!"{count} local registers after the parameters"
      { method := m
        events := p.events ++ [allocated]
        log := [s!"allocated {count} local registers for '{m.name}'"]
        outcome := .ok { summary with registers := some count } }

end Pipeline

end ClassLowering
