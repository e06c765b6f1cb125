import ClassLowering.Code.Listing
import ClassLowering.Optimization

namespace ClassLowering

structure Compiler where
  settings : Settings := {}
  events : EventLog := []
  deriving DecidableEq, Repr, Inhabited

structure Compilation where
  compiler : Compiler
  unit : ClassUnit
  log : List String
  outcome : Except Fault String

namespace Compiler

def prepare (s : Settings) (m : Method) : Report Unit :=
  match m.rebuildFlow with
  | .error defect => { method := m, outcome := .error (.malformed defect) }
  | .ok m =>
    let before := if s.debug then [s!"IR before optimization:\n{m.text}"] else []
    let report := (Pipeline.ofSettings s).run m
    match report.outcome with
    | .error fault =>
      { method := report.method, events := report.events, log := before ++ report.log
        outcome := .error fault }
    | .ok summary =>
      let m := report.method
      let removed := if summary.removed = 0 then [] else
        [s!"removed {summary.removed} dead stores from '{m.name}' in {summary.rounds} rounds"]
      let after := if !s.debug then [] else
        [s!"liveness of '{m.name}':\n{(Liveness.compute m).text}"]
      { method := m, events := report.events, log := before ++ report.log ++ removed ++ after
        outcome := .ok () }

def prepareRecorded (s : Settings) (m : Method) : Report Unit :=
  if m.isConstructor then { method := m, outcome := .ok () }
  else
    let report := prepare s m
    match report.outcome with
    | .ok () => report
    | .error fault =>
      let failed := (Event.of .error).inMethod m.name |>.saying fault.message
      { report with events := report.events ++ [failed] }

def fault? (r : Report Unit) : Option Fault :=
  match r.outcome with
  | .ok () => none
  | .error fault => some fault

def compile (c : Compiler) (u : ClassUnit) : Compilation :=
  -- Events and log lines stand in the order in which the methods are declared.
  let reports := u.methods.map (prepareRecorded c.settings)
  let u := { u with methods := reports.map Report.method }
  let events := c.events ++ reports.flatMap Report.events
  let log := reports.flatMap Report.log
  match reports.findSome? fault? with
  | some fault => { compiler := { c with events }, unit := u, log, outcome := .error fault }
  | none =>
    let (emitted, outcome) := u.listing
    let written := match outcome with
      | .ok text => if c.settings.debug then [s!"Jasmin for class '{u.name}':\n{text}"] else []
      | .error _ => []
    { compiler := { c with events := events ++ emitted }, unit := u, log := log ++ written
      outcome }

end Compiler

end ClassLowering
