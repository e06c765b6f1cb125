import ClassLowering.Flow.Postorder
import ClassLowering.Liveness.IndexSet
import ClassLowering.Method.Basic
import ClassLowering.Settle

namespace ClassLowering

structure Facts where
  reads : IndexSet
  writes : IndexSet
  liveIn : IndexSet
  liveOut : IndexSet
  deriving DecidableEq, Repr, Inhabited

def Facts.empty (bound : Nat) : Facts :=
  ⟨.empty bound, .empty bound, .empty bound, .empty bound⟩

structure Liveness where
  tracked : List String
  order : List Node
  facts : Array Facts
  passes : Nat
  deriving DecidableEq, Repr, Inhabited

namespace Liveness

def index? (l : Liveness) (name : String) : Option Nat := l.tracked.idxOf? name

def name? (l : Liveness) (index : Nat) : Option String := l.tracked[index]?

def names (l : Liveness) (s : IndexSet) : List String := s.toList.filterMap l.name?

def bound (l : Liveness) : Nat := l.tracked.length

def factsAt (l : Liveness) (n : Node) : Facts :=
  (l.facts[n.index]?).getD (.empty l.bound)

def liveOutHas (l : Liveness) (n : Node) (name : String) : Bool :=
  (l.index? name).any (l.factsAt n).liveOut.contains

def writesHas (l : Liveness) (n : Node) (name : String) : Bool :=
  (l.index? name).any (l.factsAt n).writes.contains

def setOf (tracked names : List String) : IndexSet :=
  (names.filterMap tracked.idxOf?).foldl .insert (.empty tracked.length)

def operandNames (operands : List Operand) : List String :=
  (operands.flatMap Operand.mentions).map Prod.fst

def written (i : Instruction) : List String :=
  (i.destination?.bind Operand.name?).toList

def readBy (i : Instruction) : List String :=
  match i.destination? with
  | some (.element array index ty) => operandNames (.element array index ty :: i.reads)
  | _ => operandNames i.reads

def initialFacts (m : Method) (tracked : List String) (order : List Node) (n : Node) : Facts :=
  let nothing := Facts.empty tracked.length
  match if n ∈ order then m.instruction? n else none with
  | some i => { nothing with
      reads := setOf tracked (readBy i), writes := setOf tracked (written i) }
  | none => nothing

def start (m : Method) : Liveness :=
  let tracked := (m.mentions.map Prod.fst).eraseDups
  let order := m.flow.postorder.filter fun n => !n.isSentinel && m.contains n
  { tracked, order
    facts := Array.ofFn fun (i : Fin m.nodeCount) => initialFacts m tracked order ⟨i⟩
    passes := 0 }

def liveBefore (bound : Nat) (facts : Array Facts) (after : List Node) : IndexSet :=
  (after.filterMap fun n => (facts[n.index]?).map Facts.liveIn).foldl .union (.empty bound)

def update (g : FlowGraph) (bound : Nat) (facts : Array Facts) (n : Node) : Array Facts :=
  let liveOut := liveBefore bound facts (g.successors n)
  facts.modify n.index fun f =>
    { f with liveOut, liveIn := (liveOut.diff f.writes).union f.reads }

def pass (g : FlowGraph) (l : Liveness) (facts : Array Facts) : Array Facts :=
  l.order.foldl (update g l.bound) facts

def stateCount (l : Liveness) : Nat := 1 <<< (2 * l.order.length * l.bound)

def solve? (g : FlowGraph) (l : Liveness) : Option Liveness :=
  (settle (pass g l) l.facts 0 (l.stateCount + 1)).map fun (facts, passes) =>
    { l with facts, passes }

def compute (m : Method) : Liveness :=
  (solve? m.flow (start m)).getD (start m)

def text (l : Liveness) : String :=
  let list (s : IndexSet) := "\x7b" ++ ", ".intercalate (l.names s) ++ "\x7d"
  String.join <| l.order.map fun n =>
    s!"{n}: in=" ++ list (l.factsAt n).liveIn ++ " out=" ++ list (l.factsAt n).liveOut ++ "\n"

theorem pass_of_solve? {g : FlowGraph} {l solved : Liveness} (h : solve? g l = some solved) :
    pass g solved solved.facts = solved.facts := by
  simp only [solve?, Option.map_eq_some_iff] at h
  obtain ⟨⟨facts, passes⟩, settled, rfl⟩ := h
  exact step_of_settle settled

end Liveness

end ClassLowering
