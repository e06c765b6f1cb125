import ClassLowering.Fault
import ClassLowering.Register.Interference

namespace ClassLowering

namespace InterferenceGraph

structure Simplification where
  graph : InterferenceGraph
  hidden : List Nat := []
  budget : Nat := 0
  deriving DecidableEq, Repr

namespace Simplification

def visit (s : Simplification) (v : Nat) : Simplification :=
  if s.graph.isVisible v && s.graph.visibleDegree v < s.budget then
    { s with graph := s.graph.hide v, hidden := s.hidden ++ [v] }
  else s

def sweep (s : Simplification) : Simplification :=
  (List.range s.graph.locals.size).foldl visit s

def sweeps : Nat → Simplification → Simplification
  | 0, s => s
  | bound + 1, s =>
    if s.graph.visibleCount = 0 then s
    else
      let swept := s.sweep
      sweeps bound <|
        if swept.hidden = s.hidden then { swept with budget := swept.budget + 1 } else swept

end Simplification

def simplify (g : InterferenceGraph) : Simplification :=
  Simplification.sweeps (2 * g.locals.size) ⟨g, [], 0⟩

def checkCeiling (method : String) (ceiling? : Option Nat) (budget : Nat) : Except Fault Unit :=
  match ceiling? with
  | some ceiling =>
    if ceiling < budget then .error (.registerCapacity method budget ceiling) else .ok ()
  | none => .ok ()

def maxRegister : Nat := 65535

def pinParameters (g : InterferenceGraph) : InterferenceGraph :=
  { g with
    parameters := g.parameters.mapIdx fun i x =>
      if i ≤ maxRegister then { x with register := some i } else x }

def select (method : String) (base limit : Nat) :
    List Nat → InterferenceGraph → InterferenceGraph × Except Fault Unit
  | [], g => (g, .ok ())
  | v :: rest, g =>
    let register := g.lowestFree v base
    if limit ≤ register then
      let name := ((g.locals[v]?).map Vertex.name).getD ""
      (g, .error (.noFreeRegister method name limit))
    else select method base limit rest (g.setRegister v register)

def color (method : String) (ceiling? : Option Nat) (g : InterferenceGraph) :
    InterferenceGraph × Except Fault Nat :=
  let s := g.simplify
  match checkCeiling method ceiling? s.budget with
  | .error fault => (s.graph, .error fault)
  | .ok () =>
    let pinned := s.graph.pinParameters
    let base := g.parameters.length
    if maxRegister < base then (pinned, .error (.malformed (.tooManyParameters method)))
    else if maxRegister < base + s.budget then
      (pinned, .error (.malformed (.tooManyRegisters method)))
    else
      let (colored, outcome) := select method base (base + s.budget) s.hidden.reverse pinned
      (colored, outcome.map fun () => s.budget)

theorem checkCeiling_eq_ok_iff {method : String} {ceiling? : Option Nat} {budget : Nat} :
    checkCeiling method ceiling? budget = .ok () ↔ ∀ ceiling ∈ ceiling?, budget ≤ ceiling := by
  cases ceiling? with
  | none => simp [checkCeiling]
  | some ceiling =>
    by_cases above : ceiling < budget
    · simp [checkCeiling, above]
    · simp [checkCeiling, above, Nat.not_lt.1 above]

end InterferenceGraph

end ClassLowering
