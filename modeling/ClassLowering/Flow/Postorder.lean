import ClassLowering.Flow.Graph

namespace ClassLowering

structure Traversal where
  reached : List Node := []
  stack : List (Node × Nat) := []
  finished : List Node := []
  deriving DecidableEq, Repr

namespace FlowGraph

def advance (g : FlowGraph) (t : Traversal) : Traversal :=
  match t.stack with
  | [] => t
  | (n, child) :: rest =>
    match (g.successors n)[child]? with
    | some s =>
      if s ∈ t.reached then { t with stack := (n, child + 1) :: rest }
      else { t with reached := s :: t.reached, stack := (s, 0) :: (n, child + 1) :: rest }
    | none => { t with stack := rest, finished := t.finished ++ [n] }

def traverse (g : FlowGraph) : Nat → Traversal → Traversal
  | 0, t => t
  | bound + 1, t => if t.stack.isEmpty then t else g.traverse bound (g.advance t)

def visitsOf (g : FlowGraph) : List Node → Nat
  | [] => 0
  | n :: rest => (g.successors n).length + 1 + g.visitsOf rest

def traversalBound (g : FlowGraph) : Nat := g.visitsOf ((List.range (g.size + 1)).map Node.mk)

def postorder (g : FlowGraph) : List Node :=
  (g.traverse g.traversalBound { reached := [.entry], stack := [(.entry, 0)] }).finished

end FlowGraph

end ClassLowering
