import ClassLowering.Flow.Node

namespace ClassLowering

structure Links where
  successors : List Node := []
  predecessors : List Node := []
  deriving DecidableEq, Repr, Inhabited

structure FlowGraph where
  links : Array Links
  deriving DecidableEq, Repr, Inhabited

namespace FlowGraph

def empty (count : Nat) : FlowGraph := ⟨Array.replicate count {}⟩

def size (g : FlowGraph) : Nat := g.links.size

def linksOf (g : FlowGraph) (n : Node) : Links := (g.links[n.index]?).getD {}

def successors (g : FlowGraph) (n : Node) : List Node := (g.linksOf n).successors

def predecessors (g : FlowGraph) (n : Node) : List Node := (g.linksOf n).predecessors

def grow (g : FlowGraph) (count : Nat) : FlowGraph :=
  ⟨g.links ++ Array.replicate (count - g.size) ({} : Links)⟩

def modify (g : FlowGraph) (n : Node) (f : Links → Links) : FlowGraph :=
  ⟨g.links.modify n.index f⟩

def addEdge (g : FlowGraph) (a b : Node) : FlowGraph :=
  let g := g.grow (max a.index b.index + 1)
  if b ∈ g.successors a then g
  else
    (g.modify a fun l => { l with successors := l.successors ++ [b] }).modify b
      fun l => { l with predecessors := l.predecessors ++ [a] }

def removeEdge (g : FlowGraph) (a b : Node) : FlowGraph :=
  (g.modify a fun l => { l with successors := l.successors.filter (· ≠ b) }).modify b
    fun l => { l with predecessors := l.predecessors.filter (· ≠ a) }

def splice (g : FlowGraph) (n : Node) : FlowGraph :=
  let before := g.predecessors n
  let after := g.successors n
  let g := before.foldl (fun g a => g.removeEdge a n) g
  let g := after.foldl (fun g b => g.removeEdge n b) g
  (before.filter (· ≠ n)).foldl
    (fun g a => (after.filter (· ≠ n)).foldl (fun g b => g.addEdge a b) g) g

theorem linksOf_modify (g : FlowGraph) (n m : Node) (f : Links → Links) :
    (g.modify n f).linksOf m =
      if n = m ∧ n.index < g.size then f (g.linksOf m) else g.linksOf m := by
  obtain ⟨n⟩ := n
  obtain ⟨m⟩ := m
  simp only [modify, linksOf, size, Array.getElem?_modify, Node.mk.injEq]
  by_cases same : n = m
  · subst same
    by_cases inside : n < g.links.size <;> simp [inside]
  · simp [same]

theorem linksOf_grow (g : FlowGraph) (count : Nat) (n : Node) :
    (g.grow count).linksOf n = g.linksOf n := by
  simp only [grow, linksOf, Array.getElem?_append, Array.getElem?_replicate]
  by_cases inside : n.index < g.links.size
  · simp [inside]
  · simp only [inside, if_false]
    split <;> simp [Array.getElem?_eq_none (Nat.not_lt.1 inside)]

theorem size_modify (g : FlowGraph) (n : Node) (f : Links → Links) :
    (g.modify n f).size = g.size := by
  simp [modify, size]

theorem size_grow (g : FlowGraph) (count : Nat) : (g.grow count).size = max g.size count := by
  simp only [grow, size, Array.size_append, Array.size_replicate]
  omega

end FlowGraph

end ClassLowering
