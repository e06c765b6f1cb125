import ClassLowering.Liveness.Basic
import ClassLowering.NameIndex
import ClassLowering.Search

namespace ClassLowering

structure Vertex where
  name : String
  visible : Bool := true
  register : Option Nat := none
  neighbours : List Nat := []
  deriving DecidableEq, Repr, Inhabited

structure InterferenceGraph where
  parameters : List Vertex := []
  locals : Array Vertex := #[]
  index : NameIndex := .ofNames (locals.toList.map Vertex.name)
  index_eq : index = .ofNames (locals.toList.map Vertex.name) := by rfl
  deriving DecidableEq, Repr

namespace InterferenceGraph

instance : Inhabited InterferenceGraph := ⟨{}⟩

def names (g : InterferenceGraph) : List String := g.locals.toList.map Vertex.name

def index? (g : InterferenceGraph) (name : String) : Option Nat := g.index.place? name

def pushLocal (g : InterferenceGraph) (name : String) : InterferenceGraph where
  parameters := g.parameters
  locals := g.locals.push { name }
  index := g.index.enter name g.locals.size
  index_eq := by
    rw [Array.toList_push, List.map_append, List.map_singleton, NameIndex.ofNames_concat,
      List.length_map, Array.length_toList, g.index_eq]

def enterLocal (g : InterferenceGraph) (name : String) : Nat × InterferenceGraph :=
  match g.index? name with
  | some v => (v, g)
  | none => (g.locals.size, g.pushLocal name)

def addLocal (g : InterferenceGraph) (name : String) : InterferenceGraph := (g.enterLocal name).2

theorem map_name_modify {f : Vertex → Vertex} (hf : ∀ x, (f x).name = x.name)
    (locals : Array Vertex) (v : Nat) :
    (locals.modify v f).toList.map Vertex.name = locals.toList.map Vertex.name := by
  refine List.ext_getElem? fun w => ?_
  rw [List.getElem?_map, List.getElem?_map, Array.getElem?_toList, Array.getElem?_toList,
    Array.getElem?_modify]
  split
  · rw [Option.map_map]
    exact Option.map_congr fun x _ => hf x
  · rfl

def modify (g : InterferenceGraph) (v : Nat) (f : Vertex → Vertex)
    (hf : ∀ x, (f x).name = x.name := by exact fun _ => rfl) : InterferenceGraph where
  parameters := g.parameters
  locals := g.locals.modify v f
  index := g.index
  index_eq := by rw [map_name_modify hf, g.index_eq]

def neighbours (g : InterferenceGraph) (v : Nat) : List Nat :=
  ((g.locals[v]?).map Vertex.neighbours).getD []

def isVisible (g : InterferenceGraph) (v : Nat) : Bool :=
  (g.locals[v]?).any Vertex.visible

def register? (g : InterferenceGraph) (v : Nat) : Option Nat :=
  (g.locals[v]?).bind Vertex.register

def addEdge (g : InterferenceGraph) (v w : Nat) : InterferenceGraph :=
  if v = w ∨ g.locals.size ≤ v ∨ g.locals.size ≤ w ∨ w ∈ g.neighbours v then g
  else
    (g.modify v fun x => { x with neighbours := x.neighbours ++ [w] }).modify w
      fun x => { x with neighbours := x.neighbours ++ [v] }

def addInterference (g : InterferenceGraph) (a b : String) : InterferenceGraph :=
  match g.index? a, g.index? b with
  | some v, some w => g.addEdge v w
  | _, _ => g

def interferes (g : InterferenceGraph) (a b : String) : Bool :=
  match g.index? a, g.index? b with
  | some v, some w => w ∈ g.neighbours v
  | _, _ => false

def visibleCount (g : InterferenceGraph) : Nat :=
  g.locals.toList.countP Vertex.visible

def visibleDegree (g : InterferenceGraph) (v : Nat) : Nat :=
  (g.neighbours v).countP g.isVisible

def hide (g : InterferenceGraph) (v : Nat) : InterferenceGraph :=
  g.modify v fun x => { x with visible := false }

def setRegister (g : InterferenceGraph) (v register : Nat) : InterferenceGraph :=
  g.modify v fun x => { x with register }

def takenAround (g : InterferenceGraph) (v : Nat) : List Nat :=
  (g.neighbours v).filterMap g.register?

def lowestFree (g : InterferenceGraph) (v base : Nat) : Nat :=
  let taken := g.takenAround v
  firstFrom (fun r => r ∉ taken) base taken.length

def vertices (m : Method) : InterferenceGraph :=
  let receiver : List Vertex := if m.isStatic then [] else [{ name := "this" }]
  let parameters := m.parameters.map fun p => { name := p.name }
  let others := m.table.names.filter fun name => name ≠ "this" && !m.isParameter name
  others.foldl addLocal { parameters := receiver ++ parameters }

def conflicts (l : Liveness) : List (String × String) :=
  l.order.flatMap fun n =>
    (l.names (l.factsAt n).writes).flatMap fun a =>
      (l.names (l.factsAt n).liveOut).map fun b => (a, b)

def ofMethod (m : Method) (l : Liveness) : InterferenceGraph :=
  (conflicts l).foldl (fun g (a, b) => g.addInterference a b) (vertices m)

end InterferenceGraph

end ClassLowering
