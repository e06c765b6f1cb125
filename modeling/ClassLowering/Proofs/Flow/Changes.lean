import ClassLowering.Proofs.Flow.Edges

namespace ClassLowering

namespace FlowGraph

inductive Change where
  | add (a b : Node)
  | remove (a b : Node)
  | splice (n : Node)
  deriving DecidableEq, Repr

namespace Change

def apply (g : FlowGraph) : Change → FlowGraph
  | add a b => g.addEdge a b
  | remove a b => g.removeEdge a b
  | splice n => g.splice n

def relate (joined : Node → Node → Prop) : Change → Node → Node → Prop
  | add a b, x, y => joined x y ∨ x = a ∧ y = b
  | remove a b, x, y => joined x y ∧ ¬ (x = a ∧ y = b)
  | splice n, x, y => x ≠ n ∧ y ≠ n ∧ (joined x y ∨ joined x n ∧ joined n y)

end Change

variable {g : FlowGraph}

theorem Mirrored.apply (hg : g.Mirrored) (c : Change) : (c.apply g).Mirrored := by
  cases c with
  | add a b => exact hg.addEdge a b
  | remove a b => exact hg.removeEdge a b
  | splice n => exact hg.splice n

theorem edge_apply (hg : g.Mirrored) (c : Change) : (c.apply g).Edge = c.relate g.Edge := by
  funext x y
  apply propext
  cases c with
  | add a b => exact edge_addEdge g a b x y
  | remove a b => exact edge_removeEdge g a b x y
  | splice n => exact edge_splice hg n x y

theorem Mirrored.changes (hg : g.Mirrored) (changes : List Change) :
    (changes.foldl Change.apply g).Mirrored :=
  Mirrored.foldl (fun _ hg c => hg.apply c) changes hg

theorem edge_changes (hg : g.Mirrored) (changes : List Change) :
    (changes.foldl Change.apply g).Edge = changes.foldl Change.relate g.Edge := by
  induction changes generalizing g with
  | nil => rfl
  | cons c rest ih => rw [List.foldl_cons, List.foldl_cons, ih (hg.apply c), edge_apply hg]

theorem edge_empty (count : Nat) : (empty count).Edge = fun _ _ => False := by
  funext a b
  simpa using not_edge_empty count a b

theorem Edge.source_lt {a b : Node} (h : g.Edge a b) : a.index < g.size := by
  by_contra hle
  have hl := linksOf_of_size_le (Nat.not_lt.1 hle)
  simp [Edge, successors, hl] at h

theorem changes_mirrored (count : Nat) (changes : List Change) :
    let g := changes.foldl Change.apply (empty count)
    (∀ a b, b ∈ g.successors a ↔ a ∈ g.predecessors b) ∧
    (∀ n, (g.successors n).Nodup ∧ (g.predecessors n).Nodup) ∧
    (∀ n a b, b ∈ (g.splice n).successors a ↔
      a ≠ n ∧ b ≠ n ∧ (b ∈ g.successors a ∨ n ∈ g.successors a ∧ b ∈ g.successors n)) ∧
    (∀ a b, g.Edge a b ↔ changes.foldl Change.relate (fun _ _ => False) a b) ∧
    ∀ a b, g.Edge a b → a.index < g.size ∧ b.index < g.size := by
  intro g
  have hg : g.Mirrored := (Mirrored.empty count).changes changes
  have hedges : g.Edge = changes.foldl Change.relate (fun _ _ => False) := by
    rw [← edge_empty count]
    exact edge_changes (Mirrored.empty count) changes
  refine ⟨hg.mirror, fun n => ⟨hg.successors_nodup n, hg.predecessors_nodup n⟩,
    fun n a b => edge_splice hg n a b, fun a b => by rw [hedges], fun a b h => ?_⟩
  exact ⟨h.source_lt, h.target_lt hg⟩

theorem changes_mirrored_beyond :
    let g := [Change.add ⟨0⟩ ⟨1⟩, .add ⟨1⟩ ⟨1⟩, .add ⟨1⟩ ⟨5⟩, .remove ⟨9⟩ ⟨0⟩].foldl
      Change.apply (empty 2)
    ⟨5⟩ ∈ (g.splice ⟨1⟩).successors ⟨0⟩ ∧ ⟨1⟩ ∉ (g.splice ⟨1⟩).successors ⟨1⟩ ∧ 5 < g.size := by
  obtain ⟨-, -, hsplice, hedge, hinside⟩ := changes_mirrored 2
    [.add ⟨0⟩ ⟨1⟩, .add ⟨1⟩ ⟨1⟩, .add ⟨1⟩ ⟨5⟩, .remove ⟨9⟩ ⟨0⟩]
  have hin := (hedge ⟨0⟩ ⟨1⟩).2 (by simp [Change.relate])
  have hout := (hedge ⟨1⟩ ⟨5⟩).2 (by simp [Change.relate])
  refine ⟨(hsplice _ _ _).2 ⟨by decide, by decide, .inr ⟨hin, hout⟩⟩, fun h => ?_, ?_⟩
  · exact ((hsplice _ _ _).1 h).1 rfl
  · exact (hinside _ _ hout).2

end FlowGraph

end ClassLowering
