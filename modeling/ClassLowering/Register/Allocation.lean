import ClassLowering.Register.Coloring

namespace ClassLowering

def VariableTable.assign (t : VariableTable) (vertices : List Vertex) : VariableTable :=
  vertices.foldl
    (fun t x =>
      match x.register with
      | some register => t.setRegister x.name register
      | none => t)
    t

namespace Method

def assignRegisters (m : Method) (g : InterferenceGraph) : Method :=
  { m with
    table := (m.table.assign (g.parameters ++ g.locals.toList)).setRegister "this" 0 }

def allocate (m : Method) (l : Liveness) (ceiling? : Option Nat) : Except Fault (Method × Nat) :=
  let (colored, outcome) := (InterferenceGraph.ofMethod m l).color m.name ceiling?
  outcome.map fun budget => (m.assignRegisters colored, budget)

theorem allocate_eq_ok {m m' : Method} {l : Liveness} {ceiling? : Option Nat} {k : Nat}
    (h : m.allocate l ceiling? = .ok (m', k)) :
    ∃ g, (InterferenceGraph.ofMethod m l).color m.name ceiling? = (g, .ok k) ∧
      m' = m.assignRegisters g := by
  unfold allocate at h
  generalize (InterferenceGraph.ofMethod m l).color m.name ceiling? = colored at h
  obtain ⟨g, outcome⟩ := colored
  cases outcome with
  | error fault => cases h
  | ok budget =>
    cases h
    exact ⟨g, rfl, rfl⟩

end Method

theorem VariableTable.names_assign (t : VariableTable) (vertices : List Vertex) :
    (t.assign vertices).names = t.names := by
  unfold assign
  induction vertices generalizing t with
  | nil => rfl
  | cons x rest ih =>
    rw [List.foldl_cons, ih]
    split <;> simp

end ClassLowering
