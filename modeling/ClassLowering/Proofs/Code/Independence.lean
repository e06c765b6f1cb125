import ClassLowering.Code.Listing

namespace ClassLowering

def Method.withoutFlow (m : Method) : Method := { m with flow := .empty 0 }

theorem Method.eq_of_withoutFlow {m m' : Method} (h : m'.withoutFlow = m.withoutFlow) :
    m' = { m with flow := m'.flow } := by
  calc m' = { m'.withoutFlow with flow := m'.flow } := rfl
    _ = { m.withoutFlow with flow := m'.flow } := by rw [h]
    _ = { m with flow := m'.flow } := rfl

namespace Scope

variable (s : Scope) (g : FlowGraph)

def reflow (s : Scope) (g : FlowGraph) : Scope := ⟨s.header, { s.method with flow := g }⟩

theorem register_reflow (name : String) : (s.reflow g).register name = s.register name := rfl

theorem fieldTarget_reflow (object : Operand) (field : FieldRef) :
    (s.reflow g).fieldTarget object field = s.fieldTarget object field := rfl

theorem load_reflow (x : Operand) : (s.reflow g).load x = s.load x := by
  induction x with
  | element array index ty ih =>
    rw [load, load, ih]
    rfl
  | _ => rfl

theorem loadAll_reflow (l : List Operand) : (s.reflow g).loadAll l = s.loadAll l := by
  induction l with
  | nil => rfl
  | cons x rest ih => rw [loadAll, loadAll, load_reflow, ih]

theorem loadArguments_reflow (l : List Operand) :
    (s.reflow g).loadArguments l = s.loadArguments l := by
  rw [loadArguments, loadArguments, loadAll_reflow]

theorem call_reflow (c : Call) : (s.reflow g).call c = s.call c := by
  unfold call newArray newObject
  simp only [load_reflow, loadArguments_reflow]
  rfl

theorem compare_reflow (op : Comparison) (left right : Operand) (label : String) :
    (s.reflow g).compare op left right label = s.compare op left right label := by
  simp only [compare, load_reflow]

theorem expression_reflow (i : Instruction) : (s.reflow g).expression i = s.expression i := by
  cases i with
  | binary op left right =>
    simp only [expression, binary, arithmetic, conjunction, comparison, compare_reflow, load_reflow]
  | _ => simp only [expression, load_reflow, call_reflow, fieldTarget_reflow]

theorem assign_reflow (destination : Operand) (value : Instruction) :
    (s.reflow g).assign destination value = s.assign destination value := by
  simp only [assign, expression_reflow, load_reflow, register_reflow]

theorem branch_reflow (condition : Instruction) (label : String) :
    (s.reflow g).branch condition label = s.branch condition label := by
  simp only [branch, expression_reflow, compare_reflow]

theorem statement_reflow (i : Instruction) : (s.reflow g).statement i = s.statement i := by
  cases i with
  | assign destination value => exact s.assign_reflow g destination value
  | branch condition label => exact s.branch_reflow g condition label
  | ret value =>
    cases value with
    | none => rfl
    | some x => simp only [statement, load_reflow]
  | _ => simp only [statement, expression_reflow, load_reflow, call_reflow, fieldTarget_reflow]

theorem statements_reflow (l : List (Node × Instruction)) :
    (s.reflow g).statements l = s.statements l := by
  induction l with
  | nil => rfl
  | cons e rest ih =>
    rw [statements, statements, statement_reflow, ih]
    rfl

theorem assemble_reflow : (s.reflow g).assemble = s.assemble := by
  have hbody : (s.reflow g).body = s.body := by
    rw [body, body, statements_reflow]
    rfl
  have hlower : (s.reflow g).lower = s.lower := by
    rw [lower, lower, hbody]
    rfl
  rw [assemble, assemble, hlower]
  rfl

end Scope

namespace Method

variable {m m' : Method}

theorem listing_of_withoutFlow (h : m'.withoutFlow = m.withoutFlow) (header : ClassHeader) :
    m'.listing header = m.listing header := by
  have hassemble : Scope.assemble ⟨header, { m with flow := m'.flow }⟩ =
      Scope.assemble ⟨header, m⟩ :=
    Scope.assemble_reflow ⟨header, m⟩ m'.flow
  rw [eq_of_withoutFlow h, listing, listing, hassemble]

end Method

namespace ClassUnit

theorem methodListings_of_withoutFlow (header : ClassHeader) {l l' : List Method}
    (h : l'.map Method.withoutFlow = l.map Method.withoutFlow) :
    methodListings header l' = methodListings header l := by
  induction l generalizing l' with
  | nil =>
    obtain rfl := List.map_eq_nil_iff.1 h
    rfl
  | cons m rest ih =>
    cases l' with
    | nil => cases h
    | cons m' rest' =>
      obtain ⟨hm, hrest⟩ := List.cons.inj h
      have hname : m'.name = m.name := by rw [Method.eq_of_withoutFlow hm]
      rw [methodListings, methodListings, Method.listing_of_withoutFlow hm, ih hrest, hname]

def withoutFlow (u : ClassUnit) : ClassUnit :=
  { u with methods := u.methods.map Method.withoutFlow }

theorem compiled_withoutFlow (u : ClassUnit) :
    u.withoutFlow.compiled = u.compiled.map Method.withoutFlow := List.filter_map

theorem prologue_withoutFlow (u : ClassUnit) : u.withoutFlow.prologue = u.prologue := rfl

theorem toClassHeader_withoutFlow (u : ClassUnit) :
    u.withoutFlow.toClassHeader = u.toClassHeader := rfl

theorem listing_of_withoutFlow {u u' : ClassUnit} (h : u'.withoutFlow = u.withoutFlow) :
    u'.listing = u.listing := by
  have hcompiled : u'.compiled.map Method.withoutFlow = u.compiled.map Method.withoutFlow := by
    rw [← compiled_withoutFlow, ← compiled_withoutFlow, h]
  rw [listing, listing, methodListings_of_withoutFlow _ hcompiled, ← prologue_withoutFlow u',
    ← toClassHeader_withoutFlow u', h, prologue_withoutFlow, toClassHeader_withoutFlow]

end ClassUnit

end ClassLowering
