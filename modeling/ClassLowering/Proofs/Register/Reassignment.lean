import ClassLowering.Proofs.Register.Alike

namespace ClassLowering

namespace VariableTable

def entered (vertices : List Vertex) (name : String) (register : Option Nat) : Option Nat :=
  vertices.foldl (fun r x => if x.name = name then x.register.or r else r) register

theorem entered_eq_or (vertices : List Vertex) (name : String) (register : Option Nat) :
    entered vertices name register = (entered vertices name none).or register := by
  induction vertices generalizing register with
  | nil => rfl
  | cons x rest ih =>
    unfold entered at ih ⊢
    rw [List.foldl_cons, List.foldl_cons]
    split
    · rw [ih (x.register.or register), ih (x.register.or none), Option.or_none, Option.or_assoc]
    · exact ih register

theorem entered_entered (vertices : List Vertex) (name : String) (register : Option Nat) :
    entered vertices name (entered vertices name register) = entered vertices name register := by
  rw [entered_eq_or, entered_eq_or vertices name register]
  cases entered vertices name none <;> simp

theorem entries_assign (t : VariableTable) (vertices : List Vertex) :
    (t.assign vertices).entries = t.entries.map fun e =>
      (e.1, { e.2 with register := entered vertices e.1 e.2.register }) := by
  induction vertices generalizing t with
  | nil => exact (List.map_id _).symm
  | cons x rest ih =>
    rw [assign_cons, ih]
    cases hx : x.register with
    | none =>
      refine List.map_congr_left fun e _ => ?_
      unfold entered
      rw [List.foldl_cons, hx]
      simp
    | some r =>
      rw [Option.elim_some, entries_setRegister, List.map_map]
      refine List.map_congr_left fun e _ => ?_
      unfold entered
      rw [List.foldl_cons, hx]
      by_cases hname : e.1 = x.name
      · simp [hname]
      · simp [hname, Ne.symm hname]

theorem assign_assign (t : VariableTable) (vertices : List Vertex) :
    (t.assign vertices).assign vertices = t.assign vertices := by
  refine eq_of_entries ?_
  rw [entries_assign, entries_assign, List.map_map]
  refine List.map_congr_left fun e _ => ?_
  exact congrArg (fun r => (e.1, { e.2 with register := r })) (entered_entered vertices e.1 _)

end VariableTable

namespace Method

open InterferenceGraph

variable {m m' : Method} {g : InterferenceGraph}

theorem table_assignRegisters (m : Method) (g : InterferenceGraph) :
    (m.assignRegisters g).table = m.table.assign
      (g.parameters ++ g.locals.toList ++ [{ name := "this", register := some 0 }]) := by
  rw [VariableTable.assign_append]
  rfl

theorem assignRegisters_assignRegisters (m : Method) (g : InterferenceGraph) :
    (m.assignRegisters g).assignRegisters g = m.assignRegisters g := by
  have htable : ((m.assignRegisters g).assignRegisters g).table = (m.assignRegisters g).table := by
    rw [table_assignRegisters, table_assignRegisters, VariableTable.assign_assign]
  calc (m.assignRegisters g).assignRegisters g
      = { m with table := ((m.assignRegisters g).assignRegisters g).table } := rfl
    _ = { m with table := (m.assignRegisters g).table } := by rw [htable]
    _ = m.assignRegisters g := rfl

structure SameVariables (m m' : Method) : Prop extends m.Coincides m' where
  signature_eq : m'.toSignature = m.toSignature
  names_eq : m'.table.names = m.table.names

theorem SameVariables.localNames_eq (h : m.SameVariables m') : localNames m' = localNames m := by
  unfold localNames
  rw [h.names_eq, h.signature_eq]

theorem SameVariables.conflicts_iff (h : m.SameVariables m') (hm : m.WellFormed)
    (hm' : m'.WellFormed) (c : String × String) :
    c ∈ conflicts (.compute m') ↔ c ∈ conflicts (.compute m) := by
  obtain ⟨a, b⟩ := c
  rw [mem_conflicts hm, mem_conflicts hm']
  refine exists_congr fun n => ?_
  rw [h.mem_order_iff hm hm' n, h.instruction?_eq]
  exact and_congr_right fun hn => and_congr_right fun _ => h.liveOut_iff hm hm' hn b

theorem SameVariables.graph_alike (h : m.SameVariables m') (hm : m.WellFormed)
    (hm' : m'.WellFormed) :
    Alike (ofMethod m (.compute m)) (ofMethod m' (.compute m')) := by
  obtain ⟨hs, hu, hnames, hp, hedge⟩ := ofMethod_spec m (.compute m)
  obtain ⟨hs', hu', hnames', hp', hedge'⟩ := ofMethod_spec m' (.compute m')
  have hsame : (ofMethod m' (.compute m')).names = (ofMethod m (.compute m)).names := by
    rw [hnames, hnames', h.localNames_eq]
  refine .of_views ?_ hsame ?_ ?_ fun v => ?_
  · rw [hp, hp', parameters_vertices, parameters_vertices, h.signature_eq]
  · funext v
    rw [Bool.eq_iff_iff, hu.isVisible_iff, hu'.isVisible_iff, size_locals_of_names hsame]
  · funext v
    rw [hu.register?_eq, hu'.register?_eq]
  · refine (List.perm_ext_iff_of_nodup (hs'.neighbours_nodup v) (hs.neighbours_nodup v)).2 ?_
    intro w
    rw [hedge, hedge']
    simp only [h.conflicts_iff hm hm', Joins, index?_eq_idxOf?, hsame]

theorem SameVariables.allocate_eq (h : m.SameVariables m') (hm : m.WellFormed)
    (hm' : m'.WellFormed) (ceiling? : Option Nat) :
    (∃ fault, m.allocate (.compute m) ceiling? = .error fault ∧
        m'.allocate (.compute m') ceiling? = .error fault) ∨
      ∃ g k, m.allocate (.compute m) ceiling? = .ok (m.assignRegisters g, k) ∧
        m'.allocate (.compute m') ceiling? = .ok (m'.assignRegisters g, k) := by
  obtain ⟨hcolored, houtcome⟩ := (h.graph_alike hm hm').color m.name ceiling?
  have hname : m'.name = m.name := congrArg Signature.name h.signature_eq
  have hassign : m'.assignRegisters ((ofMethod m' (.compute m')).color m.name ceiling?).1 =
      m'.assignRegisters ((ofMethod m (.compute m)).color m.name ceiling?).1 := by
    unfold assignRegisters
    rw [hcolored.assign_eq]
  unfold allocate
  dsimp only
  rw [hname, houtcome, hassign]
  cases ((ofMethod m (.compute m)).color m.name ceiling?).2 with
  | error fault => exact .inl ⟨fault, rfl, rfl⟩
  | ok k => exact .inr ⟨_, k, rfl, rfl⟩

end Method

end ClassLowering
