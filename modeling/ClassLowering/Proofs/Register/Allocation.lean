import ClassLowering.Proofs.Method.Table
import ClassLowering.Proofs.Register.Coloring
import ClassLowering.Register.Allocation

namespace ClassLowering

namespace VariableTable

theorem assign_cons (t : VariableTable) (x : Vertex) (rest : List Vertex) :
    t.assign (x :: rest) =
      ((x.register.elim t fun r => t.setRegister x.name r).assign rest) := by
  unfold assign
  rw [List.foldl_cons]
  cases x.register <;> rfl

theorem assign_append (t : VariableTable) (vertices rest : List Vertex) :
    t.assign (vertices ++ rest) = (t.assign vertices).assign rest := List.foldl_append

theorem register?_assign_of_not_mem {vertices : List Vertex} {a : String}
    (h : a ∉ vertices.map Vertex.name) (t : VariableTable) :
    (t.assign vertices).register? a = t.register? a := by
  induction vertices generalizing t with
  | nil => rfl
  | cons x rest ih =>
    rw [List.map_cons, List.mem_cons, not_or] at h
    rw [assign_cons, ih h.2]
    cases x.register with
    | none => rfl
    | some r =>
      rw [Option.elim_some, register?_setRegister, if_neg fun e => h.1 e.1]

theorem register?_assign {vertices : List Vertex} (hn : (vertices.map Vertex.name).Nodup)
    {x : Vertex} (hx : x ∈ vertices) {r : Nat} (hr : x.register = some r) {t : VariableTable}
    (ht : x.name ∈ t.names) : (t.assign vertices).register? x.name = some r := by
  induction vertices generalizing t with
  | nil => cases hx
  | cons y rest ih =>
    rw [List.map_cons, List.nodup_cons] at hn
    rw [assign_cons]
    rcases List.mem_cons.1 hx with rfl | hx
    · rw [register?_assign_of_not_mem hn.1, hr, Option.elim_some, register?_setRegister,
        if_pos ⟨rfl, ht⟩]
    · refine ih hn.2 hx ?_
      cases y.register with
      | none => exact ht
      | some s => simpa using ht

end VariableTable

namespace Method

open InterferenceGraph

variable {m m' : Method} {l : Liveness}

structure Allocated (m : Method) (l : Liveness) (t : VariableTable) : Prop where
  receiver : m.isStatic = false → t.register? "this" = some 0
  parameter : ∀ i p, m.parameters[i]? = some p →
    t.register? p.name = some ((!m.isStatic).toNat + i)
  of_local : ∀ a ∈ localNames m, ∃ r, t.register? a = some r ∧ m.firstLocal ≤ r
  differ : ∀ c ∈ conflicts l, c.1 ∈ localNames m → c.2 ∈ localNames m → c.1 ≠ c.2 →
    t.register? c.1 ≠ t.register? c.2

theorem mem_localNames {a : String} :
    a ∈ localNames m ↔ a ∈ m.table.names ∧ a ≠ "this" ∧ ∀ p ∈ m.parameters, p.name ≠ a := by
  simp [localNames, Signature.isParameter]

theorem parameters_vertices (m : Method) :
    (vertices m).parameters =
      (if m.isStatic then [] else [{ name := "this" }]) ++
        m.parameters.map fun p => { name := p.name } :=
  parameters_foldl_addLocal _ _

theorem length_parameters_vertices (m : Method) :
    (vertices m).parameters.length = m.firstLocal := by
  rw [parameters_vertices, Signature.firstLocal]
  cases m.isStatic <;> simp [Nat.add_comm]

theorem names_parameters_vertices (m : Method) :
    (vertices m).parameters.map Vertex.name =
      (if m.isStatic then [] else ["this"]) ++ m.parameters.map Parameter.name := by
  rw [parameters_vertices]
  cases m.isStatic <;> simp [Function.comp_def]

theorem names_pinned (parameters : List Vertex) :
    (pinned parameters).map Vertex.name = parameters.map Vertex.name := by
  refine List.ext_getElem? fun i => ?_
  simp only [pinned, List.getElem?_map, List.getElem?_mapIdx]
  cases parameters[i]? <;> rfl

theorem getElem?_pinned {i : Nat} {p : Parameter} (hi : m.parameters[i]? = some p) :
    (pinned (vertices m).parameters)[(!m.isStatic).toNat + i]? =
      some { name := p.name, register := some ((!m.isStatic).toNat + i) } := by
  rw [pinned, List.getElem?_mapIdx, parameters_vertices]
  cases m.isStatic <;> simp [hi, Nat.add_comm 1 i]

theorem vertex_names_nodup (hp : (m.parameters.map Parameter.name).Nodup)
    (ht : "this" ∉ m.parameters.map Parameter.name) :
    ((vertices m).parameters.map Vertex.name ++ localNames m).Nodup := by
  rw [names_parameters_vertices, List.append_assoc, List.nodup_append, List.nodup_append]
  refine ⟨?_, ⟨hp, localNames_nodup m, ?_⟩, ?_⟩
  · split
    · exact List.nodup_nil
    · exact List.nodup_singleton _
  · rintro a ha b hb rfl
    obtain ⟨p, hpm, rfl⟩ := List.mem_map.1 ha
    exact (mem_localNames.1 hb).2.2 p hpm rfl
  · rintro a ha b hb rfl
    have hthis : a = "this" := by
      split at ha
      · cases ha
      · exact List.mem_singleton.1 ha
    subst hthis
    rcases List.mem_append.1 hb with hb | hb
    · exact ht hb
    · exact (mem_localNames.1 hb).2.1 rfl

theorem register?_assignRegisters {g : InterferenceGraph}
    (hg : ((g.parameters ++ g.locals.toList).map Vertex.name).Nodup) {x : Vertex}
    (hx : x ∈ g.parameters ++ g.locals.toList) {r : Nat} (hr : x.register = some r)
    (hx' : x.name ∈ m.table.names) (hthis : x.name ≠ "this") :
    (m.assignRegisters g).table.register? x.name = some r := by
  unfold assignRegisters
  rw [VariableTable.register?_setRegister, if_neg fun e => hthis e.1]
  exact VariableTable.register?_assign hg hx hr hx'

theorem register?_assignRegisters_this (g : InterferenceGraph) (h : "this" ∈ m.table.names) :
    (m.assignRegisters g).table.register? "this" = some 0 := by
  unfold assignRegisters
  rw [VariableTable.register?_setRegister, if_pos]
  rw [VariableTable.names_assign]
  exact ⟨rfl, h⟩

theorem register?_place {g : InterferenceGraph}
    (hnames : g.names = localNames m) {v r : Nat} {a : String} (hv : g.names[v]? = some a)
    (hr : g.register? v = some r) : (m.assignRegisters g).table.register? a = some r := by
  have ha : a ∈ localNames m := hnames ▸ List.mem_of_getElem? hv
  obtain ⟨hat, hthis, -⟩ := mem_localNames.1 ha
  obtain ⟨x, hx, rfl⟩ : ∃ x, g.locals.toList[v]? = some x ∧ x.name = a := by
    simpa [names, List.getElem?_map] using hv
  have hxr : x.register = some r := by
    rw [register?, ← Array.getElem?_toList, hx] at hr
    exact hr
  have hnodup : (g.locals.toList.map Vertex.name).Nodup := by
    change g.names.Nodup
    rw [hnames]
    exact localNames_nodup m
  unfold assignRegisters
  rw [VariableTable.register?_setRegister, if_neg fun e => hthis e.1, VariableTable.assign_append]
  refine VariableTable.register?_assign hnodup (List.mem_of_getElem? hx) hxr ?_
  rw [VariableTable.names_assign]
  exact hat

theorem register?_local {g : InterferenceGraph}
    (hnames : g.names = localNames m) (hall : ∀ v < g.locals.size, (g.register? v).isSome)
    {a : String} (ha : a ∈ localNames m) :
    ∃ v r, g.names[v]? = some a ∧ g.register? v = some r ∧
      (m.assignRegisters g).table.register? a = some r := by
  obtain ⟨v, hv⟩ := List.getElem?_of_mem (hnames ▸ ha)
  have hlt : v < g.locals.size := by
    simpa [names] using (List.getElem?_eq_some_iff.1 hv).1
  obtain ⟨r, hr⟩ := Option.isSome_iff_exists.1 (hall v hlt)
  exact ⟨v, r, hv, hr, register?_place hnames hv hr⟩

theorem allocate_spec (hm : m.Tabled) (hp : (m.parameters.map Parameter.name).Nodup)
    (ht : "this" ∉ m.parameters.map Parameter.name) {ceiling? : Option Nat} {k : Nat}
    (h : m.allocate l ceiling? = .ok (m', k)) :
    ∃ t, m' = { m with table := t } ∧ m.Allocated l t := by
  obtain ⟨hs, hu, hn, hpar, he⟩ := ofMethod_spec m l
  obtain ⟨g, hc, rfl⟩ := allocate_eq_ok h
  obtain ⟨hproper, hgn, hgp, hgb, hall⟩ := color_spec hs hu hc
  refine ⟨(m.assignRegisters g).table, rfl, ?_⟩
  rw [hpar, length_parameters_vertices] at hproper
  rw [← size_locals_of_names hgn] at hall
  have hnames : ((g.parameters ++ g.locals.toList).map Vertex.name).Nodup := by
    rw [List.map_append, hgp, names_pinned, hpar]
    change (_ ++ g.names).Nodup
    rw [hgn, hn]
    exact vertex_names_nodup hp ht
  have hlocal {a : String} (ha : a ∈ localNames m) :=
    register?_local (hgn.trans hn) hall ha
  refine ⟨fun hst => ?_, fun i p hi => ?_, fun a ha => ?_, fun c hcm h1 h2 hne => ?_⟩
  · exact register?_assignRegisters_this g (hm.receiver_mem hst)
  · have hpm : p ∈ m.parameters := List.mem_of_getElem? hi
    have hthis : p.name ≠ "this" := fun e => ht (e ▸ List.mem_map_of_mem hpm)
    have hx := getElem?_pinned hi
    rw [← hpar, ← hgp] at hx
    have hmem := List.mem_append_left g.locals.toList (List.mem_of_getElem? hx)
    exact register?_assignRegisters hnames hmem rfl (hm.parameter_mem p hpm) hthis
  · obtain ⟨v, r, -, hr, hreg⟩ := hlocal ha
    exact ⟨r, hreg, hproper.base_le v r hr⟩
  · obtain ⟨v, r, hv, hr, hreg⟩ := hlocal h1
    obtain ⟨w, s, hw, hs', hreg'⟩ := hlocal h2
    have hvw : v ≠ w := by
      rintro rfl
      exact hne (Option.some.inj (hv.symm.trans hw))
    rw [hgn] at hv hw
    have hjoins : (ofMethod m l).Joins c v w :=
      .inl ⟨(index?_eq_some_iff hs.names_nodup).2 hv, (index?_eq_some_iff hs.names_nodup).2 hw⟩
    have hmem : w ∈ g.neighbours v := by
      rw [hgb, he]
      exact ⟨hvw, c, hcm, hjoins⟩
    intro hrs
    rw [hreg, hreg'] at hrs
    exact hproper.differ v w hmem r hr (hs'.trans hrs.symm)

end Method

end ClassLowering
