import Mathlib.Data.List.Perm.Basic
import ClassLowering.Proofs.Liveness.Coincidence
import ClassLowering.Proofs.Register.Allocation

namespace ClassLowering

structure Vertex.Alike (x x' : Vertex) : Prop where
  name_eq : x'.name = x.name
  visible_eq : x'.visible = x.visible
  register_eq : x'.register = x.register
  neighbours_perm : x'.neighbours.Perm x.neighbours

namespace InterferenceGraph

structure Alike (g g' : InterferenceGraph) : Prop where
  parameters_eq : g'.parameters = g.parameters
  locals_alike : ∀ v : Nat, Option.Rel Vertex.Alike g.locals[v]? g'.locals[v]?

variable {g g' : InterferenceGraph}

theorem Alike.at_place (h : Alike g g') (v : Nat) {P : Option Vertex → Option Vertex → Prop}
    (hnone : P none none) (hsome : ∀ x x', x.Alike x' → P (some x) (some x')) :
    P g.locals[v]? g'.locals[v]? := by
  have hv := h.locals_alike v
  generalize g.locals[v]? = x at hv ⊢
  generalize g'.locals[v]? = x' at hv ⊢
  cases hv with
  | some hx => exact hsome _ _ hx
  | none => exact hnone

theorem Alike.map_name_eq (h : Alike g g') (v : Nat) :
    (g'.locals[v]?).map Vertex.name = (g.locals[v]?).map Vertex.name :=
  h.at_place v (P := fun x x' => x'.map Vertex.name = x.map Vertex.name) rfl
    fun _ _ hx => congrArg some hx.name_eq

theorem Alike.names_eq (h : Alike g g') : g'.names = g.names := by
  refine List.ext_getElem? fun v => ?_
  simp only [names, List.getElem?_map, Array.getElem?_toList]
  exact h.map_name_eq v

theorem Alike.size_eq (h : Alike g g') : g'.locals.size = g.locals.size :=
  size_locals_of_names h.names_eq

theorem Alike.isVisible_eq (h : Alike g g') : g'.isVisible = g.isVisible := by
  funext v
  exact h.at_place v (P := fun x x' => x'.any Vertex.visible = x.any Vertex.visible) rfl
    fun _ _ hx => hx.visible_eq

theorem Alike.register?_eq (h : Alike g g') : g'.register? = g.register? := by
  funext v
  exact h.at_place v (P := fun x x' => x'.bind Vertex.register = x.bind Vertex.register) rfl
    fun _ _ hx => hx.register_eq

theorem Alike.neighbours_perm (h : Alike g g') (v : Nat) :
    (g'.neighbours v).Perm (g.neighbours v) :=
  h.at_place v (P := fun x x' => ((x'.map Vertex.neighbours).getD []).Perm
    ((x.map Vertex.neighbours).getD [])) (.refl _) fun _ _ hx => hx.neighbours_perm

theorem Alike.of_views (hp : g'.parameters = g.parameters) (hn : g'.names = g.names)
    (hv : g'.isVisible = g.isVisible) (hr : g'.register? = g.register?)
    (hb : ∀ v, (g'.neighbours v).Perm (g.neighbours v)) : Alike g g' := by
  refine ⟨hp, fun v => ?_⟩
  have hname := congrArg (fun l => l[v]?) hn
  have hvisible := congrFun hv v
  have hregister := congrFun hr v
  have hneighbours := hb v
  simp only [names, List.getElem?_map, Array.getElem?_toList] at hname
  unfold isVisible at hvisible
  unfold register? at hregister
  unfold neighbours at hneighbours
  cases hx : g.locals[v]? with
  | none =>
    cases hx' : g'.locals[v]? with
    | none => exact .none
    | some x' => simp [hx, hx'] at hname
  | some x =>
    cases hx' : g'.locals[v]? with
    | none => simp [hx, hx'] at hname
    | some x' =>
      rw [hx, hx'] at hname hvisible hregister hneighbours
      exact .some ⟨Option.some.inj hname, hvisible, hregister, hneighbours⟩

theorem Alike.modify {f : Vertex → Vertex} {hn : ∀ x, (f x).name = x.name}
    (hf : ∀ x x', Vertex.Alike x x' → (f x).Alike (f x'))
    (h : Alike g g') (v : Nat) : Alike (g.modify v f hn) (g'.modify v f hn) := by
  refine ⟨h.parameters_eq, fun w => ?_⟩
  rw [getElem?_modify, getElem?_modify]
  split
  · exact h.at_place w (P := fun x x' => Option.Rel Vertex.Alike (x.map f) (x'.map f)) .none
      fun x x' hx => .some (hf x x' hx)
  · exact h.locals_alike w

theorem Alike.hide (h : Alike g g') (v : Nat) : Alike (g.hide v) (g'.hide v) :=
  h.modify (f := fun x => { x with visible := false })
    (fun _ _ hx => ⟨hx.name_eq, rfl, hx.register_eq, hx.neighbours_perm⟩) v

theorem Alike.setRegister (h : Alike g g') (v r : Nat) :
    Alike (g.setRegister v r) (g'.setRegister v r) :=
  h.modify (f := fun x => { x with register := some r })
    (fun _ _ hx => ⟨hx.name_eq, hx.visible_eq, rfl, hx.neighbours_perm⟩) v

theorem Alike.visibleDegree_eq (h : Alike g g') (v : Nat) :
    g'.visibleDegree v = g.visibleDegree v := by
  rw [visibleDegree, visibleDegree, h.isVisible_eq]
  exact (h.neighbours_perm v).countP_eq _

theorem Alike.visibleCount_eq_zero (h : Alike g g') :
    g'.visibleCount = 0 ↔ g.visibleCount = 0 := by
  rw [visibleCount_eq_zero_iff, visibleCount_eq_zero_iff, h.isVisible_eq]

theorem Alike.lowestFree_eq (h : Alike g g') (v base : Nat) :
    g'.lowestFree v base = g.lowestFree v base := by
  have hperm : (g'.takenAround v).Perm (g.takenAround v) := by
    rw [takenAround, takenAround, h.register?_eq]
    exact (h.neighbours_perm v).filterMap _
  unfold lowestFree
  dsimp only
  rw [hperm.length_eq]
  simp only [hperm.mem_iff]

namespace Simplification

structure Alike (s s' : Simplification) : Prop where
  graph_alike : InterferenceGraph.Alike s.graph s'.graph
  hidden_eq : s'.hidden = s.hidden
  budget_eq : s'.budget = s.budget

variable {s s' : Simplification}

theorem Alike.visit (h : Alike s s') (v : Nat) : Alike (s.visit v) (s'.visit v) := by
  unfold Simplification.visit
  rw [h.graph_alike.isVisible_eq, h.graph_alike.visibleDegree_eq, h.budget_eq]
  split
  · refine ⟨h.graph_alike.hide v, ?_, rfl⟩
    dsimp only
    rw [h.hidden_eq]
  · exact h

theorem Alike.sweep (h : Alike s s') : Alike s.sweep s'.sweep := by
  unfold Simplification.sweep
  rw [h.graph_alike.size_eq]
  generalize List.range s.graph.locals.size = l
  induction l generalizing s s' with
  | nil => exact h
  | cons v l ih => exact ih (h.visit v)

theorem Alike.sweeps (h : Alike s s') (bound : Nat) :
    Alike (Simplification.sweeps bound s) (Simplification.sweeps bound s') := by
  induction bound generalizing s s' with
  | zero => exact h
  | succ bound ih =>
    unfold Simplification.sweeps
    by_cases hdone : s.graph.visibleCount = 0
    · rw [if_pos hdone, if_pos (h.graph_alike.visibleCount_eq_zero.2 hdone)]
      exact h
    · rw [if_neg hdone, if_neg (mt h.graph_alike.visibleCount_eq_zero.1 hdone)]
      dsimp only
      rw [h.sweep.hidden_eq, h.hidden_eq]
      split
      · exact ih ⟨h.sweep.graph_alike, rfl, congrArg (· + 1) h.sweep.budget_eq⟩
      · exact ih h.sweep

end Simplification

theorem Alike.simplify (h : Alike g g') : Simplification.Alike g.simplify g'.simplify := by
  unfold InterferenceGraph.simplify
  rw [h.size_eq]
  have hstart : Simplification.Alike ⟨g, [], 0⟩ ⟨g', [], 0⟩ := ⟨h, rfl, rfl⟩
  exact hstart.sweeps _

theorem Alike.pinParameters (h : Alike g g') : Alike g.pinParameters g'.pinParameters := by
  refine ⟨?_, h.locals_alike⟩
  rw [InterferenceGraph.pinParameters, InterferenceGraph.pinParameters, h.parameters_eq]

theorem Alike.select (h : Alike g g') (method : String) (base limit : Nat) (order : List Nat) :
    Alike (select method base limit order g).1 (select method base limit order g').1 ∧
      (select method base limit order g').2 = (select method base limit order g).2 := by
  induction order generalizing g g' with
  | nil => exact ⟨h, rfl⟩
  | cons v rest ih =>
    unfold InterferenceGraph.select
    dsimp only
    rw [h.lowestFree_eq]
    split
    · rw [h.map_name_eq]
      exact ⟨h, rfl⟩
    · exact ih (h.setRegister v _)

theorem Alike.color (h : Alike g g') (method : String) (ceiling? : Option Nat) :
    Alike (g.color method ceiling?).1 (g'.color method ceiling?).1 ∧
      (g'.color method ceiling?).2 = (g.color method ceiling?).2 := by
  have hs := h.simplify
  have hpinned := hs.graph_alike.pinParameters
  unfold InterferenceGraph.color
  dsimp only
  rw [hs.budget_eq, hs.hidden_eq, h.parameters_eq]
  split
  · exact ⟨hs.graph_alike, rfl⟩
  · split
    · exact ⟨hpinned, rfl⟩
    · split
      · exact ⟨hpinned, rfl⟩
      · obtain ⟨halike, houtcome⟩ := hpinned.select method g.parameters.length
          (g.parameters.length + g.simplify.budget) g.simplify.hidden.reverse
        exact ⟨halike, by rw [houtcome]⟩

theorem Alike.assign_eq (h : Alike g g') (t : VariableTable) :
    t.assign (g'.parameters ++ g'.locals.toList) = t.assign (g.parameters ++ g.locals.toList) := by
  have hkeys : g'.locals.toList.map (fun x => (x.name, x.register)) =
      g.locals.toList.map fun x => (x.name, x.register) := by
    refine List.ext_getElem? fun v => ?_
    simp only [List.getElem?_map, Array.getElem?_toList]
    refine h.at_place v (P := fun x x' => x'.map (fun x => (x.name, x.register)) =
      x.map fun x => (x.name, x.register)) rfl fun x x' hx => ?_
    simp only [Option.map_some, hx.name_eq, hx.register_eq]
  have hcongr (l l' : List Vertex) (t : VariableTable)
      (hl : l'.map (fun x => (x.name, x.register)) = l.map fun x => (x.name, x.register)) :
      t.assign l' = t.assign l := by
    induction l generalizing l' t with
    | nil =>
      obtain rfl := List.map_eq_nil_iff.1 hl
      rfl
    | cons x rest ih =>
      cases l' with
      | nil => cases hl
      | cons x' rest' =>
        obtain ⟨hx, hrest⟩ := List.cons.inj hl
        obtain ⟨hname, hregister⟩ := Prod.mk.inj hx
        rw [VariableTable.assign_cons, VariableTable.assign_cons, hname, hregister]
        exact ih rest' _ hrest
  refine hcongr _ _ t ?_
  rw [List.map_append, List.map_append, h.parameters_eq, hkeys]

end InterferenceGraph

end ClassLowering
