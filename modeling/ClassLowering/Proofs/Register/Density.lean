import Mathlib.Data.List.Nodup
import ClassLowering.Proofs.Register.Coloring

namespace ClassLowering

namespace InterferenceGraph

variable {g g' : InterferenceGraph} {method : String}

structure Dense (g : InterferenceGraph) (set : Nat → Bool) (d : Nat) : Prop where
  nonempty : ∃ v, set v = true
  lt_size : ∀ v, set v = true → v < g.locals.size
  le_degree : ∀ v, set v = true → d ≤ (g.neighbours v).countP set

namespace Simplification

variable {s : Simplification}

theorem sweep_induction {P : Simplification → Prop} (hvisit : ∀ s v, P s → P (s.visit v))
    (hs : P s) : P s.sweep := by
  unfold sweep
  generalize List.range s.graph.locals.size = l
  induction l generalizing s with
  | nil => exact hs
  | cons v l ih => exact ih (hvisit s v hs)

theorem sweeps_induction {P : Simplification → Prop} (hvisit : ∀ s v, P s → P (s.visit v))
    (hraise : ∀ s, P s → s.graph.visibleCount ≠ 0 →
      (∀ v < s.graph.locals.size, s.visit v = s) → P { s with budget := s.budget + 1 })
    (bound : Nat) (hs : P s) : P (sweeps bound s) := by
  induction bound generalizing s with
  | zero => exact hs
  | succ bound ih =>
    unfold sweeps
    split
    · exact hs
    · next hvisible =>
      dsimp only
      split
      · next hstuck =>
        obtain ⟨hself, hall⟩ := visit_eq_self_of_foldl (Nat.le_of_eq (congrArg List.length hstuck))
        have hsame : s.sweep = s := hself
        rw [hsame]
        exact ih (hraise s hs hvisible fun v hv => hall v (List.mem_range.2 hv))
      · exact ih (sweep_induction hvisit hs)

theorem visibleDegree_eq (hs : Of g s) (v : Nat) :
    s.graph.visibleDegree v = (g.neighbours v).countP s.graph.isVisible := by
  rw [visibleDegree, hs.shape.neighbours_eq]

theorem shown_visit {set : Nat → Bool} {d : Nat} (hd : g.Dense set d) (hs : Of g s)
    (h : d < s.budget ∨ ∀ v, set v = true → s.graph.isVisible v = true) (v : Nat) :
    d < (s.visit v).budget ∨ ∀ w, set w = true → (s.visit v).graph.isVisible w = true := by
  unfold visit
  split
  · next hhidden =>
    obtain ⟨-, hfew⟩ := Bool.and_eq_true_iff.1 hhidden
    have hbudget : s.graph.visibleDegree v < s.budget := of_decide_eq_true hfew
    rcases h with h | hshown
    · exact .inl h
    · by_cases hv : set v = true
      · left
        have hcount : (g.neighbours v).countP set ≤ s.graph.visibleDegree v := by
          rw [visibleDegree_eq hs]
          exact List.countP_mono_left fun w _ => hshown w
        exact Nat.lt_of_le_of_lt ((hd.le_degree v hv).trans hcount) hbudget
      · right
        intro w hw
        have hne : v ≠ w := fun e => hv (e ▸ hw)
        rw [isVisible_hide, hshown w hw, decide_eq_true hne]
        rfl
  · exact h

theorem visible_dense (hs : Of g s) (hvisible : s.graph.visibleCount ≠ 0)
    (hstuck : ∀ v < s.graph.locals.size, s.visit v = s) : g.Dense s.graph.isVisible s.budget := by
  rw [ne_eq, visibleCount_eq_zero_iff, not_forall] at hvisible
  obtain ⟨v, hv⟩ := hvisible
  refine ⟨⟨v, by simpa using hv⟩, fun w hw => hs.shape.size_eq ▸ lt_of_isVisible hw, fun w hw => ?_⟩
  rw [← visibleDegree_eq hs]
  by_contra hfew
  have hhidden : s.graph.isVisible w && decide (s.graph.visibleDegree w < s.budget) := by
    rw [hw, decide_eq_true (Nat.not_le.1 hfew)]
    rfl
  have hlength := congrArg (fun t => t.hidden.length) (hstuck w (lt_of_isVisible hw))
  simp [visit, hhidden] at hlength

theorem budget_visit (s : Simplification) (v : Nat) : (s.visit v).budget = s.budget := by
  unfold visit
  split <;> rfl

end Simplification

open Simplification

theorem lt_budget_of_dense (hs : g.Sound) (hg : g.AllVisible) {set : Nat → Bool} {d : Nat}
    (hd : g.Dense set d) : d < g.simplify.budget := by
  have hinvariant : Of g g.simplify ∧
      (d < g.simplify.budget ∨ ∀ v, set v = true → g.simplify.graph.isVisible v = true) := by
    refine sweeps_induction (P := fun s => Of g s ∧
      (d < s.budget ∨ ∀ v, set v = true → s.graph.isVisible v = true))
      (fun s v h => ⟨h.1.visit v, shown_visit hd h.1 h.2 v⟩)
      (fun s h _ _ => ⟨h.1.raise _, h.2.imp_left Nat.lt_succ_of_lt⟩) _ ⟨.start hg, .inr ?_⟩
    exact fun v hv => hg v (hd.lt_size v hv)
  rcases hinvariant.2 with h | hshown
  · exact h
  · obtain ⟨v, hv⟩ := hd.nonempty
    have hhidden := visibleCount_eq_zero_iff.1 (visibleCount_simplify hs hg) v
    rw [hshown v hv] at hhidden
    cases hhidden

theorem dense_of_lt_budget (hg : g.AllVisible) {d : Nat} (h : g.simplify.budget = d + 1) :
    ∃ set, g.Dense set d := by
  have hinvariant : Of g g.simplify ∧
      ∀ d, g.simplify.budget = d + 1 → ∃ set, g.Dense set d := by
    refine sweeps_induction (P := fun s => Of g s ∧ ∀ d, s.budget = d + 1 → ∃ set, g.Dense set d)
      (fun s v h => ⟨h.1.visit v, ?_⟩) (fun s h hvisible hstuck => ⟨h.1.raise _, ?_⟩) _
      ⟨.start hg, nofun⟩
    · rw [budget_visit]
      exact h.2
    · rintro d hd
      obtain rfl : s.budget = d := Nat.succ.inj hd
      exact ⟨_, visible_dense h.1 hvisible hstuck⟩
  exact hinvariant.2 d h

structure Within (g' g : InterferenceGraph) : Prop where
  names_subset : ∀ a ∈ g'.names, a ∈ g.names
  interferes : ∀ a b, g'.interferes a b = true → g.interferes a b = true

def placeIn (g' g : InterferenceGraph) (v : Nat) : Option Nat := (g'.names[v]?).bind g.index?

theorem placeIn_eq_some (hg : g.Sound) {v x : Nat} :
    g'.placeIn g v = some x ↔ ∃ a, g'.names[v]? = some a ∧ g.names[x]? = some a := by
  simp only [placeIn, Option.bind_eq_some_iff, index?_eq_some_iff hg.names_nodup]

theorem Within.exists_placeIn (h : g'.Within g) (hg : g.Sound) {v : Nat}
    (hv : v < g'.locals.size) : ∃ x, g'.placeIn g v = some x := by
  have hlt : v < g'.names.length := by simpa [names] using hv
  have ha := List.getElem?_eq_getElem hlt
  obtain ⟨x, hx⟩ := List.getElem?_of_mem (h.names_subset _ (List.mem_of_getElem? ha))
  exact ⟨x, (placeIn_eq_some hg).2 ⟨_, ha, hx⟩⟩

theorem Within.mem_neighbours (h : g'.Within g) (hg : g.Sound) (hg' : g'.Sound) {v w x y : Nat}
    (hw : w ∈ g'.neighbours v) (hx : g'.placeIn g v = some x) (hy : g'.placeIn g w = some y) :
    y ∈ g.neighbours x := by
  obtain ⟨a, hva, hxa⟩ := (placeIn_eq_some hg).1 hx
  obtain ⟨b, hwb, hyb⟩ := (placeIn_eq_some hg).1 hy
  have hinterferes := h.interferes a b ((interferes_iff hg').2 ⟨v, w, hva, hwb, hw⟩)
  obtain ⟨x', y', hx', hy', hmem⟩ := (interferes_iff hg).1 hinterferes
  rw [← index?_eq_some_iff hg.names_nodup] at hxa hyb hx' hy'
  obtain rfl := Option.some.inj (hxa.symm.trans hx')
  obtain rfl := Option.some.inj (hyb.symm.trans hy')
  exact hmem

theorem placeIn_comm (hg : g.Sound) (hg' : g'.Sound) {v x : Nat} :
    g'.placeIn g v = some x ↔ g.placeIn g' x = some v := by
  rw [placeIn_eq_some hg, placeIn_eq_some hg']
  exact exists_congr fun a => And.comm

theorem placeIn_injective (hg : g.Sound) (hg' : g'.Sound) {v w x : Nat}
    (hv : g'.placeIn g v = some x) (hw : g'.placeIn g w = some x) : v = w := by
  rw [placeIn_comm hg hg'] at hv hw
  exact Option.some.inj (hv.symm.trans hw)

theorem Within.dense (h : g'.Within g) (hg : g.Sound) (hg' : g'.Sound) {set : Nat → Bool}
    {d : Nat} (hd : g'.Dense set d) : g.Dense (fun x => (g.placeIn g' x).any set) d := by
  have hmem {v x : Nat} (hx : g'.placeIn g v = some x) (hv : set v = true) :
      (g.placeIn g' x).any set = true := by
    rw [(placeIn_comm hg hg').1 hx]
    exact hv
  refine ⟨?_, fun x hx => ?_, fun x hx => ?_⟩
  · obtain ⟨v, hv⟩ := hd.nonempty
    obtain ⟨x, hx⟩ := h.exists_placeIn hg (hd.lt_size v hv)
    exact ⟨x, hmem hx hv⟩
  · obtain ⟨v, hv, -⟩ := (Option.any_eq_true _ _).1 hx
    obtain ⟨a, ha, -⟩ := (placeIn_eq_some hg').1 hv
    simpa [names] using (List.getElem?_eq_some_iff.1 ha).1
  · obtain ⟨v, hv, hset⟩ := (Option.any_eq_true _ _).1 hx
    have hplace := (placeIn_comm hg hg').2 hv
    let inside := ((g'.neighbours v).filter set).filterMap (g'.placeIn g)
    have hnodup : inside.Nodup := ((hg'.neighbours_nodup v).filter _).filterMap
      fun w w' y hw hw' => placeIn_injective hg hg' hw hw'
    have hsubset : inside ⊆ (g.neighbours x).filter fun y => (g.placeIn g' y).any set := by
      intro y hy
      obtain ⟨w, hw, hwy⟩ := List.mem_filterMap.1 hy
      obtain ⟨hw, hwset⟩ := List.mem_filter.1 hw
      exact List.mem_filter.2 ⟨h.mem_neighbours hg hg' hw hplace hwy, hmem hwy hwset⟩
    have hlength : inside.length = (g'.neighbours v).countP set := by
      rw [List.length_filterMap_eq_countP, List.countP_eq_length.2, List.countP_eq_length_filter]
      intro w hw
      obtain ⟨y, hy⟩ := h.exists_placeIn hg (hd.lt_size w (List.mem_filter.1 hw).2)
      rw [hy]
      rfl
    calc d ≤ (g'.neighbours v).countP set := hd.le_degree v hset
      _ = inside.length := hlength.symm
      _ ≤ _ := hnodup.length_le_of_subset hsubset
      _ = _ := List.countP_eq_length_filter.symm

theorem budget_le_of_within (h : g'.Within g) (hg : g.Sound) (hg' : g'.Sound) (hu : g.AllVisible)
    (hu' : g'.AllVisible) : g'.simplify.budget ≤ g.simplify.budget := by
  cases hbudget : g'.simplify.budget with
  | zero => exact Nat.zero_le _
  | succ d =>
    obtain ⟨set, hd⟩ := dense_of_lt_budget hu' hbudget
    exact lt_budget_of_dense hg hu (h.dense hg hg' hd)

namespace Simplification

variable {s : Simplification}

def Sparse (g : InterferenceGraph) (s : Simplification) : Prop :=
  ∀ before v, before ++ [v] <+: s.hidden → (g.neighbours v).countP (· ∉ before) < s.budget

theorem Of.visible_iff (hs : Of g s) {v : Nat} (hv : v < g.locals.size) :
    s.graph.isVisible v = true ↔ v ∉ s.hidden := by
  simp [hs.mem_hidden, hv]

theorem Sparse.visit (hg : g.Sound) (hs : Of g s) (h : Sparse g s) (v : Nat) :
    Sparse g (s.visit v) := by
  unfold Simplification.visit
  split
  · next hhidden =>
    obtain ⟨-, hfew⟩ := Bool.and_eq_true_iff.1 hhidden
    have hbudget : s.graph.visibleDegree v < s.budget := of_decide_eq_true hfew
    intro before w hprefix
    rcases List.prefix_concat_iff.1 hprefix with hlast | hearlier
    · obtain ⟨rfl, hw⟩ := List.append_inj' hlast rfl
      obtain rfl : w = v := by simpa using hw
      rw [visibleDegree_eq hs] at hbudget
      refine lt_of_eq_of_lt ?_ hbudget
      refine List.countP_congr fun x hx => ?_
      rw [hs.visible_iff (hg.neighbours_lt w x hx), decide_eq_true_iff]
    · exact h before w hearlier
  · exact h

end Simplification

theorem sparse_simplify (hs : g.Sound) (hg : g.AllVisible) : Sparse g g.simplify := by
  have hinvariant : Of g g.simplify ∧ Sparse g g.simplify := by
    refine sweeps_induction (P := fun s => Of g s ∧ Sparse g s)
      (fun s v h => ⟨h.1.visit v, h.2.visit hs h.1 v⟩) (fun s h _ _ => ⟨h.1.raise _, ?_⟩) _
      ⟨.start hg, ?_⟩
    · exact fun before v hprefix => Nat.lt_succ_of_lt (h.2 before v hprefix)
    · intro before v hprefix
      simp at hprefix
  exact hinvariant.2

theorem lowestFree_lt {base k v : Nat} {rest : List Nat}
    (hnone : ∀ w ∈ rest, g.register? w = none)
    (hfew : (g.neighbours v).countP (· ∉ rest) < k) : g.lowestFree v base < base + k := by
  have htaken : (g.takenAround v).length ≤ (g.neighbours v).countP (· ∉ rest) := by
    unfold takenAround
    rw [List.length_filterMap_eq_countP]
    refine List.countP_mono_left fun w _ hw => ?_
    rw [decide_eq_true_iff]
    intro hrest
    rw [hnone w hrest] at hw
    cases hw
  have hle : g.lowestFree v base ≤ base + (g.takenAround v).length := firstFrom_le _ _ _
  omega

theorem select_eq_ok {base k : Nat} {order : List Nat} (hn : order.Nodup)
    (ho : ∀ v ∈ order, v < g.locals.size ∧ g.register? v = none)
    (hfew : ∀ v rest, v :: rest <:+ order → (g.neighbours v).countP (· ∉ rest) < k) :
    ∃ g', select method base (base + k) order g = (g', .ok ()) := by
  induction order generalizing g with
  | nil => exact ⟨g, rfl⟩
  | cons v rest ih =>
    obtain ⟨⟨hv, -⟩, hrest⟩ := List.forall_mem_cons.1 ho
    obtain ⟨hnew, hnodup⟩ := List.nodup_cons.1 hn
    have hfree : g.lowestFree v base < base + k :=
      lowestFree_lt (fun w hw => (hrest w hw).2) (hfew v rest (List.suffix_refl _))
    unfold select
    dsimp only
    rw [if_neg (Nat.not_le.2 hfree)]
    refine ih hnodup (fun w hw => ?_) fun w later hsuffix => ?_
    · have hne : v ≠ w := fun e => hnew (e ▸ hw)
      rw [register?_setRegister hv, if_neg hne, setRegister, size_locals_modify]
      exact hrest w hw
    · rw [neighbours_setRegister]
      exact hfew w later (hsuffix.trans (List.suffix_cons v rest))

theorem select_simplify_eq_ok (hs : g.Sound) (hg : g.Untouched) (method : String) (base : Nat) :
    ∃ g', select method base (base + g.simplify.budget) g.simplify.hidden.reverse
      g.simplify.graph.pinParameters = (g', .ok ()) := by
  have hshape := (simplify_of hg.isVisible_eq).shape
  refine select_eq_ok (List.nodup_reverse.2 (simplify_of hg.isVisible_eq).hidden_nodup) (fun v hv => ?_)
    fun v rest hsuffix => ?_
  · have hlt := (mem_hidden_simplify hs hg.isVisible_eq).1 (List.mem_reverse.1 hv)
    exact ⟨hshape.size_eq.symm ▸ hlt, (hshape.register?_eq v).trans (hg.register?_eq v)⟩
  · have hprefix : rest.reverse ++ [v] <+: g.simplify.hidden := by
      rwa [← List.reverse_suffix, List.reverse_append, List.reverse_reverse]
    have hfew := sparse_simplify hs hg.isVisible_eq _ _ hprefix
    change (g.simplify.graph.neighbours v).countP _ < _
    rw [hshape.neighbours_eq]
    simpa only [List.mem_reverse] using hfew

theorem color_isOk_iff (hs : g.Sound) (hg : g.Untouched) {ceiling? : Option Nat} {k : Nat} :
    (g.color method ceiling?).2 = .ok k ↔
      k = g.simplify.budget ∧ (∀ ceiling ∈ ceiling?, k ≤ ceiling) ∧
        g.parameters.length + k ≤ maxRegister := by
  obtain ⟨g', hselect⟩ := select_simplify_eq_ok hs hg method g.parameters.length
  unfold color
  dsimp only
  rw [hselect]
  cases hcheck : checkCeiling method ceiling? g.simplify.budget with
  | error fault =>
    refine ⟨nofun, ?_⟩
    rintro ⟨rfl, hle, -⟩
    rw [checkCeiling_eq_ok_iff.2 hle] at hcheck
    cases hcheck
  | ok u =>
    have hle := checkCeiling_eq_ok_iff.1 hcheck
    dsimp only
    by_cases hbase : maxRegister < g.parameters.length
    · rw [if_pos hbase]
      exact ⟨nofun, fun h => by omega⟩
    · rw [if_neg hbase]
      by_cases hlimit : maxRegister < g.parameters.length + g.simplify.budget
      · rw [if_pos hlimit]
        exact ⟨nofun, fun h => by omega⟩
      · rw [if_neg hlimit]
        refine ⟨fun h => ?_, fun h => h.1 ▸ rfl⟩
        cases h
        exact ⟨rfl, hle, Nat.not_lt.1 hlimit⟩

end InterferenceGraph

end ClassLowering
