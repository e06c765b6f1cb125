import Mathlib.Data.List.Perm.Subperm
import ClassLowering.Proofs.Register.Interference
import ClassLowering.Register.Coloring

namespace ClassLowering

theorem length_le_of_nodup_of_lt {l : List Nat} {n : Nat} (hl : l.Nodup) (h : ∀ v ∈ l, v < n) :
    l.length ≤ n := by
  have hsub : l ⊆ List.range n := fun v hv => List.mem_range.2 (h v hv)
  simpa using (List.subperm_of_subset hl hsub).length_le

namespace InterferenceGraph

variable {g : InterferenceGraph}

theorem lt_of_isVisible {v : Nat} (h : g.isVisible v = true) : v < g.locals.size := by
  by_contra hv
  simp [isVisible, Array.getElem?_eq_none (Nat.not_lt.1 hv)] at h

theorem Untouched.isVisible_iff (hg : g.Untouched) {v : Nat} :
    g.isVisible v = true ↔ v < g.locals.size := ⟨lt_of_isVisible, hg.isVisible_eq v⟩

def AllVisible (g : InterferenceGraph) : Prop := ∀ v < g.locals.size, g.isVisible v = true

theorem visibleCount_eq_zero_iff :
    g.visibleCount = 0 ↔ ∀ v, g.isVisible v = false := by
  unfold visibleCount
  rw [List.countP_eq_zero]
  constructor
  · intro h v
    unfold isVisible
    cases hv : g.locals[v]? with
    | none => rfl
    | some x =>
      have hx : x ∈ g.locals.toList :=
        List.mem_of_getElem? (i := v) (by rw [Array.getElem?_toList]; exact hv)
      simpa using h x hx
  · intro h x hx
    obtain ⟨v, hv⟩ := List.getElem?_of_mem hx
    have hi := h v
    rw [Array.getElem?_toList] at hv
    rw [isVisible, hv] at hi
    simpa using hi

structure SameShape (g s : InterferenceGraph) : Prop where
  names_eq : s.names = g.names
  parameters_eq : s.parameters = g.parameters
  neighbours_eq : ∀ v, s.neighbours v = g.neighbours v
  register?_eq : ∀ v, s.register? v = g.register? v

theorem SameShape.size_eq {s : InterferenceGraph} (h : g.SameShape s) :
    s.locals.size = g.locals.size := size_locals_of_names h.names_eq

theorem SameShape.hide {s : InterferenceGraph} (h : g.SameShape s) (v : Nat) :
    g.SameShape (s.hide v) := by
  unfold InterferenceGraph.hide
  refine ⟨?_, h.parameters_eq, fun w => ?_, fun w => ?_⟩
  · rw [names_modify]
    exact h.names_eq
  · rw [neighbours_modify _ fun _ => by rfl]
    exact h.neighbours_eq w
  · rw [← h.register?_eq w, register?, register?, getElem?_modify]
    split
    · cases s.locals[w]? <;> rfl
    · rfl

theorem isVisible_hide (g : InterferenceGraph) (v w : Nat) :
    (g.hide v).isVisible w = (g.isVisible w && decide (v ≠ w)) := by
  rw [isVisible, isVisible, hide, getElem?_modify]
  by_cases h : v = w
  · subst h
    cases g.locals[v]? <;> simp
  · simp [h]

namespace Simplification

structure Of (g : InterferenceGraph) (s : Simplification) : Prop where
  shape : g.SameShape s.graph
  hidden_nodup : s.hidden.Nodup
  mem_hidden : ∀ v, v ∈ s.hidden ↔ v < g.locals.size ∧ s.graph.isVisible v = false

variable {s : Simplification}

theorem Of.start (hg : g.AllVisible) : Of g ⟨g, [], 0⟩ := by
  refine ⟨⟨rfl, rfl, fun _ => rfl, fun _ => rfl⟩, List.nodup_nil, fun v => ?_⟩
  constructor
  · intro h
    cases h
  · rintro ⟨hv, h⟩
    exact absurd h (by simp [hg v hv])

theorem Of.visit (hs : Of g s) (v : Nat) : Of g (s.visit v) := by
  unfold Simplification.visit
  split
  · next h =>
    have hvis : s.graph.isVisible v = true := (Bool.and_eq_true_iff.1 h).1
    have hv : v < g.locals.size := by
      rw [← hs.shape.size_eq]
      exact lt_of_isVisible hvis
    have hnew : v ∉ s.hidden := by simp [hs.mem_hidden, hvis]
    refine ⟨hs.shape.hide v, ?_, fun w => ?_⟩
    · rw [← List.concat_eq_append]
      exact hs.hidden_nodup.concat hnew
    · rw [List.mem_append, List.mem_singleton, hs.mem_hidden, isVisible_hide]
      by_cases hw : w = v
      · subst hw
        simp [hv]
      · simp [hw, Ne.symm hw]
  · exact hs

theorem Of.sweep (hs : Of g s) : Of g s.sweep := by
  unfold Simplification.sweep
  generalize List.range s.graph.locals.size = l
  induction l generalizing s with
  | nil => exact hs
  | cons v l ih => exact ih (hs.visit v)

theorem Of.raise (hs : Of g s) (budget : Nat) : Of g { s with budget } :=
  ⟨hs.shape, hs.hidden_nodup, hs.mem_hidden⟩

theorem Of.sweeps (hs : Of g s) (bound : Nat) : Of g (Simplification.sweeps bound s) := by
  induction bound generalizing s with
  | zero => exact hs
  | succ bound ih =>
    unfold Simplification.sweeps
    split
    · exact hs
    · dsimp only
      split
      · exact ih (hs.sweep.raise _)
      · exact ih hs.sweep

theorem Of.length_hidden_le (hs : Of g s) : s.hidden.length ≤ g.locals.size :=
  length_le_of_nodup_of_lt hs.hidden_nodup fun v hv => ((hs.mem_hidden v).1 hv).1

theorem Of.all_hidden (hs : Of g s) (h : g.locals.size ≤ s.hidden.length) (v : Nat) :
    s.graph.isVisible v = false := by
  by_contra hv
  rw [Bool.not_eq_false] at hv
  have hlt := lt_of_isVisible hv
  rw [hs.shape.size_eq] at hlt
  have hnew : v ∉ s.hidden := by simp [hs.mem_hidden, hv]
  have hle : (v :: s.hidden).length ≤ g.locals.size := by
    refine length_le_of_nodup_of_lt (List.nodup_cons.2 ⟨hnew, hs.hidden_nodup⟩) ?_
    exact List.forall_mem_cons.2 ⟨hlt, fun w hw => ((hs.mem_hidden w).1 hw).1⟩
  rw [List.length_cons] at hle
  omega

theorem length_hidden_visit (s : Simplification) (v : Nat) :
    s.visit v = s ∨ s.hidden.length < (s.visit v).hidden.length := by
  unfold visit
  split
  · exact .inr (by simp)
  · exact .inl rfl

theorem length_hidden_foldl_visit (l : List Nat) (s : Simplification) :
    s.hidden.length ≤ (l.foldl visit s).hidden.length := by
  induction l generalizing s with
  | nil => exact Nat.le_refl _
  | cons v l ih =>
    have hrest := ih (s.visit v)
    rw [List.foldl_cons]
    obtain h | h := s.length_hidden_visit v
    · rw [h] at hrest ⊢
      exact hrest
    · omega

theorem visit_eq_self_of_foldl {l : List Nat}
    (h : (l.foldl visit s).hidden.length ≤ s.hidden.length) :
    l.foldl visit s = s ∧ ∀ v ∈ l, s.visit v = s := by
  induction l with
  | nil => exact ⟨rfl, nofun⟩
  | cons v l ih =>
    rw [List.foldl_cons] at h ⊢
    have hrest := length_hidden_foldl_visit l (s.visit v)
    obtain hv | hv := s.length_hidden_visit v
    · rw [hv] at h ⊢
      obtain ⟨hl, ha⟩ := ih h
      exact ⟨hl, List.forall_mem_cons.2 ⟨hv, ha⟩⟩
    · omega

theorem budget_foldl_visit (l : List Nat) (s : Simplification) :
    (l.foldl visit s).budget = s.budget := by
  induction l generalizing s with
  | nil => rfl
  | cons v l ih =>
    rw [List.foldl_cons, ih]
    unfold visit
    split <;> rfl

theorem visibleDegree_lt (hg : g.Sound) (hs : Of g s) {v : Nat} (hv : v < g.locals.size) :
    s.graph.visibleDegree v < g.locals.size := by
  have hle : (v :: g.neighbours v).length ≤ g.locals.size := by
    refine length_le_of_nodup_of_lt ?_ ?_
    · exact List.nodup_cons.2 ⟨hg.irreflexive v, hg.neighbours_nodup v⟩
    · exact List.forall_mem_cons.2 ⟨hv, hg.neighbours_lt v⟩
  have hcount : s.graph.visibleDegree v ≤ (s.graph.neighbours v).length := List.countP_le_length
  rw [hs.shape.neighbours_eq] at hcount
  rw [List.length_cons] at hle
  omega

theorem budget_lt_of_stuck (hg : g.Sound) (hs : Of g s) {v : Nat}
    (hv : s.graph.isVisible v = true) (h : s.sweep.hidden = s.hidden) :
    s.sweep = s ∧ s.budget < g.locals.size := by
  obtain ⟨hself, hall⟩ := visit_eq_self_of_foldl (Nat.le_of_eq (congrArg List.length h))
  have hlt : v < s.graph.locals.size := lt_of_isVisible hv
  have hvisit := hall v (List.mem_range.2 hlt)
  rw [hs.shape.size_eq] at hlt
  have hdegree := visibleDegree_lt hg hs hlt
  refine ⟨hself, ?_⟩
  by_contra hb
  have hcond : (s.graph.isVisible v && decide (s.graph.visibleDegree v < s.budget)) = true := by
    simp only [hv, Bool.true_and, decide_eq_true_eq]
    omega
  have hlong := congrArg (fun t => t.hidden.length) hvisit
  simp [visit, hcond] at hlong

theorem visibleCount_sweeps (hg : g.Sound) (hs : Of g s) {bound : Nat}
    (h : (g.locals.size - s.hidden.length) + (g.locals.size - s.budget) ≤ bound) :
    (sweeps bound s).graph.visibleCount = 0 := by
  -- Every sweep hides a local or raises the budget; the bound counts what is left of both.
  induction bound generalizing s with
  | zero =>
    refine visibleCount_eq_zero_iff.2 (hs.all_hidden ?_)
    omega
  | succ bound ih =>
    unfold sweeps
    split
    · assumption
    · next hvisible =>
      rw [visibleCount_eq_zero_iff, not_forall] at hvisible
      obtain ⟨v, hv⟩ := hvisible
      rw [Bool.not_eq_false] at hv
      dsimp only
      split
      · next hstuck =>
        obtain ⟨hself, hb⟩ := budget_lt_of_stuck hg hs hv hstuck
        refine ih (hs.sweep.raise _) ?_
        rw [hself]
        dsimp only
        omega
      · next hmoved =>
        refine ih hs.sweep ?_
        have hle : s.hidden.length ≤ s.sweep.hidden.length :=
          length_hidden_foldl_visit _ s
        have hne : s.sweep.hidden.length ≠ s.hidden.length := by
          intro he
          have hself := (visit_eq_self_of_foldl (Nat.le_of_eq he)).1
          exact hmoved (congrArg hidden hself)
        have hbudget : s.sweep.budget = s.budget := budget_foldl_visit _ s
        have hbound := hs.sweep.length_hidden_le
        omega

end Simplification

theorem simplify_of (hg : g.AllVisible) : Simplification.Of g g.simplify :=
  (Simplification.Of.start hg).sweeps _

theorem visibleCount_simplify (hs : g.Sound) (hg : g.AllVisible) :
    g.simplify.graph.visibleCount = 0 := by
  refine Simplification.visibleCount_sweeps hs (Simplification.Of.start hg) ?_
  simp only [List.length_nil]
  omega

theorem mem_hidden_simplify (hs : g.Sound) (hg : g.AllVisible) {v : Nat} :
    v ∈ g.simplify.hidden ↔ v < g.locals.size := by
  have hcount := visibleCount_eq_zero_iff.1 (visibleCount_simplify hs hg)
  rw [(simplify_of hg).mem_hidden, and_iff_left (hcount v)]

theorem exists_not_mem (l : List Nat) (base : Nat) :
    ∃ r, base ≤ r ∧ r ≤ base + l.length ∧ r ∉ l := by
  by_contra h
  have hsub : List.range' base (l.length + 1) ⊆ l := by
    intro r hr
    rw [List.mem_range'_1] at hr
    by_contra hl
    exact h ⟨r, hr.1, by omega, hl⟩
  have hle := (List.subperm_of_subset (List.nodup_range' 1) hsub).length_le
  rw [List.length_range'] at hle
  omega

theorem lowestFree_not_mem (g : InterferenceGraph) (v base : Nat) :
    g.lowestFree v base ∉ g.takenAround v := by
  obtain ⟨r, hb, hl, hr⟩ := exists_not_mem (g.takenAround v) base
  have htest : decide (r ∉ g.takenAround v) = true := decide_eq_true hr
  exact of_decide_eq_true (@test_firstFrom (fun r => r ∉ g.takenAround v) base _ r hb hl htest)

theorem base_le_lowestFree (g : InterferenceGraph) (v base : Nat) : base ≤ g.lowestFree v base :=
  le_firstFrom _ base _

theorem register?_setRegister {v : Nat} (hv : v < g.locals.size) (r w : Nat) :
    (g.setRegister v r).register? w = if v = w then some r else g.register? w := by
  unfold register? setRegister
  rw [getElem?_modify]
  split
  · next h =>
    subst h
    simp [hv]
  · rfl

structure Proper (base : Nat) (g : InterferenceGraph) : Prop where
  base_le : ∀ v r, g.register? v = some r → base ≤ r
  differ : ∀ v w, w ∈ g.neighbours v → ∀ r, g.register? v = some r → g.register? w ≠ some r

theorem names_setRegister (g : InterferenceGraph) (v r : Nat) :
    (g.setRegister v r).names = g.names := names_modify _ g v

theorem neighbours_setRegister (g : InterferenceGraph) (v r w : Nat) :
    (g.setRegister v r).neighbours w = g.neighbours w := neighbours_modify _ (fun _ => by rfl) g v w

theorem Sound.setRegister (hg : g.Sound) (v r : Nat) : (g.setRegister v r).Sound :=
  hg.congr (g.names_setRegister v r) (g.neighbours_setRegister v r)

theorem Proper.setRegister {base v : Nat} (hg : g.Sound) (hp : Proper base g)
    (hv : v < g.locals.size) : Proper base (g.setRegister v (g.lowestFree v base)) := by
  have hfree := g.lowestFree_not_mem v base
  have htaken {w : Nat} (hw : w ∈ g.neighbours v) :
      g.register? w ≠ some (g.lowestFree v base) := fun h =>
    hfree (List.mem_filterMap.2 ⟨w, hw, h⟩)
  refine ⟨fun x r => ?_, fun x y hxy r => ?_⟩
  · rw [register?_setRegister hv]
    split
    · intro h
      cases h
      exact g.base_le_lowestFree v base
    · exact hp.base_le x r
  · rw [neighbours_setRegister] at hxy
    rw [register?_setRegister hv, register?_setRegister hv]
    -- Either end of the edge can be the vertex that gets the register.
    by_cases hx : v = x
    · subst hx
      have hy : v ≠ y := fun e => hg.irreflexive v (e ▸ hxy)
      rw [if_pos rfl, if_neg hy]
      intro h
      cases h
      exact htaken hxy
    · rw [if_neg hx]
      by_cases hy : v = y
      · subst hy
        rw [if_pos rfl]
        intro h h'
        cases h'
        exact htaken (hg.symmetric x v hxy) h
      · rw [if_neg hy]
        exact hp.differ x y hxy r

theorem select_spec {method : String} {base limit : Nat} {order : List Nat}
    {g' : InterferenceGraph} (hg : g.Sound) (hp : Proper base g)
    (ho : ∀ v ∈ order, v < g.locals.size)
    (h : select method base limit order g = (g', .ok ())) :
    Proper base g' ∧ g'.names = g.names ∧ g'.parameters = g.parameters ∧
      (∀ v, g'.neighbours v = g.neighbours v) ∧
      (∀ v, (g.register? v).isSome → (g'.register? v).isSome) ∧
      ∀ v ∈ order, (g'.register? v).isSome := by
  induction order generalizing g with
  | nil =>
    cases h
    exact ⟨hp, rfl, rfl, fun _ => rfl, fun _ => id, nofun⟩
  | cons v rest ih =>
    obtain ⟨hv, hrest⟩ := List.forall_mem_cons.1 ho
    unfold select at h
    dsimp only at h
    split at h
    · cases h
    · obtain ⟨hp', hn, hpar, hnb, hkeep, hall⟩ :=
        ih (hg.setRegister v _) (hp.setRegister hg hv)
          (fun w hw => by rw [setRegister, size_locals_modify]; exact hrest w hw) h
      refine ⟨hp', hn.trans (g.names_setRegister v _), hpar, fun w => ?_, fun w hw => ?_,
        List.forall_mem_cons.2 ⟨?_, hall⟩⟩
      · rw [hnb, neighbours_setRegister]
      · refine hkeep w ?_
        rw [register?_setRegister hv]
        split
        · rfl
        · exact hw
      · refine hkeep v ?_
        rw [register?_setRegister hv, if_pos rfl]
        rfl

theorem color_eq_ok {method : String} {ceiling? : Option Nat} {g' : InterferenceGraph} {k : Nat}
    (h : g.color method ceiling? = (g', .ok k)) :
    k = g.simplify.budget ∧
      select method g.parameters.length (g.parameters.length + g.simplify.budget)
        g.simplify.hidden.reverse g.simplify.graph.pinParameters = (g', .ok ()) := by
  unfold color at h
  dsimp only at h
  split at h
  · cases h
  · split at h
    · cases h
    · split at h
      · cases h
      · generalize hselect : select method g.parameters.length
          (g.parameters.length + g.simplify.budget) g.simplify.hidden.reverse
          g.simplify.graph.pinParameters = result at h
        obtain ⟨colored, outcome⟩ := result
        cases outcome with
        | error fault => cases h
        | ok u =>
          cases h
          exact ⟨rfl, rfl⟩

theorem le_maxRegister_of_color {method : String} {ceiling? : Option Nat} {g' : InterferenceGraph}
    {k : Nat} (h : g.color method ceiling? = (g', .ok k)) :
    g.parameters.length + k ≤ maxRegister := by
  obtain ⟨rfl, -⟩ := color_eq_ok h
  unfold color at h
  dsimp only at h
  split at h
  · cases h
  · split at h
    · cases h
    · split at h
      · cases h
      · next hlimit => exact Nat.not_lt.1 hlimit

def pinned (parameters : List Vertex) : List Vertex :=
  parameters.mapIdx fun i x => { x with register := some i }

theorem parameters_pinParameters (h : g.parameters.length ≤ maxRegister) :
    g.pinParameters.parameters = pinned g.parameters := by
  refine List.ext_getElem? fun i => ?_
  rw [pinParameters, pinned, List.getElem?_mapIdx, List.getElem?_mapIdx]
  cases hx : g.parameters[i]? with
  | none => rfl
  | some x =>
    have hi : i < g.parameters.length := (List.getElem?_eq_some_iff.1 hx).1
    rw [Option.map_some, Option.map_some, if_pos (hi.le.trans h)]

theorem color_spec {method : String} {ceiling? : Option Nat} {g' : InterferenceGraph} {k : Nat}
    (hs : g.Sound) (hg : g.Untouched) (h : g.color method ceiling? = (g', .ok k)) :
    Proper g.parameters.length g' ∧ g'.names = g.names ∧
      g'.parameters = pinned g.parameters ∧
      (∀ v, g'.neighbours v = g.neighbours v) ∧
      ∀ v < g.locals.size, (g'.register? v).isSome := by
  have hshape := (simplify_of hg.isVisible_eq).shape
  have hsound : g.simplify.graph.pinParameters.Sound :=
    hs.congr hshape.names_eq hshape.neighbours_eq
  have hnone (v : Nat) : g.simplify.graph.pinParameters.register? v = none :=
    (hshape.register?_eq v).trans (hg.register?_eq v)
  have hproper : Proper g.parameters.length g.simplify.graph.pinParameters := by
    refine ⟨fun v r hr => ?_, fun v w _ r hr => ?_⟩
    · simp [hnone] at hr
    · simp [hnone] at hr
  have horder : ∀ v ∈ g.simplify.hidden.reverse,
      v < g.simplify.graph.pinParameters.locals.size := by
    intro v hv
    have hlt := (mem_hidden_simplify hs hg.isVisible_eq).1 (List.mem_reverse.1 hv)
    exact hshape.size_eq.symm ▸ hlt
  obtain ⟨hp, hn, hpar, hnb, -, hall⟩ := select_spec hsound hproper horder (color_eq_ok h).2
  refine ⟨hp, hn.trans hshape.names_eq, hpar.trans ?_, fun v => ?_, fun v hv => ?_⟩
  · have hlength := (Nat.le_add_right _ _).trans (le_maxRegister_of_color h)
    rw [← hshape.parameters_eq] at hlength ⊢
    exact parameters_pinParameters hlength
  · exact (hnb v).trans (hshape.neighbours_eq v)
  · exact hall v (List.mem_reverse.2 ((mem_hidden_simplify hs hg.isVisible_eq).2 hv))

end InterferenceGraph

end ClassLowering
