import ClassLowering.Proofs.Register.Budget
import ClassLowering.Proofs.Register.Density

namespace ClassLowering

namespace InterferenceGraph

variable {g g' : InterferenceGraph} {method : String} {ceiling? : Option Nat}

inductive Drawn : InterferenceGraph → Prop where
  | empty : Drawn {}
  | ofMethod (m : Method) (l : Liveness) : Drawn (ofMethod m l)
  | addLocal {g : InterferenceGraph} (h : Drawn g) (name : String) : Drawn (g.addLocal name)
  | addEdge {g : InterferenceGraph} (h : Drawn g) (v w : Nat) : Drawn (g.addEdge v w)

structure Blank (g : InterferenceGraph) : Prop where
  sound : g.Sound
  untouched : g.Untouched
  parameters : ∀ x ∈ g.parameters, x.register = none

theorem parameters_addLocal (g : InterferenceGraph) (name : String) :
    (g.addLocal name).parameters = g.parameters := parameters_foldl_addLocal [name] g

theorem parameters_addEdge (g : InterferenceGraph) (v w : Nat) :
    (g.addEdge v w).parameters = g.parameters := by
  unfold addEdge
  split <;> rfl

namespace Blank

theorem bare {parameters : List Vertex} (h : ∀ x ∈ parameters, x.register = none) :
    Blank { parameters } := by
  refine ⟨⟨List.nodup_nil, ?_, ?_, ?_, ?_⟩, ⟨fun v => rfl, fun v hv => ?_⟩, h⟩
  · exact fun v w hw => absurd hw List.not_mem_nil
  · exact fun v => List.not_mem_nil
  · exact fun v w hw => absurd hw List.not_mem_nil
  · exact fun v => List.nodup_nil
  · exact absurd hv (Nat.not_lt_zero v)

theorem addLocal (h : g.Blank) (name : String) : (g.addLocal name).Blank :=
  ⟨h.sound.addLocal name, h.untouched.addLocal name, (g.parameters_addLocal name).symm ▸ h.parameters⟩

theorem addEdge (h : g.Blank) (v w : Nat) : (g.addEdge v w).Blank :=
  ⟨h.sound.addEdge v w, h.untouched.addEdge v w, (g.parameters_addEdge v w).symm ▸ h.parameters⟩

theorem addInterference (h : g.Blank) (a b : String) : (g.addInterference a b).Blank := by
  unfold InterferenceGraph.addInterference
  split
  · exact h.addEdge _ _
  · exact h

theorem addLocals (names : List String) (h : g.Blank) :
    (names.foldl InterferenceGraph.addLocal g).Blank := by
  induction names generalizing g with
  | nil => exact h
  | cons name rest ih => exact ih (h.addLocal name)

theorem addInterferences (pairs : List (String × String)) (h : g.Blank) :
    (pairs.foldl (fun g (a, b) => g.addInterference a b) g).Blank := by
  induction pairs generalizing g with
  | nil => exact h
  | cons pair rest ih => exact ih (h.addInterference pair.1 pair.2)

theorem vertices (m : Method) : (vertices m).Blank := by
  refine addLocals _ (bare fun x hx => ?_)
  rcases List.mem_append.1 hx with hx | hx
  · split at hx
    · cases hx
    · rw [List.mem_singleton.1 hx]
  · obtain ⟨p, -, rfl⟩ := List.mem_map.1 hx
    rfl

theorem ofMethod (m : Method) (l : Liveness) : (ofMethod m l).Blank :=
  addInterferences _ (vertices m)

end Blank

theorem Drawn.blank (h : g.Drawn) : g.Blank := by
  induction h with
  | empty => exact .bare nofun
  | ofMethod m l => exact .ofMethod m l
  | addLocal _ name ih => exact ih.addLocal name
  | addEdge _ v w ih => exact ih.addEdge v w

theorem checkCeiling_eq_error_iff {budget : Nat} {fault : Fault} :
    checkCeiling method ceiling? budget = .error fault ↔
      ∃ ceiling, ceiling? = some ceiling ∧ ceiling < budget ∧
        fault = .registerCapacity method budget ceiling := by
  cases ceiling? with
  | none => simp [checkCeiling]
  | some ceiling =>
    by_cases above : ceiling < budget
    · simp [checkCeiling, above, eq_comm]
    · simp [checkCeiling, above]

theorem color_cases (hs : g.Sound) (hu : g.Untouched) (method : String) (ceiling? : Option Nat) :
    (∃ ceiling, g.color method ceiling? = (g.simplify.graph,
      .error (.registerCapacity method g.simplify.budget ceiling))) ∨
    (∃ defect, (defect = .tooManyParameters method ∨ defect = .tooManyRegisters method) ∧
      g.color method ceiling? = (g.simplify.graph.pinParameters, .error (.malformed defect))) ∨
    ∃ g', g.color method ceiling? = (g', .ok g.simplify.budget) := by
  obtain ⟨g', hselect⟩ := select_simplify_eq_ok hs hu method g.parameters.length
  unfold color
  dsimp only
  rw [hselect]
  cases hcheck : checkCeiling method ceiling? g.simplify.budget with
  | error fault =>
    obtain ⟨ceiling, -, -, rfl⟩ := checkCeiling_eq_error_iff.1 hcheck
    exact .inl ⟨ceiling, rfl⟩
  | ok u =>
    right
    dsimp only
    split
    · exact .inl ⟨_, .inl rfl, rfl⟩
    · split
      · exact .inl ⟨_, .inr rfl, rfl⟩
      · exact .inr ⟨g', rfl⟩

theorem select_append {base limit : Nat} (order later : List Nat) :
    select method base limit (order ++ later) g =
      match select method base limit order g with
      | (g', .ok ()) => select method base limit later g'
      | failed => failed := by
  induction order generalizing g with
  | nil => rfl
  | cons v rest ih =>
    rw [List.cons_append, select, select]
    dsimp only
    split
    · rfl
    · exact ih

theorem lowestFree_lt_of_select {base limit v : Nat} {before after : List Nat}
    {g₁ g' : InterferenceGraph}
    (h : select method base limit (before ++ v :: after) g = (g', .ok ()))
    (hbefore : select method base limit before g = (g₁, .ok ())) : g₁.lowestFree v base < limit := by
  rw [select_append, hbefore] at h
  dsimp only at h
  unfold select at h
  dsimp only at h
  split at h
  · cases h
  · next hfree => exact Nat.not_le.1 hfree

theorem exists_register?_of_mem {x : Vertex} {r : Nat} (h : x ∈ g.locals.toList)
    (hr : x.register = some r) : ∃ v, g.register? v = some r := by
  obtain ⟨v, hv⟩ := List.getElem?_of_mem h
  rw [Array.getElem?_toList] at hv
  refine ⟨v, ?_⟩
  rw [register?, hv]
  exact hr

def InRange (g : InterferenceGraph) : Prop :=
  ∀ x ∈ g.parameters ++ g.locals.toList, ∀ r ∈ x.register, r ≤ maxRegister

theorem inRange_of_locals (hp : ∀ x ∈ g.parameters, ∀ r ∈ x.register, r ≤ maxRegister)
    (hl : ∀ v r, g.register? v = some r → r ≤ maxRegister) : g.InRange := by
  intro x hx r hr
  rcases List.mem_append.1 hx with hx | hx
  · exact hp x hx r hr
  · obtain ⟨v, hv⟩ := exists_register?_of_mem hx hr
    exact hl v r hv

theorem pinParameters_le (h : ∀ x ∈ g.parameters, x.register = none) :
    ∀ x ∈ g.pinParameters.parameters, ∀ r ∈ x.register, r ≤ maxRegister := by
  intro x hx r hr
  rw [pinParameters] at hx
  obtain ⟨i, hi, rfl⟩ := List.mem_mapIdx.1 hx
  split at hr
  · next hle =>
    cases hr
    exact hle
  · rw [h _ (List.getElem_mem hi)] at hr
    cases hr

theorem Blank.inRange_color (h : g.Blank) (method : String) (ceiling? : Option Nat) :
    (g.color method ceiling?).1.InRange := by
  have hshape := (simplify_of h.untouched.isVisible_eq).shape
  have hnone (v : Nat) : g.simplify.graph.register? v = none :=
    (hshape.register?_eq v).trans (h.untouched.register?_eq v)
  have hlocals {P : Nat → Prop} (v r : Nat) (hr : g.simplify.graph.register? v = some r) : P r := by
    rw [hnone] at hr
    cases hr
  have hparameters : ∀ x ∈ g.simplify.graph.parameters, x.register = none :=
    hshape.parameters_eq.symm ▸ h.parameters
  rcases color_cases h.sound h.untouched method ceiling? with ⟨_, he⟩ | ⟨_, -, he⟩ | ⟨g', he⟩
  · rw [he]
    refine inRange_of_locals (fun x hx r hr => ?_) hlocals
    rw [hparameters x hx] at hr
    cases hr
  · rw [he]
    exact inRange_of_locals (pinParameters_le hparameters) hlocals
  · have hmax := le_maxRegister_of_color he
    obtain ⟨-, -, hp, -⟩ := color_spec h.sound h.untouched he
    rw [he]
    refine inRange_of_locals (fun x hx r hr => ?_) fun v r hr => ?_
    · rw [hp, ← parameters_pinParameters (by omega)] at hx
      exact pinParameters_le h.parameters x hx r hr
    · have hlt := register?_lt_of_color h.sound h.untouched he hr
      omega

theorem color_proper (hg : g.Drawn) (method : String) (ceiling? : Option Nat) :
    let base := g.parameters.length
    let colored := g.color method ceiling?
    (∀ other name limit, colored.2 ≠ .error (.noFreeRegister other name limit)) ∧
    (∀ k, colored.2 = .ok k →
      colored.1.names = g.names ∧
      colored.1.parameters = g.parameters.mapIdx (fun i x => { x with register := some i }) ∧
      (∀ v < g.locals.size, ∃ r, colored.1.register? v = some r ∧ base ≤ r ∧ r < base + k) ∧
      (∀ v w, w ∈ g.neighbours v → colored.1.register? v ≠ colored.1.register? w) ∧
      (∀ ceiling ∈ ceiling?, k ≤ ceiling) ∧ base + k ≤ maxRegister) ∧
    colored.1.InRange ∧
    ∀ before v after g₁, g.simplify.hidden.reverse = before ++ v :: after →
      base + g.simplify.budget ≤ maxRegister →
      select method base (base + g.simplify.budget) before g.simplify.graph.pinParameters =
        (g₁, .ok ()) →
      g₁.lowestFree v base ≤ maxRegister := by
  have hblank := hg.blank
  have hs := hblank.sound
  have hu := hblank.untouched
  intro base colored
  refine ⟨fun other name limit he => ?_, fun k hk => ?_, hblank.inRange_color method ceiling?,
    fun before v after g₁ horder hmax hbefore => ?_⟩
  · rcases color_cases hs hu method ceiling? with ⟨_, h⟩ | ⟨_, -, h⟩ | ⟨_, h⟩
    all_goals
      rw [show colored = _ from h] at he
      cases he
  · have hcolor : g.color method ceiling? = (colored.1, .ok k) := Prod.ext rfl hk
    obtain ⟨hproper, hnames, hparameters, hneighbours, hall⟩ := color_spec hs hu hcolor
    obtain ⟨-, hceiling, hmax⟩ := (color_isOk_iff hs hu).1 hk
    refine ⟨hnames, hparameters, fun v hv => ?_, fun v w hw he => ?_, hceiling, hmax⟩
    · obtain ⟨r, hr⟩ := Option.isSome_iff_exists.1 (hall v hv)
      exact ⟨r, hr, hproper.base_le v r hr, register?_lt_of_color hs hu hcolor hr⟩
    · obtain ⟨r, hr⟩ := Option.isSome_iff_exists.1 (hall v (hs.neighbours_lt w v (hs.symmetric v w hw)))
      exact hproper.differ v w (hneighbours v ▸ hw) r hr (he ▸ hr)
  · obtain ⟨g', hselect⟩ := select_simplify_eq_ok hs hu method base
    rw [horder] at hselect
    exact (Nat.le_of_lt (lowestFree_lt_of_select hselect hbefore)).trans hmax

def sketch : InterferenceGraph :=
  (((ofMethod Method.countdown (.compute Method.countdown)).addLocal "z").addEdge 0 2).addEdge 2 1

theorem drawn_sketch : sketch.Drawn :=
  .addEdge (.addEdge (.addLocal (.ofMethod _ _) "z") 0 2) 2 1

theorem color_proper_sketch :
    sketch.Drawn ∧ ∃ g', sketch.color "count" (some 2) = (g', .ok 2) ∧
      g'.parameters = [{ name := "this", register := some 0 }, { name := "n", register := some 1 }] ∧
      (∀ v < 3, ∃ r, g'.register? v = some r ∧ 2 ≤ r ∧ r < 2 + 2) ∧
      (∀ v < 2, g'.register? v ≠ g'.register? 2) ∧ g'.InRange := by
  have hk : (sketch.color "count" (some 2)).2 = .ok 2 := by decide +kernel
  have hsize : sketch.locals.size = 3 := by decide +kernel
  have hbase : sketch.parameters.length = 2 := by decide +kernel
  have hedges : ∀ v < 2, 2 ∈ sketch.neighbours v := by decide +kernel
  obtain ⟨-, hok, hrange, -⟩ := color_proper drawn_sketch "count" (some 2)
  obtain ⟨-, hparameters, hall, hdiffer, -⟩ := hok 2 hk
  rw [hsize, hbase] at hall
  generalize sketch.color "count" (some 2) = colored at hk hparameters hall hdiffer hrange ⊢
  obtain ⟨g', outcome⟩ := colored
  cases hk
  refine ⟨drawn_sketch, g', rfl, hparameters.trans ?_, hall, fun v hv => ?_, hrange⟩
  · decide +kernel
  · exact hdiffer v 2 (hedges v hv)

end InterferenceGraph

end ClassLowering
