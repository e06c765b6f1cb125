import ClassLowering.Proofs.Liveness.Families

namespace ClassLowering

namespace IndexSet

open Family

def ghosts (s : IndexSet) : List Nat := s.toList.filter (s.bound ≤ ·)

variable {s t : IndexSet}

theorem mem_ghosts {i : Nat} : i ∈ s.ghosts ↔ i ∈ s.toList ∧ s.bound ≤ i := by
  simp [ghosts]

theorem ghosts_eq_nil_iff : s.ghosts = [] ↔ ∀ i ∈ s.toList, i < s.bound := by
  simp [ghosts]

theorem contains_eq_true_iff {i : Nat} : s.contains i = true ↔ i ∈ s.toList ∧ i < s.bound := by
  rw [contains, Bool.and_eq_true, decide_eq_true_eq, mem_toList]
  constructor
  · rintro ⟨hi, hbit⟩
    exact ⟨⟨Nat.lt_of_lt_of_le hi s.bound_le_capacity, hbit⟩, hi⟩
  · rintro ⟨⟨-, hbit⟩, hi⟩
    exact ⟨hi, hbit⟩

theorem toList_eq_append_ghosts (s : IndexSet) :
    s.toList = (List.range s.bound).filter s.contains ++ s.ghosts := by
  obtain ⟨d, hd⟩ := Nat.exists_eq_add_of_le s.bound_le_capacity
  have hlow : (List.range s.bound).filter s.contains = (List.range s.bound).filter s.bits.testBit :=
    List.filter_congr fun i hi => by simp [contains, List.mem_range.1 hi]
  have hsplit : s.toList = (List.range s.bound).filter s.bits.testBit ++
      ((List.range d).map (s.bound + ·)).filter s.bits.testBit := by
    rw [toList, hd, List.range_add, List.filter_append]
  have hnone : ((List.range s.bound).filter s.bits.testBit).filter (s.bound ≤ ·) = [] := by
    refine List.filter_eq_nil_iff.2 fun i hi => ?_
    have hlt := List.mem_range.1 (List.mem_of_mem_filter hi)
    simpa using hlt
  have hall : (((List.range d).map (s.bound + ·)).filter s.bits.testBit).filter (s.bound ≤ ·) =
      ((List.range d).map (s.bound + ·)).filter s.bits.testBit := by
    refine List.filter_eq_self.2 fun i hi => ?_
    obtain ⟨j, -, rfl⟩ := List.mem_map.1 (List.mem_of_mem_filter hi)
    simp
  rw [ghosts, hlow]
  conv_rhs => rw [hsplit, List.filter_append, hnone, hall]
  exact hsplit

theorem within_iff_ghosts (hs : s.Fits) : s.Within s.bound ↔ ∀ i ∈ s.toList, i < s.bound := by
  refine ⟨fun h i hi => h.lt_bound i (hs.mem_toList_iff.1 hi), fun h => ⟨rfl, fun i hi => ?_⟩⟩
  exact h i (hs.mem_toList_iff.2 hi)

theorem ghosts_empty (bound : Nat) : (empty bound).ghosts = [] :=
  ghosts_eq_nil_iff.2 ((within_iff_ghosts (fits_empty bound)).1 (within_empty bound))

theorem ghosts_congr (hbound : t.bound = s.bound)
    (h : ∀ i, s.bound ≤ i → t.bits.testBit i = s.bits.testBit i) : t.ghosts = s.ghosts := by
  have hcapacity : t.capacity = s.capacity := by rw [capacity, hbound, capacity]
  rw [ghosts, ghosts, toList, toList, List.filter_filter, List.filter_filter, hbound, hcapacity]
  refine List.filter_congr fun i _ => ?_
  by_cases hi : s.bound ≤ i
  · rw [h i hi]
  · simp [hi]

theorem ghosts_insert (s : IndexSet) (i : Nat) : (s.insert i).ghosts = s.ghosts := by
  refine ghosts_congr (bound_insert s i) fun j hj => ?_
  have hne : ¬ (i = j ∧ i < s.bound) := by omega
  rw [testBit_insert, decide_eq_false hne, Bool.or_false]

theorem ghosts_erase (s : IndexSet) (i : Nat) : (s.erase i).ghosts = s.ghosts := by
  refine ghosts_congr (bound_erase s i) fun j hj => ?_
  have hne : ¬ (i = j ∧ i < s.bound) := by omega
  rw [testBit_erase, decide_eq_false hne, Bool.not_false, Bool.and_true]

theorem mem_ghosts_union (hs : s.Fits) (ht : t.Fits) (i : Nat) :
    i ∈ (s.union t).ghosts ↔
      i ∈ s.ghosts ∨ s.bound ≤ i ∧ i < s.capacity ∧ i ∈ t.toList := by
  rw [mem_ghosts, mem_ghosts, (hs.union t).mem_toList_iff, hs.mem_toList_iff, ht.mem_toList_iff,
    testBit_union, Bool.or_eq_true, Bool.and_eq_true, decide_eq_true_eq, bound_union, or_and_right,
    and_comm (a := _ ∧ _)]

theorem mem_ghosts_diff (hs : s.Fits) (ht : t.Fits) (i : Nat) :
    i ∈ (s.diff t).ghosts ↔ i ∈ s.ghosts ∧ i ∉ t.toList := by
  rw [mem_ghosts, mem_ghosts, (hs.diff t).mem_toList_iff, hs.mem_toList_iff, ht.mem_toList_iff,
    testBit_diff, Bool.and_eq_true, Bool.not_eq_true', Bool.not_eq_true, bound_diff, and_right_comm]

theorem isEmpty_iff_ghosts (hs : s.Fits) :
    s.isEmpty = true ↔ (∀ i, s.contains i = false) ∧ s.ghosts = [] := by
  rw [hs.isEmpty_iff_toList, toList_eq_append_ghosts, List.append_eq_nil_iff]
  refine and_congr_left fun _ => ?_
  rw [List.filter_eq_nil_iff]
  refine ⟨fun h i => ?_, fun h i _ => by simp [h i]⟩
  refine Bool.eq_false_iff.2 fun hi => ?_
  exact h i (List.mem_range.2 (contains_eq_true_iff.1 hi).2) hi

theorem ghosts_union_eq_nil_iff (hs : s.Fits) (ht : t.Fits) :
    (s.union t).ghosts = [] ↔
      s.ghosts = [] ∧ ¬ ∃ i ∈ t.toList, s.bound ≤ i ∧ i < s.capacity := by
  simp only [List.eq_nil_iff_forall_not_mem, mem_ghosts_union hs ht, not_or, forall_and, not_exists,
    not_and]
  refine and_congr_right fun _ => ⟨fun h i hi hle hlt => h i hle hlt hi, fun h i hle hlt hi => ?_⟩
  exact h i hi hle hlt

def BringsGhosts (family : List IndexSet) : Change → Prop
  | .union place other => ∃ s t, family[place]? = some s ∧ family[other]? = some t ∧
      ∃ i ∈ t.toList, s.bound ≤ i ∧ i < s.capacity
  | _ => False

def GhostFree (family : List IndexSet) : Prop := ∀ s ∈ family, s.ghosts = []

variable {family : List IndexSet} {c : Change}

theorem ghostFree_concat : GhostFree (family ++ [s]) ↔ GhostFree family ∧ s.ghosts = [] := by
  simp [GhostFree, or_imp, forall_and]

theorem ghostFree_modify {place : Nat} {f : IndexSet → IndexSet}
    (hf : ∀ s ∈ family, (f s).ghosts = [] → s.ghosts = []) :
    GhostFree (family.modify place f) ↔
      GhostFree family ∧ ∀ s, family[place]? = some s → (f s).ghosts = [] := by
  constructor
  · intro h
    have hplace : ∀ s, family[place]? = some s → (f s).ghosts = [] := fun s hs => by
      refine h (f s) (List.mem_of_getElem? (i := place) ?_)
      simp [hs]
    refine ⟨fun s hs => ?_, hplace⟩
    obtain ⟨k, hk⟩ := List.mem_iff_getElem?.1 hs
    by_cases hpk : place = k
    · exact hf s hs (hplace s (hpk ▸ hk))
    · refine h s (List.mem_of_getElem? (i := k) ?_)
      simp [hk, hpk]
  · rintro ⟨hfamily, hplace⟩ s hs
    obtain hs | ⟨t, ht, rfl⟩ := mem_modify hs
    · exact hfamily s hs
    · exact hplace t ht

theorem ghostFree_apply (hfits : ∀ s ∈ family, s.Fits) :
    GhostFree (c.apply operations family) ↔ GhostFree family ∧ ¬ BringsGhosts family c := by
  cases c with
  | create bound =>
    refine ghostFree_concat.trans (and_congr_right fun _ => ?_)
    exact ⟨fun _ => not_false, fun _ => ghosts_empty bound⟩
  | insert place i =>
    refine (ghostFree_modify fun s _ h => ghosts_insert s i ▸ h).trans
      (and_congr_right fun hfamily => ⟨fun _ => not_false, fun _ s hs => ?_⟩)
    exact (ghosts_insert s i).trans (hfamily s (List.mem_of_getElem? hs))
  | erase place i =>
    refine (ghostFree_modify fun s _ h => ghosts_erase s i ▸ h).trans
      (and_congr_right fun hfamily => ⟨fun _ => not_false, fun _ s hs => ?_⟩)
    exact (ghosts_erase s i).trans (hfamily s (List.mem_of_getElem? hs))
  | union place other =>
    simp only [Change.apply, BringsGhosts]
    cases hother : family[other]? with
    | none => simp
    | some t =>
      have hunion (s) (hs : s ∈ family) := ghosts_union_eq_nil_iff (hfits s hs)
        (hfits t (List.mem_of_getElem? hother))
      refine (ghostFree_modify fun s hs h => ((hunion s hs).1 h).1).trans
        (and_congr_right fun hfamily => ?_)
      constructor
      · rintro h ⟨s, _, hs, ⟨⟩, hghost⟩
        exact ((hunion s (List.mem_of_getElem? hs)).1 (h s hs)).2 hghost
      · intro h s hs
        have hmem := List.mem_of_getElem? hs
        exact (hunion s hmem).2 ⟨hfamily s hmem, fun hghost => h ⟨s, t, hs, rfl, hghost⟩⟩
  | diff place other =>
    simp only [Change.apply, BringsGhosts, not_false_eq_true, and_true]
    split
    · next s t hs ht =>
      refine ghostFree_concat.trans (and_iff_left_of_imp fun hfamily => ?_)
      have hmem := List.mem_of_getElem? hs
      refine List.eq_nil_iff_forall_not_mem.2 fun i hi => ?_
      have hghost := (mem_ghosts_diff (hfits s hmem) (hfits t (List.mem_of_getElem? ht)) i).1 hi
      exact List.eq_nil_iff_forall_not_mem.1 (hfamily s hmem) i hghost.1
    · exact Iff.rfl

theorem ghostFree_run (changes : List Change) :
    GhostFree (run operations changes) ↔
      ∀ before c, before ++ [c] <+: changes → ¬ BringsGhosts (run operations before) c := by
  induction changes using List.reverseRecOn with
  | nil => simp [GhostFree, run]
  | append_singleton rest c ih =>
    rw [run_concat, ghostFree_apply fun s hs => fits_of_mem_run hs, ih]
    constructor
    · rintro ⟨hrest, hlast⟩ before d hd
      obtain heq | hd := List.prefix_concat_iff.1 hd
      · obtain ⟨rfl, ⟨⟩⟩ := List.append_inj' heq rfl
        exact hlast
      · exact hrest before d hd
    · intro h
      refine ⟨fun before d hd => h before d ?_, h rest c (List.prefix_refl _)⟩
      exact hd.trans (List.prefix_append rest [c])

variable {U : Nat → Prop}

theorem Within.union_of_bounds {a b : Nat} (hs : s.Within a) (ht : t.Within b)
    (hab : b ≤ a ∨ 64 ∣ a) : (s.union t).Within a := by
  refine ⟨hs.bound_eq, fun i hi => ?_⟩
  rw [testBit_union, Bool.or_eq_true, Bool.and_eq_true, decide_eq_true_eq, capacity_eq, blockCount,
    hs.bound_eq] at hi
  obtain hi | ⟨hcapacity, hi⟩ := hi
  · exact hs.lt_bound i hi
  · have hlt := ht.lt_bound i hi
    omega

theorem kept_within_own (hU : ∀ a b, U a → U b → b ≤ a ∨ 64 ∣ a) :
    Kept operations U fun s => ∃ a, U a ∧ s.Within a where
  create bound h := ⟨bound, h, within_empty bound⟩
  insert _ i := fun ⟨a, ha, hs⟩ => ⟨a, ha, hs.insert i⟩
  erase _ i := fun ⟨a, ha, hs⟩ => ⟨a, ha, hs.erase i⟩
  union _ _ := fun ⟨a, ha, hs⟩ ⟨b, hb, ht⟩ => ⟨a, ha, hs.union_of_bounds ht (hU a b ha hb)⟩
  diff _ t := fun ⟨a, ha, hs⟩ _ => ⟨a, ha, hs.diff t⟩

theorem ghost_of_union {a b : Nat} (hab : a < b) (hpart : ¬ 64 ∣ a) :
    ∃ s ∈ run operations [.create a, .create b, .insert 1 a, .union 0 1],
      ¬ ∀ i ∈ s.toList, i < s.bound := by
  have hcapacity : a < (empty a).capacity := by
    change a < 64 * ((a + 63) / 64)
    omega
  have ha : a ∈ ((empty b).insert a).toList := by
    refine (mem_toList_iff ((within_empty b).insert a) a).2 ?_
    exact (contains_insert (within_empty b) hab a).2 (.inr rfl)
  have hghost := (mem_ghosts_union (fits_empty a) ((fits_empty b).insert a) a).2
    (.inr ⟨Nat.le_refl a, hcapacity, ha⟩)
  refine ⟨(empty a).union ((empty b).insert a), List.mem_cons_self, fun h => ?_⟩
  exact absurd (h a (mem_ghosts.1 hghost).1) (Nat.lt_irrefl a)

theorem ghostFree_iff_bounds :
    (∀ changes, (∀ c ∈ changes, c.CreatesIn U) →
      ∀ s ∈ run operations changes, ∀ i ∈ s.toList, i < s.bound) ↔
        ∀ a b, U a → U b → b ≤ a ∨ 64 ∣ a := by
  constructor
  · intro h a b ha hb
    by_contra hno
    obtain ⟨hab, hpart⟩ := not_or.1 hno
    obtain ⟨s, hs, hghost⟩ := ghost_of_union (Nat.not_le.1 hab) hpart
    refine hghost (h _ ?_ s hs)
    simp [Change.CreatesIn, ha, hb]
  · intro hU changes hc s hs
    obtain ⟨a, -, hwithin⟩ := (kept_within_own hU).run hc s hs
    refine (within_iff_ghosts (fits_of_mem_run hs)).1 ?_
    rwa [hwithin.bound_eq]

theorem ghosts_come_from_unions (changes : List Change) :
    let family := run operations changes
    (∀ s ∈ family,
      s.toList = (List.range s.bound).filter s.contains ++ s.ghosts ∧
      (∀ i ∈ s.ghosts, s.bound ≤ i ∧ i < s.capacity) ∧
      s.size = ((List.range s.bound).filter s.contains).length + s.ghosts.length ∧
      (s.isEmpty = true ↔ (∀ i, s.contains i = false) ∧ s.ghosts = [])) ∧
    ((∀ s ∈ family, ∀ i ∈ s.toList, i < s.bound) ↔
      ∀ before c, before ++ [c] <+: changes → ¬ BringsGhosts (run operations before) c) ∧
    ∀ U : Nat → Prop,
      (∀ others, (∀ c ∈ others, c.CreatesIn U) →
        ∀ s ∈ run operations others, ∀ i ∈ s.toList, i < s.bound) ↔
          ∀ a b, U a → U b → b ≤ a ∨ 64 ∣ a := by
  intro family
  refine ⟨fun s hs => ?_, ?_, fun U => ghostFree_iff_bounds⟩
  · refine ⟨s.toList_eq_append_ghosts, fun i hi => ?_, ?_, isEmpty_iff_ghosts (fits_of_mem_run hs)⟩
    · obtain ⟨hmem, hle⟩ := mem_ghosts.1 hi
      exact ⟨hle, (mem_toList.1 hmem).1⟩
    · rw [size, toList_eq_append_ghosts, List.length_append]
  · rw [← ghostFree_run]
    exact forall₂_congr fun s _ => ghosts_eq_nil_iff.symm

theorem ghosts_come_from_unions_mixed :
    (∀ s ∈ run operations [.create 64, .create 100, .insert 1 70, .insert 1 3, .union 0 1],
      ∀ i ∈ s.toList, i < s.bound) ∧
    ¬ (∀ s ∈ run operations [.create 10, .create 60, .insert 1 50, .union 0 1],
      ∀ i ∈ s.toList, i < s.bound) ∧
    ∀ s ∈ run operations [.create 10, .create 60, .insert 1 50, .union 0 1],
      s.isEmpty = true → s.ghosts = [] := by
  obtain ⟨hanswers, hrun, -⟩ :=
    ghosts_come_from_unions [.create 10, .create 60, .insert 1 50, .union 0 1]
  obtain ⟨-, -, hbounds⟩ := ghosts_come_from_unions []
  refine ⟨(hbounds fun a => a = 64 ∨ a = 100).2 ?_ _ (by simp [Change.CreatesIn]), ?_, ?_⟩
  · rintro a b (rfl | rfl) (rfl | rfl) <;> decide
  · rw [hrun]
    intro h
    refine h [.create 10, .create 60, .insert 1 50] (.union 0 1) (List.prefix_refl _) ?_
    exact ⟨empty 10, (empty 60).insert 50, rfl, rfl, 50, by decide, by decide, by decide⟩
  · intro s hs hempty
    exact ((hanswers s hs).2.2.2.1 hempty).2

theorem ghost_admitted :
    ∃ s, (run operations [.create 10, .create 60, .insert 1 50, .union 0 1])[0]? = some s ∧
      s.bound = 10 ∧ s.toList = [50] ∧ s.contains 50 = false ∧ s.size = 1 ∧ s.isEmpty = false :=
  ⟨_, rfl, rfl, by decide, by decide, by decide, by decide⟩

end IndexSet

end ClassLowering
