import ClassLowering.Proofs.Liveness.Blocks
import Mathlib.Data.Finset.Sort
import Mathlib.Data.Finset.SDiff

namespace ClassLowering

structure SetOperations (α : Type) where
  create : Nat → α
  insert : α → Nat → α
  erase : α → Nat → α
  union : α → α → α
  diff : α → α → α

namespace Family

inductive Change where
  | create (bound : Nat)
  | insert (place i : Nat)
  | erase (place i : Nat)
  | union (place other : Nat)
  | diff (place other : Nat)
  deriving DecidableEq, Repr

variable {α β : Type} {ops : SetOperations α} {ops' : SetOperations β}

def Change.apply (ops : SetOperations α) (family : List α) : Change → List α
  | create bound => family ++ [ops.create bound]
  | insert place i => family.modify place (ops.insert · i)
  | erase place i => family.modify place (ops.erase · i)
  | union place other =>
    match family[other]? with
    | some t => family.modify place (ops.union · t)
    | none => family
  | diff place other =>
    match family[place]?, family[other]? with
    | some s, some t => family ++ [ops.diff s t]
    | _, _ => family

def run (ops : SetOperations α) (changes : List Change) : List α :=
  changes.foldl (Change.apply ops) []

theorem run_concat (changes : List Change) (c : Change) :
    run ops (changes ++ [c]) = c.apply ops (run ops changes) := by
  rw [run, List.foldl_concat, run]

def Change.CreatesIn (U : Nat → Prop) : Change → Prop
  | create bound => U bound
  | _ => True

theorem mem_modify {l : List α} {place : Nat} {f : α → α} {a : α} (h : a ∈ l.modify place f) :
    a ∈ l ∨ ∃ b, l[place]? = some b ∧ a = f b := by
  obtain ⟨k, hk⟩ := List.mem_iff_getElem?.1 h
  rw [List.getElem?_modify] at hk
  obtain ⟨b, hb, rfl⟩ := Option.map_eq_some_iff.1 hk
  by_cases hplace : place = k
  · exact .inr ⟨b, hplace ▸ hb, if_pos hplace⟩
  · exact .inl (by simpa [hplace] using List.mem_of_getElem? hb)

theorem map_modify {l : List α} {f : α → α} {f' : β → β} {g : α → β}
    (h : ∀ a ∈ l, g (f a) = f' (g a)) (place : Nat) :
    (l.modify place f).map g = (l.map g).modify place f' := by
  refine List.ext_getElem? fun k => ?_
  rw [List.getElem?_map, List.getElem?_modify, List.getElem?_modify, List.getElem?_map]
  cases hk : l[k]? with
  | none => rfl
  | some a =>
    have ha := h a (List.mem_of_getElem? hk)
    by_cases hplace : place = k
    · simp [hplace, ha]
    · simp [hplace]

structure Kept (ops : SetOperations α) (U : Nat → Prop) (P : α → Prop) : Prop where
  create : ∀ bound, U bound → P (ops.create bound)
  insert : ∀ s i, P s → P (ops.insert s i)
  erase : ∀ s i, P s → P (ops.erase s i)
  union : ∀ s t, P s → P t → P (ops.union s t)
  diff : ∀ s t, P s → P t → P (ops.diff s t)

structure Carried (ops : SetOperations α) (ops' : SetOperations β) (U : Nat → Prop) (P : α → Prop)
    (g : α → β) : Prop where
  create : ∀ bound, U bound → g (ops.create bound) = ops'.create bound
  insert : ∀ s i, P s → g (ops.insert s i) = ops'.insert (g s) i
  erase : ∀ s i, P s → g (ops.erase s i) = ops'.erase (g s) i
  union : ∀ s t, P s → P t → g (ops.union s t) = ops'.union (g s) (g t)
  diff : ∀ s t, P s → P t → g (ops.diff s t) = ops'.diff (g s) (g t)

variable {U : Nat → Prop} {P : α → Prop} {g : α → β} {family : List α} {c : Change}

theorem Kept.apply (h : Kept ops U P) (hc : c.CreatesIn U) (hfamily : ∀ s ∈ family, P s) :
    ∀ s ∈ c.apply ops family, P s := by
  intro s hs
  cases c with
  | create bound =>
    obtain hs | hs := List.mem_append.1 hs
    · exact hfamily s hs
    · exact List.mem_singleton.1 hs ▸ h.create bound hc
  | insert place i =>
    obtain hs | ⟨t, ht, rfl⟩ := mem_modify hs
    · exact hfamily s hs
    · exact h.insert t i (hfamily t (List.mem_of_getElem? ht))
  | erase place i =>
    obtain hs | ⟨t, ht, rfl⟩ := mem_modify hs
    · exact hfamily s hs
    · exact h.erase t i (hfamily t (List.mem_of_getElem? ht))
  | union place other =>
    simp only [Change.apply] at hs
    split at hs
    · next u hu =>
      obtain hs | ⟨t, ht, rfl⟩ := mem_modify hs
      · exact hfamily s hs
      · exact h.union t u (hfamily t (List.mem_of_getElem? ht)) (hfamily u (List.mem_of_getElem? hu))
    · exact hfamily s hs
  | diff place other =>
    simp only [Change.apply] at hs
    split at hs
    · next t u ht hu =>
      obtain hs | hs := List.mem_append.1 hs
      · exact hfamily s hs
      · rw [List.mem_singleton.1 hs]
        exact h.diff t u (hfamily t (List.mem_of_getElem? ht)) (hfamily u (List.mem_of_getElem? hu))
    · exact hfamily s hs

theorem Carried.apply (h : Carried ops ops' U P g) (hc : c.CreatesIn U)
    (hfamily : ∀ s ∈ family, P s) :
    (c.apply ops family).map g = c.apply ops' (family.map g) := by
  cases c with
  | create bound => simp [Change.apply, h.create bound hc]
  | insert place i => exact map_modify (fun s hs => h.insert s i (hfamily s hs)) place
  | erase place i => exact map_modify (fun s hs => h.erase s i (hfamily s hs)) place
  | union place other =>
    simp only [Change.apply, List.getElem?_map]
    cases hother : family[other]? with
    | none => rfl
    | some t =>
      have ht := hfamily t (List.mem_of_getElem? hother)
      exact map_modify (fun s hs => h.union s t (hfamily s hs) ht) place
  | diff place other =>
    simp only [Change.apply, List.getElem?_map]
    cases hplace : family[place]? with
    | none => rfl
    | some s =>
      cases hother : family[other]? with
      | none => rfl
      | some t =>
        have hs := hfamily s (List.mem_of_getElem? hplace)
        have ht := hfamily t (List.mem_of_getElem? hother)
        simp [h.diff s t hs ht]

theorem Kept.run (h : Kept ops U P) {changes : List Change} (hc : ∀ c ∈ changes, c.CreatesIn U) :
    ∀ s ∈ run ops changes, P s := by
  induction changes using List.reverseRecOn with
  | nil => exact fun s hs => nomatch hs
  | append_singleton rest c ih =>
    obtain ⟨hrest, hlast⟩ := List.forall_mem_append.1 hc
    rw [run_concat]
    exact h.apply (hlast c List.mem_cons_self) (ih hrest)

theorem Carried.run (h : Carried ops ops' U P g) (hP : Kept ops U P) {changes : List Change}
    (hc : ∀ c ∈ changes, c.CreatesIn U) : (run ops changes).map g = run ops' changes := by
  induction changes using List.reverseRecOn with
  | nil => rfl
  | append_singleton rest c ih =>
    obtain ⟨hrest, hlast⟩ := List.forall_mem_append.1 hc
    rw [run_concat, run_concat, h.apply (hlast c List.mem_cons_self) (hP.run hrest), ih hrest]

end Family

def BlockSet.operations : SetOperations BlockSet :=
  ⟨BlockSet.empty, BlockSet.insert, BlockSet.erase, BlockSet.union, BlockSet.diff⟩

def IndexSet.operations : SetOperations IndexSet :=
  ⟨IndexSet.empty, IndexSet.insert, IndexSet.erase, IndexSet.union, IndexSet.diff⟩

def finiteSets (n : Nat) : SetOperations (Finset Nat) :=
  ⟨fun _ => ∅, fun S i => if i < n then insert i S else S, Finset.erase, (· ∪ ·), (· \ ·)⟩

namespace IndexSet

open Family

theorem kept_fits : Kept operations (fun _ => True) Fits where
  create bound _ := fits_empty bound
  insert _ i hs := hs.insert i
  erase _ i hs := hs.erase i
  union _ t hs _ := hs.union t
  diff _ t hs _ := hs.diff t

theorem carried_toBlocks :
    Carried operations BlockSet.operations (fun _ => True) Fits toBlocks where
  create bound _ := toBlocks_empty bound
  insert s i _ := toBlocks_insert s i
  erase s i _ := toBlocks_erase s i
  union _ _ _ ht := toBlocks_union ht
  diff _ _ _ ht := toBlocks_diff ht

theorem createsIn_true (changes : List Change) : ∀ c ∈ changes, c.CreatesIn fun _ => True := by
  rintro (_ | _ | _ | _ | _) - <;> trivial

theorem fits_of_mem_run {changes : List Change} {s : IndexSet} (hs : s ∈ run operations changes) :
    s.Fits :=
  kept_fits.run (createsIn_true changes) s hs

theorem map_toBlocks_run (changes : List Change) :
    (run operations changes).map toBlocks = run BlockSet.operations changes :=
  carried_toBlocks.run kept_fits (createsIn_true changes)

def members (s : IndexSet) : Finset Nat := s.toList.toFinset

variable {n : Nat} {s t : IndexSet}

theorem Within.erase (hs : s.Within n) (i : Nat) : (s.erase i).Within n := by
  refine ⟨(bound_erase s i).trans hs.bound_eq, fun j hj => hs.lt_bound j ?_⟩
  rw [testBit_erase, Bool.and_eq_true] at hj
  exact hj.1

theorem contains_erase (hs : s.Within n) (i j : Nat) :
    (s.erase i).contains j = true ↔ s.contains j = true ∧ i ≠ j := by
  rw [(hs.erase i).contains_iff, hs.contains_iff, testBit_erase, Bool.and_eq_true,
    Bool.not_eq_true', decide_eq_false_iff_not, hs.bound_eq]
  refine and_congr_right fun hj => not_congr ⟨And.left, ?_⟩
  rintro rfl
  exact ⟨rfl, hs.lt_bound i hj⟩

theorem Within.mem_members (hs : s.Within n) (i : Nat) : i ∈ s.members ↔ s.contains i = true := by
  rw [members, List.mem_toFinset, mem_toList_iff hs]

theorem members_empty (bound : Nat) : (empty bound).members = ∅ := by
  refine Finset.eq_empty_of_forall_notMem fun i hi => ?_
  rw [(within_empty bound).mem_members, contains_empty] at hi
  exact nomatch hi

theorem members_insert (hs : s.Within n) (i : Nat) :
    (s.insert i).members = (finiteSets n).insert s.members i := by
  by_cases hi : i < n
  · ext j
    simp only [(hs.insert i).mem_members, contains_insert hs hi, finiteSets, if_pos hi,
      Finset.mem_insert, hs.mem_members, eq_comm, or_comm]
  · rw [insert, hs.bound_eq, if_neg hi]
    exact (if_neg hi).symm

theorem members_erase (hs : s.Within n) (i : Nat) : (s.erase i).members = s.members.erase i := by
  ext j
  rw [(hs.erase i).mem_members, contains_erase hs, Finset.mem_erase, hs.mem_members, and_comm,
    ne_comm]

theorem members_union (hs : s.Within n) (ht : t.Within n) :
    (s.union t).members = s.members ∪ t.members := by
  ext j
  rw [(hs.union ht).mem_members, contains_union hs ht, Finset.mem_union, hs.mem_members,
    ht.mem_members]

theorem members_diff (hs : s.Within n) (ht : t.Within n) :
    (s.diff t).members = s.members \ t.members := by
  ext j
  rw [(hs.diff t).mem_members, contains_diff hs ht, Finset.mem_sdiff, hs.mem_members, ht.mem_members]

theorem members_inj (hs : s.Within n) (ht : t.Within n) : s.members = t.members ↔ s = t := by
  refine ⟨fun h => hs.ext ht fun i => ?_, congrArg members⟩
  rw [← hs.mem_members, ← ht.mem_members, h]

theorem toList_nodup (s : IndexSet) : s.toList.Nodup := List.nodup_range.filter _

theorem card_members (s : IndexSet) : s.members.card = s.size :=
  List.toFinset_card_of_nodup s.toList_nodup

theorem sort_members (s : IndexSet) : s.members.sort (· ≤ ·) = s.toList :=
  (List.toFinset_sort _ s.toList_nodup).2 (List.pairwise_le_range.filter _)

theorem isEmpty_iff (hs : s.Fits) : s.isEmpty = true ↔ s.members = ∅ := by
  rw [members, List.toFinset_eq_empty_iff, hs.isEmpty_iff_toList]

theorem canInsert_iff (hs : s.Within n) (i : Nat) :
    s.canInsert i = true ↔ (s.insert i).members ≠ s.members := by
  have hbit : s.bits.testBit i = s.contains i := Bool.eq_iff_iff.2 (hs.contains_iff i).symm
  rw [members_insert hs, canInsert, hs.bound_eq, hbit]
  by_cases hi : i < n
  · simp [finiteSets, hi, hs.mem_members]
  · simp [finiteSets, hi]

theorem canErase_iff (hs : s.Within n) (i : Nat) :
    s.canErase i = true ↔ (s.erase i).members ≠ s.members := by
  rw [members_erase hs, Ne, Finset.erase_eq_self, not_not, hs.mem_members, canErase]

theorem canGrow_iff (hs : s.Within n) (ht : t.Within n) :
    s.canGrow t = true ↔ (s.union t).members ≠ s.members := by
  rw [canGrow, decide_eq_true_eq, Ne, Ne, members_inj (hs.union ht) hs]

theorem kept_within : Kept operations (· = n) (Within · n) where
  create bound h := h ▸ within_empty bound
  insert _ i hs := hs.insert i
  erase _ i hs := hs.erase i
  union _ _ hs ht := hs.union ht
  diff _ t hs _ := hs.diff t

theorem carried_members : Carried operations (finiteSets n) (· = n) (Within · n) members where
  create bound _ := members_empty bound
  insert _ i hs := members_insert hs i
  erase _ i hs := members_erase hs i
  union _ _ hs ht := members_union hs ht
  diff _ _ hs ht := members_diff hs ht

theorem families_refine_finite_sets (n : Nat) (changes : List Change)
    (hn : ∀ c ∈ changes, c.CreatesIn (· = n)) :
    let family := run operations changes
    family.map members = run (finiteSets n) changes ∧
    family.map toBlocks = run BlockSet.operations changes ∧
    (∀ s ∈ family, s.toBlocks.Shows s ∧ s.bound = n ∧
      (∀ i, s.contains i = true ↔ i ∈ s.members) ∧ s.size = s.members.card ∧
      (s.isEmpty = true ↔ s.members = ∅) ∧ s.toList = s.members.sort (· ≤ ·)) ∧
    (∀ s ∈ family, ∀ i,
      (s.canInsert i = true ↔ (s.insert i).members ≠ s.members) ∧
      (s.canErase i = true ↔ (s.erase i).members ≠ s.members) ∧ (n ≤ i → s.insert i = s)) ∧
    ∀ s ∈ family, ∀ t ∈ family,
      (s.canGrow t = true ↔ (s.union t).members ≠ s.members) ∧
      (s = t ↔ s.members = t.members) ∧ (s = t ↔ s.toBlocks = t.toBlocks) := by
  intro family
  have hfits (s) (hs : s ∈ family) : s.Fits := fits_of_mem_run hs
  have hwithin : ∀ s ∈ family, s.Within n := kept_within.run hn
  refine ⟨carried_members.run kept_within hn, map_toBlocks_run changes, ?_, ?_, ?_⟩
  · intro s hs
    have h := hwithin s hs
    exact ⟨(hfits s hs).shows, h.bound_eq, fun i => (h.mem_members i).symm, s.card_members.symm,
      isEmpty_iff (hfits s hs), s.sort_members.symm⟩
  · intro s hs i
    have h := hwithin s hs
    refine ⟨canInsert_iff h i, canErase_iff h i, fun hi => ?_⟩
    rw [insert, h.bound_eq, if_neg (Nat.not_lt.2 hi)]
  · intro s hs t ht
    exact ⟨canGrow_iff (hwithin s hs) (hwithin t ht), (members_inj (hwithin s hs) (hwithin t ht)).symm,
      (toBlocks_inj (hfits s hs) (hfits t ht)).symm⟩

def wide : List Change :=
  [.create 130, .create 130, .insert 0 0, .insert 0 129, .insert 0 130, .insert 1 64, .insert 1 0,
    .union 0 1, .erase 1 64, .diff 0 1]

theorem families_refine_wide :
    (∀ c ∈ wide, c.CreatesIn (· = 130)) ∧
      (run operations wide).map members = [{0, 64, 129}, {0}, {64, 129}] ∧
      ∃ s, (run operations wide)[2]? = some s ∧ s.size = 2 ∧ s.toList = [64, 129] ∧
        s.contains 64 = true ∧ s.insert 130 = s ∧ s.toBlocks.blocks = [0, 1, 2] := by
  have hn : ∀ c ∈ wide, c.CreatesIn (· = 130) := by simp [wide, Change.CreatesIn]
  obtain ⟨hmembers, hblocks, hanswers, hchanges, -⟩ := families_refine_finite_sets 130 wide hn
  have hsets : run (finiteSets 130) wide = [{0, 64, 129}, {0}, {64, 129}] := by decide +kernel
  rw [hsets] at hmembers
  have hwords : (run BlockSet.operations wide)[2]? = some ⟨130, [0, 1, 2]⟩ := by decide +kernel
  obtain ⟨s, hs, hmem⟩ : ∃ s, (run operations wide)[2]? = some s ∧ s.members = {64, 129} := by
    refine Option.map_eq_some_iff.1 ?_
    rw [← List.getElem?_map, hmembers]
    rfl
  have hfamily := List.mem_of_getElem? hs
  have hblock : s.toBlocks = ⟨130, [0, 1, 2]⟩ := by
    rw [← hblocks, List.getElem?_map, hs] at hwords
    exact Option.some.inj hwords
  obtain ⟨hshows, -, hcontains, hsize, -⟩ := hanswers s hfamily
  refine ⟨hn, hmembers, s, hs, ?_, ?_, ?_, ?_, ?_⟩
  · rw [hsize, hmem]
    rfl
  · rw [← hshows.toList, hblock]
    decide +kernel
  · rw [hcontains, hmem]
    decide
  · exact (hchanges s hfamily 130).2.2 (Nat.le_refl 130)
  · rw [hblock]

end IndexSet

end ClassLowering
