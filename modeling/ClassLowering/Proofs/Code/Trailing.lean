import ClassLowering.Proofs.Code.LabelBlock
import ClassLowering.Proofs.Code.Lockstep
import ClassLowering.Proofs.Code.Shelter
import ClassLowering.Proofs.Execution.Layout
import ClassLowering.Proofs.Method.Thinning

namespace ClassLowering

open Body (Ready Lands Foretold)
open Lower (Level)

section Bodies

variable {own passed names : List String} {supply supply' next : LabelSupply} {b b' c : Body}

def itself (own : List String) (a a' : String) : Prop := a = a' ∧ a ∈ own

theorem paired_itself (hb : b.Known supply) (hb' : b'.Known supply')
    (hused : ∀ name ∈ own, name ∈ supply.used ∧ name ∈ supply'.used)
    (hlookup : ∀ name ∈ own, b'.labelDepths.lookup name = b.labelDepths.lookup name)
    (hdefined : ∀ name ∈ own, name ∈ b'.defined → name ∈ b.defined) :
    Paired (itself own) [] supply b supply' b' := by
  refine ⟨hb, hb', ?_, ?_, ?_, ?_, nofun, nofun⟩
  · rintro a _ ⟨rfl, ha⟩
    exact hused a ha
  · rintro a _ c _ ⟨rfl, -⟩ ⟨rfl, -⟩
    exact Iff.rfl
  · rintro a _ ⟨rfl, ha⟩
    exact hlookup a ha
  · rintro a _ ⟨rfl, ha⟩
    exact hdefined a ha

structure Behind (own passed : List String) (supply : LabelSupply) (b : Body) (supply' : LabelSupply)
    (b' : Body) : Prop where
  known : b.Known supply
  known' : b'.Known supply'
  bounded : b.Bounded
  used : ∀ name ∈ own, name ∈ supply.used ∧ name ∈ supply'.used
  maxDepth_le : b'.maxDepth ≤ b.maxDepth
  lookup_eq : ∀ name ∈ own, name ∉ passed →
    b'.labelDepths.lookup name = b.labelDepths.lookup name
  defined : ∀ name ∈ own, name ∈ b'.defined → name ∈ b.defined ∧ name ∉ passed
  reached : passed ≠ [] → b.reachable = true ∧ b'.Foretold passed b.depth
  level : passed = [] → b'.reachable = b.reachable ∧ b'.depth = b.depth
  here : ∀ name ∈ passed, name ∈ b.defined ∧ b.labelDepths.lookup name = some b.depth ∧
    (b'.labelDepths.lookup name = none ∨ b'.labelDepths.lookup name = some b.depth)

theorem Mirrored.behind {live : Bool} (h : Mirrored (itself own) [] live supply b supply' b')
    (hb : b.Bounded) (hused : ∀ name ∈ own, name ∈ supply.used ∧ name ∈ supply'.used) :
    Behind own [] supply b supply' b' :=
  ⟨h.known, h.known', hb, hused, h.maxDepth_le, fun name hn _ => h.lookup_eq name name ⟨rfl, hn⟩,
    fun name hn hd => ⟨h.defined name name ⟨rfl, hn⟩ hd, List.not_mem_nil⟩, absurd rfl,
    fun _ => ⟨h.reachable_eq, h.depth_eq⟩, nofun⟩

theorem Body.reachable_of_labels (h : b.addAll (names.map .label) = .ok c)
    (hor : b.reachable = true ∨ names ≠ []) : c.reachable = true := by
  by_cases hnames : names = []
  · subst hnames
    cases h
    exact hor.resolve_right (absurd rfl)
  · obtain ⟨d, -, -, hlands⟩ := Body.ready_of_addAll hnames h
    exact hlands.reachable_eq

theorem Body.Lands.known {d : Int} (h : b.Lands names d c) (hb : b.Known supply)
    (hnames : ∀ name ∈ names, name ∈ supply.used) : c.Known supply := by
  refine ⟨fun name e he => ?_, fun name hn => ?_⟩
  · rw [h.lookup_eq] at he
    split at he
    · exact hnames name ‹_›
    · exact hb.recorded name e he
  · exact ((h.mem_defined name).1 hn).elim (hnames name) fun hn => hb.defined hn

theorem foretold_append {d : Int} {later : List String} (hnames : names ≠ [])
    (h : b.Foretold names d) : b.Foretold (names ++ later) d := by
  obtain ⟨name, rest, rfl⟩ := List.exists_cons_of_ne_nil hnames
  exact h

theorem foretold_congr {d : Int} (hr : b'.reachable = b.reachable) (hd : b'.depth = b.depth)
    (hl : ∀ name ∈ names, b'.labelDepths.lookup name = b.labelDepths.lookup name)
    (h : b.Foretold names d) : b'.Foretold names d := by
  unfold Foretold at h ⊢
  rw [hr, hd]
  split
  · next hb => rwa [if_pos hb] at h
  · next hb =>
    rw [if_neg hb] at h
    refine h.imp_right ?_
    rintro ⟨name, hhead, hname⟩
    exact ⟨name, hhead, (hl name (List.mem_of_head? hhead)).trans hname⟩

theorem Behind.labels (h : Behind own passed supply b supply' b') (hnames : names ⊆ own)
    (hc : b.addAll (names.map .label) = .ok c) :
    Behind own (passed ++ names) supply c supply' b' := by
  by_cases hnil : names = []
  · subst hnil
    cases hc
    rwa [List.append_nil]
  · obtain ⟨d, hready, hforetold, hlands⟩ := Body.ready_of_addAll hnil hc
    obtain ⟨hext, hbounded, -⟩ := Body.addAll_spec hc
    have hdepth (hp : passed ≠ []) : b.depth = d := by
      rwa [Foretold, if_pos (h.reached hp).1] at hforetold
    refine ⟨hlands.known h.known fun name hn => (h.used name (hnames hn)).1, h.known',
      hbounded h.bounded, h.used, Nat.le_trans h.maxDepth_le hext.maxDepth_le, ?_, ?_, ?_, ?_, ?_⟩
    · intro name hown hnew
      rw [List.mem_append, not_or] at hnew
      rw [hlands.lookup_eq, if_neg hnew.2]
      exact h.lookup_eq name hown hnew.1
    · intro name hown hd
      obtain ⟨hdb, hpassed⟩ := h.defined name hown hd
      have hne : name ∉ names := fun hn => hready.undefined name hn hdb
      exact ⟨(hlands.mem_defined name).2 (.inr hdb), by simp [hpassed, hne]⟩
    · intro _
      refine ⟨hlands.reachable_eq, ?_⟩
      rw [hlands.depth_eq]
      by_cases hp : passed = []
      · subst hp
        obtain ⟨hr, hd⟩ := h.level rfl
        exact foretold_congr hr hd (fun name hn => h.lookup_eq name (hnames hn) List.not_mem_nil)
          hforetold
      · exact foretold_append hp (hdepth hp ▸ (h.reached hp).2)
    · intro hempty
      exact absurd (List.append_eq_nil_iff.1 hempty).2 hnil
    · intro name hname
      rw [hlands.depth_eq, hlands.mem_defined, hlands.lookup_eq]
      by_cases hp : name ∈ passed
      · obtain ⟨hd, hl, hl'⟩ := h.here name hp
        rw [hdepth (List.ne_nil_of_mem hp)] at hl hl'
        refine ⟨.inr hd, ?_, hl'⟩
        split
        · rfl
        · exact hl
      · have hn := (List.mem_append.1 hname).resolve_left hp
        rw [if_pos hn, h.lookup_eq name (hnames hn) hp]
        exact ⟨.inl hn, rfl, hready.recorded name hn⟩

theorem Behind.mirrored (h : Behind own [] supply b supply' b') :
    Mirrored (itself own) [] b.reachable supply b supply' b' := by
  obtain ⟨hr, hd⟩ := h.level rfl
  exact ⟨paired_itself h.known h.known' h.used
    (fun name hn => h.lookup_eq name hn List.not_mem_nil)
    (fun name hn hd => (h.defined name hn hd).1), hd, hr, h.maxDepth_le, id⟩

theorem Behind.ready (h : Behind own passed supply b supply' b') (hpassed : passed ⊆ own)
    (hmem : ∀ name, name ∈ names ↔ name ∈ passed) (hnodup : names.Nodup) :
    b'.Ready names b.depth := by
  refine ⟨hnodup, fun name hn hd => ?_, fun name hn => (h.here name ((hmem name).1 hn)).2.2⟩
  have hp := (hmem name).1 hn
  exact (h.defined name (hpassed hp) hd).2 hp

theorem Behind.lands (h : Behind own passed supply b supply' b') (hpassed : passed ⊆ own)
    (hmem : ∀ name, name ∈ names ↔ name ∈ passed) (hreach : b.reachable = true)
    (hlands : b'.Lands names b.depth c) :
    Mirrored (itself own) [] b.reachable supply b supply' c := by
  have hknown := hlands.known h.known' fun name hn =>
    (h.used name (hpassed ((hmem name).1 hn))).2
  refine ⟨paired_itself h.known hknown h.used (fun name hown => ?_) (fun name hown hd => ?_),
    hlands.depth_eq, hlands.reachable_eq.trans hreach.symm, ?_, id⟩
  · rw [hlands.lookup_eq]
    split
    · next hn => exact (h.here name ((hmem name).1 hn)).2.1.symm
    · next hn => exact h.lookup_eq name hown (mt (hmem name).2 hn)
  · rcases (hlands.mem_defined name).1 hd with hn | hd
    · exact (h.here name ((hmem name).1 hn)).1
    · exact (h.defined name hown hd).1
  · rw [hlands.maxDepth_eq]
    exact h.maxDepth_le

theorem Behind.meet (h : Behind own passed supply b supply' b') (hpassed : passed ⊆ own)
    (hmem : ∀ name, name ∈ names ↔ name ∈ passed) (hnodup : names.Nodup) :
    (∃ c', b'.addAll (names.map .label) = .ok c' ∧
        Mirrored (itself own) [] b.reachable supply b supply' c') ∨
      (∃ name ∈ names, b'.addAll (names.map .label) = .error (.labelDepth name b.depth 0)) ∧
        0 < b.depth ∧ names.head? ≠ passed.head? := by
  by_cases hnil : passed = []
  · subst hnil
    obtain rfl : names = [] := List.eq_nil_iff_forall_not_mem.2 fun name hn =>
      List.not_mem_nil ((hmem name).1 hn)
    exact .inl ⟨b', rfl, h.mirrored⟩
  obtain ⟨hreach, hforetold⟩ := h.reached hnil
  obtain ⟨first, hfirst⟩ := List.exists_mem_of_ne_nil passed hnil
  have hnames : names ≠ [] := List.ne_nil_of_mem ((hmem first).2 hfirst)
  have hready := h.ready hpassed hmem hnodup
  by_cases hfits : b'.Foretold names b.depth
  · obtain ⟨c', hc', hlands⟩ := Body.lands_of_ready hnames hready hfits
    exact .inl ⟨c', hc', h.lands hpassed hmem hreach hlands⟩
  · -- What is foretold depends on the first label only, and on that only if it is not reached.
    have hidle : ¬ b'.reachable = true := by
      intro hr
      rw [Foretold, if_pos hr] at hfits hforetold
      exact hfits hforetold
    have hno := hfits
    rw [Foretold, if_neg hidle, not_or] at hno
    rw [Foretold, if_neg hidle] at hforetold
    obtain ⟨hzero, hhead⟩ := hno
    obtain ⟨name, hname, hl⟩ := hforetold.resolve_left hzero
    have hp := (hmem name).2 (List.mem_of_head? hname)
    refine .inr ⟨Body.refused_of_ready (Bool.not_eq_true _ ▸ hidle) hready ⟨name, hp, hl⟩ hfits, ?_,
      ?_⟩
    · exact lt_of_le_of_ne h.bounded.depth_nonneg (Ne.symm hzero)
    · intro heq
      exact hhead ⟨name, heq.trans hname, hl⟩

end Bodies

theorem Body.defined_subset_of_addAll {b c : Body} {lines : List Line}
    (h : b.addAll lines = .ok c) : b.defined ⊆ c.defined := by
  induction lines generalizing b with
  | nil =>
    cases h
    exact List.Subset.refl _
  | cons l rest ih =>
    obtain ⟨b₁, hadd, hrest⟩ := Body.addAll_cons_add h
    exact List.Subset.trans (Body.add_enters hadd).defined_subset (ih hrest)

open Body (At)

theorem Scope.level_store (s : Scope) {own : List String} {k : Nat} {name : String} {ty : Ty}
    {value : Instruction} (hcall : ∀ c, value ≠ .call c) :
    Level (At (Recorded own) true k) (s.assign (.var name ty) value) fun _ =>
      At (Recorded own) true k := by
  have hvalue : Level (At (Recorded own) true k) (s.expression value) fun _ =>
      At (Recorded own) true (k + 1) := by
    cases value with
    | call c => exact absurd rfl (hcall c)
    | assign place e => exact .fail id _
    | branch condition label => exact .fail id _
    | _ => exact s.level_expression nofun fun _ => .inl rfl
  unfold Scope.assign
  split
  · exact .bind (.lift (s.spares_register _)) fun _ => .op k rfl rfl
  · refine .bind hvalue fun _ => .bind (.lift (s.spares_register name)) fun _ => ?_
    exact .op k rfl rfl

section Stores

variable {header : ClassHeader} {m : Method} {own passed : List String}
  {supply supply' next : LabelSupply} {b b' c : Body} {name : String} {ty : Ty} {value : Instruction}

theorem lookup_of_store (hb : b.Known supply)
    (hc : (Scope.statement ⟨header, m⟩ (.assign (.var name ty) value)).onto supply b =
      .ok ((), next, c)) :
    c.Known next ∧ ∀ label ∈ supply.used, label ∈ next.used ∧
      c.labelDepths.lookup label = b.labelDepths.lookup label := by
  obtain ⟨blank, hblank⟩ : ∃ blank : List String, ∀ label,
      label ∈ blank ↔ label ∈ supply.used ∧ b.labelDepths.lookup label = none :=
    ⟨supply.used.filter fun label => (b.labelDepths.lookup label).isNone, by simp⟩
  have hmirror : Lower.Mirrors (Mirrored (fun _ _ => False) blank false)
      (Scope.statement ⟨header, m⟩ (.assign (.var name ty) value))
      (Scope.statement ⟨header, m⟩ (.assign (.var name ty) value)) fun _ _ =>
        Mirrored (fun _ _ => False) blank (false && true) :=
    Scope.mirrors_statement (.refl m _) (fun _ => id) nofun
  have hself : Mirrored (fun _ _ => False) blank false supply b supply b :=
    ⟨⟨hb, hb, nofun, nofun, nofun, nofun, fun label hl => ((hblank label).1 hl).2,
      fun label hl => ⟨((hblank label).1 hl).1, fun _ => id⟩⟩, rfl, rfl, Nat.le_refl _, nofun⟩
  obtain ⟨_, _, _, _, hend⟩ := hmirror supply b supply b hself () next c hc
  refine ⟨hend.known, fun label hused => ?_⟩
  cases hl : b.labelDepths.lookup label with
  | none =>
    have hmem := (hblank label).2 ⟨hused, hl⟩
    exact ⟨(hend.blank_used label hmem).1, hend.blank_eq label hmem⟩
  | some d =>
    have hkept := (Body.addAll_spec (Lower.onto_eq_ok.1 hc).1).1.lookup label d hl
    exact ⟨hend.known.recorded label d hkept, hkept⟩

theorem level_of_store (hb : b.Known supply) (hbounded : b.Bounded) (hreach : b.reachable = true)
    (hcall : ∀ c, value ≠ .call c)
    (hc : (Scope.statement ⟨header, m⟩ (.assign (.var name ty) value)).onto supply b =
      .ok ((), next, c)) : c.reachable = true ∧ c.depth = b.depth := by
  obtain ⟨k, hk⟩ := Int.eq_ofNat_of_zero_le hbounded.depth_nonneg
  have hat : b.At (Recorded []) true k supply :=
    ⟨hreach, hk, hb.recorded, nofun, nofun, nofun, nofun⟩
  have hlevel : Level (At (Recorded []) true k) (Scope.assign ⟨header, m⟩ (.var name ty) value)
      fun _ => At (Recorded []) true k := Scope.level_store _ hcall
  have hend := hlevel supply b hat
  change (Scope.assign ⟨header, m⟩ (.var name ty) value).onto supply b = _ at hc
  rw [hc] at hend
  exact ⟨hend.reachable_eq, hend.depth_eq.trans hk.symm⟩

theorem Behind.store (h : Behind own passed supply b supply' b') (hpassed : passed ⊆ own)
    (hreach : b.reachable = true) (hcall : ∀ c, value ≠ .call c)
    (hc : (Scope.statement ⟨header, m⟩ (.assign (.var name ty) value)).onto supply b =
      .ok ((), next, c)) : Behind own passed next c supply' b' := by
  obtain ⟨hknown, hlookup⟩ := lookup_of_store h.known hc
  obtain ⟨hreach', hdepth⟩ := level_of_store h.known h.bounded hreach hcall hc
  obtain ⟨hall, -⟩ := Lower.onto_eq_ok.1 hc
  obtain ⟨hext, hbounded, -⟩ := Body.addAll_spec hall
  have hdefined := Body.defined_subset_of_addAll hall
  refine ⟨hknown, h.known', hbounded h.bounded, ?_, Nat.le_trans h.maxDepth_le hext.maxDepth_le, ?_,
    ?_, ?_, ?_, ?_⟩
  · intro label hown
    obtain ⟨hu, hu'⟩ := h.used label hown
    exact ⟨(hlookup label hu).1, hu'⟩
  · intro label hown hnew
    rw [(hlookup label (h.used label hown).1).2]
    exact h.lookup_eq label hown hnew
  · intro label hown hd
    exact ⟨hdefined (h.defined label hown hd).1, (h.defined label hown hd).2⟩
  · intro hne
    rw [hdepth]
    exact ⟨hreach', (h.reached hne).2⟩
  · intro hnil
    rw [hreach', hdepth, ← hreach]
    exact h.level hnil
  · intro label hp
    obtain ⟨hd, hl, hl'⟩ := h.here label hp
    rw [hdepth, (hlookup label (h.used label (hpassed hp)).1).2]
    exact ⟨hdefined hd, hl, hl'⟩

end Stores

end ClassLowering
