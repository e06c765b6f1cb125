import ClassLowering.Proofs.Code.Additions

namespace ClassLowering

namespace Body

variable {b b₁ c : Body} {name : String} {names rest : List String} {d e : Int}

structure Ready (b : Body) (names : List String) (d : Int) : Prop where
  nodup : names.Nodup
  undefined : ∀ x ∈ names, x ∉ b.defined
  recorded : ∀ x ∈ names, b.labelDepths.lookup x = none ∨ b.labelDepths.lookup x = some d

structure Lands (b : Body) (names : List String) (d : Int) (c : Body) : Prop where
  reachable_eq : c.reachable = true
  depth_eq : c.depth = d
  maxDepth_eq : c.maxDepth = b.maxDepth
  mem_defined : ∀ x, x ∈ c.defined ↔ x ∈ names ∨ x ∈ b.defined
  lookup_eq : ∀ x, c.labelDepths.lookup x = if x ∈ names then some d else b.labelDepths.lookup x

theorem Lands.refl (h : b.reachable = true) : b.Lands [] b.depth b :=
  ⟨h, rfl, rfl, by simp, by simp⟩

theorem Lands.cons (h : b.Lands [name] d b₁) (h' : b₁.Lands rest d c) :
    b.Lands (name :: rest) d c := by
  refine ⟨h'.reachable_eq, h'.depth_eq, h'.maxDepth_eq.trans h.maxDepth_eq, fun x => ?_, fun x => ?_⟩
  · rw [h'.mem_defined, h.mem_defined, List.mem_singleton, List.mem_cons, or_assoc, or_left_comm]
  · rw [h'.lookup_eq, h.lookup_eq]
    by_cases hx : x ∈ rest <;> by_cases hn : x = name <;> simp [hx, hn]

def Admits (b : Body) (name : String) (d : Int) : Prop :=
  (b.reachable = true → b.depth = d) ∧ (b.labelDepths.lookup name = some d ∨
    b.labelDepths.lookup name = none ∧ (b.reachable = true ∨ d = 0))

theorem lands_label (hnew : name ∉ b.defined) (h : b.Admits name d) :
    ∃ c, b.add (.label name) = (c, .ok ()) ∧ b.Lands [name] d c := by
  obtain ⟨hreach, hd⟩ := h
  have hmem (x : String) : x ∈ name :: b.defined ↔ x ∈ [name] ∨ x ∈ b.defined := by simp
  change ∃ c, b.defineLabel name = _ ∧ _
  unfold defineLabel enterLabel
  rw [if_neg hnew]
  dsimp only
  rcases hd with hl | ⟨hl, hzero⟩
  · rw [hl]
    dsimp only
    rw [if_neg fun hno => hno.2 (hreach hno.1)]
    refine ⟨_, rfl, rfl, rfl, rfl, hmem, fun x => ?_⟩
    by_cases hx : x = name
    · simp [hx, hl, write]
    · simp [hx, write]
  · rw [hl]
    have hdepth : (if b.reachable = true then b.depth else 0) = d := by
      split
      · next hr => exact hreach hr
      · next hr => exact (hzero.resolve_left hr).symm
    dsimp only
    rw [hdepth]
    refine ⟨_, rfl, rfl, rfl, rfl, hmem, fun x => ?_⟩
    by_cases hx : x = name
    · simp [hx, write]
    · simp [hx, write, List.lookup_cons, beq_false_of_ne hx]

theorem label_refused (hnew : name ∉ b.defined) (hreach : b.reachable = true)
    (hl : b.labelDepths.lookup name = some d) (hd : b.depth ≠ d) :
    ∃ c, b.add (.label name) = (c, .error (.labelDepth name d b.depth)) := by
  change ∃ c, b.defineLabel name = _
  unfold defineLabel enterLabel
  rw [if_neg hnew]
  dsimp only
  rw [hl]
  dsimp only
  rw [if_pos ⟨hreach, hd⟩]
  exact ⟨_, rfl⟩

theorem exists_admits_of_add (h : b.add (.label name) = (c, .ok ())) :
    ∃ d, name ∉ b.defined ∧ b.Admits name d ∧ b.Lands [name] d c := by
  have hnew := ((add_enters h).label name rfl).1
  have hadmits : ∃ d, b.Admits name d := by
    unfold Admits
    cases hl : b.labelDepths.lookup name with
    | some d =>
      refine ⟨d, fun hr => ?_, .inl rfl⟩
      by_contra hne
      obtain ⟨c', hc'⟩ := label_refused hnew hr hl hne
      rw [h] at hc'
      cases hc'
    | none =>
      cases b.reachable with
      | true => exact ⟨b.depth, fun _ => rfl, .inr ⟨rfl, .inl rfl⟩⟩
      | false => exact ⟨0, nofun, .inr ⟨rfl, .inr rfl⟩⟩
  obtain ⟨d, hd⟩ := hadmits
  obtain ⟨c', hc', hlands⟩ := lands_label hnew hd
  rw [h] at hc'
  cases hc'
  exact ⟨d, hnew, hd, hlands⟩

theorem Ready.tail (h : b.Ready (name :: rest) d) (hlands : b.Lands [name] e b₁) :
    b₁.Ready rest d := by
  obtain ⟨hname, hnodup⟩ := List.nodup_cons.1 h.nodup
  have hne {x : String} (hx : x ∈ rest) : x ∉ [name] := by
    rintro hxn
    exact hname (List.mem_singleton.1 hxn ▸ hx)
  refine ⟨hnodup, fun x hx => ?_, fun x hx => ?_⟩
  · rw [hlands.mem_defined]
    exact not_or.2 ⟨hne hx, h.undefined x (List.mem_cons_of_mem _ hx)⟩
  · rw [hlands.lookup_eq, if_neg (hne hx)]
    exact h.recorded x (List.mem_cons_of_mem _ hx)

theorem Ready.cons (h : b₁.Ready rest d) (hnew : name ∉ b.defined)
    (hd : b.labelDepths.lookup name = none ∨ b.labelDepths.lookup name = some d)
    (hlands : b.Lands [name] d b₁) : b.Ready (name :: rest) d := by
  have hname : name ∉ rest := fun hmem =>
    h.undefined name hmem ((hlands.mem_defined name).2 (.inl (List.mem_singleton.2 rfl)))
  have hne {x : String} (hx : x ∈ rest) : x ∉ [name] := by
    rintro hxn
    exact hname (List.mem_singleton.1 hxn ▸ hx)
  refine ⟨List.nodup_cons.2 ⟨hname, h.nodup⟩, List.forall_mem_cons.2 ⟨hnew, fun x hx hxd => ?_⟩,
    List.forall_mem_cons.2 ⟨hd, fun x hx => ?_⟩⟩
  · exact h.undefined x hx ((hlands.mem_defined x).2 (.inr hxd))
  · have hx' := h.recorded x hx
    rwa [hlands.lookup_eq, if_neg (hne hx)] at hx'

theorem addAll_labels_cons (h : b.add (.label name) = (b₁, .ok ())) :
    b.addAll ((name :: rest).map .label) = b₁.addAll (rest.map .label) := by
  rw [List.map_cons, addAll, h]

theorem lands_of_reachable (hb : b.reachable = true) (h : b.Ready names b.depth) :
    ∃ c, b.addAll (names.map .label) = .ok c ∧ b.Lands names b.depth c := by
  induction names generalizing b with
  | nil => exact ⟨b, rfl, .refl hb⟩
  | cons name rest ih =>
    obtain ⟨hnew, -⟩ := List.forall_mem_cons.1 h.undefined
    obtain ⟨hl, -⟩ := List.forall_mem_cons.1 h.recorded
    obtain ⟨b₁, hadd, hlands⟩ := lands_label hnew
      ⟨fun _ => rfl, hl.symm.imp_right (⟨·, .inl hb⟩)⟩
    obtain ⟨c, hc, hrest⟩ := ih hlands.reachable_eq (hlands.depth_eq ▸ h.tail hlands)
    rw [hlands.depth_eq] at hrest
    exact ⟨c, (addAll_labels_cons hadd).trans hc, hlands.cons hrest⟩

theorem ready_of_reachable (hb : b.reachable = true) (h : b.addAll (names.map .label) = .ok c) :
    b.Ready names b.depth := by
  induction names generalizing b with
  | nil => exact ⟨List.nodup_nil, nofun, nofun⟩
  | cons name rest ih =>
    obtain ⟨b₁, hadd, hrest⟩ := addAll_cons_add h
    obtain ⟨d, hnew, ⟨hdepth, hl⟩, hlands⟩ := exists_admits_of_add hadd
    obtain rfl := hdepth hb
    have hready := ih hlands.reachable_eq hrest
    rw [hlands.depth_eq] at hready
    exact hready.cons hnew (hl.symm.imp_left And.left) hlands

theorem refused_of_reachable (hb : b.reachable = true) (h : b.Ready names d) (hd : b.depth ≠ d)
    (hrecorded : ∃ x ∈ names, b.labelDepths.lookup x = some d) :
    ∃ x ∈ names, b.addAll (names.map .label) = .error (.labelDepth x d b.depth) := by
  induction names generalizing b with
  | nil =>
    obtain ⟨x, hx, -⟩ := hrecorded
    cases hx
  | cons name rest ih =>
    obtain ⟨hnew, -⟩ := List.forall_mem_cons.1 h.undefined
    obtain ⟨hl | hl, -⟩ := List.forall_mem_cons.1 h.recorded
    · obtain ⟨b₁, hadd, hlands⟩ := lands_label hnew ⟨fun _ => rfl, .inr ⟨hl, .inl hb⟩⟩
      obtain ⟨x, hx, hxd⟩ := hrecorded
      have hxn : x ≠ name := by
        rintro rfl
        rw [hl] at hxd
        cases hxd
      have hx' : x ∈ rest := (List.mem_cons.1 hx).resolve_left hxn
      have hxd' : b₁.labelDepths.lookup x = some d := by
        rw [hlands.lookup_eq, if_neg (by simpa using hxn), hxd]
      obtain ⟨y, hy, herr⟩ := ih hlands.reachable_eq (h.tail hlands) (hlands.depth_eq ▸ hd)
        ⟨x, hx', hxd'⟩
      rw [hlands.depth_eq] at herr
      exact ⟨y, List.mem_cons_of_mem _ hy, (addAll_labels_cons hadd).trans herr⟩
    · obtain ⟨b₁, hadd⟩ := label_refused hnew hb hl hd
      refine ⟨name, List.mem_cons_self, ?_⟩
      rw [List.map_cons, addAll, hadd]

def Foretold (b : Body) (names : List String) (d : Int) : Prop :=
  if b.reachable then b.depth = d
  else d = 0 ∨ ∃ name, names.head? = some name ∧ b.labelDepths.lookup name = some d

theorem ready_of_addAll (hnames : names ≠ []) (h : b.addAll (names.map .label) = .ok c) :
    ∃ d, b.Ready names d ∧ b.Foretold names d ∧ b.Lands names d c := by
  obtain ⟨name, rest, rfl⟩ := List.exists_cons_of_ne_nil hnames
  obtain ⟨b₁, hadd, hrest⟩ := addAll_cons_add h
  obtain ⟨d, hnew, ⟨hdepth, hl⟩, hlands⟩ := exists_admits_of_add hadd
  have hready := ready_of_reachable hlands.reachable_eq hrest
  obtain ⟨c', hc', hlands'⟩ := lands_of_reachable hlands.reachable_eq hready
  obtain rfl : c = c' := Except.ok.inj (hrest.symm.trans hc')
  rw [hlands.depth_eq] at hready hlands'
  refine ⟨d, hready.cons hnew (hl.symm.imp_left And.left) hlands, ?_, hlands.cons hlands'⟩
  unfold Foretold
  split
  · next hr => exact hdepth hr
  · next hr =>
    rcases hl with hl | ⟨-, hzero⟩
    · exact .inr ⟨name, rfl, hl⟩
    · exact .inl (hzero.resolve_left hr)

theorem lands_of_ready (hnames : names ≠ []) (h : b.Ready names d) (hd : b.Foretold names d) :
    ∃ c, b.addAll (names.map .label) = .ok c ∧ b.Lands names d c := by
  obtain ⟨name, rest, rfl⟩ := List.exists_cons_of_ne_nil hnames
  obtain ⟨hnew, -⟩ := List.forall_mem_cons.1 h.undefined
  obtain ⟨hl, -⟩ := List.forall_mem_cons.1 h.recorded
  unfold Foretold at hd
  have hadmits : b.Admits name d := by
    refine ⟨fun hr => by rwa [if_pos hr] at hd, hl.symm.imp_right fun hnone => ⟨hnone, ?_⟩⟩
    split at hd
    · exact .inl ‹_›
    · rcases hd with hd | ⟨other, ho, hsome⟩
      · exact .inr hd
      · cases ho
        rw [hnone] at hsome
        cases hsome
  obtain ⟨b₁, hadd, hlands⟩ := lands_label hnew hadmits
  obtain ⟨c, hc, hrest⟩ := lands_of_reachable hlands.reachable_eq
    (hlands.depth_eq ▸ h.tail hlands)
  rw [hlands.depth_eq] at hrest
  exact ⟨c, (addAll_labels_cons hadd).trans hc, hlands.cons hrest⟩

theorem refused_of_ready (hb : b.reachable = false) (h : b.Ready names d)
    (hrecorded : ∃ x ∈ names, b.labelDepths.lookup x = some d) (hd : ¬ b.Foretold names d) :
    ∃ x ∈ names, b.addAll (names.map .label) = .error (.labelDepth x d 0) := by
  unfold Foretold at hd
  rw [if_neg (by simp [hb])] at hd
  obtain ⟨hne, hhead⟩ := not_or.1 hd
  cases names with
  | nil =>
    obtain ⟨x, hx, -⟩ := hrecorded
    cases hx
  | cons name rest =>
    have hunknown : b.labelDepths.lookup name ≠ some d := fun hsome => hhead ⟨name, rfl, hsome⟩
    have hnone := (h.recorded name List.mem_cons_self).resolve_right hunknown
    obtain ⟨b₁, hadd, hlands⟩ := lands_label (h.undefined name List.mem_cons_self)
      ⟨fun hr => absurd hr (by simp [hb]), .inr ⟨hnone, .inr rfl⟩⟩
    obtain ⟨x, hx, hxd⟩ := hrecorded
    have hxn : x ≠ name := by
      rintro rfl
      exact hunknown hxd
    have hxd' : b₁.labelDepths.lookup x = some d := by
      rw [hlands.lookup_eq, if_neg (by simpa using hxn), hxd]
    obtain ⟨y, hy, herr⟩ := refused_of_reachable hlands.reachable_eq (h.tail hlands)
      (hlands.depth_eq ▸ Ne.symm hne) ⟨x, (List.mem_cons.1 hx).resolve_left hxn, hxd'⟩
    rw [hlands.depth_eq] at herr
    exact ⟨y, List.mem_cons_of_mem _ hy, (addAll_labels_cons hadd).trans herr⟩

end Body

end ClassLowering
