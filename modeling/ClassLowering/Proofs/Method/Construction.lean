import ClassLowering.Proofs.Method.Structure

namespace ClassLowering

namespace Method

variable {signature : Signature} {entries : List Entry} {label name : String} {target : Node}

def declared (entries : List Entry) : List String :=
  entries.filterMap fun
    | .label name => some name
    | .instruction _ => none

def Declares (entries : List Entry) (label : String) (target : Node) : Prop :=
  ∃ k, entries[k]? = some (.label label) ∧
    target = place (codeOf entries).length (codeOf (entries.take k)).length

inductive Succeeds (entries : List Entry) : Node → Node → Prop where
  | entry : Succeeds entries .entry (place (codeOf entries).length 0)
  | goto {slot : Nat} {label : String} {target : Node} :
      (codeOf entries)[slot]? = some (.goto label) → Declares entries label target →
      Succeeds entries (.ofSlot slot) target
  | jump {slot : Nat} {condition : Instruction} {label : String} {target : Node} :
      (codeOf entries)[slot]? = some (.branch condition label) → Declares entries label target →
      Succeeds entries (.ofSlot slot) target
  | skip {slot : Nat} {condition : Instruction} {label : String} :
      (codeOf entries)[slot]? = some (.branch condition label) →
      Succeeds entries (.ofSlot slot) (place (codeOf entries).length (slot + 1))
  | ret {slot : Nat} {value : Option Operand} :
      (codeOf entries)[slot]? = some (.ret value) → Succeeds entries (.ofSlot slot) .exit
  | next {slot : Nat} {i : Instruction} :
      (codeOf entries)[slot]? = some i → i.target? = none → (∀ value, i ≠ .ret value) →
      Succeeds entries (.ofSlot slot) (place (codeOf entries).length (slot + 1))

theorem map_fst_placeLabels (count slot : Nat) (entries : List Entry) :
    (placeLabels count slot entries).map Prod.fst = declared entries := by
  induction entries generalizing slot with
  | nil => rfl
  | cons entry rest ih =>
    cases entry with
    | label name => exact congrArg (List.cons name) (ih slot)
    | instruction i => exact ih (slot + 1)

theorem mem_placeLabels_iff {count slot : Nat} :
    (label, target) ∈ placeLabels count slot entries ↔
      ∃ k, entries[k]? = some (.label label) ∧
        target = place count (slot + (codeOf (entries.take k)).length) := by
  induction entries generalizing slot with
  | nil => simp [placeLabels]
  | cons entry rest ih =>
    cases entry with
    | label name =>
      rw [placeLabels, List.mem_cons, ih]
      constructor
      · rintro (h | ⟨k, hk, rfl⟩)
        · cases h
          exact ⟨0, rfl, rfl⟩
        · exact ⟨k + 1, hk, by simp⟩
      · rintro ⟨k, hk, rfl⟩
        cases k with
        | zero =>
          cases hk
          exact .inl rfl
        | succ k => exact .inr ⟨k, hk, by simp⟩
    | instruction i =>
      rw [placeLabels, ih]
      constructor
      · rintro ⟨k, hk, rfl⟩
        exact ⟨k + 1, hk, by simp [Nat.add_assoc, Nat.add_comm 1]⟩
      · rintro ⟨k, hk, rfl⟩
        cases k with
        | zero => cases hk
        | succ k => exact ⟨k, hk, by simp [Nat.add_assoc, Nat.add_comm 1]⟩

theorem mem_declared : label ∈ declared entries ↔ ∃ target, Declares entries label target := by
  have h : label ∈ declared entries ↔ ∃ k : Nat, entries[k]? = some (.label label) := by
    rw [← List.mem_iff_getElem?]
    simp only [declared, List.mem_filterMap]
    constructor
    · rintro ⟨entry, hm, he⟩
      cases entry with
      | label name =>
        cases he
        exact hm
      | instruction i => cases he
    · exact fun hm => ⟨_, hm, rfl⟩
  rw [h]
  constructor
  · rintro ⟨k, hk⟩
    exact ⟨_, k, hk, rfl⟩
  · rintro ⟨_, k, hk, -⟩
    exact ⟨k, hk⟩

theorem names_labels_draft (signature : Signature) (entries : List Entry) :
    ((draft signature entries).labels.map Prod.fst).Perm (declared entries) := by
  rw [← map_fst_placeLabels (codeOf entries).length 0 entries]
  exact (foldr_enterLabel_perm _).map Prod.fst

theorem target?_draft (signature : Signature) (h : (declared entries).Nodup) :
    (draft signature entries).target? label = some target ↔ Declares entries label target := by
  have hnames := (names_labels_draft signature entries).nodup_iff.2 h
  have hmem : (label, target) ∈ (draft signature entries).labels ↔
      (label, target) ∈ placeLabels (codeOf entries).length 0 entries := mem_foldr_enterLabel
  rw [target?, lookup_eq_some_iff_mem hnames, hmem, mem_placeLabels_iff]
  simp only [Nat.zero_add]
  rfl

theorem mem_instructions_draft {n : Node} {i : Instruction} :
    (n, i) ∈ (draft signature entries).instructions ↔
      ∃ slot, (codeOf entries)[slot]? = some i ∧ n = .ofSlot slot := by
  rw [mem_instructions, instruction?_eq_some, mem_draft_body]
  constructor
  · rintro ⟨⟨slot, -, rfl⟩, hi⟩
    exact ⟨slot, by simpa [codeAt?, draft, fromParts] using hi, rfl⟩
  · rintro ⟨slot, hi, rfl⟩
    obtain ⟨hlt, -⟩ := List.getElem?_eq_some_iff.1 hi
    exact ⟨⟨slot, hlt, rfl⟩, by simpa [codeAt?, draft, fromParts] using hi⟩

theorem instruction?_draft (signature : Signature) (entries : List Entry) (slot : Nat) :
    (draft signature entries).instruction? (.ofSlot slot) = (codeOf entries)[slot]? := by
  refine Option.ext fun i => ?_
  rw [← mem_instructions, mem_instructions_draft]
  constructor
  · rintro ⟨other, hs, he⟩
    obtain rfl : slot = other := by simpa [Node.ofSlot] using he
    exact hs
  · exact fun hs => ⟨slot, hs, rfl⟩

theorem head?_slots (first count : Nat) :
    ((List.range' first count).map Node.ofSlot).head?.getD .exit = place (first + count) first := by
  cases count with
  | zero => simp [place]
  | succ count => simp [List.range'_succ, place]

theorem nextIn_slots {first count slot : Nat} (hfirst : first ≤ slot) (hlt : slot < first + count) :
    nextIn (.ofSlot slot) ((List.range' first count).map Node.ofSlot) =
      place (first + count) (slot + 1) := by
  induction count generalizing first with
  | zero => omega
  | succ count ih =>
    rw [List.range'_succ, List.map_cons, nextIn]
    have hsum : first + (count + 1) = first + 1 + count := by omega
    by_cases h : first = slot
    · subst h
      rw [if_pos rfl, head?_slots, hsum]
    · have hne : Node.ofSlot first ≠ .ofSlot slot := fun e => h (by simpa [Node.ofSlot] using e)
      rw [if_neg hne, ih (by omega) (by omega), hsum]

theorem body_draft (signature : Signature) (entries : List Entry) :
    (draft signature entries).body =
      (List.range' 0 (codeOf entries).length).map Node.ofSlot := by
  rw [← List.range_eq_range']
  rfl

theorem start_draft (signature : Signature) (entries : List Entry) :
    (draft signature entries).start = place (codeOf entries).length 0 := by
  rw [start, body_draft, head?_slots, Nat.zero_add]

theorem following_draft {slot : Nat} (h : slot < (codeOf entries).length) :
    (draft signature entries).following (.ofSlot slot) =
      place (codeOf entries).length (slot + 1) := by
  rw [following, body_draft, nextIn_slots (Nat.zero_le slot) (by omega), Nat.zero_add]

theorem leads_iff_of_plain {m : Method} {i : Instruction} {next y : Node} (ht : i.target? = none)
    (hr : ∀ value, i ≠ .ret value) : m.Leads i next y ↔ y = next := by
  cases i with
  | goto label => cases ht
  | branch condition label => cases ht
  | ret value => exact absurd rfl (hr value)
  | _ => rfl

theorem bodyEdge_draft (signature : Signature) (h : (declared entries).Nodup) (x y : Node) :
    (draft signature entries).BodyEdge x y ↔ Succeeds entries x y := by
  constructor
  · rintro (⟨rfl, rfl⟩ | ⟨i, hi, hl⟩)
    · rw [start_draft]
      exact .entry
    · obtain ⟨slot, hs, rfl⟩ := mem_instructions_draft.1 hi
      rw [following_draft (List.getElem?_eq_some_iff.1 hs).1] at hl
      cases i with
      | goto label => exact .goto hs ((target?_draft signature h).1 hl)
      | branch condition label =>
        rcases hl with rfl | hl
        · exact .skip hs
        · exact .jump hs ((target?_draft signature h).1 hl)
      | ret value =>
        obtain rfl : y = .exit := hl
        exact .ret hs
      | _ =>
        obtain rfl : y = place (codeOf entries).length (slot + 1) := hl
        exact .next hs rfl nofun
  · have step {slot : Nat} {i : Instruction} (hs : (codeOf entries)[slot]? = some i)
        (hl : (draft signature entries).Leads i (place (codeOf entries).length (slot + 1)) y) :
        (draft signature entries).BodyEdge (.ofSlot slot) y := by
      refine .inr ⟨i, mem_instructions_draft.2 ⟨slot, hs, rfl⟩, ?_⟩
      rwa [following_draft (List.getElem?_eq_some_iff.1 hs).1]
    intro hsucceeds
    cases hsucceeds with
    | entry => exact .inl ⟨rfl, (start_draft signature entries).symm⟩
    | goto hs ht => exact step hs ((target?_draft signature h).2 ht)
    | jump hs ht => exact step hs (.inr ((target?_draft signature h).2 ht))
    | skip hs => exact step hs (.inl rfl)
    | ret hs => exact step hs rfl
    | next hs ht hr => exact step hs ((leads_iff_of_plain ht hr).2 rfl)

theorem repeated_of_firstRepeated? {earlier names : List String}
    (h : firstRepeated? earlier names = some label) :
    label ∈ names ∧ (label ∈ earlier ∨ 1 < names.count label) := by
  induction names generalizing earlier with
  | nil => cases h
  | cons name rest ih =>
    rw [firstRepeated?] at h
    split at h
    · next hknown =>
      cases h
      exact ⟨List.mem_cons_self, .inl hknown⟩
    · obtain ⟨hm, hrepeated⟩ := ih h
      refine ⟨List.mem_cons_of_mem _ hm, ?_⟩
      have hcount : 0 < rest.count label := List.count_pos_iff.2 hm
      rcases hrepeated with he | hlt
      · rcases List.mem_cons.1 he with rfl | he
        · right
          rw [List.count_cons_self]
          omega
        · exact .inl he
      · exact .inr (Nat.lt_of_lt_of_le hlt (List.count_le_count_cons ..))

theorem unknown_of_addFlow {m : Method} {g : FlowGraph} {n next : Node} {i : Instruction}
    {defect : Defect} (h : m.addFlow g n i next = .error defect) :
    ∃ label, i.target? = some label ∧ m.target? label = none ∧
      defect = .unknownLabel label m.name := by
  cases i with
  | goto label =>
    rw [addFlow] at h
    split at h
    · cases h
    · next hnone =>
      cases h
      exact ⟨label, rfl, hnone, rfl⟩
  | branch condition label =>
    rw [addFlow] at h
    split at h
    · cases h
    · next hnone =>
      cases h
      exact ⟨label, rfl, hnone, rfl⟩
  | _ => cases h

theorem unknown_of_addFlows {m : Method} {l : List Node} (hl : ∀ n ∈ l, n ∈ m.body) {g : FlowGraph}
    {defect : Defect} (h : m.addFlows g l = .error defect) :
    ∃ e ∈ m.instructions, ∃ label, e.2.target? = some label ∧ m.target? label = none ∧
      defect = .unknownLabel label m.name := by
  induction l generalizing g with
  | nil => cases h
  | cons n rest ih =>
    obtain ⟨i, hi⟩ := exists_instruction? (hl n List.mem_cons_self)
    rw [addFlows_cons hi] at h
    cases hone : m.addFlow g n i (rest.head?.getD .exit) with
    | error other =>
      rw [hone] at h
      cases h
      exact ⟨(n, i), mem_instructions.2 hi, unknown_of_addFlow hone⟩
    | ok g' =>
      rw [hone] at h
      exact ih (fun k hk => hl k (List.mem_cons_of_mem n hk)) h

theorem bodyFlow_ne_noInstruction (m : Method) (n : Node) (name : String) :
    m.bodyFlow ≠ .error (.noInstruction n name) := by
  intro h
  obtain ⟨e, -, label, -, -, he⟩ := unknown_of_addFlows (fun _ hn => hn) h
  cases he

theorem build_of_repeated (signature : Signature) (h : ¬ (declared entries).Nodup) :
    ∃ label, 1 < (declared entries).count label ∧
      build signature entries = .error (.malformed (.labelDeclaredTwice label signature.name)) := by
  rw [build_eq, map_fst_placeLabels]
  cases hlabel : firstRepeated? [] (declared entries) with
  | none => exact absurd (firstRepeated?_eq_none_iff.1 hlabel).1 h
  | some label =>
    obtain ⟨-, hearlier | hcount⟩ := repeated_of_firstRepeated? hlabel
    · cases hearlier
    · exact ⟨label, hcount, rfl⟩

theorem build_of_nodup (signature : Signature) (h : (declared entries).Nodup) :
    build signature entries =
      ((draft signature entries).rebuildFlow.map renumber).mapError .malformed := by
  have hunique : firstRepeated? [] (declared entries) = none :=
    firstRepeated?_eq_none_iff.2 ⟨h, by simp⟩
  rw [build_eq, map_fst_placeLabels, hunique]

theorem declared_nodup_of_build {m : Method} (h : build signature entries = .ok m) :
    (declared entries).Nodup := by
  by_contra hrepeated
  obtain ⟨label, -, herror⟩ := build_of_repeated signature hrepeated
  rw [h] at herror
  cases herror

theorem labels_nodup_of_build {m : Method} (h : build signature entries = .ok m) :
    (m.labels.map Prod.fst).Nodup := by
  have hnodup := declared_nodup_of_build h
  obtain ⟨g, -, rfl⟩ := build_eq_ok h
  exact (names_labels_draft signature entries).nodup_iff.2 hnodup

theorem jumpsDeclared_draft (signature : Signature) (h : (declared entries).Nodup) :
    (draft signature entries).JumpsDeclared ↔
      ∀ i ∈ codeOf entries, ∀ label, i.target? = some label → label ∈ declared entries := by
  simp only [JumpsDeclared, mem_instructions_draft, target?_draft signature h, ← mem_declared]
  constructor
  · intro hjumps i hi label ht
    obtain ⟨slot, hs⟩ := List.getElem?_of_mem hi
    exact hjumps _ i label ⟨slot, hs, rfl⟩ ht
  · rintro hjumps n i label ⟨slot, hs, -⟩ ht
    exact hjumps i (List.mem_of_getElem? hs) label ht

theorem exists_build_iff :
    (∃ m, build signature entries = .ok m) ↔ (declared entries).Nodup ∧
      ∀ i ∈ codeOf entries, ∀ label, i.target? = some label → label ∈ declared entries := by
  constructor
  · rintro ⟨m, hbuild⟩
    have h := declared_nodup_of_build hbuild
    obtain ⟨g, hg, -⟩ := build_eq_ok hbuild
    obtain ⟨-, -, hjumps⟩ := bodyFlow_spec (draft_body_nodup signature entries) hg
    exact ⟨h, (jumpsDeclared_draft signature h).1 hjumps⟩
  · rintro ⟨h, hjumps⟩
    obtain ⟨g, hflow⟩ := exists_bodyFlow ((jumpsDeclared_draft signature h).2 hjumps)
    refine ⟨renumber { draft signature entries with flow := g }, ?_⟩
    rw [build_of_nodup signature h, rebuildFlow, hflow]
    rfl

theorem fault_of_build {fault : Fault} (h : build signature entries = .error fault) :
    ∃ label, fault = .malformed (.labelDeclaredTwice label signature.name) ∧
        1 < (declared entries).count label ∨
      fault = .malformed (.unknownLabel label signature.name) ∧ label ∉ declared entries ∧
        ∃ i ∈ codeOf entries, i.target? = some label := by
  by_cases hnodup : (declared entries).Nodup
  · rw [build_of_nodup signature hnodup, rebuildFlow] at h
    cases hg : (draft signature entries).bodyFlow with
    | ok g =>
      rw [hg] at h
      cases h
    | error defect =>
      rw [hg] at h
      cases h
      obtain ⟨⟨n, i⟩, hi, label, ht, hnone, rfl⟩ := unknown_of_addFlows (fun _ => id) hg
      obtain ⟨slot, hs, -⟩ := mem_instructions_draft.1 hi
      refine ⟨label, .inr ⟨rfl, fun hd => ?_, i, List.mem_of_getElem? hs, ht⟩⟩
      obtain ⟨target, htarget⟩ := mem_declared.1 hd
      rw [(target?_draft signature hnodup).2 htarget] at hnone
      cases hnone
  · obtain ⟨label, hcount, herror⟩ := build_of_repeated signature hnodup
    rw [h] at herror
    exact ⟨label, .inl ⟨Except.error.inj herror, hcount⟩⟩

theorem build_yields_flow (signature : Signature) (entries : List Entry) :
    ((∃ m, build signature entries = .ok m) ↔ (declared entries).Nodup ∧
      ∀ i ∈ codeOf entries, ∀ label, i.target? = some label → label ∈ declared entries) ∧
    (∀ fault, build signature entries = .error fault →
      ∃ label, fault = .malformed (.labelDeclaredTwice label signature.name) ∧
          1 < (declared entries).count label ∨
        fault = .malformed (.unknownLabel label signature.name) ∧ label ∉ declared entries ∧
          ∃ i ∈ codeOf entries, i.target? = some label) ∧
    ∀ m, build signature entries = .ok m →
      m.body = (List.range (codeOf entries).length).map .ofSlot ∧
      (∀ slot, m.instruction? (.ofSlot slot) = (codeOf entries)[slot]?) ∧
      (∀ label target, m.target? label = some target ↔ Declares entries label target) ∧
      (∀ x y, m.flow.Edge x y ↔ Succeeds entries x y) ∧
      (∀ x y, x ∈ m.flow.predecessors y ↔ y ∈ m.flow.successors x) ∧
      ∀ n, (m.flow.successors n).Nodup ∧ (m.flow.predecessors n).Nodup := by
  refine ⟨exists_build_iff, fun fault => fault_of_build, fun m hbuild => ?_⟩
  have hnodup := declared_nodup_of_build hbuild
  obtain ⟨g, hg, rfl⟩ := build_eq_ok hbuild
  obtain ⟨hedge, hmirrored, -⟩ := bodyFlow_spec (draft_body_nodup signature entries) hg
  exact ⟨rfl, instruction?_draft signature entries, fun _ _ => target?_draft signature hnodup,
    fun x y => (hedge x y).trans (bodyEdge_draft signature hnodup x y),
    fun x y => (hmirrored.mirror x y).symm,
    fun n => ⟨hmirrored.successors_nodup n, hmirrored.predecessors_nodup n⟩⟩

def roundaboutEntries : List Entry :=
  [.label "here", .label "again",
    .instruction (.branch (.single (.literal 1 .bool)) "on"),
    .label "on",
    .instruction (.goto "on"),
    .instruction (.branch (.single (.literal 0 .bool)) "end"),
    .instruction (.goto "here"),
    .label "end"]

theorem build_yields_roundabout :
    (∃ m, build countdownSignature roundaboutEntries = .ok m ∧ m.target? "again" = some ⟨2⟩ ∧
      m.target? "end" = some .exit ∧ m.flow.Edge ⟨2⟩ ⟨3⟩ ∧ m.flow.Edge ⟨3⟩ ⟨3⟩ ∧
      m.flow.Edge ⟨4⟩ .exit ∧ ⟨5⟩ ∈ m.flow.predecessors ⟨2⟩ ∧ (m.flow.successors ⟨2⟩).Nodup) ∧
    ¬ ∃ m, build countdownSignature (roundaboutEntries ++ [.label "on"]) = .ok m := by
  obtain ⟨hok, -, hyields⟩ := build_yields_flow countdownSignature roundaboutEntries
  obtain ⟨m, hm⟩ := hok.2 ⟨by decide, by simp [roundaboutEntries, declared, Instruction.target?]⟩
  obtain ⟨-, -, hlabel, hedge, hmirror, honce⟩ := hyields m hm
  have hhere : Declares roundaboutEntries "here" ⟨2⟩ := ⟨0, rfl, by decide⟩
  have hon : Declares roundaboutEntries "on" ⟨3⟩ := ⟨3, rfl, by decide⟩
  have hend : Declares roundaboutEntries "end" .exit := ⟨7, rfl, by decide⟩
  refine ⟨⟨m, hm, (hlabel _ _).2 ⟨1, rfl, by decide⟩, (hlabel _ _).2 hend, ?_, ?_, ?_, ?_,
    (honce _).1⟩, fun h => ?_⟩
  · exact (hedge (.ofSlot 0) (place 4 1)).2 (.skip rfl)
  · exact (hedge (.ofSlot 1) _).2 (.goto rfl hon)
  · exact (hedge (.ofSlot 2) _).2 (.jump rfl hend)
  · exact (hmirror (.ofSlot 3) _).2 ((hedge _ _).2 (.goto rfl hhere))
  · obtain ⟨hrefused, -, -⟩ :=
      build_yields_flow countdownSignature (roundaboutEntries ++ [.label "on"])
    exact absurd (hrefused.1 h).1 (by decide)

end Method

end ClassLowering
