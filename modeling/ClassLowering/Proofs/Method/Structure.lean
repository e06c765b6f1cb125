import ClassLowering.Proofs.Method.BodyFlow
import ClassLowering.Proofs.Method.Placement

namespace ClassLowering

theorem lookup_eq_some_iff_mem {α : Type} {l : List (String × α)} (hl : (l.map Prod.fst).Nodup)
    {name : String} {value : α} : l.lookup name = some value ↔ (name, value) ∈ l := by
  induction l with
  | nil => simp
  | cons e rest ih =>
    obtain ⟨other, first⟩ := e
    obtain ⟨hnew, hrest⟩ := List.nodup_cons.1 hl
    rw [List.lookup_cons, List.mem_cons]
    by_cases h : name = other
    · subst h
      have habsent : (name, value) ∉ rest := fun hm => hnew (List.mem_map.2 ⟨_, hm, rfl⟩)
      simp [habsent, eq_comm]
    · have hb : (name == other) = false := by simpa using h
      simp [hb, h, ih hrest]

theorem eraseDups_nodup (l : List String) : l.eraseDups.Nodup := by
  induction h : l.length using Nat.strongRecOn generalizing l with
  | _ len ih =>
    cases l with
    | nil => exact List.nodup_nil
    | cons a rest =>
      subst h
      rw [List.eraseDups_cons, List.nodup_cons]
      refine ⟨fun ha => ?_, ih _ (Nat.lt_succ_of_le (List.length_filter_le _ _)) _ rfl⟩
      rw [List.mem_eraseDups, List.mem_filter] at ha
      simp at ha

namespace Method

structure WellFormed (m : Method) : Prop where
  body_nodup : m.body.Nodup
  mirrored : m.flow.Mirrored
  edge_source : ∀ a b, m.flow.Edge a b → a = .entry ∨ a ∈ m.body
  edge_target : ∀ a b, m.flow.Edge a b → b = .exit ∨ b ∈ m.body
  label_target : ∀ e ∈ m.labels, e.2 = .exit ∨ e.2 ∈ m.body
  jumps_declared : m.JumpsDeclared

variable {m : Method}

theorem not_sentinel_of_mem {n : Node} (hn : n ∈ m.body) : n.isSentinel = false := by
  obtain ⟨slot, -, rfl⟩ := m.body_code n hn
  exact Node.isSentinel_ofSlot slot

theorem ne_entry_of_mem {n : Node} (hn : n ∈ m.body) : n ≠ .entry := by
  rintro rfl
  exact absurd (not_sentinel_of_mem hn) (by decide)

theorem ne_exit_of_mem {n : Node} (hn : n ∈ m.body) : n ≠ .exit := by
  rintro rfl
  exact absurd (not_sentinel_of_mem hn) (by decide)

theorem index_lt_of_mem {n : Node} (hn : n ∈ m.body) : n.index < m.nodeCount := by
  obtain ⟨slot, hs, rfl⟩ := m.body_code n hn
  simp only [Node.ofSlot, nodeCount]
  omega

namespace WellFormed

theorem not_edge_exit (hm : m.WellFormed) (n : Node) : ¬ m.flow.Edge .exit n := by
  intro h
  rcases hm.edge_source _ _ h with h | h
  · cases h
  · exact ne_exit_of_mem h rfl

theorem heir_mem (hm : m.WellFormed) (n : Node) :
    m.heir n = .exit ∨ m.heir n ∈ m.body ∧ m.heir n ≠ n := by
  unfold heir
  cases h : (m.flow.successors n).find? (· ≠ n) with
  | none => exact .inl rfl
  | some s =>
    have hs : s ≠ n := by simpa using List.find?_some h
    rcases hm.edge_target n s (List.mem_of_find?_eq_some h) with he | he
    · exact .inl he
    · exact .inr ⟨he, hs⟩

end WellFormed

theorem remove_of_not_mem {n : Node} (hn : n ∉ m.body) : m.remove n = m := by
  rw [remove_eq, if_neg hn]

theorem remove_of_mem {n : Node} (hn : n ∈ m.body) : m.remove n = m.without n := by
  rw [remove_eq, if_pos hn]

theorem mem_body_remove {n x : Node} : x ∈ (m.remove n).body ↔ x ∈ m.body ∧ x ≠ n := by
  simp [body_remove]

theorem flow_remove {n : Node} (hn : n ∈ m.body) : (m.remove n).flow = m.flow.splice n := by
  rw [remove_of_mem hn, without]

theorem codeAt?_remove (n x : Node) : (m.remove n).codeAt? x = m.codeAt? x := by
  unfold codeAt?
  rw [code_remove]

theorem instruction?_remove {n x : Node} {i : Instruction} :
    (m.remove n).instruction? x = some i ↔ m.instruction? x = some i ∧ x ≠ n := by
  rw [instruction?_eq_some, instruction?_eq_some, mem_body_remove, codeAt?_remove]
  tauto

theorem edge_remove (hm : m.flow.Mirrored) {n : Node} (hn : n ∈ m.body) (x y : Node) :
    (m.remove n).flow.Edge x y ↔
      x ≠ n ∧ y ≠ n ∧ (m.flow.Edge x y ∨ m.flow.Edge x n ∧ m.flow.Edge n y) := by
  rw [flow_remove hn]
  exact FlowGraph.edge_splice hm n x y

theorem lookup_map_snd (f : Node → Node) (label : String) (l : List (String × Node)) :
    (l.map fun e => (e.1, f e.2)).lookup label = (l.lookup label).map f := by
  induction l with
  | nil => rfl
  | cons e rest ih =>
    obtain ⟨name, t⟩ := e
    simp only [List.map_cons, List.lookup_cons]
    cases label == name
    · exact ih
    · rfl

theorem target?_remove {n : Node} (hn : n ∈ m.body) (label : String) :
    (m.remove n).target? label =
      (m.target? label).map fun t => if t = n then m.heir n else t := by
  have hl : (m.remove n).labels =
      m.labels.map fun e => (e.1, if e.2 = n then m.heir n else e.2) := by
    rw [remove_of_mem hn, without]
  unfold target?
  rw [hl]
  exact lookup_map_snd (fun t => if t = n then m.heir n else t) label m.labels

theorem WellFormed.remove (hm : m.WellFormed) (n : Node) : (m.remove n).WellFormed := by
  by_cases hn : n ∈ m.body
  · refine ⟨?_, ?_, fun x y h => ?_, fun x y h => ?_, fun e he => ?_, ?_⟩
    · rw [body_remove]
      exact hm.body_nodup.filter _
    · rw [flow_remove hn]
      exact hm.mirrored.splice n
    · obtain ⟨hx, -, h⟩ := (edge_remove hm.mirrored hn x y).1 h
      have hs : x = .entry ∨ x ∈ m.body := by
        rcases h with h | ⟨h, -⟩ <;> exact hm.edge_source _ _ h
      exact hs.imp_right fun hb => mem_body_remove.2 ⟨hb, hx⟩
    · obtain ⟨-, hy, h⟩ := (edge_remove hm.mirrored hn x y).1 h
      have ht : y = .exit ∨ y ∈ m.body := by
        rcases h with h | ⟨-, h⟩ <;> exact hm.edge_target _ _ h
      exact ht.imp_right fun hb => mem_body_remove.2 ⟨hb, hy⟩
    · have hl : ∃ d ∈ m.labels, e = (d.1, if d.2 = n then m.heir n else d.2) := by
        rw [remove_of_mem hn, without, List.mem_map] at he
        obtain ⟨d, hd, rfl⟩ := he
        exact ⟨d, hd, rfl⟩
      obtain ⟨d, hd, rfl⟩ := hl
      rw [mem_body_remove]
      by_cases h : d.2 = n
      · simpa [h] using hm.heir_mem n
      · simpa [h] using hm.label_target d hd
    · intro x i label hx hi
      obtain ⟨hx, -⟩ := instruction?_remove.1 (mem_instructions.1 hx)
      obtain ⟨t, ht⟩ := hm.jumps_declared x i label (mem_instructions.2 hx) hi
      exact ⟨_, by rw [target?_remove hn, ht]; rfl⟩
  · rw [remove_of_not_mem hn]
    exact hm

theorem WellFormed.removeAll (hm : m.WellFormed) (nodes : List Node) :
    (nodes.foldl Method.remove m).WellFormed := by
  induction nodes generalizing m with
  | nil => exact hm
  | cons n rest ih => exact ih (hm.remove n)

theorem WellFormed.retable (hm : m.WellFormed) (table : VariableTable) :
    ({ m with table } : Method).WellFormed :=
  ⟨hm.body_nodup, hm.mirrored, hm.edge_source, hm.edge_target, hm.label_target,
    hm.jumps_declared⟩

theorem WellFormed.renumber (hm : m.WellFormed) : m.renumber.WellFormed := hm.retable _

def draft (signature : Signature) (entries : List Entry) : Method :=
  fromParts signature (codeOf entries).toArray
    ((placeLabels (codeOf entries).length 0 entries).foldr enterLabel [])

theorem build_eq (signature : Signature) (entries : List Entry) :
    build signature entries =
      match firstRepeated? [] ((placeLabels (codeOf entries).length 0 entries).map Prod.fst) with
      | some label => .error (.malformed (.labelDeclaredTwice label signature.name))
      | none => ((draft signature entries).rebuildFlow.map renumber).mapError .malformed := by
  obtain ⟨hcode, hlabels⟩ := MethodBuilder.built entries
  rw [build]
  dsimp only
  rw [hcode, hlabels]
  rfl

theorem build_eq_ok {signature : Signature} {entries : List Entry}
    (h : build signature entries = .ok m) :
    ∃ g, (draft signature entries).bodyFlow = .ok g ∧
      m = renumber { draft signature entries with flow := g } := by
  rw [build_eq] at h
  split at h
  · cases h
  · unfold rebuildFlow at h
    cases hf : (draft signature entries).bodyFlow with
    | error defect => rw [hf] at h; cases h
    | ok g =>
      rw [hf] at h
      exact ⟨g, rfl, (Except.ok.inj h).symm⟩

theorem enterLabel_perm (entry : String × Node) (l : List (String × Node)) :
    (enterLabel entry l).Perm (entry :: l) := by
  induction l with
  | nil => exact .refl _
  | cons other rest ih =>
    unfold enterLabel
    split
    · exact .refl _
    · exact (ih.cons other).trans (.swap entry other rest)

theorem foldr_enterLabel_perm (l : List (String × Node)) : (l.foldr enterLabel []).Perm l := by
  induction l with
  | nil => exact .refl _
  | cons entry rest ih => exact (enterLabel_perm entry _).trans (ih.cons entry)

theorem mem_foldr_enterLabel {e : String × Node} {l : List (String × Node)} :
    e ∈ l.foldr enterLabel [] ↔ e ∈ l :=
  (foldr_enterLabel_perm l).mem_iff

theorem draft_body_nodup (signature : Signature) (entries : List Entry) :
    (draft signature entries).body.Nodup :=
  List.nodup_range.map fun a b h => by simpa [Node.ofSlot] using h

theorem mem_draft_body {signature : Signature} {entries : List Entry} {n : Node} :
    n ∈ (draft signature entries).body ↔ ∃ k < (codeOf entries).length, n = .ofSlot k := by
  simp [draft, fromParts, eq_comm]

theorem label_target_draft {signature : Signature} {entries : List Entry} {e : String × Node}
    (h : e ∈ (draft signature entries).labels) :
    e.2 = .exit ∨ e.2 ∈ (draft signature entries).body :=
  (mem_placeLabels (mem_foldr_enterLabel.1 h)).imp_right mem_draft_body.2

theorem start_mem (m : Method) : m.start = .exit ∨ m.start ∈ m.body := by
  unfold start
  cases m.body with
  | nil => exact .inl rfl
  | cons n rest => exact .inr (by simp)

theorem mem_labels {label : String} {t : Node} (h : m.target? label = some t) :
    (label, t) ∈ m.labels := by
  obtain ⟨before, after, he, -⟩ := List.lookup_eq_some_iff.1 h
  rw [he]
  exact List.mem_append_right _ List.mem_cons_self

theorem target?_mem (hl : ∀ e ∈ m.labels, e.2 = .exit ∨ e.2 ∈ m.body) {label : String} {t : Node}
    (h : m.target? label = some t) : t = .exit ∨ t ∈ m.body := hl _ (mem_labels h)

theorem BodyEdge.target (hl : ∀ e ∈ m.labels, e.2 = .exit ∨ e.2 ∈ m.body) {x y : Node}
    (h : m.BodyEdge x y) : y = .exit ∨ y ∈ m.body := by
  have hnext := nextIn_mem x m.body
  rcases h with ⟨-, rfl⟩ | ⟨i, -, h⟩
  · exact start_mem m
  · cases i with
    | goto label => exact target?_mem hl h
    | branch condition label =>
      rcases h with rfl | h
      · exact hnext
      · exact target?_mem hl h
    | ret value => exact .inl h
    | _ =>
      obtain rfl : y = m.following x := h
      exact hnext

theorem BodyEdge.source {x y : Node} (h : m.BodyEdge x y) : x = .entry ∨ x ∈ m.body := by
  rcases h with ⟨rfl, -⟩ | ⟨i, h, -⟩
  · exact .inl rfl
  · exact .inr (instruction?_eq_some.1 (mem_instructions.1 h)).1

theorem build_spec {signature : Signature} {entries : List Entry}
    (h : build signature entries = .ok m) :
    m.WellFormed ∧ ∀ x y, m.flow.Edge x y ↔ m.BodyEdge x y := by
  obtain ⟨g, hg, rfl⟩ := build_eq_ok h
  obtain ⟨he, hm, ht⟩ := bodyFlow_spec (draft_body_nodup signature entries) hg
  have hl : ∀ e ∈ (draft signature entries).labels, e.2 = .exit ∨ e.2 ∈ (draft signature entries).body :=
    fun _ => label_target_draft
  exact ⟨WellFormed.renumber ⟨draft_body_nodup signature entries, hm,
    fun x y h => ((he x y).1 h).source, fun x y h => ((he x y).1 h).target hl, hl, ht⟩, he⟩

def countdownEntries : List Entry :=
  [.label "again",
    .instruction (.assign (.var "x" .int) (.binary .sub (.var "n" .int) (.literal 1 .int))),
    .instruction (.assign (.var "y" .int) (.binary .mul (.var "x" .int) (.literal 2 .int))),
    .instruction (.assign (.var "n" .int) (.single (.var "y" .int))),
    .instruction (.branch (.binary .lt (.literal 0 .int) (.var "n" .int)) "again"),
    .instruction (.ret (some (.var "y" .int)))]

def countdownSignature : Signature :=
  { name := "count", parameters := [⟨"n", .int⟩], result := .int }

def countdown : Method :=
  { countdownSignature with
    code := (codeOf countdownEntries).toArray
    body := [⟨2⟩, ⟨3⟩, ⟨4⟩, ⟨5⟩, ⟨6⟩]
    labels := [("again", ⟨2⟩)]
    table := { entries := [("this", ⟨.self, some 0⟩), ("n", ⟨.int, some 1⟩), ("x", ⟨.int, some 2⟩),
      ("y", ⟨.int, some 3⟩)] }
    flow := ⟨#[⟨[⟨2⟩], []⟩, ⟨[], [⟨6⟩]⟩, ⟨[⟨3⟩], [⟨0⟩, ⟨5⟩]⟩, ⟨[⟨4⟩], [⟨2⟩]⟩, ⟨[⟨5⟩], [⟨3⟩]⟩,
      ⟨[⟨6⟩, ⟨2⟩], [⟨4⟩]⟩, ⟨[⟨1⟩], [⟨5⟩]⟩]⟩ }

theorem build_countdown : build countdownSignature countdownEntries = .ok countdown := by
  decide +kernel

end Method

end ClassLowering
