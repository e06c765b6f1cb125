import ClassLowering.Proofs.Code.Freshness
import ClassLowering.Proofs.Code.Lookups
import ClassLowering.Proofs.Code.StackLimit
import ClassLowering.Proofs.Method.Thinning

namespace ClassLowering

def Line.defined? : Line → Option String
  | .label name => some name
  | _ => none

def Line.target? : Line → Option String
  | .jump _ target => some target
  | _ => none

def labelsOf (lines : List Line) : List String := lines.filterMap Line.defined?

def targetsOf (lines : List Line) : List String := lines.filterMap Line.target?

theorem labelsOf_append (l l' : List Line) : labelsOf (l ++ l') = labelsOf l ++ labelsOf l' :=
  List.filterMap_append

theorem targetsOf_append (l l' : List Line) : targetsOf (l ++ l') = targetsOf l ++ targetsOf l' :=
  List.filterMap_append

theorem mem_labelsOf {lines : List Line} {name : String} :
    name ∈ labelsOf lines ↔ Line.label name ∈ lines := by
  constructor
  · intro h
    obtain ⟨l, hl, hname⟩ := List.mem_filterMap.1 h
    cases l with
    | label other =>
      cases hname
      exact hl
    | _ => cases hname
  · exact fun h => List.mem_filterMap.2 ⟨_, h, rfl⟩

theorem mem_targetsOf {lines : List Line} {target : String} {j : Jump}
    (h : Line.jump j target ∈ lines) : target ∈ targetsOf lines :=
  List.mem_filterMap.2 ⟨_, h, rfl⟩

structure Labelled (own targets : List String) (supply : LabelSupply) {α : Type} (w : Written α)
    (generated : List String) : Prop where
  used_eq : w.supply.used = generated ++ supply.used
  used_nodup : supply.used.Nodup → w.supply.used.Nodup
  count_le : ∀ name, (labelsOf w.lines).count name ≤ (generated ++ own).count name
  count_eq : ∀ a, w.outcome = .ok a →
    ∀ name, (labelsOf w.lines).count name = (generated ++ own).count name
  targets_subset : targetsOf w.lines ⊆ generated ++ targets
  fault_ne : ∀ name, w.outcome ≠ .error (.malformed (.labelDefinedTwice name))

namespace Lower

def Labels {α : Type} (own targets : List String) (x : Lower α) : Prop :=
  ∀ supply, ∃ generated, Labelled own targets supply (x supply) generated

namespace Labels

variable {α β : Type} {own own' targets : List String} {x : Lower α} {f : α → Lower β}

theorem pure (a : α) : Labels [] targets (Pure.pure a : Lower α) := fun _ =>
  ⟨[], rfl, id, fun _ => Nat.le_refl _, fun _ _ _ => rfl, List.nil_subset _, nofun⟩

theorem fail {fault : Fault} (h : ∀ name, fault ≠ .malformed (.labelDefinedTwice name)) :
    Labels own targets (Lower.fail fault : Lower α) := fun _ =>
  ⟨[], rfl, id, fun _ => Nat.zero_le _, nofun, List.nil_subset _,
    fun name he => h name (Except.error.inj he)⟩

theorem unsupported (cause : Unsupported) :
    Labels own targets (Lower.fail (.unsupported cause) : Lower α) := .fail nofun

theorem lift {value : Except Fault α}
    (h : ∀ name, value ≠ .error (.malformed (.labelDefinedTwice name))) :
    Labels [] targets (liftM value : Lower α) := fun _ =>
  ⟨[], rfl, id, fun _ => Nat.le_refl _, fun _ _ _ => rfl, List.nil_subset _, h⟩

theorem looksUp {value : Except Fault α} (h : LooksUp value) :
    Labels [] targets (liftM value : Lower α) := by
  refine .lift fun name he => ?_
  obtain ⟨cause, hcause⟩ := h _ he
  cases hcause

theorem op (o : Op) : Labels [] targets (Lower.op o) := fun _ =>
  ⟨[], rfl, id, fun _ => Nat.le_refl _, fun _ _ _ => rfl, List.nil_subset _, nofun⟩

theorem exit (e : Exit) : Labels [] targets (Lower.line (.exit e)) := fun _ =>
  ⟨[], rfl, id, fun _ => Nat.le_refl _, fun _ _ _ => rfl, List.nil_subset _, nofun⟩

theorem label (name : String) : Labels [name] targets (Lower.line (.label name)) := fun _ =>
  ⟨[], rfl, id, fun _ => Nat.le_refl _, fun _ _ _ => rfl, List.nil_subset _, nofun⟩

theorem jump (j : Jump) {target : String} (h : target ∈ targets) :
    Labels [] targets (Lower.jump j target) := fun _ =>
  ⟨[], rfl, id, fun _ => Nat.le_refl _, fun _ _ _ => rfl, List.cons_subset.2 ⟨h, List.nil_subset _⟩, nofun⟩

theorem perm (h : Labels own targets x) (hp : own.Perm own') : Labels own' targets x := by
  intro supply
  obtain ⟨generated, h⟩ := h supply
  have hcount (name : String) : (generated ++ own).count name = (generated ++ own').count name :=
    (hp.append_left generated).count_eq name
  exact ⟨generated, h.used_eq, h.used_nodup, fun name => hcount name ▸ h.count_le name,
    fun a ha name => hcount name ▸ h.count_eq a ha name, h.targets_subset, h.fault_ne⟩

theorem bind (hx : Labels own targets x) (hf : ∀ a, Labels own' targets (f a)) :
    Labels (own ++ own') targets (x >>= f) := by
  intro supply
  obtain ⟨g, hx⟩ := hx supply
  change ∃ generated, Labelled _ targets supply (Lower.bind x f supply) generated
  unfold Lower.bind
  rcases hxs : x supply with ⟨lines, fault | a, rest⟩
  · rw [hxs] at hx
    refine ⟨g, hx.used_eq, hx.used_nodup, fun name => ?_, nofun, hx.targets_subset,
      fun name he => hx.fault_ne name (congrArg _ (Except.error.inj he))⟩
    have hle := hx.count_le name
    simp only [List.count_append] at hle ⊢
    omega
  · rw [hxs] at hx
    obtain ⟨g', hf⟩ := hf a rest
    have hlines := hx.count_eq a rfl
    refine ⟨g' ++ g, ?_, fun h => hf.used_nodup (hx.used_nodup h), fun name => ?_,
      fun b hb name => ?_, ?_, hf.fault_ne⟩
    · rw [hf.used_eq, hx.used_eq, List.append_assoc]
    · have hle := hf.count_le name
      have heq := hlines name
      simp only [labelsOf_append, List.count_append] at hle heq ⊢
      omega
    · have heq := hlines name
      have heq' := hf.count_eq b hb name
      simp only [labelsOf_append, List.count_append] at heq heq' ⊢
      omega
    · intro target ht
      rw [targetsOf_append] at ht
      rw [List.append_assoc]
      rcases List.mem_append.1 ht with ht | ht
      · exact List.mem_append_right _ (hx.targets_subset ht)
      · rcases List.mem_append.1 (hf.targets_subset ht) with ht | ht
        · exact List.mem_append_left _ ht
        · exact List.mem_append_right _ (List.mem_append_right _ ht)

theorem after (hx : Labels [] targets x) (hf : ∀ a, Labels own targets (f a)) :
    Labels own targets (x >>= f) := hx.bind hf

theorem fresh {stem : String} {f : String → Lower β}
    (hf : ∀ name, Labels (name :: own) (name :: targets) (f name)) :
    Labels own targets (Lower.fresh stem >>= f) := by
  intro supply
  change ∃ generated, Labelled own targets supply
    (f (supply.fresh stem).1 (supply.fresh stem).2) generated
  have hnew := supply.fresh_not_mem stem
  have hused : (supply.fresh stem).2.used = (supply.fresh stem).1 :: supply.used := rfl
  obtain ⟨g, h⟩ := hf (supply.fresh stem).1 (supply.fresh stem).2
  generalize (supply.fresh stem).1 = name at h hnew hused
  generalize (supply.fresh stem).2 = supply' at h hused
  have hsplit (l : List String) : g ++ [name] ++ l = g ++ name :: l := List.append_assoc _ _ _
  refine ⟨g ++ [name], ?_, fun hn => h.used_nodup ?_, ?_, ?_, ?_, h.fault_ne⟩
  · rw [h.used_eq, hused, hsplit]
  · rw [hused]
    exact List.nodup_cons.2 ⟨hnew, hn⟩
  · rw [hsplit]
    exact h.count_le
  · rw [hsplit]
    exact h.count_eq
  · rw [hsplit]
    exact h.targets_subset

end Labels

end Lower

namespace Scope

open Lower (Labels)

variable (s : Scope) {targets : List String}

theorem labels_register (name : String) :
    Labels [] targets (liftM (s.register name) : Lower Nat) := by
  refine .lift fun label he => ?_
  unfold register at he
  split at he
  · cases he
  · cases he

theorem labels_load (x : Operand) : Labels [] targets (s.load x) := by
  induction x with
  | literal value ty => exact .op _
  | var name ty => exact .after (s.labels_register name) fun r => .op _
  | element array index ty ih =>
    refine .after (s.labels_register array) fun r => .after (.op _) fun _ => ?_
    exact .after ih fun _ => .op _
  | self =>
    unfold load
    split
    · exact .unsupported _
    · exact .op _

theorem labels_loadAll (l : List Operand) : Labels [] targets (s.loadAll l) := by
  induction l with
  | nil => exact .pure ()
  | cons x rest ih => exact .after (s.labels_load x) fun _ => ih

theorem labels_loadArguments (l : List Operand) : Labels [] targets (s.loadArguments l) := by
  refine .after (s.labels_loadAll l) fun _ => ?_
  split
  · exact .fail nofun
  · exact .pure _

theorem labels_invoke (receiver : Operand) (arguments : List Operand)
    {owner descriptor : Except Fault String} (howner : LooksUp owner)
    (hdescriptor : LooksUp descriptor) (o : String → String → Nat → Op) :
    Labels [] targets (do
      s.load receiver
      let count ← s.loadArguments arguments
      let owner ← owner
      let descriptor ← descriptor
      .op (o owner descriptor count)) := by
  refine .after (s.labels_load receiver) fun _ => .after (s.labels_loadArguments _) fun count => ?_
  exact .after (.looksUp howner) fun owner => .after (.looksUp hdescriptor) fun descriptor => .op _

theorem labels_newArray (element : Ty) (length : Operand) :
    Labels [] targets (s.newArray element length) := by
  refine .after (s.labels_load length) fun _ => ?_
  split
  · exact .op _
  · exact .op _
  · exact .after (.looksUp (s.header.looksUp_memberOwner _)) fun className => .op _

theorem labels_call (c : Call) : Labels [] targets (s.call c) := by
  unfold call
  dsimp only
  split
  · split
    · exact s.labels_newArray _ _
    · exact .fail nofun
    · refine .after (.looksUp (s.header.looksUp_memberOwner _)) fun className => ?_
      exact .after (.op _) fun _ => .op _
    · exact .unsupported _
  · exact .after (s.labels_load _) fun _ => .op _
  · refine .after (s.labels_loadArguments _) fun count => ?_
    exact .after (.looksUp (s.looksUp_callDescriptor c)) fun descriptor => .op _
  · exact s.labels_invoke _ _ (s.header.looksUp_memberOwner _) (s.looksUp_callDescriptor c)
      fun owner descriptor count => .invoke .virtual owner _ descriptor (count + 1) _
  · exact s.labels_invoke _ _ (s.looksUp_specialOwner _) (s.looksUp_callDescriptor c)
      fun owner descriptor count => .invoke .special owner _ descriptor (count + 1) _

theorem labels_compare (op : Comparison) (left right : Operand) {label : String}
    (h : label ∈ targets) : Labels [] targets (s.compare op left right label) := by
  unfold compare
  split
  · exact .after (s.labels_load left) fun _ => .jump _ h
  · split
    · exact .after (s.labels_load right) fun _ => .jump _ h
    · exact .after (s.labels_load left) fun _ => .after (s.labels_load right) fun _ => .jump _ h

theorem labels_comparison (op : Comparison) (left right : Operand) :
    Labels [] targets (s.comparison op left right) := by
  refine .fresh fun holds => .fresh fun done => ?_
  refine (?_ : Labels [holds, done] _ _).perm (.swap done holds [])
  refine .after (s.labels_compare op left right (by simp)) fun _ => .after (.op _) fun _ => ?_
  refine .after (.jump _ (by simp)) fun _ => .bind (.label holds) fun _ => ?_
  exact .after (.op _) fun _ => .label done

theorem labels_conjunction (left right : Operand) :
    Labels [] targets (s.conjunction left right) := by
  refine .fresh fun fails => .fresh fun done => ?_
  refine (?_ : Labels [fails, done] _ _).perm (.swap done fails [])
  refine .after (s.labels_load left) fun _ => .after (.jump _ (by simp)) fun _ => ?_
  refine .after (s.labels_load right) fun _ => .after (.jump _ (by simp)) fun _ => ?_
  refine .after (.op _) fun _ => .after (.jump _ (by simp)) fun _ => .bind (.label fails) fun _ => ?_
  exact .after (.op _) fun _ => .label done

theorem labels_arithmetic (op : Arithmetic) (left right : Operand) :
    Labels [] targets (s.arithmetic op left right) :=
  .after (s.labels_load left) fun _ => .after (s.labels_load right) fun _ => .op _

theorem labels_expression (i : Instruction) : Labels [] targets (s.expression i) := by
  cases i with
  | single x => exact s.labels_load x
  | binary op left right =>
    cases op with
    | and => exact s.labels_conjunction left right
    | lt => exact s.labels_comparison .lt left right
    | ge => exact s.labels_comparison .ge left right
    | _ => exact s.labels_arithmetic _ left right
  | not x => exact .after (.op _) fun _ => .after (s.labels_load x) fun _ => .op _
  | call c =>
    unfold expression
    dsimp only
    split
    · exact .unsupported _
    · exact s.labels_call c
  | getField object field =>
    refine .after (s.labels_load object) fun _ => ?_
    exact .after (.looksUp (s.looksUp_fieldTarget object field)) fun target => .op _
  | _ => exact .unsupported _

theorem labels_assign (destination : Operand) (value : Instruction) :
    Labels [] targets (s.assign destination value) := by
  unfold assign
  split
  · exact .after (s.labels_register _) fun r => .op _
  · split
    · refine .after (s.labels_expression value) fun _ => ?_
      exact .after (s.labels_register _) fun r => .op _
    · refine .after (s.labels_register _) fun r => .after (.op _) fun _ => ?_
      exact .after (s.labels_load _) fun _ => .after (s.labels_expression value) fun _ => .op _
    · exact .unsupported _
    · exact .unsupported _

theorem labels_branch (condition : Instruction) {label : String} (h : label ∈ targets) :
    Labels [] targets (s.branch condition label) := by
  have hvalue : Labels [] targets (do s.expression condition; .jump .neZero label) :=
    .after (s.labels_expression condition) fun _ => .jump _ h
  unfold branch
  dsimp only
  split
  · split
    · exact s.labels_compare _ _ _ h
    · exact hvalue
  · exact hvalue

theorem labels_statement {i : Instruction} (h : ∀ label, i.target? = some label → label ∈ targets) :
    Labels [] targets (s.statement i) := by
  cases i with
  | assign destination value => exact s.labels_assign destination value
  | call c =>
    refine .after (s.labels_call c) fun _ => ?_
    split
    · exact .op _
    · exact .pure ()
  | ret value =>
    cases value with
    | none => exact .exit _
    | some x => exact .after (s.labels_load x) fun _ => .exit _
  | putField object field value =>
    refine .after (s.labels_load object) fun _ => .after (s.labels_load value) fun _ => ?_
    exact .after (.looksUp (s.looksUp_fieldTarget object field)) fun target => .op _
  | goto label => exact .jump _ (h label rfl)
  | branch condition label => exact s.labels_branch condition (h label rfl)
  | _ => exact .after (s.labels_expression _) fun _ => .op _

theorem labels_labels (names : List String) : Labels names targets (labels names) := by
  induction names with
  | nil => exact .pure ()
  | cons name rest ih => exact .bind (.label name) fun _ => ih

theorem labels_statements {l : List (Node × Instruction)}
    (h : ∀ e ∈ l, ∀ label, e.2.target? = some label → label ∈ targets) :
    Labels ((l.map Prod.fst).flatMap s.method.labelsAt) targets (s.statements l) := by
  induction l with
  | nil => exact .pure ()
  | cons e rest ih =>
    obtain ⟨hfirst, hrest⟩ := List.forall_mem_cons.1 h
    refine .bind (labels_labels _) fun _ => .after (s.labels_statement hfirst) fun _ => ih hrest

end Scope

namespace Body

variable {b b' body : Body} {lines : List Line} {name : String}

theorem defined_of_add {l : Line} (h : b.add l = (b', .ok ())) :
    b'.defined = labelsOf [l] ++ b.defined := by
  have hop {o : Op} (h : b.addOp o = (b', .ok ())) : b'.defined = b.defined := by
    have hk := (b.keeps_addOp o).defined_eq
    rw [h] at hk
    rw [hk]
    cases o.register? <;> rfl
  unfold add at h
  split at h
  · split at h
    · exact hop h
    · cases h
  · exact hop h
  · next j target =>
    have hk := (b.keeps_addJump j target).defined_eq
    rw [h] at hk
    exact hk
  · next e =>
    have hk := (b.keeps_addExit e).defined_eq
    rw [h] at hk
    exact hk
  · exact (keeps_defineLabel h).2.defined_eq

theorem adjust_ne_twice (pops pushes : Nat) :
    (b.adjust pops pushes).2 ≠ .error (.labelDefinedTwice name) := by
  obtain ⟨-, -, he⟩ | ⟨-, -, he⟩ | ⟨-, -, he⟩ := b.adjust_cases pops pushes <;> rw [he] <;> nofun

theorem mem_defined_of_add {l : Line} (h : (b.add l).2 = .error (.labelDefinedTwice name)) :
    l = .label name ∧ name ∈ b.defined := by
  unfold add at h
  split at h
  · split at h
    · exact absurd h (adjust_ne_twice _ _)
    · cases h
  · exact absurd h (adjust_ne_twice _ _)
  · next j target =>
    unfold addJump at h
    split at h
    · split at h
      · cases h
      · next hfailed =>
        unfold expectDepth at h
        split at h
        · cases h
        · split at h
          · split at h <;> cases h
          · cases h
    · exact absurd h (adjust_ne_twice _ _)
  · unfold addExit at h
    split at h
    · cases h
    · exact absurd h (adjust_ne_twice _ _)
  · next other =>
    unfold defineLabel at h
    split at h
    · next hmem =>
      cases h
      exact ⟨rfl, hmem⟩
    · dsimp only at h
      split at h
      · cases h
      · unfold enterLabel at h
        split at h
        · split at h <;> cases h
        · cases h

theorem addAll_ne_twice (hnodup : (labelsOf lines).Nodup)
    (hnew : ∀ name ∈ labelsOf lines, name ∉ b.defined) :
    b.addAll lines ≠ .error (.labelDefinedTwice name) := by
  induction lines generalizing b with
  | nil => nofun
  | cons l rest ih =>
    change (labelsOf ([l] ++ rest)).Nodup at hnodup
    change ∀ name ∈ labelsOf ([l] ++ rest), _ at hnew
    rw [labelsOf_append] at hnodup hnew
    obtain ⟨-, hrest, hdisjoint⟩ := List.nodup_append.1 hnodup
    rw [addAll]
    split
    · next next hadd =>
      refine ih hrest fun other hother => ?_
      rw [defined_of_add hadd, List.mem_append, not_or]
      exact ⟨fun hl => hdisjoint other hl other hother rfl, hnew other (List.mem_append_right _ hother)⟩
    · next defect hadd =>
      intro he
      cases he
      obtain ⟨rfl, hmem⟩ := mem_defined_of_add (congrArg Prod.snd hadd)
      exact hnew name (List.mem_append_left _ List.mem_cons_self) hmem

end Body

namespace Method

variable {m : Method}

theorem flatMap_filter_perm {nodes : List Node} (hn : nodes.Nodup) {l : List (String × Node)}
    (hl : ∀ e ∈ l, e.2 ∈ nodes) :
    (nodes.flatMap fun n => (l.filter (·.2 = n)).map Prod.fst).Perm (l.map Prod.fst) := by
  induction nodes generalizing l with
  | nil =>
    obtain rfl : l = [] := List.eq_nil_iff_forall_not_mem.2 fun e he => nomatch hl e he
    exact .refl _
  | cons n rest ih =>
    obtain ⟨hnew, hrest⟩ := List.nodup_cons.1 hn
    -- The labels of the other nodes are those of the rest of the list.
    let others := l.filter fun e => ¬ e.2 = n
    have hothers : ∀ e ∈ others, e.2 ∈ rest := by
      intro e he
      obtain ⟨hmem, hne⟩ := List.mem_filter.1 he
      exact (List.mem_cons.1 (hl e hmem)).resolve_left (of_decide_eq_true hne)
    have hsame : ∀ k ∈ rest, (l.filter (·.2 = k)).map Prod.fst = (others.filter (·.2 = k)).map Prod.fst := by
      intro k hk
      rw [List.filter_filter]
      congr 1
      refine List.filter_congr fun e _ => ?_
      by_cases he : e.2 = k
      · have hkn : k ≠ n := fun h => hnew (h ▸ hk)
        simp [he, hkn]
      · simp [he]
    rw [List.flatMap_cons, List.flatMap_congr hsame]
    refine ((ih hrest hothers).append_left _).trans ?_
    have hsplit := (List.filter_append_perm (fun e => decide (e.2 = n)) l).map Prod.fst
    simpa [others] using hsplit

theorem labelsAt_perm (hm : m.WellFormed) :
    ((m.instructions.map Prod.fst).flatMap m.labelsAt ++ m.labelsAt .exit).Perm
      (m.labels.map Prod.fst) := by
  have hnodup : (m.body ++ [Node.exit]).Nodup :=
    List.nodup_append.2 ⟨hm.body_nodup, List.nodup_singleton _, fun n hn k hk =>
      List.mem_singleton.1 hk ▸ Method.ne_exit_of_mem hn⟩
  have h := flatMap_filter_perm hnodup fun e he => by
    rcases hm.label_target e he with hexit | hbody
    · exact List.mem_append_right _ (List.mem_singleton.2 hexit)
    · exact List.mem_append_left _ hbody
  rw [List.flatMap_append, List.flatMap_singleton] at h
  rw [map_fst_instructions m]
  exact h

theorem names_labels_remove (m : Method) (n : Node) :
    (m.remove n).labels.map Prod.fst = m.labels.map Prod.fst := by
  rw [remove_eq]
  split
  · rw [without, List.map_map]
    rfl
  · rfl

theorem names_labels_removeAll (m : Method) (nodes : List Node) :
    (nodes.foldl Method.remove m).labels.map Prod.fst = m.labels.map Prod.fst := by
  induction nodes generalizing m with
  | nil => rfl
  | cons n rest ih => rw [List.foldl_cons, ih, names_labels_remove]

end Method

namespace Scope

theorem labels_body (s : Scope) (hm : s.method.WellFormed) :
    Lower.Labels (s.method.labels.map Prod.fst) (s.method.labels.map Prod.fst) s.body := by
  refine .perm (.bind (s.labels_statements fun e he label hlabel => ?_) fun _ => labels_labels _)
    (Method.labelsAt_perm hm)
  obtain ⟨n, hn⟩ := hm.jumps_declared e.1 e.2 label he hlabel
  exact List.mem_map.2 ⟨_, Method.mem_labels hn, rfl⟩

theorem labels_lower {s : Scope} (hm : s.method.WellFormed)
    (hnodup : (s.method.labels.map Prod.fst).Nodup) :
    ∃ generated, Labelled (s.method.labels.map Prod.fst) (s.method.labels.map Prod.fst)
        { used := s.method.labels.map Prod.fst } s.lower generated ∧
      (generated ++ s.method.labels.map Prod.fst).Nodup := by
  obtain ⟨generated, h⟩ := s.labels_body hm { used := s.method.labels.map Prod.fst }
  have hused := h.used_nodup hnodup
  rw [h.used_eq] at hused
  exact ⟨generated, h, hused⟩

theorem assemble_ne_twice {s : Scope} {own targets generated : List String} {supply : LabelSupply}
    (h : Labelled own targets supply s.lower generated) (hnodup : (generated ++ own).Nodup)
    (label : String) : s.assemble ≠ .error (.malformed (.labelDefinedTwice label)) := by
  have hlines : (labelsOf s.lower.lines).Nodup := by
    rw [List.nodup_iff_count_le_one] at hnodup ⊢
    exact fun name => (h.count_le name).trans (hnodup name)
  have hempty : s.emptyBody.defined = [] := by
    obtain ⟨registers, he⟩ := s.exists_emptyBody
    rw [he]
  intro he
  unfold assemble at he
  dsimp only at he
  split at he
  · next defect hadd =>
    cases he
    exact Body.addAll_ne_twice hlines (fun name _ => hempty ▸ List.not_mem_nil) hadd
  · cases ho : s.lower.outcome with
    | error fault =>
      rw [ho] at he
      exact h.fault_ne label (ho.trans (congrArg _ (Except.error.inj he)))
    | ok u =>
      rw [ho] at he
      cases he

theorem labels_closed {signature : Signature} {entries : List Entry} {m : Method}
    (hbuild : Method.build signature entries = .ok m) (nodes : List Node) (header : ClassHeader)
    (table : VariableTable) :
    let s : Scope := ⟨header, { nodes.foldl Method.remove m with table }⟩
    let own := m.labels.map Prod.fst
    ∃ generated, s.lower.supply.used = generated ++ own ∧ (generated ++ own).Nodup ∧
      (∀ label, s.assemble ≠ .error (.malformed (.labelDefinedTwice label))) ∧
      ∀ body, s.assemble = .ok body →
        (labelsOf body.lines.toList).Perm (generated ++ own) ∧
        ∀ j target, Line.jump j target ∈ body.lines.toList →
          Line.label target ∈ body.lines.toList := by
  intro s own
  have hm : s.method.WellFormed := ((Method.build_spec hbuild).1.removeAll nodes).retable table
  have hown : s.method.labels.map Prod.fst = own := m.names_labels_removeAll nodes
  have hnodup : own.Nodup := Method.labels_nodup_of_build hbuild
  obtain ⟨generated, h, hused⟩ := labels_lower hm (hown ▸ hnodup)
  rw [hown] at h hused
  refine ⟨generated, h.used_eq, hused, assemble_ne_twice h hused, fun body hbody => ?_⟩
  rw [toList_lines_of_assemble hbody]
  have hperm : (labelsOf s.lower.lines).Perm (generated ++ own) :=
    List.perm_iff_count.2 (h.count_eq () (outcome_of_assemble hbody))
  refine ⟨hperm, fun j target hj => ?_⟩
  exact mem_labelsOf.1 (hperm.mem_iff.2 (h.targets_subset (mem_targetsOf hj)))

end Scope

namespace Method

def imitationEntries : List Entry :=
  [.label "CMP_TRUE_0",
    .instruction (.assign (.var "x" .bool) (.binary .lt (.literal 1 .int) (.literal 2 .int))),
    .label "CMP_END_2",
    .instruction (.assign (.var "x" .bool) (.binary .and (.var "x" .bool) (.var "x" .bool))),
    .label "AND_END_4",
    .instruction (.goto "CMP_TRUE_0"),
    .label "done"]

def imitationSignature : Signature := { name := "imitate", isStatic := true }

def imitation : Method :=
  { imitationSignature with
    code := (codeOf imitationEntries).toArray
    body := [⟨2⟩, ⟨3⟩, ⟨4⟩]
    labels := [("AND_END_4", ⟨4⟩), ("CMP_END_2", ⟨3⟩), ("CMP_TRUE_0", ⟨2⟩), ("done", ⟨1⟩)]
    table := { entries := [("x", ⟨.bool, some 0⟩)] }
    flow := ⟨#[⟨[⟨2⟩], []⟩, ⟨[], []⟩, ⟨[⟨3⟩], [⟨0⟩, ⟨4⟩]⟩, ⟨[⟨4⟩], [⟨2⟩]⟩, ⟨[⟨2⟩], [⟨3⟩]⟩]⟩ }

theorem build_imitation : build imitationSignature imitationEntries = .ok imitation := by
  decide +kernel

end Method

def Method.imitationScope : Scope :=
  ⟨{ name := "C" }, { [⟨4⟩].foldl Method.remove Method.imitation with
    table := Method.imitation.table }⟩

theorem Scope.labels_closed_imitation :
    Method.build Method.imitationSignature Method.imitationEntries = .ok Method.imitation ∧
      ∃ body, Method.imitationScope.assemble = .ok body ∧
        labelsOf body.lines.toList = ["AND_END_4", "CMP_TRUE_0", "CMP_TRUE_1", "CMP_END_3",
          "CMP_END_2", "AND_FALSE_4", "AND_END_5", "done"] ∧
        (labelsOf body.lines.toList).Perm (["AND_END_5", "AND_FALSE_4", "CMP_END_3", "CMP_TRUE_1"] ++
          ["AND_END_4", "CMP_END_2", "CMP_TRUE_0", "done"]) ∧
        ∀ j target, Line.jump j target ∈ body.lines.toList →
          Line.label target ∈ body.lines.toList := by
  obtain ⟨generated, hused, -, -, hbody⟩ :=
    Scope.labels_closed Method.build_imitation [⟨4⟩] { name := "C" } Method.imitation.table
  have hgenerated : ["AND_END_5", "AND_FALSE_4", "CMP_END_3", "CMP_TRUE_1"] ++
      Method.imitation.labels.map Prod.fst = generated ++ Method.imitation.labels.map Prod.fst :=
    Eq.trans (by decide +kernel) hused
  obtain rfl := List.append_cancel_right hgenerated
  cases he : Method.imitationScope.assemble with
  | error fault =>
    have hok : Method.imitationScope.assemble.isOk = true := by decide +kernel
    rw [he] at hok
    cases hok
  | ok body =>
    have hlines : Method.imitationScope.assemble.map (fun b => labelsOf b.lines.toList) =
        .ok ["AND_END_4", "CMP_TRUE_0", "CMP_TRUE_1", "CMP_END_3", "CMP_END_2", "AND_FALSE_4",
          "AND_END_5", "done"] := by decide +kernel
    rw [he] at hlines
    exact ⟨Method.build_imitation, body, rfl, Except.ok.inj hlines, hbody body he⟩

end ClassLowering
