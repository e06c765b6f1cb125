import ClassLowering.Proofs.Execution.Legibility
import ClassLowering.Proofs.Method.FallThrough

namespace ClassLowering

open StackMachine
open StateTransition (Reaches Reaches₁ Respects)

variable {Memory : Type}

namespace Scope

theorem following_eq {m : Method} (hm : m.WellFormed) {before l : List (Node × Instruction)}
    {n : Node} {i : Instruction} (h : m.instructions = before ++ (n, i) :: l) :
    m.following n = firstOf l := by
  have hbody := Method.map_fst_instructions m
  rw [h, List.map_append, List.map_cons] at hbody
  have hnodup := hm.body_nodup
  rw [← hbody, List.nodup_append] at hnodup
  have hbefore : n ∉ before.map Prod.fst := fun hn =>
    hnodup.2.2 n hn n List.mem_cons_self rfl
  rw [Method.following, ← hbody, nextIn_append hbefore, nextIn, if_pos rfl, List.head?_map]
  rfl

theorem start_eq (m : Method) : m.start = firstOf m.instructions := by
  rw [Method.start, ← Method.map_fst_instructions m, List.head?_map]
  rfl

theorem exists_split {m : Method} {n : Node} (hn : n = .exit ∨ n ∈ m.body) :
    ∃ before l, m.instructions = before ++ l ∧ firstOf l = n := by
  rcases hn with rfl | hn
  · exact ⟨m.instructions, [], (List.append_nil _).symm, rfl⟩
  · obtain ⟨i, hi⟩ := Method.exists_instruction? hn
    obtain ⟨before, after, he⟩ := List.append_of_mem (Method.mem_instructions.2 hi)
    exact ⟨before, (n, i) :: after, he, rfl⟩

theorem target_of_execute {s : Scope} {w : World Memory} (i : Instruction) :
    Run.Only (fun c => ∀ label, c = .jump label → i.target? = some label) (s.execute w i) := by
  cases i with
  | assign destination value =>
    cases destination with
    | var name ty => exact Run.only_bind fun _ => Run.only_bind fun _ => Run.only_pure nofun
    | element array index ty =>
      exact Run.only_bind fun _ => Run.only_bind fun _ => Run.only_bind fun _ =>
        Run.only_bind fun _ => Run.only_pure nofun
    | _ => exact Run.only_bind fun _ => Run.only_pure nofun
  | ret value =>
    cases value with
    | none => exact Run.only_pure nofun
    | some x => exact Run.only_bind fun _ => Run.only_pure nofun
  | putField object field value =>
    exact Run.only_bind fun _ => Run.only_bind fun _ => Run.only_bind fun _ => Run.only_pure nofun
  | goto label =>
    refine Run.only_pure ?_
    rintro other ⟨⟩
    rfl
  | branch condition label =>
    refine Run.only_bind fun d => Run.only_bind fun _ => Run.only_pure ?_
    intro other hother
    split at hother
    · cases hother
      rfl
    · cases hother
  | _ => exact Run.only_bind fun _ => Run.only_pure nofun

end Scope

namespace StackMachine

theorem eq_of_reaches {σ : Type} {f : σ → Option σ} {a b : σ} (h : Reaches f a b)
    (hnone : f a = none) : b = a := by
  obtain he | ⟨c, hc, -⟩ := Relation.ReflTransGen.cases_head h
  · exact he.symm
  · rw [Option.mem_def, hnone] at hc
    cases hc

theorem reaches₁_of_ne {σ : Type} {f : σ → Option σ} {a b : σ} (h : Reaches f a b) (hne : b ≠ a) :
    Reaches₁ f a b :=
  (Relation.reflTransGen_iff_eq_or_transGen.1 h).resolve_left hne

namespace Program

def arrival (p : Program) (next : Nat) : Landing → Phase (Nat × List Datum)
  | .on stack => .running (next, stack)
  | .jump label stack => .running ((p.find label).getD 0, stack)
  | .out value => .ended (.returned value)

theorem Comes.reaches₁ {p : Program} {w : World Memory} {q next : Nat} {stack : List Datum}
    {st : Store Memory} {r : EStateM.Result Failure (Store Memory) Landing}
    (h : p.Comes w (.running (q, stack), st) next r) (hlt : q < next)
    (hbits : ∀ st', r ≠ .error .notBoolean st') :
    Reaches₁ (p.step w) (.running (q, stack), st) (proceed (p.arrival next) r) := by
  rcases r with ⟨landing, st'⟩ | ⟨exception | _, st'⟩
  · cases landing with
    | on left =>
      refine reaches₁_of_ne h ?_
      rintro ⟨⟩
      exact Nat.lt_irrefl _ hlt
    | jump label left => exact h
    | out value => exact reaches₁_of_ne h nofun
  · exact reaches₁_of_ne h nofun
  · exact absurd rfl (hbits st')

end Program

end StackMachine

namespace Scope

variable {s : Scope} {p : Program} {w : World Memory}

inductive Matches (s : Scope) (p : Program) :
    State Node Memory → State (Nat × List Datum) Memory → Prop where
  | running (before : List (Node × Instruction)) {l : List (Node × Instruction)}
      {names : List String} {q : Nat} {stack : List Datum} {st : Store Memory} :
      s.method.instructions = before ++ l → s.Stands p names l q →
      Reached p.lines q stack.length →
      Matches s p (.running (firstOf l), st) (.running (q, stack), st)
  | ended (verdict : Verdict) (st : Store Memory) :
    Matches s p (.ended verdict, st) (.ended verdict, st)

theorem Matches.store_eq {a : State Node Memory} {b : State (Nat × List Datum) Memory}
    (h : Matches s p a b) : b.2 = a.2 := by
  cases h <;> rfl

theorem Matches.exit {names : List String} {q : Nat}
    {stack : List Datum} {st : Store Memory} {a : State Node Memory} (h : s.Stands p names [] q)
    (ha : s.step w (.running .exit, st) = some a) :
    ∃ b, Matches s p a b ∧ Reaches₁ (p.step w) (.running (q, stack), st) b := by
  have hnone : s.method.instruction? .exit = none := by
    rw [Method.instruction?, if_neg]
    exact fun hmem => Method.ne_exit_of_mem (Method.contains_iff.1 hmem) rfl
  simp only [Scope.step, hnone] at ha
  cases ha
  obtain ⟨⟨supply, -, -, hq⟩, hreach⟩ := h.pass (w := w) stack st
  have hend : p.lines[q + names.length]? = none :=
    List.getElem?_eq_none (List.drop_eq_nil_iff.1 hq)
  have hstep : p.step w (.running (q + names.length, stack), st) =
      some (.ended (.returned none), st) := by
    simp only [Program.step, hend]
  exact ⟨_, .ended _ _, Relation.TransGen.tail' hreach hstep⟩

section Correspondence

variable (hm : s.method.WellFormed) (hp : p.Sound)
  (hstands : ∀ before l, s.method.instructions = before ++ l →
    ∃ q, s.Stands p (s.method.labelsAt (firstOf l)) l q)
include hm hp hstands

theorem matches_target {label : String} {n : Node} (ht : s.method.target? label = some n)
    {stack : List Datum} (hr : Reached p.lines ((p.find label).getD 0) stack.length)
    (st : Store Memory) :
    Matches s p (.running n, st) (.running ((p.find label).getD 0, stack), st) := by
  obtain ⟨before, l, hsplit, rfl⟩ := exists_split (hm.label_target _ (Method.mem_labels ht))
  obtain ⟨q, hq⟩ := hstands before l hsplit
  obtain ⟨k, hk⟩ := List.getElem?_of_mem (mem_labelsAt ht)
  have hfind := hp.find_eq (hq.label hk)
  rw [hfind] at hr ⊢
  exact .running before hsplit (hq.drop k (Nat.le_of_lt (List.getElem?_eq_some_iff.1 hk).1)) hr

theorem matches_arrival {before l : List (Node × Instruction)} {n : Node} {i : Instruction}
    (hsplit : s.method.instructions = before ++ (n, i) :: l) {q : Nat}
    (hnext : s.Stands p (s.method.labelsAt (firstOf l)) l q) {landing : Landing}
    (htarget : ∀ label, control landing = .jump label → i.target? = some label) {st : Store Memory}
    (hkeep : p.Keeps (p.arrival q landing, st)) :
    Matches s p (s.phaseAfter n (control landing), st) (p.arrival q landing, st) := by
  cases landing with
  | on left =>
    change Matches s p (.running (s.method.following n), st) _
    rw [following_eq hm hsplit]
    exact .running (before ++ [(n, i)]) (by simp [hsplit]) hnext hkeep
  | jump label left =>
    have hmem : (n, i) ∈ s.method.instructions := by
      rw [hsplit]
      exact List.mem_append_right _ List.mem_cons_self
    obtain ⟨t, ht⟩ := hm.jumps_declared n i label hmem (htarget label rfl)
    change Matches s p (.running ((s.method.target? label).getD .exit), st) _
    rw [ht]
    exact matches_target hm hp hstands ht hkeep st
  | out value => exact .ended _ _

theorem Matches.statement {before l : List (Node × Instruction)} {n : Node} {i : Instruction}
    (hsplit : s.method.instructions = before ++ (n, i) :: l)
    (hi : Selects s p w (s.statement i) i) {names : List String} {q : Nat} {stack : List Datum}
    {st : Store Memory} {a : State Node Memory} (h : s.Stands p names ((n, i) :: l) q)
    (hr : Reached p.lines q stack.length) (ha : s.step w (.running n, st) = some a)
    (hbits : ∀ st', a ≠ (.ended (.failed .notBoolean), st')) :
    ∃ b, Matches s p a b ∧ Reaches₁ (p.step w) (.running (q, stack), st) b := by
  have hmem : (n, i) ∈ s.method.instructions := by
    rw [hsplit]
    exact List.mem_append_right _ List.mem_cons_self
  obtain ⟨hpassed, hpass⟩ := h.pass (w := w) stack st
  obtain ⟨q', hlt, hnext, y, hcontrol, hcomes⟩ := hpassed.statement hi
  have hr' : p.Keeps (.running (q + names.length, stack), st) :=
    Program.Keeps.reaches (a := (.running (q, stack), st)) hr hpass
  have hlands := hcomes stack st hr'
  have hexecute := congrFun (hcontrol stack) st
  change EStateM.map control (y stack) st = _ at hexecute
  have ha' : a = proceed (s.phaseAfter n) (s.execute w i st) := by
    simp only [Scope.step, Method.mem_instructions.1 hmem] at ha
    exact (Option.some.inj ha).symm
  unfold EStateM.map at hexecute
  generalize y stack st = r at hlands hexecute
  rcases r with ⟨landing, st'⟩ | ⟨exception | _, st'⟩
  · have hmoves := hlands.reaches₁ hlt nofun
    refine ⟨_, ?_, Relation.TransGen.trans_right hpass hmoves⟩
    rw [ha', ← hexecute]
    exact matches_arrival hm hp hstands hsplit hnext (target_of_execute i st _ st' hexecute.symm)
      (hr'.reaches hmoves.to_reflTransGen)
  · refine ⟨_, ?_, Relation.TransGen.trans_right hpass (hlands.reaches₁ hlt nofun)⟩
    rw [ha', ← hexecute]
    exact .ended _ _
  · rw [← hexecute] at ha'
    exact absurd ha' (hbits st')

theorem Matches.step (hs : ∀ e ∈ s.method.instructions, Selects s p w (s.statement e.2) e.2)
    {a a' : State Node Memory} {b : State (Nat × List Datum) Memory} (h : Matches s p a b)
    (ha : s.step w a = some a') (hbits : ∀ st', a' ≠ (.ended (.failed .notBoolean), st')) :
    ∃ b', Matches s p a' b' ∧ Reaches₁ (p.step w) b b' := by
  cases h with
  | @running before l names q stack st hsplit hq hr =>
    cases l with
    | nil => exact Matches.exit hq ha
    | cons e l =>
      obtain ⟨n, i⟩ := e
      have hmem : (n, i) ∈ s.method.instructions := by
        rw [hsplit]
        exact List.mem_append_right _ List.mem_cons_self
      exact Matches.statement hm hp hstands hsplit (hs _ hmem) hq hr ha hbits
  | ended verdict st => cases ha

end Correspondence

theorem residue_call {c : Call} (h : c.callee = .new → c.result.isArray = true) (d : Datum) :
    residue (.call c) d = [] := by
  have hone : answers c ≤ 1 := by
    unfold answers
    split
    · next hnew => rw [if_pos (h hnew)]
    · exact Nat.le_refl 1
    · split
      · exact Nat.zero_le 1
      · exact Nat.le_refl 1
  change List.replicate (answers c - 1) d = []
  rw [Nat.sub_eq_zero_of_le hone]
  rfl

theorem exists_step (s : Scope) (w : World Memory) (n : Node) (st : Store Memory) :
    ∃ a, s.step w (.running n, st) = some a := by
  simp only [Scope.step]
  split
  · exact ⟨_, rfl⟩
  · exact ⟨_, rfl⟩

theorem simulates {body : Body} (hm : s.method.WellFormed) (h : s.assemble = .ok body)
    (hnew : ∀ n array index ty c, (n, .assign (.element array index ty) (.call c)) ∈
      s.method.instructions → c.callee = .new → c.result.isArray = true)
    {start : State Node Memory}
    (hbits : ∀ st, ¬ Reaches (s.step w) start (.ended (.failed .notBoolean), st)) :
    Respects (s.step w) ((s.program body).step w) fun a b =>
      Matches s (s.program body) a b ∧ Reaches (s.step w) start a := by
  have hp := sound_of_assemble h
  have hs : ∀ e ∈ s.method.instructions, Selects s (s.program body) w (s.statement e.2) e.2 := by
    rintro ⟨n, i⟩ he
    refine selects_statement hp ?_ ?_
    · rintro array index ty value d rfl
      cases value with
      | call c => exact residue_call (hnew n array index ty c he) d
      | _ => rfl
    · intro label hlabel
      obtain ⟨t, ht⟩ := hm.jumps_declared n i label he hlabel
      exact find_of_target hm h ht
  rintro a b ⟨hab, hreach⟩
  cases ha : s.step w a with
  | some a' =>
    have hreach' : Reaches (s.step w) start a' := hreach.tail ha
    obtain ⟨b', hmatch, hsteps⟩ :=
      hab.step hm hp (fun _ _ => exists_stands h) hs ha fun st he => hbits st (he ▸ hreach')
    exact ⟨b', ⟨hmatch, hreach'⟩, hsteps⟩
  | none =>
    cases hab with
    | ended verdict st => rfl
    | running =>
      obtain ⟨a', ha'⟩ := exists_step s w (firstOf _) _
      rw [ha'] at ha
      cases ha

def begin (s : Scope) (st : Store Memory) : State Node Memory := (.running s.method.start, st)

def Truthful (s : Scope) (w : World Memory) (st : Store Memory) : Prop :=
  ∀ st', ¬ Reaches (s.step w) (s.begin st) (.ended (.failed .notBoolean), st')

end Scope

namespace StackMachine

def Program.begin (st : Store Memory) : State (Nat × List Datum) Memory := (.running (0, []), st)

def Shows {α : Type} (step : State α Memory → Option (State α Memory)) (start : State α Memory)
    (acts : List Act) : Prop :=
  ∃ a, Reaches step start a ∧ acts <+: a.2.acts

end StackMachine

namespace Scope

structure Preserved (s : Scope) (p : Program) (w : World Memory) (st : Store Memory) : Prop where
  shows : ∀ acts, Shows (s.step w) (s.begin st) acts ↔ Shows (p.step w) (Program.begin st) acts
  ends : ∀ verdict st', Reaches (s.step w) (s.begin st) (.ended verdict, st') ↔
    Reaches (p.step w) (Program.begin st) (.ended verdict, st')
  runs_on : ∀ a, Reaches (p.step w) (Program.begin st) a → p.step w a = none →
    ∃ verdict, a.1 = .ended verdict

theorem matches_begin {body : Body} (h : s.assemble = .ok body)
    (st : Store Memory) : Matches s (s.program body) (s.begin st) (Program.begin st) := by
  rw [begin, start_eq _]
  exact .running [] rfl (stands_start h) .start

theorem selection_preserves_meaning {signature : Signature} {entries : List Entry} {m : Method}
    (hbuild : Method.build signature entries = .ok m) (hnames : m.PlainlyNamed)
    {header : ClassHeader} (hheader : header.PlainlyNamed) (table : VariableTable)
    {body : Body} (h : assemble ⟨header, { m with table }⟩ = .ok body)
    (hnew : ∀ n array index ty c, (n, .assign (.element array index ty) (.call c)) ∈ m.instructions →
      c.callee = .new → c.result.isArray = true)
    (w : World Memory) (st : Store Memory) (htruth : Truthful ⟨header, { m with table }⟩ w st) :
    ∃ p, Program.read? (m.labels.map Prod.fst) body.text = some p ∧
      Preserved ⟨header, { m with table }⟩ p w st := by
  have hm := ((Method.Linked.of_build hbuild).retable table).toWellFormed
  have hsim := simulates (w := w) hm h hnew htruth
  have hstart := matches_begin h st
  refine ⟨_, read?_text hm hheader ⟨hnames.labels, hnames.members⟩ h,
    fun acts => ⟨?_, ?_⟩, fun verdict st' => ⟨?_, ?_⟩, ?_⟩
  · rintro ⟨a, ha, hacts⟩
    obtain ⟨b, ⟨hab, -⟩, hb⟩ := StateTransition.tr_reaches hsim ⟨hstart, .refl⟩ ha
    exact ⟨b, hb, hab.store_eq ▸ hacts⟩
  · rintro ⟨b, hb, hacts⟩
    obtain ⟨a, c, hc, ⟨hac, -⟩, ha⟩ := StateTransition.tr_reaches_rev hsim ⟨hstart, .refl⟩ hb
    exact ⟨a, ha, hac.store_eq ▸ hacts.trans (Program.acts_reaches hc)⟩
  · intro ha
    obtain ⟨b, ⟨hab, -⟩, hb⟩ := StateTransition.tr_reaches hsim ⟨hstart, .refl⟩ ha
    cases hab
    exact hb
  · intro hb
    obtain ⟨a, c, hc, ⟨hac, -⟩, ha⟩ := StateTransition.tr_reaches_rev hsim ⟨hstart, .refl⟩ hb
    obtain rfl := eq_of_reaches hc rfl
    cases hac
    exact ha
  · intro b hb hnone
    obtain ⟨a, c, hc, ⟨hac, hreach⟩, -⟩ := StateTransition.tr_reaches_rev hsim ⟨hstart, .refl⟩ hb
    obtain rfl := eq_of_reaches hc hnone
    cases hac with
    | ended verdict st' => exact ⟨verdict, rfl⟩
    | @running before l names q stack st' hsplit hq hr =>
      obtain ⟨a', ha'⟩ := exists_step ⟨header, { m with table }⟩ w (firstOf l) st'
      have hmoves := hsim ⟨.running before hsplit hq hr, hreach⟩
      rw [ha'] at hmoves
      obtain ⟨b', -, hsteps⟩ := hmoves
      obtain ⟨c, hstep, -⟩ := Relation.TransGen.head'_iff.1 hsteps
      rw [Option.mem_def, hnone] at hstep
      cases hstep

theorem reaches_iterate {σ : Type} (f : σ → Option σ) (a : σ) (steps : Nat) :
    Reaches f a ((fun b => (f b).getD b)^[steps] a) := by
  induction steps with
  | zero => exact .refl
  | succ k ih =>
    rw [Function.iterate_succ_apply']
    generalize (fun b => (f b).getD b)^[k] a = b at ih ⊢
    cases hb : f b with
    | none => exact ih
    | some c => exact ih.tail hb

theorem truthful_of_returns {w : World Memory} {st st' : Store Memory} {value : Option Datum}
    (h : Reaches (s.step w) (s.begin st) (.ended (.returned value), st')) : Truthful s w st := by
  intro st'' hfail
  obtain hr | hr := StateTransition.reaches_total h hfail
  · cases eq_of_reaches hr rfl
  · cases eq_of_reaches hr rfl

def tallyEntries : List Entry :=
  [.instruction (.assign (.var "b" .bool) (.binary .lt (.literal 0 .int) (.var "n" .int))),
    .label "again",
    .instruction (.call ⟨.static "Log" "put", [.var "n" .int], .void⟩),
    .instruction (.assign (.var "n" .int) (.binary .sub (.var "n" .int) (.literal 1 .int))),
    .instruction (.assign (.var "b" .bool) (.binary .and (.var "b" .bool) (.var "b" .bool))),
    .instruction (.assign (.var "b" .bool) (.not (.var "b" .bool))),
    .instruction (.branch (.binary .lt (.literal 0 .int) (.var "n" .int)) "again"),
    .instruction (.ret (some (.var "n" .int)))]

def tallySignature : Signature :=
  { name := "tally", isStatic := true, parameters := [⟨"n", .int⟩], result := .int }

def tally : Method :=
  { tallySignature with
    code := (Method.codeOf tallyEntries).toArray
    body := [⟨2⟩, ⟨3⟩, ⟨4⟩, ⟨5⟩, ⟨6⟩, ⟨7⟩, ⟨8⟩]
    labels := [("again", ⟨3⟩)]
    table := { entries := [("n", ⟨.int, some 0⟩), ("b", ⟨.bool, some 1⟩)] }
    flow := ⟨#[⟨[⟨2⟩], []⟩, ⟨[], [⟨8⟩]⟩, ⟨[⟨3⟩], [⟨0⟩]⟩, ⟨[⟨4⟩], [⟨2⟩, ⟨7⟩]⟩, ⟨[⟨5⟩], [⟨3⟩]⟩,
      ⟨[⟨6⟩], [⟨4⟩]⟩, ⟨[⟨7⟩], [⟨5⟩]⟩, ⟨[⟨8⟩, ⟨3⟩], [⟨6⟩]⟩, ⟨[⟨1⟩], [⟨7⟩]⟩]⟩ }

def tallyScope : Scope := ⟨{ name := "Log" }, tally⟩

def idleWorld : World Unit where
  perform := fun _ _ memory => .ok (.int 0) memory
  divisionByZero := ⟨.reference, 0⟩

def tallyStore : Store Unit := ⟨fun _ => .int 2, (), []⟩

def put (value : Int32) : Act := .request (.invoke .static "Log" "put" "(I)V") [.int value]

theorem selection_preserves_tally :
    Method.build tallySignature tallyEntries = .ok tally ∧
      ∃ body, tallyScope.assemble = .ok body ∧
        ∃ p, Program.read? ["again"] body.text = some p ∧
          ∃ st, Reaches (p.step idleWorld) (Program.begin tallyStore)
            (.ended (.returned (some (.int 0))), st) ∧
            st.acts = [put 2, .branch true, put 1, .branch false] := by
  have hbuild : Method.build tallySignature tallyEntries = .ok tally := by decide +kernel
  have hok : tallyScope.assemble.toOption.isSome = true := by decide +kernel
  obtain ⟨body, h⟩ := exists_body hok
  obtain ⟨⟨phase, st⟩, hrun, hend, hacts⟩ :
      ∃ a, Reaches (tallyScope.step idleWorld) (tallyScope.begin tallyStore) a ∧
        a.1 = .ended (.returned (some (.int 0))) ∧
        a.2.acts = [put 2, .branch true, put 1, .branch false] :=
    ⟨_, reaches_iterate _ _ 12, by decide +kernel, by decide +kernel⟩
  cases hend
  have hscalar : ∀ e ∈ tally.instructions,
      (e.2.destination?.all fun d => d.isVariable "b" || d.isVariable "n") = true := by
    decide +kernel
  have hnames : tally.PlainlyNamed := ⟨by decide +kernel, by decide +kernel⟩
  have hheader : ClassHeader.PlainlyNamed { name := "Log" } := ⟨by decide +kernel, nofun, nofun⟩
  obtain ⟨p, hread, hsame⟩ := selection_preserves_meaning hbuild hnames hheader tally.table h
    (fun n array index ty c hmem => Bool.noConfusion (hscalar _ hmem)) idleWorld tallyStore
    (truthful_of_returns hrun)
  exact ⟨hbuild, body, h, p, hread, st, (hsame.ends _ _).1 hrun, hacts⟩

end Scope

end ClassLowering
