import ClassLowering.Proofs.Code.Freshness
import ClassLowering.Proofs.Execution.MachineSteps

namespace ClassLowering

namespace StackMachine

open StateTransition (Reaches Reaches₁)

inductive Landing where
  | on (stack : List Datum)
  | jump (label : String) (stack : List Datum)
  | out (value : Option Datum)

abbrev StackEffect (Memory : Type) := List Datum → Run Memory Landing

variable {Memory : Type}

namespace StackEffect

def skip : StackEffect Memory := fun stack => pure (.on stack)

def push (e : Run Memory Datum) : StackEffect Memory := fun stack => do
  let d ← e
  return .on (d :: stack)

def pushAll (e : Run Memory (List Datum)) : StackEffect Memory := fun stack => do
  let data ← e
  return .on (data.reverse ++ stack)

def andThen (y z : StackEffect Memory) : StackEffect Memory := fun stack => do
  match ← y stack with
  | .on stack => z stack
  | .jump label stack => return .jump label stack
  | .out value => return .out value

def op (w : World Memory) (o : Op) : StackEffect Memory := fun stack => do
  let stack ← (runOp w o stack).getD (pure stack)
  return .on stack

def turn (p : Program) (label : String) (taken : Bool) : StackEffect Memory := fun stack st =>
  .ok (if taken then .jump label stack else .on stack) (p.noteBranch label taken st)

def branch (p : Program) (label : String) (e : Run Memory Bool) : StackEffect Memory :=
  fun stack => do
    let taken ← e
    turn p label taken stack

def test (label : String) (e : Run Memory Bool) : StackEffect Memory := fun stack => do
  let b ← e
  return if b then .jump label stack else .on stack

def choose (y : StackEffect Memory) (label : String) (v u : Int32) : StackEffect Memory :=
    fun stack => do
  match ← y stack with
  | .on stack => return .on (.int v :: stack)
  | .jump other stack =>
    return if other = label then .on (.int u :: stack) else .jump other stack
  | .out value => return .out value

theorem andThen_of_push {e : Run Memory Datum} (z : StackEffect Memory) (stack : List Datum) :
    (push e).andThen z stack = e >>= fun d => z (d :: stack) := by
  simp only [andThen, push, bind_assoc, pure_bind]

theorem andThen_of_pushAll {e : Run Memory (List Datum)} (z : StackEffect Memory)
    (stack : List Datum) :
    (pushAll e).andThen z stack = e >>= fun data => z (data.reverse ++ stack) := by
  simp only [andThen, pushAll, bind_assoc, pure_bind]

theorem choose_test (label : String) (e : Run Memory Bool) (v u : Int32) (stack : List Datum) :
    (test label e).choose label v u stack = push (do
      let b ← e
      return .int (if b then u else v)) stack := by
  simp only [choose, test, push, bind_assoc, pure_bind]
  refine bind_congr fun b => ?_
  cases b with
  | true => simp
  | false => simp

theorem turn_of_not_mem {p : Program} {label : String} (h : label ∉ p.labels) (taken : Bool)
    (stack : List Datum) : (turn p label taken stack : Run Memory Landing) =
      pure (if taken then .jump label stack else .on stack) := by
  funext st
  unfold turn Program.noteBranch
  rw [if_neg h]
  rfl

theorem branch_of_not_mem {p : Program} {label : String} (h : label ∉ p.labels)
    (e : Run Memory Bool) (stack : List Datum) : branch p label e stack = test label e stack :=
  bind_congr fun taken => turn_of_not_mem h taken stack

end StackEffect

variable {p : Program} {w : World Memory} {stack : List Datum} {st st' : Store Memory}

def Run.Agrees {α : Type} (e e' : Run Memory α) : Prop :=
  ∀ st, e st = e' st ∨ ∃ st', e' st = .error .notBoolean st'

theorem Run.Agrees.of_eq {α : Type} {e e' : Run Memory α} (h : e = e') : e.Agrees e' :=
  fun st => .inl (congrFun h st)

theorem Run.Agrees.bind {α β : Type} {e : Run Memory α} {f f' : α → Run Memory β}
    (h : ∀ a, (f a).Agrees (f' a)) : (e >>= f).Agrees (e >>= f') := by
  intro st
  change EStateM.bind e f st = EStateM.bind e f' st ∨ ∃ st', EStateM.bind e f' st = _
  unfold EStateM.bind
  cases e st with
  | ok a st₁ => exact h a st₁
  | error failure st₁ => exact .inl rfl

namespace Program

def Comes (p : Program) (w : World Memory) (a : State (Nat × List Datum) Memory) (next : Nat) :
    EStateM.Result Failure (Store Memory) Landing → Prop
  | .ok (.on stack) st => Reaches (p.step w) a (.running (next, stack), st)
  | .ok (.jump label stack) st =>
    Reaches₁ (p.step w) a (.running ((p.find label).getD 0, stack), st)
  | .ok (.out value) st => Reaches (p.step w) a (.ended (.returned value), st)
  | .error (.thrown exception) st => Reaches (p.step w) a (.ended (.failed (.thrown exception)), st)
  | .error .notBoolean _ => True

theorem Comes.of_reaches {a b : State (Nat × List Datum) Memory} {next : Nat}
    {r : EStateM.Result Failure (Store Memory) Landing} (hr : Reaches (p.step w) a b)
    (h : p.Comes w b next r) : p.Comes w a next r := by
  rcases r with ⟨landing, st⟩ | ⟨exception | _, st⟩
  · cases landing with
    | on stack => exact hr.trans h
    | jump label stack => exact Relation.TransGen.trans_right hr h
    | out value => exact hr.trans h
  · exact hr.trans h
  · exact trivial

theorem drop_past {lines rest : List Line} {q : Nat} (h : p.lines.drop q = lines ++ rest) :
    p.lines.drop (q + lines.length) = rest := by
  rw [← List.drop_drop, h, List.drop_left]

theorem step_eq {l : Line} {q : Nat} (hl : p.lines[q]? = some l) :
    p.step w (.running (q, stack), st) = p.runLine w q stack st l := by
  simp only [step, hl]

theorem step_const {q : Nat} {value : Int32} (hl : p.lines[q]? = some (.op (.const value))) :
    p.step w (.running (q, stack), st) = some (.running (q + 1, .int value :: stack), st) :=
  step_eq hl

theorem step_label {q : Nat} {name : String} (hl : p.lines[q]? = some (.label name)) :
    p.step w (.running (q, stack), st) = some (.running (q + 1, stack), st) := step_eq hl

theorem step_goto {q t : Nat} {target : String} (hl : p.lines[q]? = some (.jump .always target))
    (ht : p.find target = some t) :
    p.step w (.running (q, stack), st) = some (.running (t, stack), st) := by
  rw [step_eq hl, runLine]
  simp [decideJump, follow, ht]

def choiceLines (other done : String) (v u : Int32) : List Line :=
  [.op (.const v), .jump .always done, .label other, .op (.const u), .label done]

section Choice

variable {other done : String} {v u : Int32} {rest : List Line} {q : Nat}
  (hq : p.lines.drop q = choiceLines other done v u ++ rest)
include hq

theorem getElem?_choice (k : Nat) :
    p.lines[q + k]? = (choiceLines other done v u ++ rest)[k]? := by
  rw [← List.getElem?_drop, hq]

theorem find_other (hp : p.Sound) : p.find other = some (q + 2) := hp.find_eq (getElem?_choice hq 2)

theorem reaches_done : Reaches (p.step w) (.running (q + 4, stack), st)
    (.running (q + 5, stack), st) := .single (step_label (getElem?_choice hq 4))

theorem reaches_through (hp : p.Sound) : Reaches (p.step w) (.running (q, stack), st)
    (.running (q + 5, .int v :: stack), st) := by
  have hdone : p.find done = some (q + 4) := hp.find_eq (getElem?_choice hq 4)
  have hconst : Reaches (p.step w) (.running (q, stack), st)
      (.running (q + 1, .int v :: stack), st) := .single (step_const (getElem?_choice hq 0))
  exact (hconst.tail (step_goto (getElem?_choice hq 1) hdone)).trans (reaches_done hq)

theorem reaches_around : Reaches (p.step w) (.running (q + 2, stack), st)
    (.running (q + 5, .int u :: stack), st) := by
  have hother : Reaches (p.step w) (.running (q + 2, stack), st) (.running (q + 3, stack), st) :=
    .single (step_label (getElem?_choice hq 2))
  exact (hother.tail (step_const (getElem?_choice hq 3))).trans (reaches_done hq)

theorem Comes.choose (hp : p.Sound) {y : StackEffect Memory} {a : State (Nat × List Datum) Memory}
    (h : p.Comes w a q (y stack st)) : p.Comes w a (q + 5) (y.choose other v u stack st) := by
  change p.Comes w _ _ (EStateM.bind (y stack) _ st)
  unfold EStateM.bind
  generalize y stack st = r at h ⊢
  rcases r with ⟨landing, st'⟩ | ⟨exception | _, st'⟩
  · cases landing with
    | on left => exact Relation.ReflTransGen.trans h (reaches_through hq hp)
    | jump label left =>
      by_cases hl : label = other
      · subst hl
        change Reaches₁ _ _ (Phase.running ((p.find label).getD 0, left), st') at h
        rw [find_other hq hp] at h
        simp only [if_pos]
        exact Relation.ReflTransGen.trans h.to_reflTransGen (reaches_around hq)
      · simp only [if_neg hl]
        exact h
    | out value => exact h
  · exact h
  · exact trivial

end Choice

end Program

open Program (Comes Keeps)

def Meets {α : Type} (p : Program) (w : World Memory) (x : Lower α) (y : StackEffect Memory) :
    Prop :=
  ∀ supply a q rest, p.labels ⊆ supply.used → (x supply).outcome = .ok a →
    p.lines.drop q = (x supply).lines ++ rest →
    p.labels ⊆ (x supply).supply.used ∧
    ∀ stack st, Reached p.lines q stack.length →
      p.Comes w (.running (q, stack), st) (q + (x supply).lines.length) (y stack st)

namespace Meets

variable {α β : Type} {x : Lower α} {f : α → Lower β} {y z : StackEffect Memory}

theorem congr (h : Meets p w x y) (he : ∀ stack, y stack = z stack) : Meets p w x z :=
  (funext he : y = z) ▸ h

theorem weaken (h : Meets p w x y) (he : ∀ stack, (y stack).Agrees (z stack)) : Meets p w x z := by
  intro supply a q rest hused ho hq
  obtain ⟨hused', hcomes⟩ := h supply a q rest hused ho hq
  refine ⟨hused', ?_⟩
  intro stack st hreach
  obtain hsame | ⟨st', hmissing⟩ := he stack st
  · rw [← hsame]
    exact hcomes stack st hreach
  · rw [hmissing]
    exact trivial

theorem pure (a : α) : Meets p w (Pure.pure a : Lower α) StackEffect.skip := by
  intro supply b q rest hused _ _
  exact ⟨hused, fun stack st _ => .refl⟩

theorem bind_of (hx : Meets p w x y)
    (hf : ∀ a, (∃ supply, (x supply).outcome = .ok a) → Meets p w (f a) z) :
    Meets p w (x >>= f) (y.andThen z) := by
  intro supply b q rest hused ho hq
  obtain ⟨a, ha, he⟩ := Lower.bind_eq_ok ho
  rw [he] at ho hq ⊢
  rw [List.append_assoc] at hq
  obtain ⟨hused', hcomes⟩ := hx supply a q _ hused ha hq
  obtain ⟨hused'', hcomes'⟩ := hf a ⟨supply, ha⟩ _ b _ rest hused' ho (Program.drop_past hq)
  refine ⟨hused'', ?_⟩
  intro stack st hreach
  have hfirst := hcomes stack st hreach
  change p.Comes w _ _ (EStateM.bind (y stack) _ st)
  unfold EStateM.bind
  generalize y stack st = r at hfirst ⊢
  rcases r with ⟨landing, st'⟩ | ⟨exception | _, st'⟩
  · cases landing with
    | on left =>
      have hkeep : p.Keeps (.running (q + (x supply).lines.length, left), st') :=
        Keeps.reaches (a := (.running (q, stack), st)) hreach hfirst
      have hsecond := hcomes' left st' hkeep
      rw [Nat.add_assoc, ← List.length_append] at hsecond
      exact hsecond.of_reaches hfirst
    | jump label left => exact hfirst
    | out value => exact hfirst
  · exact hfirst
  · exact trivial

theorem bind (hx : Meets p w x y) (hf : ∀ a, Meets p w (f a) z) :
    Meets p w (x >>= f) (y.andThen z) := hx.bind_of fun a _ => hf a

theorem fail (fault : Fault) (y : StackEffect Memory) : Meets p w (Lower.fail fault : Lower α) y :=
  nofun

theorem fail_bind (fault : Fault) (f : α → Lower β) (y : StackEffect Memory) :
    Meets p w (Lower.fail fault >>= f) y := nofun

theorem lift {value : Except Fault α} (h : ∀ a, value = .ok a → Meets p w (f a) y) :
    Meets p w (liftM value >>= f) y := by
  cases value with
  | error fault => exact fail_bind fault f y
  | ok a => exact h a rfl

theorem fresh {stem : String} {f : String → Lower β}
    (h : ∀ name ∉ p.labels, Meets p w (f name) y) : Meets p w (Lower.fresh stem >>= f) y := by
  intro supply b q rest hused ho hq
  have hnew : (supply.fresh stem).1 ∉ p.labels := fun hmem =>
    supply.fresh_not_mem stem (hused hmem)
  have hused' : p.labels ⊆ (supply.fresh stem).2.used :=
    List.Subset.trans hused (List.subset_cons_self _ _)
  exact h _ hnew (supply.fresh stem).2 b q rest hused' ho hq

theorem line {l : Line} (h : ∀ q stack st, p.lines[q]? = some l → Reached p.lines q stack.length →
    p.Comes w (.running (q, stack), st) (q + 1) (y stack st)) : Meets p w (Lower.line l) y := by
  intro supply a q rest hused _ hq
  have hl : p.lines[q]? = some l := by
    rw [← Nat.add_zero q, ← List.getElem?_drop, hq]
    rfl
  exact ⟨hused, fun stack st => h q stack st hl⟩

theorem op (hp : p.Sound) {o : Op} (ho : o.isKnown = true) :
    Meets p w (Lower.op o) (StackEffect.op w o) := by
  refine line fun q stack st hl hreach => ?_
  obtain ⟨run, hrun⟩ := exists_runOp w ho (by exact_mod_cast hp.demand_le hreach hl)
  have hstep : p.step w (.running (q, stack), st) =
      some (proceed (fun stack => .running (q + 1, stack)) (run st)) := by
    rw [Program.step_eq hl, Program.runLine, hrun]
    rfl
  unfold StackEffect.op
  rw [hrun]
  change p.Comes w _ _ (EStateM.bind run _ st)
  unfold EStateM.bind
  generalize run st = r at hstep ⊢
  rcases r with ⟨left, st'⟩ | ⟨exception | _, st'⟩
  · exact .single hstep
  · exact .single hstep
  · exact trivial

theorem exit_void : Meets p w (Lower.line (.exit .void)) fun _ => Pure.pure (.out none) :=
  line fun _ _ _ hl _ => .single (Program.step_eq hl)

theorem exit_value (hp : p.Sound) (kind : ValueKind) :
    Meets p w (Lower.line (.exit (.value kind))) fun stack =>
      Pure.pure (.out (stack.head?.map (Datum.as kind))) := by
  refine line fun q stack st hl hreach => ?_
  cases stack with
  | nil => cases hp.demand_le hreach hl
  | cons d stack => exact .single (Program.step_eq hl)

theorem goto (target : String) (hfind : ∃ t, p.find target = some t) :
    Meets p w (Lower.jump .always target) fun stack => Pure.pure (.jump target stack) := by
  refine line fun q stack st hl hreach => ?_
  obtain ⟨t, ht⟩ := hfind
  change Reaches₁ _ _ (Phase.running ((p.find target).getD 0, stack), st)
  rw [ht]
  exact .single (Program.step_goto hl ht)

theorem branch (hp : p.Sound) {j : Jump} {target : String} (hfind : ∃ t, p.find target = some t)
    (test : List Datum → Bool × List Datum) (hj : j ≠ .always)
    (htest : ∀ stack, j.pops ≤ stack.length → decideJump j stack = some (test stack)) :
    Meets p w (Lower.jump j target) fun stack =>
      StackEffect.turn p target (test stack).1 (test stack).2 := by
  refine line fun q stack st hl hreach => ?_
  obtain ⟨t, ht⟩ := hfind
  have hdecide := htest stack (by exact_mod_cast hp.demand_le hreach hl)
  generalize test stack = decided at hdecide ⊢
  obtain ⟨taken, left⟩ := decided
  have hstep (next : Nat) (hnext : p.follow q target taken = some next) :
      p.step w (.running (q, stack), st) =
        some (.running (next, left), p.noteBranch target taken st) := by
    rw [Program.step_eq hl, Program.runLine, hdecide]
    simp [hnext, hj]
  cases taken with
  | true =>
    change Reaches₁ _ _ (Phase.running ((p.find target).getD 0, left), _)
    rw [ht]
    exact .single (hstep t ht)
  | false => exact .single (hstep (q + 1) rfl)

theorem choose (hp : p.Sound) {x : Lower Unit} {other : String} (done : String) (v u : Int32)
    (hx : (∃ t, p.find other = some t) → Meets p w x y) :
    Meets p w (do
      x
      .op (.const v)
      .jump .always done
      .line (.label other)
      .op (.const u)
      .line (.label done)) (y.choose other v u) := by
  intro supply b q rest hused ho hq
  obtain ⟨a, ha, he⟩ := Lower.bind_eq_ok ho
  rw [he] at hq ⊢
  rw [List.append_assoc] at hq
  have hchoice : p.lines.drop (q + (x supply).lines.length) =
      Program.choiceLines other done v u ++ rest := Program.drop_past hq
  obtain ⟨hused', hcomes⟩ := hx ⟨_, Program.find_other hchoice hp⟩ supply a q _ hused ha hq
  refine ⟨hused', ?_⟩
  intro stack st hreach
  rw [List.length_append, ← Nat.add_assoc]
  exact Comes.choose hchoice hp (hcomes stack st hreach)

end Meets

end StackMachine

end ClassLowering
