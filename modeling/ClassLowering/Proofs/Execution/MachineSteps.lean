import Mathlib.Computability.StateTransition
import ClassLowering.Proofs.Code.StackLimit
import ClassLowering.Proofs.Execution.StackMachine

namespace ClassLowering

def Op.isKnown : Op → Bool
  | .other _ _ _ _ => false
  | _ => true

namespace StackMachine

open StateTransition (Reaches)

variable {Memory : Type} {p : Program} {w : World Memory} {stack : List Datum} {st st' : Store Memory}

namespace Run

variable {α β : Type} {e : Run Memory α} {f : α → Run Memory β}

theorem bind_eq_ok {b : β} (h : (e >>= f) st = .ok b st') :
    ∃ a st₁, e st = .ok a st₁ ∧ f a st₁ = .ok b st' := by
  change EStateM.bind e f st = _ at h
  unfold EStateM.bind at h
  split at h
  · next a st₁ he => exact ⟨a, st₁, he, h⟩
  · cases h

def Only (P : α → Prop) (e : Run Memory α) : Prop := ∀ st a st', e st = .ok a st' → P a

theorem only_pure {P : α → Prop} {a : α} (h : P a) : Only P (pure a : Run Memory α) := by
  rintro st b st' ⟨⟩
  exact h

theorem only_bind {P : β → Prop} (h : ∀ a, Only P (f a)) : Only P (e >>= f) := by
  intro st b st' he
  obtain ⟨a, st₁, -, hf⟩ := bind_eq_ok he
  exact h a st₁ b st' hf

end Run

def final {α : Type} : EStateM.Result Failure (Store Memory) α → Store Memory
  | .ok _ st | .error _ st => st

def Run.Adds {α : Type} (e : Run Memory α) : Prop := ∀ st, st.acts <+: (final (e st)).acts

namespace Run.Adds

variable {α β : Type} {e : Run Memory α} {f : α → Run Memory β}

theorem pure (a : α) : Adds (Pure.pure a : Run Memory α) := fun _ => List.prefix_rfl

theorem bind (he : e.Adds) (hf : ∀ a, (f a).Adds) : (e >>= f).Adds := by
  intro st
  have hfirst := he st
  change _ <+: (final (EStateM.bind e f st)).acts
  unfold EStateM.bind
  generalize e st = r at hfirst ⊢
  cases r with
  | ok a st₁ => exact hfirst.trans (hf a st₁)
  | error failure st₁ => exact hfirst

theorem request (w : World Memory) (r : Request) (arguments : List Datum) :
    (Run.request w r arguments).Adds := by
  intro st
  unfold Run.request
  dsimp only
  cases w.perform r arguments st.memory <;> exact List.prefix_append _ _

theorem arithmetic (w : World Memory) (op : Arithmetic) (x y : Int32) :
    (Run.arithmetic w op x y).Adds := by
  unfold Run.arithmetic Run.quotient
  split
  · exact .pure _
  · exact .pure _
  · exact .pure _
  · split
    · exact fun _ => List.prefix_rfl
    · exact .pure _
  · exact .pure _

end Run.Adds

theorem exchange_eq {o : Op} {r : Request} (hr : requestOf o = some r) :
    exchange o = (o.pops, o.pushes) := by
  cases o with
  | const | load | store | increment | arithmetic | dup | pop | other => cases hr
  | _ => rfl

theorem runOp_eq {w : World Memory} {o : Op} {r : Request} (hr : requestOf o = some r)
    (stack : List Datum) :
    runOp w o stack = if o.pops ≤ stack.length then
      some do
        let d ← Run.request w r (stack.take o.pops).reverse
        return List.replicate o.pushes d ++ stack.drop o.pops
    else none := by
  unfold runOp
  rw [hr, exchange_eq hr]

theorem runOp_of_requestOf {w : World Memory} {o : Op} {r : Request} {arguments : List Datum}
    (hr : requestOf o = some r) (hpops : o.pops = arguments.length) (stack : List Datum) :
    runOp w o (arguments.reverse ++ stack) = some do
      let d ← Run.request w r arguments
      return List.replicate o.pushes d ++ stack := by
  have hlength : o.pops = arguments.reverse.length := by rw [hpops, List.length_reverse]
  rw [runOp_eq hr, if_pos (by rw [List.length_append]; omega), hlength, List.take_left, List.drop_left,
    List.reverse_reverse]

theorem exists_runOp (w : World Memory) {o : Op} {stack : List Datum} (ho : o.isKnown = true)
    (h : o.demand ≤ stack.length) : ∃ run, runOp w o stack = some run := by
  cases hr : requestOf o with
  | some r =>
    have hpops : o.pops ≤ stack.length :=
      Nat.le_trans (Line.pops_le_demand (.op o)) h
    exact ⟨_, (runOp_eq hr stack).trans (if_pos hpops)⟩
  | none =>
    cases o with
    | const | load | increment => exact ⟨_, rfl⟩
    | store | dup | pop =>
      cases stack with
      | nil => cases h
      | cons d stack => exact ⟨_, rfl⟩
    | arithmetic op =>
      match stack, h with
      | _ :: _ :: _, _ => exact ⟨_, rfl⟩
    | other => cases ho
    | _ => cases hr

structure Pushes (o : Op) (stack : List Datum) (run e : Run Memory (List Datum)) : Prop where
  eq : run = do let data ← e; return data ++ stack.drop o.pops
  pops_le : o.pops ≤ stack.length
  length : Run.Only (fun data => data.length = o.pushes) e
  adds : e.Adds

theorem exists_pushes {o : Op} {run : Run Memory (List Datum)} (h : runOp w o stack = some run) :
    ∃ e, Pushes o stack run e := by
  cases hr : requestOf o with
  | some r =>
    rw [runOp_eq hr] at h
    obtain ⟨hpops, h⟩ := (Option.ite_none_right_eq_some).1 h
    cases h
    refine ⟨do
      let d ← Run.request w r (stack.take o.pops).reverse
      return List.replicate o.pushes d, ?_, hpops, ?_, ?_⟩
    · simp only [bind_assoc, pure_bind]
    · exact Run.only_bind fun d => Run.only_pure List.length_replicate
    · exact (Run.Adds.request w _ _).bind fun _ => .pure _
  | none =>
    cases o with
    | const value =>
      cases h
      exact ⟨pure [.int value], rfl, Nat.zero_le _, Run.only_pure rfl, .pure _⟩
    | load kind register =>
      cases h
      exact ⟨do return [← Run.load kind register], rfl, Nat.zero_le _,
        Run.only_bind fun _ => Run.only_pure rfl, fun _ => List.prefix_rfl⟩
    | store kind register =>
      cases stack with
      | nil => cases h
      | cons d stack =>
        cases h
        exact ⟨do Run.store kind register d; return [], rfl, Nat.succ_pos _,
          Run.only_bind fun _ => Run.only_pure rfl, fun _ => List.prefix_rfl⟩
    | increment register delta =>
      cases h
      refine ⟨do
        let d ← Run.load .int register
        Run.store .int register (.int (d.word + .ofInt delta))
        return [], ?_, Nat.zero_le _, ?_, fun _ => List.prefix_rfl⟩
      · simp only [bind_assoc, pure_bind]
        rfl
      · exact Run.only_bind fun _ => Run.only_bind fun _ => Run.only_pure rfl
    | arithmetic op =>
      match stack, h with
      | y :: x :: stack, h =>
        cases h
        refine ⟨do return [← Run.arithmetic w op x.word y.word], ?_, Nat.le_add_left 2 _,
          Run.only_bind fun _ => Run.only_pure rfl,
          (Run.Adds.arithmetic w _ _ _).bind fun _ => .pure _⟩
        simp only [bind_assoc, pure_bind]
        rfl
    | dup =>
      cases stack with
      | nil => cases h
      | cons d stack =>
        cases h
        exact ⟨pure [d], rfl, Nat.zero_le _, Run.only_pure rfl, .pure _⟩
    | pop =>
      cases stack with
      | nil => cases h
      | cons d stack =>
        cases h
        exact ⟨pure [], rfl, Nat.succ_pos _, Run.only_pure rfl, .pure _⟩
    | other => cases h
    | _ => cases hr

theorem length_runOp {o : Op} {run : Run Memory (List Datum)} {left : List Datum}
    (h : runOp w o stack = some run) (hrun : run st = .ok left st') :
    (left.length : Int) = stack.length + o.pushes - o.pops := by
  obtain ⟨e, he⟩ := exists_pushes h
  rw [he.eq] at hrun
  obtain ⟨data, st₁, hdata, hleft⟩ := Run.bind_eq_ok hrun
  cases hleft
  have hpushes := he.length st data _ hdata
  have hpops := he.pops_le
  rw [List.length_append, List.length_drop]
  omega

theorem adds_runOp {o : Op} {run : Run Memory (List Datum)} (h : runOp w o stack = some run) :
    run.Adds := by
  obtain ⟨e, he⟩ := exists_pushes h
  rw [he.eq]
  exact he.adds.bind fun _ => .pure _

namespace Program

structure Sound (p : Program) : Prop where
  unique : ∀ {i j : Nat} {name : String}, p.lines[i]? = some (.label name) →
    p.lines[j]? = some (.label name) → i = j
  demand_le : ∀ {i : Nat} {d : Int} {l : Line}, Reached p.lines i d → p.lines[i]? = some l →
    (l.demand : Int) ≤ d

variable {q : Nat}

theorem getElem?_of_find {label : String} (h : p.find label = some q) :
    p.lines[q]? = some (.label label) := by
  obtain ⟨hlt, heq, -⟩ := List.findIdx?_eq_some_iff_getElem.1 h
  rw [List.getElem?_eq_getElem hlt, eq_of_beq heq]

theorem Sound.find_eq (hp : p.Sound) {label : String} (h : p.lines[q]? = some (.label label)) :
    p.find label = some q := by
  cases hfind : p.find label with
  | none =>
    have hmem := List.mem_of_getElem? h
    rw [find, List.idxOf?_eq_none_iff] at hfind
    exact absurd hmem hfind
  | some t => rw [hp.unique (getElem?_of_find hfind) h]

end Program

theorem length_decideJump {j : Jump} {taken : Bool} {left : List Datum}
    (h : decideJump j stack = some (taken, left)) :
    (left.length : Int) = stack.length - j.pops ∧ (taken = false → j.isUnconditional = false) := by
  unfold decideJump at h
  split at h <;> cases h <;> simp [Jump.pops, Jump.isUnconditional, Jump.mnemonic]
  all_goals omega

namespace Program

def Keeps (p : Program) : State (Nat × List Datum) Memory → Prop
  | (.running (q, stack), _) => Reached p.lines q stack.length
  | (.ended _, _) => True

theorem Keeps.runLine {l : Line} {b : State (Nat × List Datum) Memory} {q : Nat}
    (h : Reached p.lines q stack.length) (hl : p.lines[q]? = some l)
    (hstep : p.runLine w q stack st l = some b) : p.Keeps b := by
  cases l with
  | label name =>
    cases hstep
    simpa [Line.pushes, Line.pops, Keeps] using h.next hl rfl
  | op o =>
    obtain ⟨run, ho, rfl⟩ := Option.map_eq_some_iff.1 hstep
    cases hrun : run st with
    | ok left st' =>
      have hnext := h.next hl rfl
      have hlength := length_runOp ho hrun
      change Reached p.lines (q + 1) left.length
      rw [hlength]
      exact hnext
    | error failure st' => exact trivial
  | jump j target =>
    obtain ⟨⟨taken, left⟩, hj, hstep⟩ := Option.bind_eq_some_iff.1 hstep
    obtain ⟨next, hnext, hstep⟩ := Option.bind_eq_some_iff.1 hstep
    obtain ⟨hlength, hnot⟩ := length_decideJump hj
    cases hstep
    change Reached p.lines next left.length
    rw [hlength]
    cases taken with
    | true => exact h.jump hl (getElem?_of_find hnext)
    | false =>
      cases hnext
      simpa [Line.pushes, Line.pops] using h.next hl (by simp [Line.runsOn, hnot rfl])
  | exit e =>
    cases e with
    | void =>
      cases hstep
      exact trivial
    | value kind =>
      obtain ⟨d, -, rfl⟩ := Option.map_eq_some_iff.1 hstep
      exact trivial
    | other mnemonic pops => cases hstep

theorem Keeps.step {a b : State (Nat × List Datum) Memory} (h : p.Keeps a)
    (hstep : p.step w a = some b) : p.Keeps b := by
  obtain ⟨⟨q, stack⟩ | verdict, st⟩ := a
  · simp only [Program.step] at hstep
    split at hstep
    · next l hl => exact Keeps.runLine h hl hstep
    · cases hstep
      exact trivial
  · cases hstep

theorem Keeps.reaches {a b : State (Nat × List Datum) Memory} (h : p.Keeps a)
    (hr : Reaches (p.step w) a b) : p.Keeps b := by
  induction hr with
  | refl => exact h
  | tail _ hstep ih => exact ih.step hstep

theorem acts_runLine {q : Nat} {l : Line} {b : State (Nat × List Datum) Memory}
    (h : p.runLine w q stack st l = some b) : st.acts <+: b.2.acts := by
  cases l with
  | label name =>
    cases h
    exact List.prefix_rfl
  | op o =>
    obtain ⟨run, ho, rfl⟩ := Option.map_eq_some_iff.1 h
    have hadds := adds_runOp ho st
    generalize run st = r at hadds ⊢
    cases r <;> exact hadds
  | jump j target =>
    obtain ⟨⟨taken, left⟩, -, h⟩ := Option.bind_eq_some_iff.1 h
    obtain ⟨next, -, h⟩ := Option.bind_eq_some_iff.1 h
    cases h
    change st.acts <+: (if j = .always then st else p.noteBranch target taken st).acts
    unfold noteBranch
    split
    · exact List.prefix_rfl
    · split
      · exact List.prefix_append _ _
      · exact List.prefix_rfl
  | exit e =>
    cases e with
    | void =>
      cases h
      exact List.prefix_rfl
    | value kind =>
      obtain ⟨d, -, rfl⟩ := Option.map_eq_some_iff.1 h
      exact List.prefix_rfl
    | other mnemonic pops => cases h

theorem acts_step {a b : State (Nat × List Datum) Memory}
    (h : p.step w a = some b) : a.2.acts <+: b.2.acts := by
  obtain ⟨⟨q, stack⟩ | verdict, st⟩ := a
  · simp only [Program.step] at h
    split at h
    · exact acts_runLine h
    · cases h
      exact List.prefix_rfl
  · cases h

theorem acts_reaches {a b : State (Nat × List Datum) Memory} (h : Reaches (p.step w) a b) :
    a.2.acts <+: b.2.acts := by
  induction h with
  | refl => exact List.prefix_rfl
  | tail _ hstep ih => exact ih.trans (acts_step hstep)

end Program

end StackMachine

end ClassLowering
