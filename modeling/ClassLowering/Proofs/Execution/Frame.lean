import ClassLowering.Proofs.Execution.StackEffect

namespace ClassLowering

namespace StackMachine

open StateTransition (Reaches)

variable {Memory : Type} {p : Program} {w : World Memory} {stack : List Datum} {st : Store Memory}

def onto (below : List Datum) :
    State (Nat × List Datum) Memory → State (Nat × List Datum) Memory
  | (.running (q, stack), st) => (.running (q, stack ++ below), st)
  | (.ended verdict, st) => (.ended verdict, st)

def Landing.onto (below : List Datum) : Landing → Landing
  | .on stack => .on (stack ++ below)
  | .jump label stack => .jump label (stack ++ below)
  | .out value => .out value

def StackEffect.Framed (y : StackEffect Memory) : Prop :=
  ∀ stack below, Landing.onto below <$> y stack = y (stack ++ below)

theorem framed_pushAll (e : Run Memory (List Datum)) : (StackEffect.pushAll e).Framed := by
  intro stack below
  simp only [StackEffect.pushAll, map_bind, map_pure, Landing.onto, List.append_assoc]

theorem runOp_onto {o : Op} {run : Run Memory (List Datum)} (h : runOp w o stack = some run)
    (below : List Datum) : runOp w o (stack ++ below) = some ((· ++ below) <$> run) := by
  cases hr : requestOf o with
  | some r =>
    rw [runOp_eq hr] at h ⊢
    obtain ⟨hpops, h⟩ := (Option.ite_none_right_eq_some).1 h
    cases h
    rw [if_pos (by rw [List.length_append]; omega), List.take_append_of_le_length hpops,
      List.drop_append_of_le_length hpops]
    simp only [map_bind, map_pure, List.append_assoc]
  | none =>
    cases o with
    | const | load | increment =>
      cases h
      refine congrArg some ?_
      simp only [map_bind, map_pure, List.cons_append]
    | store | dup | pop =>
      cases stack with
      | nil => cases h
      | cons d stack =>
        cases h
        refine congrArg some ?_
        simp only [map_bind, map_pure, List.cons_append, List.append_eq]
    | arithmetic op =>
      match stack, h with
      | y :: x :: stack, h =>
        cases h
        refine congrArg some ?_
        simp only [map_bind, map_pure, List.cons_append, List.append_eq]
    | other => cases h
    | _ => cases hr

theorem decideJump_onto {j : Jump} {taken : Bool} {left : List Datum}
    (h : decideJump j stack = some (taken, left)) (below : List Datum) :
    decideJump j (stack ++ below) = some (taken, left ++ below) := by
  unfold decideJump at h
  split at h <;> cases h <;> rfl

namespace Program

theorem runLine_onto {q : Nat} {l : Line} {b : State (Nat × List Datum) Memory}
    (h : p.runLine w q stack st l = some b) (below : List Datum) :
    p.runLine w q (stack ++ below) st l = some (onto below b) := by
  cases l with
  | label name =>
    cases h
    rfl
  | op o =>
    obtain ⟨run, ho, rfl⟩ := Option.map_eq_some_iff.1 h
    rw [runLine, runOp_onto ho below]
    change some (proceed _ (EStateM.map _ run st)) = _
    unfold EStateM.map
    cases run st <;> rfl
  | jump j target =>
    obtain ⟨⟨taken, left⟩, hj, h⟩ := Option.bind_eq_some_iff.1 h
    obtain ⟨next, hnext, h⟩ := Option.bind_eq_some_iff.1 h
    cases h
    rw [runLine, decideJump_onto hj below]
    change (do let next ← p.follow q target taken; return _ : Option _) = _
    rw [hnext]
    rfl
  | exit e =>
    cases e with
    | void =>
      cases h
      rfl
    | value kind =>
      obtain ⟨d, hd, rfl⟩ := Option.map_eq_some_iff.1 h
      cases stack with
      | nil => cases hd
      | cons d' stack =>
        cases hd
        rfl
    | other mnemonic pops => cases h

theorem step_onto {a b : State (Nat × List Datum) Memory} (h : p.step w a = some b)
    (below : List Datum) : p.step w (onto below a) = some (onto below b) := by
  obtain ⟨⟨q, stack⟩ | verdict, st⟩ := a
  · simp only [Program.step, onto] at h ⊢
    split at h
    · exact runLine_onto h below
    · cases h
      rfl
  · cases h

theorem reaches_onto {a b : State (Nat × List Datum) Memory} (h : Reaches (p.step w) a b)
    (below : List Datum) : Reaches (p.step w) (onto below a) (onto below b) :=
  Relation.ReflTransGen.lift _ (fun _ _ hstep => step_onto hstep below) _ _ h

theorem Comes.onto {a : State (Nat × List Datum) Memory} {next : Nat} {e : Run Memory Landing}
    (h : p.Comes w a next (e st)) (below : List Datum) :
    p.Comes w (onto below a) next ((Landing.onto below <$> e) st) := by
  change p.Comes w _ next (EStateM.map _ e st)
  unfold EStateM.map
  generalize e st = r at h ⊢
  rcases r with ⟨landing, st'⟩ | ⟨exception | _, st'⟩
  · cases landing with
    | on left => exact reaches_onto h below
    | jump label left =>
      exact Relation.TransGen.lift _ (fun _ _ hstep => step_onto hstep below) _ _ h
    | out value => exact reaches_onto h below
  · exact reaches_onto h below
  · exact trivial

theorem comes_framed {q next : Nat} {y : StackEffect Memory} (hy : y.Framed)
    (hcomes : ∀ stack st, Reached p.lines q stack.length →
      p.Comes w (.running (q, stack), st) next (y stack st))
    {depth : Nat} (hreach : Reached p.lines q depth) (hdepth : depth ≤ stack.length)
    (st : Store Memory) : p.Comes w (.running (q, stack), st) next (y stack st) := by
  have htop := hcomes (stack.take depth) st (by rwa [List.length_take_of_le hdepth])
  have hall := htop.onto (stack.drop depth)
  rw [hy] at hall
  simpa only [StackMachine.onto, List.take_append_drop] using hall

end Program

end StackMachine

end ClassLowering
