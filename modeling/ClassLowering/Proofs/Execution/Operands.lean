import ClassLowering.Proofs.Execution.StackEffect
import ClassLowering.Proofs.Execution.Meaning

namespace ClassLowering

namespace StackMachine

variable {Memory : Type} {w : World Memory}

namespace StackEffect

theorem op_const (value : Int32) : op w (.const value) = push (pure (.int value)) := rfl

theorem op_load (kind : ValueKind) (register : Nat) :
    op w (.load kind register) = push (Run.load kind register) := rfl

theorem op_store (kind : ValueKind) (register : Nat) (d : Datum) (stack : List Datum) :
    op w (.store kind register) (d :: stack) = do
      Run.store kind register d
      return .on stack := rfl

theorem op_arithmetic (o : Arithmetic) (x y : Datum) (stack : List Datum) :
    op w (.arithmetic o) (y :: x :: stack) = push (Run.arithmetic w o x.word y.word) stack := by
  change (do let d ← Run.arithmetic w o x.word y.word; return d :: stack : Run Memory _) >>= _ = _
  simp only [push, bind_assoc, pure_bind]

theorem op_request {o : Op} {r : Request} (hr : requestOf o = some r) (arguments : List Datum)
    (hpops : o.pops = arguments.length) (stack : List Datum) :
    op w o (arguments.reverse ++ stack) = do
      let d ← Run.request w r arguments
      return .on (List.replicate o.pushes d ++ stack) := by
  unfold op
  rw [runOp_of_requestOf hr hpops]
  simp only [Option.getD_some, bind_assoc, pure_bind]

end StackEffect

end StackMachine

namespace Scope

open StackMachine

variable {Memory : Type} {s : Scope} {p : Program} {w : World Memory}

theorem place_of_register {name : String} {r : Nat} (h : s.register name = .ok r) :
    s.place name = r := by
  unfold register at h
  unfold place
  split at h
  · next hr =>
    cases h
    rw [hr]
    rfl
  · cases h

theorem meets_register {β : Type} {name : String} {f : Nat → Lower β} {y : StackEffect Memory}
    (h : Meets p w (f (s.place name)) y) : Meets p w (liftM (s.register name) >>= f) y :=
  .lift fun _ hr => place_of_register hr ▸ h

theorem value_of_literal {x : Operand} {v : Int32} (h : x.literal? = some v) :
    s.value w x = pure (.int v) := by
  cases x with
  | literal value ty =>
    cases h
    rfl
  | _ => cases h

theorem meets_load (hp : p.Sound) (x : Operand) :
    Meets p w (s.load x) (.push (s.value w x)) := by
  induction x with
  | literal value ty => exact .op hp rfl
  | var name ty =>
    rw [load, value, ← ty.kind_eq]
    exact meets_register (.op hp rfl)
  | element array index ty ih =>
    refine meets_register ?_
    refine .congr (.bind (.op hp rfl) fun _ => .bind ih fun _ => .op hp rfl) fun stack => ?_
    rw [StackEffect.op_load, StackEffect.andThen_of_push, value, ← ty.elementKind_eq]
    simp only [StackEffect.andThen_of_push, StackEffect.push, bind_assoc]
    refine bind_congr fun base => bind_congr fun i => ?_
    exact StackEffect.op_request rfl [base, i] rfl stack
  | self =>
    unfold load
    split
    · exact .fail _ _
    · exact .op hp rfl

theorem mapM_bind_congr {α β γ : Type} {f : α → Run Memory β} {g g' : List β → Run Memory γ}
    {l : List α} (h : ∀ data, data.length = l.length → g data = g' data) :
    l.mapM f >>= g = l.mapM f >>= g' := by
  induction l generalizing g g' with
  | nil =>
    rw [List.mapM_nil, pure_bind, pure_bind]
    exact h [] rfl
  | cons x rest ih =>
    simp only [List.mapM_cons, bind_assoc, pure_bind]
    refine bind_congr fun d => ih fun data hdata => h (d :: data) ?_
    rw [List.length_cons, List.length_cons, hdata]

def asks (s : Scope) (w : World Memory) (r : Request) (operands : List Operand) (pushes : Nat) :
    StackEffect Memory := fun stack => do
  let data ← operands.mapM (s.value w)
  let d ← Run.request w r data
  return .on (List.replicate pushes d ++ stack)

theorem meets_loadAll (hp : p.Sound) (l : List Operand) :
    Meets p w (s.loadAll l) (.pushAll (l.mapM (s.value w))) := by
  induction l with
  | nil => exact .pure ()
  | cons x rest ih =>
    refine .congr (.bind (meets_load hp x) fun _ => ih) fun stack => ?_
    rw [StackEffect.andThen_of_push, List.mapM_cons]
    simp only [StackEffect.pushAll, bind_assoc, pure_bind, List.reverse_cons, List.append_assoc,
      List.singleton_append]

theorem meets_loadArguments {β : Type} {l : List Operand} {f : Nat → Lower β}
    {y : StackEffect Memory} (hp : p.Sound) (hf : Meets p w (f l.length) y) :
    Meets p w (s.loadArguments l >>= f) ((StackEffect.pushAll (l.mapM (s.value w))).andThen y) := by
  rw [loadArguments, bind_assoc]
  refine .bind (meets_loadAll hp l) fun _ => ?_
  split
  · exact .fail_bind _ _ _
  · exact hf

theorem callDescriptor_eq {c : Call} {text : String} (h : s.callDescriptor c = .ok text) :
    text = s.callText c := ClassHeader.methodDescriptor_eq h

theorem specialOwner_eq {receiver : Operand} {name : String}
    (h : s.specialOwner receiver = .ok name) : name = s.specialClass receiver := by
  unfold specialOwner at h
  unfold specialClass
  split at h
  · next hself =>
    cases h
    rw [if_pos hself, ClassHeader.superName_eq]
  · next hself =>
    rw [if_neg hself]
    exact ClassHeader.memberOwner_eq h

theorem meets_request {o : Op} {r : Request} (hp : p.Sound) (hr : requestOf o = some r) :
    Meets p w (Lower.op o) (.op w o) := by
  refine .op hp ?_
  cases o with
  | other => cases hr
  | _ => rfl

theorem pushAll_andThen_op {o : Op} {r : Request} (hr : requestOf o = some r) (l : List Operand)
    (hpops : o.pops = l.length) (stack : List Datum) :
    (StackEffect.pushAll (l.mapM (s.value w))).andThen (.op w o) stack =
      s.asks w r l o.pushes stack := by
  rw [StackEffect.andThen_of_pushAll]
  refine mapM_bind_congr fun data hdata => ?_
  exact StackEffect.op_request hr data (hpops.trans hdata.symm) stack

theorem push_andThen_op {o : Op} {r : Request} (hr : requestOf o = some r) (x : Operand)
    (hpops : o.pops = 1) (stack : List Datum) :
    (StackEffect.push (s.value w x)).andThen (.op w o) stack = s.asks w r [x] o.pushes stack := by
  rw [← pushAll_andThen_op hr [x] hpops, StackEffect.andThen_of_push, StackEffect.andThen_of_pushAll,
    List.mapM_cons, List.mapM_nil]
  simp only [bind_assoc, pure_bind]
  rfl

theorem meets_invoke (hp : p.Sound) (receiver : Operand) (arguments : List Operand)
    {owner descriptor : Except Fault String} {target text : String} {o : String → String → Nat → Op}
    {r : Request} {pushes : Nat} (howner : ∀ name, owner = .ok name → name = target)
    (hdescriptor : ∀ sig, descriptor = .ok sig → sig = text)
    (hr : requestOf (o target text arguments.length) = some r)
    (ho : ∀ name sig count, (o name sig count).pops = count + 1 ∧
      (o name sig count).pushes = pushes) :
    Meets p w (do
      s.load receiver
      let count ← s.loadArguments arguments
      let owner ← owner
      let descriptor ← descriptor
      .op (o owner descriptor count)) (s.asks w r (receiver :: arguments) pushes) := by
  have htail : Meets p w (do
      let owner ← owner
      let descriptor ← descriptor
      .op (o owner descriptor arguments.length))
      (.op w (o target text arguments.length)) := by
    refine .lift fun name hname => .lift fun sig hsig => ?_
    obtain rfl := howner name hname
    obtain rfl := hdescriptor sig hsig
    exact meets_request hp hr
  obtain ⟨hpops, rfl⟩ := ho target text arguments.length
  refine .congr (.bind (meets_load hp receiver) fun _ => meets_loadArguments hp htail) fun stack => ?_
  rw [← pushAll_andThen_op hr (receiver :: arguments) hpops, StackEffect.andThen_of_push,
    StackEffect.andThen_of_pushAll, List.mapM_cons]
  simp only [StackEffect.andThen_of_pushAll, bind_assoc, pure_bind, List.reverse_cons,
    List.append_assoc, List.singleton_append]

def answers (c : Call) : Nat :=
  match c.callee with
  | .new => if c.result.isArray then 1 else 2
  | .length _ => 1
  | _ => if c.result = .void then 0 else 1

theorem meets_newArray (hp : p.Sound) (element : Ty) (length : Operand) :
    Meets p w (s.newArray element length) (s.asks w (s.arrayRequest element) [length] 1) := by
  have hop {o : Op} {x : Lower Unit} (hr : requestOf o = some (s.arrayRequest element))
      (hpops : o.pops = 1) (hpushes : o.pushes = 1) (hx : Meets p w x (.op w o)) :
      Meets p w (s.load length >>= fun _ => x) (s.asks w (s.arrayRequest element) [length] 1) := by
    refine .congr (.bind (meets_load hp length) fun _ => hx) fun stack => ?_
    rw [push_andThen_op hr length hpops, hpushes]
  have hnamed (hr : s.arrayRequest element = .newReferenceArray (s.header.memberClass element)) :
      Meets p w (do
        s.load length
        let className ← s.header.memberOwner element
        .op (.newReferenceArray className)) (s.asks w (s.arrayRequest element) [length] 1) := by
    refine hop (o := .newReferenceArray (s.header.memberClass element))
      (congrArg some hr.symm) rfl rfl (.lift fun className hname => ?_)
    rw [ClassHeader.memberOwner_eq hname]
    exact .op hp rfl
  cases element with
  | int => exact hop rfl rfl rfl (.op hp rfl)
  | bool => exact hop rfl rfl rfl (.op hp rfl)
  | _ => exact hnamed rfl

theorem meets_newObject (hp : p.Sound) (ty : Ty) :
    Meets p w (s.newObject ty) (s.asks w (.newObject (s.header.memberClass ty)) [] 2) := by
  refine .lift fun className hname => ?_
  obtain rfl := ClassHeader.memberOwner_eq hname
  refine .congr (.bind (.op hp rfl) fun _ => .op hp rfl) fun stack => ?_
  have hpush : StackEffect.op w (.newObject (s.header.memberClass ty)) =
      .push (Run.request w (.newObject (s.header.memberClass ty)) []) :=
    funext fun stack => StackEffect.op_request rfl [] rfl stack
  rw [hpush, StackEffect.andThen_of_push, asks, List.mapM_nil, pure_bind]
  rfl

theorem meets_call (hp : p.Sound) (c : Call) :
    Meets p w (s.call c) (s.asks w (s.requestFor c) c.inputs (answers c)) := by
  obtain ⟨callee, arguments, result⟩ := c
  cases callee with
  | new =>
    unfold call
    dsimp only
    split
    · exact meets_newArray hp _ _
    · exact .fail _ _
    · next hno =>
      cases result with
      | array element => exact absurd rfl (hno element)
      | _ => exact meets_newObject hp _
    · exact .fail _ _
  | length array =>
    refine .congr (.bind (meets_load hp array) fun _ => .op hp rfl) fun stack => ?_
    exact push_andThen_op rfl array rfl stack
  | static className method =>
    have htail : Meets p w (do
        let descriptor ← s.callDescriptor ⟨.static className method, arguments, result⟩
        .op (.invoke .static (s.header.qualifiedName className) method descriptor arguments.length
          (if result = .void then 0 else 1)))
        (.op w (.invoke .static (s.header.classPath className) method
          (s.callText ⟨.static className method, arguments, result⟩) arguments.length
          (if result = .void then 0 else 1))) := by
      refine .lift fun sig hsig => ?_
      rw [s.header.qualifiedName_eq, callDescriptor_eq hsig]
      exact .op hp rfl
    refine .congr (meets_loadArguments hp htail) fun stack => ?_
    exact pushAll_andThen_op rfl arguments rfl stack
  | virtual receiver method =>
    exact meets_invoke hp receiver arguments (fun _ => ClassHeader.memberOwner_eq)
      (fun _ => callDescriptor_eq) rfl fun _ _ _ => ⟨rfl, rfl⟩
  | special receiver method =>
    exact meets_invoke hp receiver arguments (fun _ => specialOwner_eq)
      (fun _ => callDescriptor_eq) rfl fun _ _ _ => ⟨rfl, rfl⟩

end Scope

end ClassLowering
