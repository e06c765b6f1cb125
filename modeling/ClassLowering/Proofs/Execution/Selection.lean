import ClassLowering.Proofs.Execution.Operands

namespace ClassLowering

namespace Scope

open StackMachine

variable {Memory : Type} {s : Scope} {p : Program} {w : World Memory}

theorem meets_unary (hp : p.Sound) {j : Jump} {f : Int32 → Bool} {label : String}
    (hpops : j.pops = 1) (hf : ∀ d stack, decideJump j (d :: stack) = some (f d.word, stack))
    (hfind : ∃ t, p.find label = some t) : Meets p w (Lower.jump j label) fun stack =>
      StackEffect.turn p label (f (stack.headD (.int 0)).word) stack.tail := by
  refine .branch hp hfind (fun stack => (f (stack.headD (.int 0)).word, stack.tail)) ?_ ?_
  · rintro rfl
    cases hpops
  · intro stack hstack
    cases stack with
    | nil =>
      rw [hpops] at hstack
      cases hstack
    | cons d stack => exact hf d stack

theorem meets_test {x : Lower Unit} {e : Run Memory Datum} (hp : p.Sound) {j : Jump}
    {f : Int32 → Bool} {label : String} (hx : Meets p w x (.push e)) (hpops : j.pops = 1)
    (hf : ∀ d stack, decideJump j (d :: stack) = some (f d.word, stack))
    (hfind : ∃ t, p.find label = some t) :
    Meets p w (do x; .jump j label) (.branch p label do
      let d ← e
      return f d.word) := by
  refine .congr (.bind hx fun _ => meets_unary hp hpops hf hfind) fun stack => ?_
  rw [StackEffect.andThen_of_push, StackEffect.branch]
  simp only [bind_assoc, pure_bind]
  rfl

theorem meets_compare (hp : p.Sound) (op : Comparison) (left right : Operand) {label : String}
    (hfind : ∃ t, p.find label = some t) :
    Meets p w (s.compare op left right label) (.branch p label (s.compareValues w op left right)) := by
  unfold compare
  split
  · next hr =>
    have htest := meets_test (w := w) hp (meets_load (s := s) hp left) (j := withZero op)
      (f := fun x => holds op x 0) (by cases op <;> rfl) (by cases op <;> exact fun _ _ => rfl) hfind
    rw [compareValues, value_of_literal hr]
    exact htest
  · split
    · next hl =>
      have htest := meets_test (w := w) hp (meets_load (s := s) hp right) (j := zeroWith op)
        (f := fun x => holds op 0 x) (by cases op <;> rfl) (by cases op <;> exact fun _ _ => rfl)
        hfind
      rw [compareValues, value_of_literal hl, pure_bind]
      exact htest
    · refine .congr (.bind (meets_load hp left) fun _ => .bind (meets_load hp right) fun _ =>
        .branch hp hfind (fun stack => (holds op (stack.tail.headD (.int 0)).word
          (stack.headD (.int 0)).word, stack.tail.tail)) ?_ ?_) fun stack => ?_
      · cases op <;> decide
      · intro stack hpops
        match stack, hpops with
        | [], hpops => cases op <;> cases hpops
        | [_], hpops => cases op <;> simp [withOther, Jump.pops] at hpops
        | _ :: _ :: _, _ => cases op <;> rfl
      · simp only [StackEffect.andThen_of_push, StackEffect.branch, compareValues, bind_assoc,
          pure_bind]
        rfl

theorem meets_comparison (hp : p.Sound) (op : Comparison) (left right : Operand) :
    Meets p w (s.comparison op left right) (.push do
      let b ← s.compareValues w op left right
      return .ofBool b) := by
  refine .fresh fun holds hholds => .fresh fun done _ => ?_
  have htest (hfind : ∃ t, p.find holds = some t) : Meets p w (s.compare op left right holds)
      (.test holds (s.compareValues w op left right)) :=
    .congr (meets_compare hp op left right hfind) (StackEffect.branch_of_not_mem hholds _)
  exact .congr (.choose hp done 0 1 htest) fun stack => StackEffect.choose_test _ _ _ _ _

theorem meets_conjunction (hp : p.Sound) (left right : Operand) :
    Meets p w (s.conjunction left right) (.push do
      let fails ← s.eitherFails w left right
      return .ofBool !fails) := by
  refine .fresh fun fails hfails => .fresh fun done _ => ?_
  have htest (hfind : ∃ t, p.find fails = some t) : Meets p w (do
      s.load left
      .jump .eqZero fails
      s.load right
      .jump .eqZero fails) (.test fails (s.eitherFails w left right)) := by
    have hzero : Meets p w (Lower.jump .eqZero fails) _ :=
      meets_unary hp (f := fun x => decide (x = 0)) rfl (fun _ _ => rfl) hfind
    refine .congr (.bind (meets_load hp left) fun _ => .bind hzero fun _ =>
      .bind (meets_load hp right) fun _ => hzero) fun stack => ?_
    simp only [StackEffect.andThen_of_push, StackEffect.test, eitherFails, bind_assoc]
    refine bind_congr fun x => ?_
    simp only [StackEffect.andThen, StackEffect.turn_of_not_mem hfails, List.headD_cons,
      List.tail_cons, pure_bind]
    by_cases hx : x.word = 0
    · simp only [hx, decide_true, if_true]
      rfl
    · simp only [hx, decide_false, if_false, StackEffect.push, bind_assoc, pure_bind]
      rfl
  have hall := Meets.choose hp done 1 0 htest
  simp only [bind_assoc] at hall
  refine .congr hall fun stack => (StackEffect.choose_test _ _ _ _ _).trans ?_
  refine congrArg (StackEffect.push · stack) (bind_congr fun b => ?_)
  cases b <;> rfl

theorem meets_arithmetic (hp : p.Sound) (op : Arithmetic) (left right : Operand) :
    Meets p w (s.arithmetic op left right) (.push do
      let x ← s.value w left
      let y ← s.value w right
      Run.arithmetic w op x.word y.word) := by
  refine .congr (.bind (meets_load hp left) fun _ => .bind (meets_load hp right) fun _ =>
    .op hp rfl) fun stack => ?_
  simp only [StackEffect.andThen_of_push, StackEffect.op_arithmetic, StackEffect.push, bind_assoc]

theorem truth_eq {d : Datum} {b : Bool} (h : d.truth? = some b) : d.word = if b then 1 else 0 := by
  unfold Datum.truth? at h
  split at h
  · next hd =>
    cases h
    exact hd
  · split at h
    · next hd =>
      cases h
      exact hd
    · cases h

theorem agrees_truth {β : Type} {d : Datum} {e : Run Memory β} {f : Bool → Run Memory β}
    (h : ∀ b, d.word = (if b then 1 else 0) → e.Agrees (f b)) : e.Agrees (Run.truth d >>= f) := by
  unfold Run.truth
  cases hd : d.truth? with
  | some b => exact h b (truth_eq hd)
  | none => exact fun st => .inr ⟨st, rfl⟩

theorem meets_binary (hp : p.Sound) (op : BinaryOp) (left right : Operand) :
    Meets p w (s.binary op left right) (.push (s.binaryValue w op left right)) := by
  cases op with
  | and => exact meets_conjunction hp left right
  | lt => exact meets_comparison hp .lt left right
  | ge => exact meets_comparison hp .ge left right
  | or =>
    refine .weaken (meets_arithmetic hp .or left right) fun stack => ?_
    simp only [StackEffect.push, binaryValue, bind_assoc]
    refine .bind fun x => .bind fun y => agrees_truth fun b hb => agrees_truth fun c hc => ?_
    simp only [Run.arithmetic, hb, hc, pure_bind]
    refine .of_eq ?_
    cases b <;> cases c <;> rfl
  | _ => exact meets_arithmetic hp _ left right

theorem meets_not (hp : p.Sound) (x : Operand) :
    Meets p w (s.expression (.not x)) (.push (s.evaluate w (.not x))) := by
  refine .weaken (.bind (.op hp rfl) fun _ => .bind (meets_load hp x) fun _ => .op hp rfl)
    fun stack => ?_
  rw [StackEffect.op_const, StackEffect.andThen_of_push, pure_bind, StackEffect.andThen_of_push]
  simp only [StackEffect.op_arithmetic, StackEffect.push, evaluate, bind_assoc]
  refine .bind fun d => agrees_truth fun b hb => ?_
  simp only [Run.arithmetic, hb, pure_bind]
  refine .of_eq ?_
  cases b <;> rfl

theorem fieldTarget_eq_ok {object : Operand} {field : FieldRef} {target : String × String}
    (h : s.fieldTarget object field = .ok target) :
    s.header.memberOwner object.ty = .ok target.1 ∧ s.header.descriptor field.ty = .ok target.2 := by
  unfold fieldTarget at h
  cases ho : s.header.memberOwner object.ty with
  | error fault =>
    rw [ho] at h
    cases h
  | ok owner =>
    cases hd : s.header.descriptor field.ty with
    | error fault =>
      rw [ho, hd] at h
      cases h
    | ok descriptor =>
      rw [ho, hd] at h
      cases h
      exact ⟨rfl, rfl⟩

theorem meets_field (hp : p.Sound) (object : Operand) (field : FieldRef) {o : String → String → Op}
    (ho : ∀ owner descriptor, (o owner descriptor).isKnown = true) :
    Meets p w (do let target ← s.fieldTarget object field; Lower.op (o target.1 target.2))
      (.op w (o (s.header.memberClass object.ty) (s.header.machineType field.ty).text)) := by
  refine .lift fun target htarget => ?_
  obtain ⟨howner, hdescriptor⟩ := fieldTarget_eq_ok htarget
  rw [ClassHeader.memberOwner_eq howner, ClassHeader.descriptor_eq hdescriptor]
  exact .op hp (ho _ _)

theorem meets_getField (hp : p.Sound) (object : Operand) (field : FieldRef) :
    Meets p w (s.expression (.getField object field)) (.push (s.evaluate w (.getField object field))) := by
  refine .congr (.bind (meets_load hp object) fun _ =>
    meets_field hp object field (o := fun owner descriptor => .getField owner field.name descriptor)
      fun _ _ => rfl) fun stack => ?_
  rw [StackEffect.andThen_of_push]
  simp only [StackEffect.push, evaluate, bind_assoc]
  exact bind_congr fun d => StackEffect.op_request rfl [d] rfl stack

def residue (i : Instruction) (d : Datum) : List Datum :=
  match i with
  | .call c => List.replicate (answers c - 1) d
  | _ => []

def keeps (s : Scope) (w : World Memory) (i : Instruction) : StackEffect Memory := fun stack => do
  let d ← s.evaluate w i
  return .on (d :: (residue i d ++ stack))

theorem meets_expression (hp : p.Sound) (i : Instruction) :
    Meets p w (s.expression i) (s.keeps w i) := by
  cases i with
  | single x => exact meets_load hp x
  | binary op left right => exact meets_binary hp op left right
  | not x => exact meets_not hp x
  | getField object field => exact meets_getField hp object field
  | call c =>
    unfold expression
    dsimp only
    split
    · exact .fail _ _
    · next hvoid =>
      have hone : answers c = answers c - 1 + 1 := by
        unfold answers
        split
        · split <;> rfl
        · rfl
        · rw [if_neg hvoid]
      refine .congr (meets_call hp c) fun stack => ?_
      simp only [asks, keeps, evaluate, residue, bind_assoc]
      rw [hone]
      rfl
  | assign | ret | putField | goto | branch => exact .fail _ _

def control : Landing → Control Datum
  | .on _ => .next
  | .jump label _ => .jump label
  | .out value => .ret value

def landing : Control Datum → Landing
  | .next => .on []
  | .jump label => .jump label []
  | .ret value => .out value

theorem control_comp_landing : control ∘ landing = id := by
  funext c
  cases c <;> rfl

def Selects (s : Scope) (p : Program) (w : World Memory) (x : Lower Unit) (i : Instruction) : Prop :=
  ∃ y, Meets p w x y ∧ ∀ stack, control <$> y stack = s.execute w i

theorem selects_fail (fault : Fault) (i : Instruction) : Selects s p w (Lower.fail fault) i := by
  refine ⟨fun _ => landing <$> s.execute w i, .fail fault _, fun _ => ?_⟩
  rw [← comp_map, control_comp_landing, id_map]

theorem slotKind_of_isScalar {ty : Ty} (h : ty.isScalar = true) : ty.slotKind = .int := by
  cases ty <;> first | rfl | cases h

theorem binaryValue_of_increment? {op : BinaryOp} {left right : Operand} {name other : String}
    {ty : Ty} {delta : Int} (h : increment? (.var other ty) (.binary op left right) = some (name, delta)) :
    other = name ∧ ty.slotKind = .int ∧ s.binaryValue w op left right = (do
      let d ← Run.load .int (s.place name)
      return .int (d.word + .ofInt delta) : Run Memory Datum) := by
  obtain ⟨ty', hd, hscalar, other, other', v, hshape⟩ := increment?_eq_some h
  cases hd
  refine ⟨rfl, slotKind_of_isScalar hscalar, ?_⟩
  have hv : (Operand.literal v other').literal? = some v := rfl
  rcases hshape with ⟨he, rfl⟩ | ⟨he, rfl⟩ | ⟨he, rfl⟩
  · cases he
    rw [binaryValue, value_of_literal hv, Int32.ofInt_toInt]
    rfl
  · cases he
    rw [binaryValue, value_of_literal hv, Int32.ofInt_toInt, pure_bind]
    simp only [Int32.add_comm _ v]
    rfl
  · cases he
    rw [binaryValue, value_of_literal hv, Int32.ofInt_neg, Int32.ofInt_toInt]
    simp only [← Int32.sub_eq_add_neg]
    rfl

theorem selects_increment (hp : p.Sound) {destination : Operand} {value : Instruction}
    {name : String} {delta : Int} (h : increment? destination value = some (name, delta)) :
    Selects s p w (do
      let register ← s.register name
      Lower.op (.increment register delta)) (.assign destination value) := by
  refine ⟨_, meets_register (.op hp rfl), fun stack => ?_⟩
  match destination, value, h with
  | .var other ty, .binary op left right, h =>
    obtain ⟨rfl, hkind, hvalue⟩ := binaryValue_of_increment? (s := s) (w := w) h
    rw [execute, evaluate, hvalue, hkind]
    rfl

section Element

variable {array : String} {index : Operand} {ty : Ty} {value : Instruction}

def elementOperands (s : Scope) (array : String) (index : Operand) (value : Instruction) :
    Lower Unit := do
  let register ← s.register array
  .op (.load .reference register)
  s.load index
  s.expression value

theorem statement_element : s.statement (.assign (.element array index ty) value) = (do
    s.elementOperands array index value
    .op (.storeElement ty.elementKind)) := by
  simp only [statement, assign, increment?, elementOperands, bind_assoc]

def elementData (s : Scope) (w : World Memory) (array : String) (index : Operand)
    (value : Instruction) : Run Memory (Datum × Datum × Datum) := do
  let base ← Run.load .reference (s.place array)
  let i ← s.value w index
  let d ← s.evaluate w value
  return (base, i, d)

section Arranged

variable {left taken : Datum → Datum → Datum → List Datum}
  (harranged : ∀ base i d,
    d :: (residue value d ++ [i, base]) = (left base i d ++ taken base i d).reverse)
  (hthree : ∀ base i d, (taken base i d).length = 3)
include harranged

theorem meets_elementOperands (hp : p.Sound) :
    Meets p w (s.elementOperands array index value) (.pushAll do
      let (base, i, d) ← s.elementData w array index value
      return left base i d ++ taken base i d) := by
  refine .congr (meets_register (.bind (.op hp rfl) fun _ => .bind (meets_load hp index) fun _ =>
    meets_expression hp value)) fun stack => ?_
  rw [StackEffect.op_load, StackEffect.andThen_of_push]
  simp only [StackEffect.andThen_of_push, StackEffect.pushAll, elementData, keeps, bind_assoc,
    pure_bind]
  refine bind_congr fun base => bind_congr fun i => bind_congr fun d => ?_
  rw [← harranged, List.cons_append, List.append_assoc]
  rfl

include hthree

theorem meets_element (hp : p.Sound) :
    Meets p w (s.statement (.assign (.element array index ty) value)) (.pushAll do
      let (base, i, d) ← s.elementData w array index value
      let _ ← Run.request w (.storeElement ty.elementKind) (taken base i d)
      return left base i d) := by
  rw [statement_element]
  refine .congr (.bind (meets_elementOperands harranged hp) fun _ => .op hp rfl) fun stack => ?_
  rw [StackEffect.andThen_of_pushAll]
  simp only [StackEffect.pushAll, bind_assoc, pure_bind, List.reverse_append, List.append_assoc]
  refine bind_congr fun data => ?_
  obtain ⟨base, i, d⟩ := data
  exact StackEffect.op_request (o := .storeElement ty.elementKind) rfl (taken base i d)
    (hthree base i d).symm ((left base i d).reverse ++ stack)

end Arranged

theorem selects_element (hp : p.Sound) (hnew : ∀ d, residue value d = []) :
    Selects s p w (s.statement (.assign (.element array index ty) value))
      (.assign (.element array index ty) value) := by
  have harranged (base i d : Datum) :
      d :: (residue value d ++ [i, base]) = ([] ++ [base, i, d]).reverse := by
    rw [hnew]
    rfl
  refine ⟨_, meets_element harranged (fun _ _ _ => rfl) hp, fun stack => ?_⟩
  simp only [StackEffect.pushAll, elementData, execute, ty.elementKind_eq, bind_assoc, pure_bind,
    map_bind, map_pure, control]

end Element

theorem selects_assign (hp : p.Sound) {destination : Operand} {value : Instruction}
    (hnew : ∀ array index ty d, destination = .element array index ty → residue value d = []) :
    Selects s p w (s.assign destination value) (.assign destination value) := by
  cases destination with
  | element array index ty => exact selects_element hp fun d => hnew array index ty d rfl
  | var name ty =>
    unfold assign
    split
    · next name delta hinc => exact selects_increment hp hinc
    · refine ⟨_, .bind (meets_expression hp value) fun _ => meets_register (.op hp rfl),
        fun stack => ?_⟩
      simp only [StackEffect.andThen, keeps, execute, bind_assoc, pure_bind, StackEffect.op_store,
        map_bind, map_pure, control, ty.kind_eq]
  | literal | self => exact selects_fail _ _

theorem turn_of_mem {label : String} (h : label ∈ p.labels) (taken : Bool) (stack : List Datum) :
    (StackEffect.turn p label taken stack : Run Memory Landing) = do
      Run.note (.branch taken)
      return if taken then .jump label stack else .on stack := by
  funext st
  unfold StackEffect.turn Program.noteBranch
  rw [if_pos h]
  rfl

theorem control_turn {label : String} (h : label ∈ p.labels) (taken : Bool) (stack : List Datum) :
    control <$> (StackEffect.turn p label taken stack : Run Memory Landing) = do
      Run.note (.branch taken)
      return if taken then .jump label else .next := by
  rw [turn_of_mem h, map_bind]
  refine bind_congr fun _ => ?_
  cases taken <;> rfl

theorem selects_byValue (hp : p.Sound) (condition : Instruction) {label : String}
    (hlabel : label ∈ p.labels) (hfind : ∃ t, p.find label = some t) :
    Selects s p w (do s.expression condition; .jump .neZero label) (.branch condition label) := by
  have hjump : Meets p w (Lower.jump .neZero label) _ :=
    meets_unary hp (f := fun x => decide (x ≠ 0)) rfl (fun _ _ => rfl) hfind
  refine ⟨_, .bind (meets_expression hp condition) fun _ => hjump, fun stack => ?_⟩
  simp only [StackEffect.andThen, keeps, execute, bind_assoc, pure_bind, map_bind, List.headD_cons,
    List.tail_cons, control_turn hlabel]
  rfl

theorem selects_compare (hp : p.Sound) {op : BinaryOp} {comparison : Comparison}
    (hop : op.comparison? = some comparison) (left right : Operand) {label : String}
    (hlabel : label ∈ p.labels) (hfind : ∃ t, p.find label = some t) :
    Selects s p w (s.compare comparison left right label) (.branch (.binary op left right) label) := by
  have hvalue : s.evaluate w (.binary op left right) = (do
      let b ← s.compareValues w comparison left right
      return .ofBool b : Run Memory Datum) := by
    cases op <;> cases hop <;> rfl
  refine ⟨_, meets_compare hp comparison left right hfind, fun stack => ?_⟩
  simp only [StackEffect.branch, execute, hvalue, bind_assoc, pure_bind, map_bind,
    control_turn hlabel]
  refine bind_congr fun b => ?_
  cases b <;> rfl

theorem selects_branch (hp : p.Sound) (condition : Instruction) {label : String}
    (hlabel : label ∈ p.labels) (hfind : ∃ t, p.find label = some t) :
    Selects s p w (s.branch condition label) (.branch condition label) := by
  unfold branch
  dsimp only
  split
  · split
    · next hop => exact selects_compare hp hop _ _ hlabel hfind
    · exact selects_byValue hp _ hlabel hfind
  · exact selects_byValue hp _ hlabel hfind

theorem op_pop (stack : List Datum) :
    (StackEffect.op w .pop stack : Run Memory Landing) = pure (.on stack.tail) := by
  cases stack <;> rfl

theorem selects_call (hp : p.Sound) (c : Call) : Selects s p w (s.statement (.call c)) (.call c) := by
  unfold statement
  dsimp only
  split
  · refine ⟨_, .bind (meets_call hp c) fun _ => .op hp rfl, fun stack => ?_⟩
    simp only [StackEffect.andThen, asks, execute, evaluate, op_pop, bind_assoc, pure_bind, map_bind,
      map_pure, control]
  · refine ⟨_, .bind (meets_call hp c) fun _ => .pure (), fun stack => ?_⟩
    simp only [StackEffect.andThen, StackEffect.skip, asks, execute, evaluate, bind_assoc, pure_bind,
      map_bind, map_pure, control]

theorem selects_value (hp : p.Sound) {i : Instruction}
    (hi : s.execute w i = (do let _ ← s.evaluate w i; return .next : Run Memory (Control Datum))) :
    Selects s p w (do s.expression i; .op .pop) i := by
  refine ⟨_, .bind (meets_expression hp i) fun _ => .op hp rfl, fun stack => ?_⟩
  simp only [StackEffect.andThen, keeps, hi, op_pop, bind_assoc, pure_bind, map_bind, map_pure,
    control]

theorem selects_putField (hp : p.Sound) (object : Operand) (field : FieldRef) (value : Operand) :
    Selects s p w (s.statement (.putField object field value)) (.putField object field value) := by
  refine ⟨_, .bind (meets_load hp object) fun _ => .bind (meets_load hp value) fun _ =>
    meets_field hp object field (o := fun owner descriptor => .putField owner field.name descriptor)
      fun _ _ => rfl, fun stack => ?_⟩
  simp only [StackEffect.andThen, StackEffect.push, execute, bind_assoc, pure_bind, map_bind]
  refine bind_congr fun target => bind_congr fun d => ?_
  refine (congrArg (control <$> ·) (StackEffect.op_request rfl [target, d] rfl stack)).trans ?_
  simp only [map_bind, map_pure, control]

theorem selects_ret (hp : p.Sound) (value : Option Operand) :
    Selects s p w (s.statement (.ret value)) (.ret value) := by
  cases value with
  | none => exact ⟨_, .exit_void, fun _ => rfl⟩
  | some x =>
    refine ⟨_, .bind (meets_load hp x) fun _ => .exit_value hp x.ty.kind, fun stack => ?_⟩
    rw [StackEffect.andThen_of_push, map_bind, x.ty.kind_eq]
    rfl

theorem selects_statement (hp : p.Sound) {i : Instruction}
    (hnew : ∀ array index ty value d, i = .assign (.element array index ty) value →
      residue value d = [])
    (hjump : ∀ label, i.target? = some label → label ∈ p.labels ∧ ∃ t, p.find label = some t) :
    Selects s p w (s.statement i) i := by
  cases i with
  | assign destination value =>
    refine selects_assign hp fun array index ty d h => hnew array index ty value d ?_
    rw [h]
  | call c => exact selects_call hp c
  | ret value => exact selects_ret hp value
  | putField object field value => exact selects_putField hp object field value
  | goto label => exact ⟨_, .goto label (hjump label rfl).2, fun _ => rfl⟩
  | branch condition label =>
    obtain ⟨hlabel, hfind⟩ := hjump label rfl
    exact selects_branch hp condition hlabel hfind
  | _ => exact selects_value hp rfl

end Scope

end ClassLowering
