import ClassLowering.Liveness.Basic
import ClassLowering.Proofs.Code.Balance
import ClassLowering.Proofs.Code.Mirroring

namespace ClassLowering

open Liveness (operandNames)
open Lower (Mirrors)

structure Method.Registered (m m' : Method) (names : List String) : Prop where
  static_eq : m'.isStatic = m.isStatic
  register : ∀ v ∈ names, ∀ r, m.table.register? v = some r → ∃ r', m'.table.register? v = some r'

theorem Method.Registered.refl (m : Method) (names : List String) : m.Registered m names :=
  ⟨rfl, fun _ _ r hr => ⟨r, hr⟩⟩

namespace Scope

variable {header : ClassHeader} {m m' : Method} {names : List String} {r : String → String → Prop}
  {blank : List String} {live : Bool} {label label' : String}

theorem mirrors_register {α : Type} (h : m.Registered m' names) {v : String} (hv : v ∈ names)
    {f f' : Nat → Lower α} {P : LabelSupply → Body → LabelSupply → Body → Prop}
    {Q : α → α → LabelSupply → Body → LabelSupply → Body → Prop}
    (hf : ∀ k k', Mirrors P (f k) (f' k') Q) :
    Mirrors P (liftM (register ⟨header, m⟩ v) >>= f) (liftM (register ⟨header, m'⟩ v) >>= f') Q := by
  refine .bind (.lift fun k hk => ?_) fun k k' => .assume fun _ => hf k k'
  obtain ⟨k', hk'⟩ := h.register v hv k (register_eq_ok.1 hk)
  exact ⟨k', register_eq_ok.2 hk'⟩

theorem mirrors_load (h : m.Registered m' names) {x : Operand}
    (hx : ∀ v ∈ x.mentions.map Prod.fst, v ∈ names) :
    Mirrors (Mirrored r blank live) (load ⟨header, m⟩ x) (load ⟨header, m'⟩ x) fun _ _ =>
      Mirrored r blank live := by
  induction x with
  | literal value ty => exact .op_self _
  | var name ty =>
    exact mirrors_register h (hx name (by simp [Operand.mentions])) fun k k' => .load _ k k'
  | element array index ty ih =>
    refine mirrors_register h (hx array (by simp [Operand.mentions])) fun k k' => ?_
    refine .bind (.load _ k k') fun _ _ => .bind (ih fun v hv => hx v ?_) fun _ _ => .op_self _
    simp only [Operand.mentions, List.map_cons]
    exact List.mem_cons_of_mem _ hv
  | self =>
    unfold load
    dsimp only
    rw [h.static_eq]
    split
    · exact .fail _ _ _
    · exact .op_self _

theorem mirrors_loadAll (h : m.Registered m' names) {l : List Operand}
    (hl : ∀ v ∈ operandNames l, v ∈ names) :
    Mirrors (Mirrored r blank live) (loadAll ⟨header, m⟩ l) (loadAll ⟨header, m'⟩ l) fun _ _ =>
      Mirrored r blank live := by
  induction l with
  | nil => exact .pure fun _ _ _ _ => id
  | cons x rest ih =>
    rw [operandNames, List.flatMap_cons, List.map_append] at hl
    refine .bind (mirrors_load h fun v hv => hl v ?_) fun _ _ => ih fun v hv => hl v ?_
    · exact List.mem_append_left _ hv
    · exact List.mem_append_right _ hv

theorem mirrors_loadArguments {α : Type} (h : m.Registered m' names) {l : List Operand}
    (hl : ∀ v ∈ operandNames l, v ∈ names) {f f' : Nat → Lower α}
    {Q : α → α → LabelSupply → Body → LabelSupply → Body → Prop}
    (hf : Mirrors (Mirrored r blank live) (f l.length) (f' l.length) Q) :
    Mirrors (Mirrored r blank live) (loadArguments ⟨header, m⟩ l >>= f)
      (loadArguments ⟨header, m'⟩ l >>= f') Q := by
  unfold loadArguments
  simp only [bind_assoc]
  refine .bind (mirrors_loadAll h hl) fun _ _ => ?_
  split
  · exact Lower.Mirrors.fail (.malformed .tooManyArguments) _ _
  · simpa only [pure_bind] using hf

theorem mirrors_invoke (h : m.Registered m' names) {l : List Operand}
    (hl : ∀ v ∈ operandNames l, v ∈ names) (owner descriptor : Except Fault String)
    (o : String → String → Nat → Op) :
    Mirrors (Mirrored r blank live) (do
      let count ← loadArguments ⟨header, m⟩ l
      let owner ← owner
      let descriptor ← descriptor
      .op (o owner descriptor count)) (do
      let count ← loadArguments ⟨header, m'⟩ l
      let owner ← owner
      let descriptor ← descriptor
      .op (o owner descriptor count)) fun _ _ => Mirrored r blank live :=
  mirrors_loadArguments h hl (.same fun _ => .same fun _ => .op_self _)

theorem mirrors_call (h : m.Registered m' names) {c : Call}
    (hc : ∀ v ∈ operandNames c.reads, v ∈ names) :
    Mirrors (Mirrored r blank live) (call ⟨header, m⟩ c) (call ⟨header, m'⟩ c) fun _ _ =>
      Mirrored r blank live := by
  have hone {x : Operand} (hx : x ∈ c.reads) : ∀ v ∈ x.mentions.map Prod.fst, v ∈ names := by
    intro v hv
    refine hc v ?_
    rw [operandNames, List.map_flatMap]
    exact List.mem_flatMap.2 ⟨x, hx, hv⟩
  have hall : ∀ v ∈ operandNames c.arguments, v ∈ names := by
    intro v hv
    refine hc v ?_
    rw [Call.reads, operandNames, List.flatMap_append, List.map_append]
    exact List.mem_append_right _ hv
  obtain ⟨callee, arguments, result⟩ := c
  cases callee with
  | new =>
    unfold call
    dsimp only
    split
    · refine .bind (mirrors_load h (hone (by simp [Call.reads]))) fun _ _ => ?_
      split
      · exact .op_self _
      · exact .op_self _
      · exact .same fun _ => .op_self _
    · exact .fail _ _ _
    · exact .same fun _ => .bind (.op_self _) fun _ _ => .op_self _
    · exact .fail _ _ _
  | length array =>
    have harray : array ∈ Call.reads ⟨.length array, arguments, result⟩ := by
      simp [Call.reads, Callee.receiver?]
    exact .bind (mirrors_load h (hone harray)) fun _ _ => .op_self _
  | static className method =>
    exact mirrors_loadArguments h hall (.same fun _ => .op_self _)
  | virtual receiver method =>
    have hreceiver : receiver ∈ Call.reads ⟨.virtual receiver method, arguments, result⟩ := by
      simp [Call.reads, Callee.receiver?]
    exact .bind (mirrors_load h (hone hreceiver)) fun _ _ => mirrors_invoke h hall _ _ _
  | special receiver method =>
    have hreceiver : receiver ∈ Call.reads ⟨.special receiver method, arguments, result⟩ := by
      simp [Call.reads, Callee.receiver?]
    exact .bind (mirrors_load h (hone hreceiver)) fun _ _ => mirrors_invoke h hall _ _ _

theorem mirrors_compare (h : m.Registered m' names) (op : Comparison) {left right : Operand}
    (hx : ∀ v ∈ operandNames [left, right], v ∈ names) (hlabel : r label label') :
    Mirrors (Mirrored r blank live) (compare ⟨header, m⟩ op left right label)
      (compare ⟨header, m'⟩ op left right label') fun _ _ => Mirrored r blank live := by
  have hleft : ∀ v ∈ left.mentions.map Prod.fst, v ∈ names := fun v hv =>
    hx v (by simp [operandNames, List.mem_map.1 hv])
  have hright : ∀ v ∈ right.mentions.map Prod.fst, v ∈ names := fun v hv =>
    hx v (by simp [operandNames, List.mem_map.1 hv])
  unfold compare
  split
  · exact .bind (mirrors_load h hleft) fun _ _ => .jump_on hlabel (by cases op <;> rfl)
  · split
    · exact .bind (mirrors_load h hright) fun _ _ => .jump_on hlabel (by cases op <;> rfl)
    · refine .bind (mirrors_load h hleft) fun _ _ => .bind (mirrors_load h hright) fun _ _ => ?_
      exact .jump_on hlabel (by cases op <;> rfl)

theorem mirrors_join {other other' done done' : String} (v w : Int32) (ho : r other other')
    (hd : r done done') :
    Mirrors (Mirrored r blank live) (do
      Lower.op (.const v)
      .jump .always done
      .line (.label other)
      .op (.const w)
      .line (.label done)) (do
      Lower.op (.const v)
      .jump .always done'
      .line (.label other')
      .op (.const w)
      .line (.label done')) fun _ _ => Mirrored r blank true :=
  .bind (.op_self _) fun _ _ => .bind (.jump hd) fun _ _ => .bind (.label ho) fun _ _ =>
    .bind (.op_self _) fun _ _ => .label hd

theorem mirrors_comparison (h : m.Registered m' names) (op : Comparison) {left right : Operand}
    (hx : ∀ v ∈ operandNames [left, right], v ∈ names) :
    Mirrors (Mirrored r blank live) (comparison ⟨header, m⟩ op left right)
      (comparison ⟨header, m'⟩ op left right) fun _ _ => Mirrored r blank live := by
  refine .bind (.fresh _) fun holds holds' => .bind (.fresh _) fun done done' => ?_
  have hholds : joined (joined r holds holds') done done' holds holds' := .inl (.inr ⟨rfl, rfl⟩)
  have hdone : joined (joined r holds holds') done done' done done' := .inr ⟨rfl, rfl⟩
  refine .bind (mirrors_compare h op hx hholds) fun _ _ => ?_
  exact (mirrors_join 0 1 hholds hdone).mono fun _ _ _ _ _ _ => Mirrored.leave

theorem mirrors_conjunction (h : m.Registered m' names) {left right : Operand}
    (hx : ∀ v ∈ operandNames [left, right], v ∈ names) :
    Mirrors (Mirrored r blank live) (conjunction ⟨header, m⟩ left right)
      (conjunction ⟨header, m'⟩ left right) fun _ _ => Mirrored r blank live := by
  refine .bind (.fresh _) fun fails fails' => .bind (.fresh _) fun done done' => ?_
  have hfails : joined (joined r fails fails') done done' fails fails' := .inl (.inr ⟨rfl, rfl⟩)
  have hdone : joined (joined r fails fails') done done' done done' := .inr ⟨rfl, rfl⟩
  refine .bind (mirrors_load h fun v hv => hx v ?_) fun _ _ => .bind (.jump hfails) fun _ _ => ?_
  · simp [operandNames, List.mem_map.1 hv]
  refine .bind (mirrors_load h fun v hv => hx v ?_) fun _ _ => .bind (.jump hfails) fun _ _ => ?_
  · simp [operandNames, List.mem_map.1 hv]
  exact (mirrors_join 1 0 hfails hdone).mono fun _ _ _ _ _ _ => Mirrored.leave

theorem mirrors_arithmetic (h : m.Registered m' names) (op : Arithmetic) {left right : Operand}
    (hx : ∀ v ∈ operandNames [left, right], v ∈ names) :
    Mirrors (Mirrored r blank live) (arithmetic ⟨header, m⟩ op left right)
      (arithmetic ⟨header, m'⟩ op left right) fun _ _ => Mirrored r blank live := by
  refine .bind (mirrors_load h fun v hv => hx v ?_) fun _ _ => ?_
  · simp [operandNames, List.mem_map.1 hv]
  refine .bind (mirrors_load h fun v hv => hx v ?_) fun _ _ => .op_self _
  simp [operandNames, List.mem_map.1 hv]

theorem mirrors_expression (h : m.Registered m' names) {i : Instruction}
    (hi : ∀ v ∈ operandNames i.reads, v ∈ names) :
    Mirrors (Mirrored r blank live) (expression ⟨header, m⟩ i) (expression ⟨header, m'⟩ i)
      fun _ _ => Mirrored r blank live := by
  cases i with
  | single x =>
    refine mirrors_load h fun v hv => hi v ?_
    simp [operandNames, Instruction.reads, List.mem_map.1 hv]
  | binary op left right =>
    cases op with
    | and => exact mirrors_conjunction h hi
    | lt => exact mirrors_comparison h .lt hi
    | ge => exact mirrors_comparison h .ge hi
    | _ => exact mirrors_arithmetic h _ hi
  | not x =>
    refine .bind (.op_self _) fun _ _ => .bind (mirrors_load h fun v hv => hi v ?_) fun _ _ =>
      .op_self _
    simp [operandNames, Instruction.reads, List.mem_map.1 hv]
  | call c =>
    unfold expression
    dsimp only
    split
    · exact .fail _ _ _
    · exact mirrors_call h hi
  | getField object field =>
    refine .bind (mirrors_load h fun v hv => hi v ?_) fun _ _ => .same fun _ => .op_self _
    simp [operandNames, Instruction.reads, List.mem_map.1 hv]
  | _ => exact .fail _ _ _

theorem mirrors_assign (h : m.Registered m' names) {destination : Operand} {value : Instruction}
    (hi : ∀ v ∈ (Instruction.assign destination value).mentions.map Prod.fst, v ∈ names) :
    Mirrors (Mirrored r blank live) (assign ⟨header, m⟩ destination value)
      (assign ⟨header, m'⟩ destination value) fun _ _ => Mirrored r blank live := by
  rw [Instruction.mentions_assign, List.map_append] at hi
  have hplace : ∀ v ∈ destination.mentions.map Prod.fst, v ∈ names := fun v hv =>
    hi v (List.mem_append_left _ hv)
  have hvalue : ∀ v ∈ operandNames value.reads, v ∈ names := fun v hv =>
    hi v (List.mem_append_right _ hv)
  unfold assign
  split
  · next name delta hincrement =>
    obtain ⟨ty, rfl, -⟩ := increment?_eq_some hincrement
    exact mirrors_register h (hplace name (by simp [Operand.mentions])) fun k k' =>
      .increment k k' delta
  · split
    · next name ty _ =>
      refine .bind (mirrors_expression h hvalue) fun _ _ => ?_
      exact mirrors_register h (hplace name (by simp [Operand.mentions])) fun k k' => .store _ k k'
    · next array index ty _ =>
      refine mirrors_register h (hplace array (by simp [Operand.mentions])) fun k k' => ?_
      refine .bind (.load _ k k') fun _ _ => ?_
      refine .bind (mirrors_load h fun v hv => hplace v ?_) fun _ _ => ?_
      · simp only [Operand.mentions, List.map_cons]
        exact List.mem_cons_of_mem _ hv
      exact .bind (mirrors_expression h hvalue) fun _ _ => .op_self _
    · exact .fail _ _ _
    · exact .fail _ _ _

theorem mirrors_branch (h : m.Registered m' names) {condition : Instruction}
    (hi : ∀ v ∈ operandNames condition.reads, v ∈ names) (hlabel : r label label') :
    Mirrors (Mirrored r blank live) (branch ⟨header, m⟩ condition label)
      (branch ⟨header, m'⟩ condition label') fun _ _ => Mirrored r blank live := by
  have hvalue : Mirrors (Mirrored r blank live)
      (do expression ⟨header, m⟩ condition; .jump .neZero label)
      (do expression ⟨header, m'⟩ condition; .jump .neZero label') fun _ _ =>
        Mirrored r blank live :=
    .bind (mirrors_expression h hi) fun _ _ => .jump_on hlabel rfl
  unfold branch
  dsimp only
  split
  · split
    · exact mirrors_compare h _ hi hlabel
    · exact hvalue
  · exact hvalue

theorem mirrors_statement (h : m.Registered m' names) {i : Instruction}
    (hi : ∀ v ∈ i.mentions.map Prod.fst, v ∈ names)
    (htarget : ∀ name, i.target? = some name → r name name) :
    Mirrors (Mirrored r blank live) (statement ⟨header, m⟩ i) (statement ⟨header, m'⟩ i)
      fun _ _ => Mirrored r blank (live && i.runsOn) := by
  have hreads (hd : i.destination? = none) : ∀ v ∈ operandNames i.reads, v ∈ names := by
    rw [Instruction.mentions_of_destination?_eq_none hd] at hi
    exact hi
  have hruns (h : i.runsOn = true) : (live && i.runsOn) = live := by rw [h, Bool.and_true]
  have hvalue (hd : i.destination? = none) (hrun : i.runsOn = true)
      (he : ∀ s : Scope, s.statement i = do s.expression i; .op .pop) :
      Mirrors (Mirrored r blank live) (statement ⟨header, m⟩ i) (statement ⟨header, m'⟩ i)
        fun _ _ => Mirrored r blank (live && i.runsOn) := by
    rw [hruns hrun, he, he]
    exact .bind (mirrors_expression h (hreads hd)) fun _ _ => .op_self _
  cases i with
  | assign destination value =>
    rw [hruns rfl]
    exact mirrors_assign h hi
  | call c =>
    rw [hruns rfl]
    refine .bind (mirrors_call h (hreads rfl)) fun _ _ => ?_
    split
    · exact .op_self _
    · exact .pure fun _ _ _ _ => id
  | ret value =>
    rw [Instruction.runsOn, Bool.and_false]
    cases value with
    | none => exact .exit _
    | some x =>
      refine .bind (mirrors_load h fun v hv => hreads rfl v ?_) fun _ _ => .exit _
      simp [operandNames, Instruction.reads, List.mem_map.1 hv]
  | putField object field value =>
    rw [hruns rfl]
    refine .bind (mirrors_load h fun v hv => hreads rfl v ?_) fun _ _ => ?_
    · simp [operandNames, Instruction.reads, List.mem_map.1 hv]
    refine .bind (mirrors_load h fun v hv => hreads rfl v ?_) fun _ _ => .same fun _ => .op_self _
    simp [operandNames, Instruction.reads, List.mem_map.1 hv]
  | goto label => exact .jump (htarget label rfl)
  | branch condition label =>
    rw [hruns rfl]
    exact mirrors_branch h (hreads rfl) (htarget label rfl)
  | _ => exact hvalue rfl rfl fun _ => rfl

end Scope

end ClassLowering
