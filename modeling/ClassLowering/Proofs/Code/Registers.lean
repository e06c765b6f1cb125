import ClassLowering.Proofs.Code.Additions
import ClassLowering.Proofs.Code.Balance
import ClassLowering.Proofs.Code.StackLimit
import ClassLowering.Proofs.Reading

namespace ClassLowering

def Call.BareLength (c : Call) : Prop := ∀ array, c.callee = .length array → c.arguments = []

def Gapless (registers : List Nat) : Prop :=
  ∀ r ∈ registers, ∀ lower < r, lower ∈ registers

theorem lt_length_iff_gapless {registers : List Nat} (h : registers.Nodup) :
    (∀ r ∈ registers, r < registers.length) ↔ Gapless registers := by
  constructor
  · intro hlt r hr lower hlower
    have hsub : registers ⊆ List.range registers.length := fun r hr => List.mem_range.2 (hlt r hr)
    have hperm := (List.subperm_of_subset h hsub).perm_of_length_le (by simp)
    have hlt' := hlt r hr
    exact hperm.mem_iff.2 (List.mem_range.2 (by omega))
  · intro hgapless r hr
    have hsub : List.range (r + 1) ⊆ registers := by
      intro lower hlower
      rcases Nat.eq_or_lt_of_le (Nat.le_of_lt_succ (List.mem_range.1 hlower)) with rfl | hlt
      · exact hr
      · exact hgapless r hr lower hlt
    have hle := (List.subperm_of_subset List.nodup_range hsub).length_le
    rwa [List.length_range] at hle

namespace Scope

open Liveness (operandNames)

variable (s : Scope) {α β : Type} {lines lines' : List Line} {names names' : List String}

structure Names (lines : List Line) (names : List String) : Prop where
  held : ∀ v ∈ names, ∃ r ∈ registersOf lines, s.method.table.register? v = some r
  owned : ∀ r ∈ registersOf lines,
    r < s.method.firstLocal ∨ ∃ v ∈ names, s.method.table.register? v = some r

variable {s}

theorem Names.append (h : s.Names lines names) (h' : s.Names lines' names') :
    s.Names (lines ++ lines') (names ++ names') := by
  refine ⟨fun v hv => ?_, fun r hr => ?_⟩
  · rw [registersOf_append]
    rcases List.mem_append.1 hv with hv | hv
    · obtain ⟨r, hr, hreg⟩ := h.held v hv
      exact ⟨r, List.mem_append_left _ hr, hreg⟩
    · obtain ⟨r, hr, hreg⟩ := h'.held v hv
      exact ⟨r, List.mem_append_right _ hr, hreg⟩
  · rw [registersOf_append] at hr
    rcases List.mem_append.1 hr with hr | hr
    · exact (h.owned r hr).imp_right fun ⟨v, hv, hreg⟩ => ⟨v, List.mem_append_left _ hv, hreg⟩
    · exact (h'.owned r hr).imp_right fun ⟨v, hv, hreg⟩ => ⟨v, List.mem_append_right _ hv, hreg⟩

theorem Names.congr (h : s.Names lines names) (hn : ∀ v, v ∈ names' ↔ v ∈ names) :
    s.Names lines names' := by
  refine ⟨fun v hv => h.held v ((hn v).1 hv), fun r hr => ?_⟩
  exact (h.owned r hr).imp_right fun ⟨v, hv, hreg⟩ => ⟨v, (hn v).2 hv, hreg⟩

variable (s)

def Touches (x : Lower α) (names : List String) : Prop :=
  ∀ supply a, (x supply).outcome = .ok a → s.Names (x supply).lines names

variable {s}

namespace Touches

variable {x : Lower α} {f : α → Lower β}

theorem congr (h : s.Touches x names) (hn : ∀ v, v ∈ names' ↔ v ∈ names) :
    s.Touches x names' := fun supply a ha => (h supply a ha).congr hn

theorem pure (a : α) : s.Touches (Pure.pure a) [] := fun _ _ _ => ⟨nofun, nofun⟩

theorem fail (fault : Fault) (names : List String) : s.Touches (Lower.fail fault : Lower α) names :=
  nofun

theorem fresh (stem : String) : s.Touches (Lower.fresh stem) [] := fun _ _ _ => ⟨nofun, nofun⟩

theorem line {l : Line} (h : l.register? = none) : s.Touches (Lower.line l) [] := by
  intro supply a _
  change s.Names [l] []
  refine ⟨nofun, fun r hr => ?_⟩
  rw [registersOf, List.filterMap_cons_none h] at hr
  cases hr

theorem bind (hx : s.Touches x names) (hf : ∀ a, s.Touches (f a) names') :
    s.Touches (x >>= f) (names ++ names') := by
  intro supply b hb
  obtain ⟨a, ha, he⟩ := Lower.bind_eq_ok hb
  rw [he] at hb ⊢
  exact (hx supply a ha).append (hf a _ b hb)

theorem bind_lift {value : Except Fault α} (hf : ∀ a, value = .ok a → s.Touches (f a) names) :
    s.Touches (liftM value >>= f) names := by
  intro supply b hb
  obtain ⟨a, ha, he⟩ := Lower.bind_eq_ok hb
  rw [he] at hb ⊢
  exact hf a ha _ b hb

theorem register {v : String} {o : Op} {r : Nat} (hv : s.register v = .ok r)
    (ho : o.register? = some r) : s.Touches (Lower.op o) [v] := by
  have hreg := register_eq_ok.1 hv
  have hline : registersOf [.op o] = [r] := List.filterMap_cons_some ho
  intro supply a _
  change s.Names [.op o] [v]
  refine ⟨fun w hw => ⟨r, ?_, ?_⟩, fun r' hr => .inr ⟨v, List.mem_singleton.2 rfl, ?_⟩⟩
  · rw [hline]
    exact List.mem_singleton.2 rfl
  · rw [List.mem_singleton.1 hw, hreg]
  · rw [hline] at hr
    rw [List.mem_singleton.1 hr, hreg]

end Touches

variable (s)

theorem touches_load (x : Operand) : s.Touches (s.load x) (x.mentions.map Prod.fst) := by
  induction x with
  | literal value ty => exact .line rfl
  | var name ty => exact .bind_lift fun r hr => .register hr rfl
  | element array index ty ih =>
    refine .bind_lift fun r hr => ?_
    refine (Touches.bind (.register hr rfl) fun _ => .bind ih fun _ => .line rfl).congr fun v => ?_
    simp [Operand.mentions]
  | self =>
    unfold load
    split
    · exact .fail _ _
    · next hstatic =>
      intro supply a _
      refine ⟨fun v hv => absurd hv List.not_mem_nil, fun r hr => .inl ?_⟩
      obtain rfl : r = 0 := List.mem_singleton.1 hr
      have hreceiver : s.method.isStatic = false := by simpa using hstatic
      rw [Signature.firstLocal, hreceiver]
      exact Nat.lt_add_right _ Nat.zero_lt_one

theorem touches_loadAll (l : List Operand) : s.Touches (s.loadAll l) (operandNames l) := by
  induction l with
  | nil => exact .pure ()
  | cons x rest ih =>
    refine (Touches.bind (s.touches_load x) fun _ => ih).congr fun v => ?_
    simp [operandNames]

theorem touches_loadArguments (l : List Operand) :
    s.Touches (s.loadArguments l) (operandNames l) := by
  refine (Touches.bind (s.touches_loadAll l) fun _ => ?_).congr fun v => by
    rw [List.append_nil]
  split
  · exact .fail _ _
  · exact .pure _

theorem touches_newArray (element : Ty) (length : Operand) :
    s.Touches (s.newArray element length) (length.mentions.map Prod.fst) := by
  refine (Touches.bind (s.touches_load length) fun _ => ?_).congr fun v => by
    rw [List.append_nil]
  split
  · exact .line rfl
  · exact .line rfl
  · exact .bind_lift fun className _ => .line rfl

theorem touches_invoke (l : List Operand) (owner descriptor : Except Fault String)
    (o : String → String → Nat → Op)
    (ho : ∀ owner descriptor count, (o owner descriptor count).register? = none) :
    s.Touches (do
      let count ← s.loadArguments l
      let owner ← owner
      let descriptor ← descriptor
      .op (o owner descriptor count)) (operandNames l) := by
  refine (Touches.bind (s.touches_loadArguments l) fun count => ?_).congr fun v => by
    rw [List.append_nil]
  exact .bind_lift fun owner _ => .bind_lift fun descriptor _ => .line (ho _ _ _)

theorem touches_call {c : Call} (hc : c.BareLength) :
    s.Touches (s.call c) (operandNames c.reads) := by
  obtain ⟨callee, arguments, result⟩ := c
  cases callee with
  | new =>
    unfold call
    dsimp only
    split
    · refine (s.touches_newArray _ _).congr fun v => ?_
      simp [Call.reads, Callee.receiver?, operandNames]
    · exact .fail _ _
    · exact .bind_lift fun className _ => .bind (.line rfl) fun _ => .line rfl
    · exact .fail _ _
  | length array =>
    obtain rfl : arguments = [] := hc array rfl
    refine (Touches.bind (s.touches_load array) fun _ => .line rfl).congr fun v => ?_
    simp [Call.reads, Callee.receiver?, operandNames]
  | static className method =>
    refine (Touches.bind (s.touches_loadArguments arguments) fun count => ?_).congr fun v => by
      rw [List.append_nil]
      rfl
    exact .bind_lift fun descriptor _ => .line rfl
  | virtual receiver method =>
    have hinvoke := s.touches_invoke arguments (s.header.memberOwner receiver.ty)
      (s.callDescriptor ⟨.virtual receiver method, arguments, result⟩)
      (fun owner descriptor count => .invoke .virtual owner method descriptor (count + 1)
        (if result = .void then 0 else 1)) fun _ _ _ => rfl
    refine (Touches.bind (s.touches_load receiver) fun _ => hinvoke).congr fun v => ?_
    simp [Call.reads, Callee.receiver?, operandNames]
  | special receiver method =>
    have hinvoke := s.touches_invoke arguments (s.specialOwner receiver)
      (s.callDescriptor ⟨.special receiver method, arguments, result⟩)
      (fun owner descriptor count => .invoke .special owner method descriptor (count + 1)
        (if result = .void then 0 else 1)) fun _ _ _ => rfl
    refine (Touches.bind (s.touches_load receiver) fun _ => hinvoke).congr fun v => ?_
    simp [Call.reads, Callee.receiver?, operandNames]

theorem touches_compare (op : Comparison) (left right : Operand) (label : String) :
    s.Touches (s.compare op left right label) (operandNames [left, right]) := by
  have hliteral {x : Operand} (h : x.literal? = some 0) : x.mentions = [] := by
    cases x with
    | literal value ty => rfl
    | _ => cases h
  unfold compare
  split
  · next hright =>
    refine (Touches.bind (s.touches_load left) fun _ => .line rfl).congr fun v => ?_
    simp [operandNames, hliteral hright]
  · split
    · next hleft =>
      refine (Touches.bind (s.touches_load right) fun _ => .line rfl).congr fun v => ?_
      simp [operandNames, hliteral hleft]
    · refine (Touches.bind (s.touches_load left) fun _ => .bind (s.touches_load right) fun _ =>
        .line rfl).congr fun v => ?_
      simp [operandNames]

theorem touches_comparison (op : Comparison) (left right : Operand) :
    s.Touches (s.comparison op left right) (operandNames [left, right]) := by
  refine (Touches.bind (.fresh _) fun holds => .bind (.fresh _) fun done =>
    .bind (s.touches_compare op left right holds) fun _ => .bind (.line rfl) fun _ =>
    .bind (.line rfl) fun _ => .bind (.line rfl) fun _ => .bind (.line rfl) fun _ =>
    .line rfl).congr fun v => ?_
  simp

theorem touches_conjunction (left right : Operand) :
    s.Touches (s.conjunction left right) (operandNames [left, right]) := by
  refine (Touches.bind (.fresh _) fun fails => .bind (.fresh _) fun done =>
    .bind (s.touches_load left) fun _ => .bind (.line rfl) fun _ =>
    .bind (s.touches_load right) fun _ => .bind (.line rfl) fun _ =>
    .bind (.line rfl) fun _ => .bind (.line rfl) fun _ => .bind (.line rfl) fun _ =>
    .bind (.line rfl) fun _ => .line rfl).congr fun v => ?_
  simp [operandNames]

theorem touches_arithmetic (op : Arithmetic) (left right : Operand) :
    s.Touches (s.arithmetic op left right) (operandNames [left, right]) := by
  refine (Touches.bind (s.touches_load left) fun _ => .bind (s.touches_load right) fun _ =>
    .line rfl).congr fun v => ?_
  simp [operandNames]

theorem touches_binary (op : BinaryOp) (left right : Operand) :
    s.Touches (s.binary op left right) (operandNames [left, right]) := by
  cases op with
  | and => exact s.touches_conjunction left right
  | lt => exact s.touches_comparison .lt left right
  | ge => exact s.touches_comparison .ge left right
  | _ => exact s.touches_arithmetic _ left right

theorem touches_expression {i : Instruction} (hc : ∀ c ∈ i.calls, c.BareLength) :
    s.Touches (s.expression i) (operandNames i.reads) := by
  cases i with
  | single x =>
    refine (s.touches_load x).congr fun v => ?_
    simp [operandNames, Instruction.reads]
  | binary op left right => exact s.touches_binary op left right
  | not x =>
    refine (Touches.bind (.line rfl) fun _ => .bind (s.touches_load x) fun _ =>
      .line rfl).congr fun v => ?_
    simp [operandNames, Instruction.reads]
  | call c =>
    unfold expression
    dsimp only
    split
    · exact .fail _ _
    · exact s.touches_call (hc c (List.mem_singleton.2 rfl))
  | getField object field =>
    refine (Touches.bind (s.touches_load object) fun _ => .bind_lift fun target _ =>
      .line rfl).congr fun v => ?_
    simp [operandNames, Instruction.reads]
  | _ => exact .fail _ _

theorem touches_assign {destination : Operand} {value : Instruction}
    (hc : ∀ c ∈ value.calls, c.BareLength) :
    s.Touches (s.assign destination value)
      (destination.mentions.map Prod.fst ++ operandNames value.reads) := by
  unfold assign
  split
  · next name delta hincrement =>
    -- The variable is read and written by one line, which names its register once.
    obtain ⟨ty, rfl, -, other, other', k, hshape⟩ := increment?_eq_some hincrement
    have hline (r : Nat) (hr : s.register name = .ok r) :
        s.Touches (Lower.op (.increment r delta)) [name] := .register hr rfl
    refine (Touches.bind_lift hline).congr fun v => ?_
    rcases hshape with ⟨rfl, -⟩ | ⟨rfl, -⟩ | ⟨rfl, -⟩ <;>
      simp [operandNames, Instruction.reads, Operand.mentions]
  · split
    · refine (Touches.bind (s.touches_expression hc) fun _ => .bind_lift fun r hr =>
        .register hr rfl).congr fun v => ?_
      simp [Operand.mentions, or_comm]
    · refine (Touches.bind_lift fun r hr => .bind (.register hr rfl) fun _ =>
        .bind (s.touches_load _) fun _ => .bind (s.touches_expression hc) fun _ =>
        .line rfl).congr fun v => ?_
      simp [Operand.mentions]
    · exact .fail _ _
    · exact .fail _ _

theorem touches_branch {condition : Instruction} {label : String}
    (hc : ∀ c ∈ condition.calls, c.BareLength) :
    s.Touches (s.branch condition label) (operandNames condition.reads) := by
  have hvalue : s.Touches (do s.expression condition; .jump .neZero label)
      (operandNames condition.reads) :=
    (Touches.bind (s.touches_expression hc) fun _ => .line rfl).congr fun v => by
      rw [List.append_nil]
  unfold branch
  dsimp only
  split
  · split
    · exact s.touches_compare _ _ _ label
    · exact hvalue
  · exact hvalue

theorem touches_statement {i : Instruction} (hc : ∀ c ∈ i.calls, c.BareLength) :
    s.Touches (s.statement i) (i.mentions.map Prod.fst) := by
  have hreads (h : i.destination? = none) : i.mentions.map Prod.fst = operandNames i.reads := by
    rw [Instruction.mentions_of_destination?_eq_none h, operandNames]
  have hvalue (h : i.destination? = none) (he : s.statement i = do s.expression i; .op .pop) :
      s.Touches (s.statement i) (i.mentions.map Prod.fst) := by
    rw [hreads h, he]
    exact (Touches.bind (s.touches_expression hc) fun _ => .line rfl).congr fun v => by
      rw [List.append_nil]
  cases i with
  | assign destination value =>
    have hassign : s.Touches (s.assign destination value) _ := s.touches_assign hc
    refine hassign.congr fun v => ?_
    rw [Instruction.mentions_assign, List.map_append]
    rfl
  | call c =>
    rw [hreads rfl]
    have hpop : s.Touches (if c.result ≠ .void || c.isConstructorInit then .op .pop else pure ())
        [] := by
      split
      · exact .line rfl
      · exact .pure ()
    have hcall := s.touches_call (hc c (List.mem_singleton.2 rfl))
    refine (Touches.bind hcall fun _ => hpop).congr fun v => ?_
    rw [List.append_nil]
    rfl
  | ret value =>
    rw [hreads rfl]
    cases value with
    | none => exact .line rfl
    | some x =>
      refine (Touches.bind (s.touches_load x) fun _ => .line rfl).congr fun v => ?_
      simp [operandNames, Instruction.reads]
  | putField object field value =>
    rw [hreads rfl]
    refine (Touches.bind (s.touches_load object) fun _ => .bind (s.touches_load value) fun _ =>
      .bind_lift fun target _ => .line rfl).congr fun v => ?_
    simp [operandNames, Instruction.reads]
  | goto label => exact .line rfl
  | branch condition label =>
    rw [hreads rfl]
    exact s.touches_branch hc
  | _ => exact hvalue rfl rfl

theorem touches_labels (names : List String) : s.Touches (labels names) [] := by
  induction names with
  | nil => exact .pure ()
  | cons name rest ih => exact .bind (.line rfl) fun _ => ih

theorem touches_statements {l : List (Node × Instruction)}
    (hc : ∀ e ∈ l, ∀ c ∈ e.2.calls, c.BareLength) :
    s.Touches (s.statements l) ((l.flatMap fun (_, i) => i.mentions).map Prod.fst) := by
  induction l with
  | nil => exact .pure ()
  | cons e rest ih =>
    obtain ⟨hfirst, hrest⟩ := List.forall_mem_cons.1 hc
    refine (Touches.bind (s.touches_labels _) fun _ => .bind (s.touches_statement hfirst) fun _ =>
      ih hrest).congr fun v => ?_
    simp

theorem touches_body (hc : ∀ e ∈ s.method.instructions, ∀ c ∈ e.2.calls, c.BareLength) :
    s.Touches s.body (s.method.mentions.map Prod.fst) :=
  (Touches.bind (s.touches_statements hc) fun _ => s.touches_labels _).congr fun v => by
    rw [List.append_nil]
    rfl

variable {s} {body : Body}

theorem registers_emptyBody :
    s.emptyBody.registers.Nodup ∧ ∀ r, r ∈ s.emptyBody.registers ↔ r < s.method.firstLocal := by
  have hfold (l : List Nat) (b : Body) (hb : b.registers.Nodup) :
      (l.foldl Body.touch b).registers.Nodup ∧
        ∀ r, r ∈ (l.foldl Body.touch b).registers ↔ r ∈ b.registers ∨ r ∈ l := by
    induction l generalizing b with
    | nil => exact ⟨hb, fun r => by simp⟩
    | cons x rest ih =>
      obtain ⟨hnodup, hmem⟩ := ih (b.touch x) (List.Nodup.insert hb)
      refine ⟨hnodup, fun r => (hmem r).trans ?_⟩
      rw [Body.touch, List.mem_insert_iff, List.mem_cons, or_comm (a := r = x), or_assoc]
  obtain ⟨hnodup, hmem⟩ := hfold (List.range s.method.firstLocal) {} List.nodup_nil
  refine ⟨hnodup, fun r => (hmem r).trans ?_⟩
  simp

theorem registers_of_assemble (h : s.assemble = .ok body) :
    body.registers.Nodup ∧ ∀ r, r ∈ body.registers ↔
      r < s.method.firstLocal ∨ r ∈ registersOf body.lines.toList := by
  obtain ⟨hnodup, hmem⟩ := Body.registers_addAll (assemble_eq_ok h)
  refine ⟨hnodup registers_emptyBody.1, fun r => ?_⟩
  rw [hmem, registers_emptyBody.2, toList_lines_of_assemble h]

theorem names_of_assemble (h : s.assemble = .ok body)
    (hc : ∀ e ∈ s.method.instructions, ∀ c ∈ e.2.calls, c.BareLength) :
    s.Names body.lines.toList (s.method.mentions.map Prod.fst) := by
  rw [toList_lines_of_assemble h]
  exact s.touches_body hc _ () (outcome_of_assemble h)

theorem lt_localsLimit_iff (h : s.assemble = .ok body) :
    (∀ r ∈ registersOf body.lines.toList, r < body.localsLimit) ↔ Gapless body.registers := by
  obtain ⟨hnodup, hmem⟩ := registers_of_assemble h
  rw [← lt_length_iff_gapless hnodup]
  refine ⟨fun hlt r hr => ?_, fun hlt r hr => hlt r ((hmem r).2 (.inr hr))⟩
  rcases (hmem r).1 hr with hfirst | hline
  · have hsub : List.range s.method.firstLocal ⊆ body.registers := fun x hx =>
      (hmem x).2 (.inl (List.mem_range.1 hx))
    have hle := (List.subperm_of_subset List.nodup_range hsub).length_le
    rw [List.length_range] at hle
    exact Nat.lt_of_lt_of_le hfirst hle
  · exact hlt r hline

end Scope

end ClassLowering
