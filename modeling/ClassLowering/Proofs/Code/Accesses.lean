import ClassLowering.Proofs.Code.Lookups
import ClassLowering.Proofs.Liveness.Paths

namespace ClassLowering

inductive Operand.HasSelf : Operand → Prop
  | self : HasSelf .self
  | index {array : String} {index : Operand} {ty : Ty} :
      index.HasSelf → HasSelf (.element array index ty)

structure Operand.Among (x : Operand) (operands : List Operand) : Prop where
  uses : ∀ v, x.Uses v → ∃ y ∈ operands, y.Uses v
  self : x.HasSelf → ∃ y ∈ operands, y.HasSelf

theorem Operand.Among.of_mem {x : Operand} {operands : List Operand} (h : x ∈ operands) :
    x.Among operands := ⟨fun _ hv => ⟨x, h, hv⟩, fun hs => ⟨x, h, hs⟩⟩

theorem Operand.Among.index {array : String} {index : Operand} {ty : Ty} {operands : List Operand}
    (h : (Operand.element array index ty).Among operands) : index.Among operands :=
  ⟨fun v hv => h.uses v (.index hv), fun hs => h.self (.index hs)⟩

def Instruction.taken (i : Instruction) : List Operand :=
  match i.destination? with
  | some (.element array index ty) => .element array index ty :: i.reads
  | _ => i.reads

theorem Instruction.uses_taken {i : Instruction} {v : String} :
    (∃ x ∈ i.taken, x.Uses v) ↔ i.ReadsVar v := by
  have htaken : Liveness.readBy i = Liveness.operandNames i.taken := by
    cases hd : i.destination? with
    | none => simp [Liveness.readBy, taken, hd]
    | some x => cases x <;> simp [Liveness.readBy, taken, hd]
  rw [← Liveness.mem_readBy, htaken, Liveness.mem_operandNames]

theorem Instruction.taken_subset (i : Instruction) :
    i.taken ⊆ i.destination?.toList ++ i.reads := by
  unfold taken
  split
  · next h => simp [h]
  · exact List.subset_append_right _ _

namespace Line

def loaded? : Line → Option Nat
  | op (.load _ register) | op (.increment register _) => some register
  | _ => none

def stored? : Line → Option Nat
  | op (.store _ register) | op (.increment register _) => some register
  | _ => none

theorem untouched {l : Line} (h : l.register? = none) : l.loaded? = none ∧ l.stored? = none := by
  cases l with
  | op o => cases o <;> first | exact ⟨rfl, rfl⟩ | cases h
  | _ => exact ⟨rfl, rfl⟩

end Line

namespace Lower

variable {α β : Type} {P : Line → Prop} {x : Lower α} {f : α → Lower β}

def Every (P : Line → Prop) (x : Lower α) : Prop := ∀ supply, ∀ l ∈ (x supply).lines, P l

namespace Every

theorem pure (a : α) : Every P (Pure.pure a) := fun _ => nofun

theorem fail (fault : Fault) : Every P (Lower.fail fault : Lower α) := fun _ => nofun

theorem fresh (stem : String) : Every P (Lower.fresh stem) := fun _ => nofun

theorem line {l : Line} (h : P l) : Every P (Lower.line l) := fun _ =>
  List.forall_mem_singleton.2 h

theorem bind (hx : Every P x) (hf : ∀ a, Every P (f a)) : Every P (x >>= f) := by
  intro supply
  change ∀ l ∈ (Lower.bind x f supply).lines, P l
  have hlines := hx supply
  unfold Lower.bind
  rcases hstep : x supply with ⟨lines, fault | a, rest⟩
  · rwa [hstep] at hlines
  · rw [hstep] at hlines
    exact List.forall_mem_append.2 ⟨hlines, hf a rest⟩

theorem bind_lift {value : Except Fault α} (hf : ∀ a, value = .ok a → Every P (f a)) :
    Every P (liftM value >>= f) := by
  cases value with
  | error fault => exact fun _ => nofun
  | ok a => exact hf a rfl

end Every

end Lower

namespace Scope

open Lower (Every)

variable (s : Scope) {operands : List Operand}

def Holds (operands : List Operand) (r : Nat) : Prop :=
  (∃ v, (∃ x ∈ operands, x.Uses v) ∧ s.method.table.register? v = some r) ∨
    r = 0 ∧ s.method.isStatic = false ∧ ∃ x ∈ operands, x.HasSelf

structure Loads (operands : List Operand) (l : Line) : Prop where
  stored : l.stored? = none
  loaded : ∀ r, l.loaded? = some r → s.Holds operands r

variable {s}

theorem Loads.of_none {l : Line} (h : l.register? = none) : s.Loads operands l := by
  obtain ⟨hloaded, hstored⟩ := l.untouched h
  refine ⟨hstored, fun r hr => ?_⟩
  rw [hloaded] at hr
  cases hr

theorem every_none {l : Line} (h : l.register? = none) : Every (s.Loads operands) (.line l) :=
  .line (.of_none h)

theorem every_register {x : Operand} (hx : x.Among operands) {v : String} (hv : x.Uses v)
    {kind : ValueKind} {r : Nat} (hr : s.register v = .ok r) :
    Every (s.Loads operands) (.op (.load kind r)) := by
  refine .line ⟨rfl, ?_⟩
  rintro _ ⟨⟩
  exact .inl ⟨v, hx.uses v hv, register_eq_ok.1 hr⟩

variable (s)

theorem every_load {x : Operand} (hx : x.Among operands) : Every (s.Loads operands) (s.load x) := by
  induction x with
  | literal value ty => exact every_none rfl
  | var name ty => exact .bind_lift fun r hr => every_register hx (.var name ty) hr
  | element array index ty ih =>
    exact .bind_lift fun r hr => .bind (every_register hx (.base array index ty) hr) fun _ =>
      .bind (ih hx.index) fun _ => every_none rfl
  | self =>
    unfold load
    split
    · exact .fail _
    · next hstatic =>
      refine .line ⟨rfl, ?_⟩
      rintro _ ⟨⟩
      exact .inr ⟨rfl, by simpa using hstatic, hx.self .self⟩

theorem every_operand {x : Operand} (hx : x ∈ operands) :
    Every (s.Loads operands) (s.load x) := s.every_load (.of_mem hx)

theorem every_loadAll {l : List Operand} (hl : l ⊆ operands) :
    Every (s.Loads operands) (s.loadAll l) := by
  induction l with
  | nil => exact .pure ()
  | cons x rest ih =>
    obtain ⟨hx, hrest⟩ := List.cons_subset.1 hl
    exact .bind (s.every_operand hx) fun _ => ih hrest

theorem every_loadArguments {l : List Operand} (hl : l ⊆ operands) :
    Every (s.Loads operands) (s.loadArguments l) := by
  refine .bind (s.every_loadAll hl) fun _ => ?_
  split
  · exact .fail _
  · exact .pure _

theorem every_newArray {element : Ty} {length : Operand} (hl : length ∈ operands) :
    Every (s.Loads operands) (s.newArray element length) := by
  refine .bind (s.every_operand hl) fun _ => ?_
  split
  · exact every_none rfl
  · exact every_none rfl
  · exact .bind_lift fun _ _ => every_none rfl

theorem every_call {c : Call} (hc : c.reads ⊆ operands) :
    Every (s.Loads operands) (s.call c) := by
  obtain ⟨callee, arguments, result⟩ := c
  obtain ⟨hreceiver, harguments⟩ := List.append_subset.1 hc
  have hload {x : Operand} (hx : callee.receiver? = some x) :
      Every (s.Loads operands) (s.load x) :=
    s.every_operand (hreceiver (Option.mem_toList.2 hx))
  have hpush := s.every_loadArguments harguments
  cases callee with
  | new =>
    unfold call
    dsimp only
    split
    · exact s.every_newArray (harguments List.mem_cons_self)
    · exact .fail _
    · exact .bind_lift fun _ _ => .bind (every_none rfl) fun _ => every_none rfl
    · exact .fail _
  | length array => exact .bind (hload rfl) fun _ => every_none rfl
  | static className method =>
    exact .bind hpush fun _ => .bind_lift fun _ _ => every_none rfl
  | virtual receiver method =>
    exact .bind (hload rfl) fun _ => .bind hpush fun _ => .bind_lift fun _ _ =>
      .bind_lift fun _ _ => every_none rfl
  | special receiver method =>
    exact .bind (hload rfl) fun _ => .bind hpush fun _ => .bind_lift fun _ _ =>
      .bind_lift fun _ _ => every_none rfl

section Pairs

variable {left right : Operand} (hl : left ∈ operands) (hr : right ∈ operands)
include hl hr

theorem every_compare (op : Comparison) (label : String) :
    Every (s.Loads operands) (s.compare op left right label) := by
  have hleft := s.every_operand hl
  have hright := s.every_operand hr
  unfold compare
  split
  · exact .bind hleft fun _ => every_none rfl
  · split
    · exact .bind hright fun _ => every_none rfl
    · exact .bind hleft fun _ => .bind hright fun _ => every_none rfl

theorem every_comparison (op : Comparison) :
    Every (s.Loads operands) (s.comparison op left right) :=
  .bind (.fresh _) fun holds => .bind (.fresh _) fun _ =>
    .bind (s.every_compare hl hr op holds) fun _ => .bind (every_none rfl) fun _ =>
    .bind (every_none rfl) fun _ => .bind (every_none rfl) fun _ =>
    .bind (every_none rfl) fun _ => every_none rfl

theorem every_conjunction : Every (s.Loads operands) (s.conjunction left right) :=
  .bind (.fresh _) fun _ => .bind (.fresh _) fun _ =>
    .bind (s.every_operand hl) fun _ => .bind (every_none rfl) fun _ =>
    .bind (s.every_operand hr) fun _ => .bind (every_none rfl) fun _ =>
    .bind (every_none rfl) fun _ => .bind (every_none rfl) fun _ =>
    .bind (every_none rfl) fun _ => .bind (every_none rfl) fun _ => every_none rfl

theorem every_binary (op : BinaryOp) : Every (s.Loads operands) (s.binary op left right) := by
  have harithmetic (a : Arithmetic) : Every (s.Loads operands) (s.arithmetic a left right) :=
    .bind (s.every_operand hl) fun _ => .bind (s.every_operand hr) fun _ =>
      every_none rfl
  cases op with
  | and => exact s.every_conjunction hl hr
  | lt => exact s.every_comparison hl hr .lt
  | ge => exact s.every_comparison hl hr .ge
  | _ => exact harithmetic _

end Pairs

theorem every_expression {i : Instruction} (hi : i.reads ⊆ operands) :
    Every (s.Loads operands) (s.expression i) := by
  cases i with
  | single x => exact s.every_operand (hi List.mem_cons_self)
  | binary op left right =>
    exact s.every_binary (hi List.mem_cons_self) (hi (List.mem_cons_of_mem _ List.mem_cons_self)) op
  | not x =>
    exact .bind (every_none rfl) fun _ =>
      .bind (s.every_operand (hi List.mem_cons_self)) fun _ => every_none rfl
  | call c =>
    unfold expression
    dsimp only
    split
    · exact .fail _
    · exact s.every_call hi
  | getField object field =>
    exact .bind (s.every_operand (hi List.mem_cons_self)) fun _ => .bind_lift fun _ _ =>
      every_none rfl
  | _ => exact .fail _

theorem every_branch (condition : Instruction) (label : String) :
    Every (s.Loads condition.reads) (s.branch condition label) := by
  have hvalue : Every (s.Loads condition.reads) (do s.expression condition; .jump .neZero label) :=
    .bind (s.every_expression (List.Subset.refl _)) fun _ => every_none rfl
  unfold branch
  dsimp only
  split
  · split
    · exact s.every_compare List.mem_cons_self (List.mem_cons_of_mem _ List.mem_cons_self) _ label
    · exact hvalue
  · exact hvalue

theorem every_statement {i : Instruction} (h : i.destination? = none) :
    Every (s.Loads i.reads) (s.statement i) := by
  have hvalue (he : s.statement i = do s.expression i; .op .pop) :
      Every (s.Loads i.reads) (s.statement i) := by
    rw [he]
    exact .bind (s.every_expression (List.Subset.refl _)) fun _ => every_none rfl
  cases i with
  | assign destination value => cases h
  | call c =>
    refine .bind (s.every_call (List.Subset.refl _)) fun _ => ?_
    split
    · exact every_none rfl
    · exact .pure ()
  | ret value =>
    cases value with
    | none => exact every_none rfl
    | some x => exact .bind (s.every_operand List.mem_cons_self) fun _ => every_none rfl
  | putField object field value =>
    exact .bind (s.every_operand List.mem_cons_self) fun _ =>
      .bind (s.every_operand (List.mem_cons_of_mem _ List.mem_cons_self)) fun _ =>
        .bind_lift fun _ _ => every_none rfl
  | goto label => exact every_none rfl
  | branch condition label => exact s.every_branch condition label
  | _ => exact hvalue rfl

theorem every_assign_element (array : String) (index : Operand) (ty : Ty) (value : Instruction) :
    Every (s.Loads (.element array index ty :: value.reads))
      (s.assign (.element array index ty) value) := by
  have helement : (Operand.element array index ty).Among (.element array index ty :: value.reads) :=
    .of_mem List.mem_cons_self
  exact .bind_lift fun r hr => .bind (every_register helement (.base array index ty) hr) fun _ =>
    .bind (s.every_load helement.index) fun _ =>
      .bind (s.every_expression (List.subset_cons_self _ _)) fun _ => every_none rfl

def WritesLast (name : String) (operands : List Operand) (lines : List Line) : Prop :=
  ∃ before write r, lines = before ++ [write] ∧ (∀ l ∈ before, s.Loads operands l) ∧
    s.method.table.register? name = some r ∧ write.stored? = some r ∧
    ∀ r', write.loaded? = some r' → s.Holds operands r'

variable {s}

theorem lines_register {name : String} {f : Nat → Op} {supply : LabelSupply}
    (h : ((liftM (s.register name) >>= fun r => Lower.op (f r)) supply).outcome = .ok ()) :
    ∃ r, s.method.table.register? name = some r ∧
      ((liftM (s.register name) >>= fun r => Lower.op (f r)) supply).lines = [.op (f r)] := by
  cases hr : s.register name with
  | error fault =>
    rw [hr] at h
    cases h
  | ok r => exact ⟨r, register_eq_ok.1 hr, rfl⟩

theorem assign_var {name : String} {ty : Ty} {value : Instruction} {supply : LabelSupply}
    (h : (s.assign (.var name ty) value supply).outcome = .ok ()) :
    s.WritesLast name value.reads (s.assign (.var name ty) value supply).lines := by
  cases hincrement : increment? (.var name ty) value with
  | none =>
    have hassign : s.assign (.var name ty) value =
        (do s.expression value; let r ← s.register name; .op (.store ty.kind r)) := by
      rw [assign, hincrement]
    rw [hassign] at h ⊢
    obtain ⟨_, -, hlines⟩ := Lower.bind_eq_ok h
    rw [hlines] at h ⊢
    obtain ⟨r, hr, hstore⟩ := lines_register h
    exact ⟨_, .op (.store ty.kind r), r, congrArg _ hstore,
      s.every_expression (List.Subset.refl _) supply, hr, rfl, nofun⟩
  | some e =>
    obtain ⟨name', delta⟩ := e
    obtain ⟨ty', hvar, -, other, other', k, hshape⟩ := increment?_eq_some hincrement
    cases hvar
    have hassign : s.assign (.var name ty) value =
        (do let r ← s.register name; .op (.increment r delta)) := by
      rw [assign, hincrement]
    rw [hassign] at h ⊢
    obtain ⟨r, hr, hline⟩ := lines_register h
    refine ⟨[], .op (.increment r delta), r, hline, nofun, hr, rfl, ?_⟩
    rintro _ ⟨⟩
    refine .inl ⟨name, ⟨.var name other, ?_, .var name other⟩, hr⟩
    rcases hshape with ⟨rfl, -⟩ | ⟨rfl, -⟩ | ⟨rfl, -⟩ <;> simp [Instruction.reads]

structure Accesses (s : Scope) (i : Instruction) (lines : List Line) : Prop where
  loads : ∀ l ∈ lines, ∀ r, l.loaded? = some r → s.Holds i.taken r
  stores : ∀ l ∈ lines, ∀ r, l.stored? = some r →
    ∃ v ty, i.destination? = some (.var v ty) ∧ s.method.table.register? v = some r
  writes : ∀ v ty, i.destination? = some (.var v ty) →
    ∃ before write r, lines = before ++ [write] ∧ (∀ l ∈ before, l.stored? = none) ∧
      s.method.table.register? v = some r ∧ write.stored? = some r

theorem Accesses.of_loads {i : Instruction} {lines : List Line}
    (hd : ∀ v ty, i.destination? ≠ some (.var v ty)) (h : ∀ l ∈ lines, s.Loads i.taken l) :
    s.Accesses i lines := by
  refine ⟨fun l hl => (h l hl).loaded, fun l hl r hr => ?_, fun v ty hv => absurd hv (hd v ty)⟩
  rw [(h l hl).stored] at hr
  cases hr

theorem Accesses.of_writesLast {name : String} {ty : Ty} {value : Instruction} {lines : List Line}
    (h : s.WritesLast name value.reads lines) :
    s.Accesses (.assign (.var name ty) value) lines := by
  obtain ⟨before, write, r, rfl, hbefore, hr, hstored, hloaded⟩ := h
  refine ⟨?_, ?_, ?_⟩
  · exact List.forall_mem_append.2
      ⟨fun l hl => (hbefore l hl).loaded, List.forall_mem_singleton.2 hloaded⟩
  · refine List.forall_mem_append.2 ⟨fun l hl r' hr' => ?_, List.forall_mem_singleton.2 ?_⟩
    · rw [(hbefore l hl).stored] at hr'
      cases hr'
    · intro r' hr'
      exact ⟨name, ty, rfl, hr.trans (hstored.symm.trans hr')⟩
  · rintro _ _ ⟨⟩
    exact ⟨before, write, r, rfl, fun l hl => (hbefore l hl).stored, hr, hstored⟩

theorem accesses_statement {i : Instruction} {supply : LabelSupply}
    (h : (s.statement i supply).outcome = .ok ()) :
    s.Accesses i (s.statement i supply).lines := by
  cases hd : i.destination? with
  | none =>
    have htaken : i.taken = i.reads := by rw [Instruction.taken, hd]
    refine .of_loads (fun v ty he => ?_) (htaken ▸ s.every_statement hd supply)
    rw [hd] at he
    cases he
  | some destination =>
    obtain ⟨value, rfl⟩ : ∃ value, i = .assign destination value := by
      cases i with
      | assign d value => exact ⟨value, congrArg (Instruction.assign · value) (Option.some.inj hd)⟩
      | _ => cases hd
    cases destination with
    | var name ty => exact .of_writesLast (assign_var h)
    | element array index ty =>
      exact .of_loads nofun (s.every_assign_element array index ty value supply)
    | literal _ _ => cases h
    | self => cases h

theorem accesses_known {signature : Signature} {entries : List Entry} {m : Method}
    (hbuild : Method.build signature entries = .ok m) {n : Node} {i : Instruction}
    (hreach : m.flow.Reachable n) (hi : m.instruction? n = some i) {header : ClassHeader}
    {table : VariableTable} {supply : LabelSupply}
    (h : (statement ⟨header, { m with table }⟩ i supply).outcome = .ok ()) :
    let l := Liveness.compute m
    let lines := (statement ⟨header, { m with table }⟩ i supply).lines
    (∀ line ∈ lines, ∀ r, line.loaded? = some r →
      (∃ v ∈ l.names (l.factsAt n).reads, table.register? v = some r) ∨
        r = 0 ∧ m.isStatic = false ∧ ∃ x ∈ i.destination?.toList ++ i.reads, x.HasSelf) ∧
    (∀ line ∈ lines, ∀ r, line.stored? = some r → ∃ v ty, i.destination? = some (.var v ty) ∧
      v ∈ l.names (l.factsAt n).writes ∧ table.register? v = some r) ∧
    ∀ v ty, i.destination? = some (.var v ty) → ∃ before write r, lines = before ++ [write] ∧
      (∀ line ∈ before, line.stored? = none) ∧ table.register? v = some r ∧
        write.stored? = some r := by
  have hm := (Method.build_spec hbuild).1
  have horder := (Liveness.mem_order hm).2 ⟨hreach, (Method.instruction?_eq_some.1 hi).1⟩
  obtain ⟨hloads, hstores, hwrites⟩ := accesses_statement h
  refine ⟨fun line hline r hr => ?_, fun line hline r hr => ?_, hwrites⟩
  · refine (hloads line hline r hr).imp ?_ ?_
    · rintro ⟨v, hv, hreg⟩
      exact ⟨v, (Liveness.mem_names_reads hm horder).2 ⟨i, hi, Instruction.uses_taken.1 hv⟩, hreg⟩
    · rintro ⟨hzero, hstatic, x, hx, hself⟩
      exact ⟨hzero, hstatic, x, i.taken_subset hx, hself⟩
  · obtain ⟨v, ty, hd, hreg⟩ := hstores line hline r hr
    refine ⟨v, ty, hd, (Liveness.mem_names_writes hm horder).2 ⟨i, hi, ?_⟩, hreg⟩
    exact Liveness.mem_written.2 (.inl ⟨ty, hd⟩)

def pickElement : Instruction :=
  .assign (.var "x" .int) (.single (.element "a" (.element "a" (.var "i" .int) .int) .int))

def pickEntries : List Entry :=
  [.instruction pickElement, .instruction (.ret (some (.var "x" .int)))]

def pickSignature : Signature :=
  { name := "pick", isStatic := true, parameters := [⟨"a", .array .int⟩, ⟨"i", .int⟩]
    result := .int }

def pick : Method :=
  { pickSignature with
    code := (Method.codeOf pickEntries).toArray
    body := [⟨2⟩, ⟨3⟩]
    table := { entries := [("a", ⟨.array .int, some 0⟩), ("i", ⟨.int, some 1⟩), ("x", ⟨.int, some 2⟩)] }
    flow := ⟨#[⟨[⟨2⟩], []⟩, ⟨[], [⟨3⟩]⟩, ⟨[⟨3⟩], [⟨0⟩]⟩, ⟨[⟨1⟩], [⟨2⟩]⟩]⟩ }

def sharing : VariableTable :=
  { entries := [("a", ⟨.array .int, some 4⟩), ("i", ⟨.int, some 1⟩), ("x", ⟨.int, some 1⟩)] }

def pickLines : List Line :=
  [.op (.load .reference 4), .op (.load .reference 4), .op (.load .int 1), .op (.loadElement .int),
    .op (.loadElement .int), .op (.store .int 1)]

theorem accesses_known_pick :
    Method.build pickSignature pickEntries = .ok pick ∧
      statement ⟨{ name := "Arrays" }, { pick with table := sharing }⟩ pickElement {} =
        ⟨pickLines, .ok (), {}⟩ ∧
      (∀ line ∈ pickLines, ∀ r, line.loaded? = some r →
        ∃ v ∈ ["a", "i"], sharing.register? v = some r) ∧
      ∃ before write r, pickLines = before ++ [write] ∧ (∀ line ∈ before, line.stored? = none) ∧
        sharing.register? "x" = some r ∧ write.stored? = some r := by
  have hbuild : Method.build pickSignature pickEntries = .ok pick := by decide +kernel
  have hreach : pick.flow.Reachable ⟨2⟩ := .single (by decide)
  have hi : pick.instruction? ⟨2⟩ = some pickElement := rfl
  have hok : (statement ⟨{ name := "Arrays" }, { pick with table := sharing }⟩ pickElement
      {}).outcome = .ok () := rfl
  have hreads : (Liveness.compute pick).names ((Liveness.compute pick).factsAt ⟨2⟩).reads =
      ["a", "i"] := by decide +kernel
  obtain ⟨hloads, -, hwrites⟩ := accesses_known hbuild hreach hi hok
  refine ⟨hbuild, rfl, fun line hline r hr => ?_, hwrites "x" .int rfl⟩
  obtain hvar | ⟨-, hstatic, -⟩ := hloads line hline r hr
  · rwa [hreads] at hvar
  · cases hstatic

end Scope

end ClassLowering
