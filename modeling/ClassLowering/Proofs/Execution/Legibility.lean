import ClassLowering.Proofs.Code.Accesses
import ClassLowering.Proofs.Code.Forms
import ClassLowering.Proofs.Execution.Layout

namespace ClassLowering

def Callee.method? : Callee → Option String
  | special _ method | static _ method | virtual _ method => some method
  | new | length _ => none

def Instruction.memberNames : Instruction → List String
  | assign _ value => value.memberNames
  | branch condition _ => condition.memberNames
  | call c => c.callee.method?.toList
  | getField _ field | putField _ field _ => [field.name]
  | ret _ | not _ | binary _ _ _ | single _ | goto _ => []

structure ClassHeader.PlainlyNamed (h : ClassHeader) : Prop where
  own : Plain h.name
  package : ∀ package ∈ h.package, Plain package
  imports : ∀ name ∈ h.imports, Plain name

structure Method.PlainlyNamed (m : Method) : Prop where
  labels : ∀ e ∈ m.labels, Plain e.1
  members : ∀ e ∈ m.instructions, ∀ name ∈ e.2.memberNames, Plain name

theorem Plain.path {name : String} (h : Plain name) : PlainPath name := fun c hc =>
  h c (by
    simp only [List.mem_cons, List.not_mem_nil, or_false] at hc ⊢
    tauto)

theorem Plain.slashed {name : String} (h : Plain name) : PlainPath (ClassHeader.slashed name) := by
  intro c hc
  rw [ClassHeader.slashed, String.toList_map, List.mem_map]
  rintro ⟨other, hother, rfl⟩
  split at hc
  · exact absurd hc (by decide)
  · exact h.path _ hc hother

namespace ClassHeader.PlainlyNamed

variable {h : ClassHeader} (hh : h.PlainlyNamed)
include hh

theorem ownName : PlainPath h.ownName := by
  unfold ClassHeader.ownName
  split
  · next package hpackage =>
    split
    · exact hh.own.path
    · intro c hc
      have hslash : "/".toList = ['/'] := by decide
      have hform : s!"{slashed package}/{h.name}" = slashed package ++ "/" ++ h.name := rfl
      rw [hform, String.toList_append, String.toList_append, hslash, List.mem_append,
        List.mem_append, List.mem_singleton]
      rintro ((hmem | rfl) | hmem)
      · exact (hh.package package hpackage).slashed c hc hmem
      · exact absurd hc (by decide)
      · exact hh.own.path c hc hmem
  · exact hh.own.path

theorem qualifiedName (simple : String) : PlainPath (h.qualifiedName simple) := by
  unfold ClassHeader.qualifiedName
  split
  · exact hh.ownName
  · split
    · next name hfind => exact (hh.imports name (List.mem_of_find?_eq_some hfind)).slashed
    · exact hh.ownName

theorem superName : PlainPath h.superName := by
  unfold ClassHeader.superName
  split
  · exact hh.qualifiedName _
  · decide +kernel

theorem memberOwner {ty : Ty} {name : String} (hname : h.memberOwner ty = .ok name) :
    PlainPath name := by
  cases ty with
  | object className =>
    cases hname
    exact hh.qualifiedName className
  | self =>
    cases hname
    exact hh.ownName
  | string =>
    cases hname
    decide +kernel
  | int | bool | void | array => cases hname

theorem machineType (ty : Ty) : (h.machineType ty).IsPlain := by
  induction ty with
  | array element ih => exact ih
  | object className =>
    refine List.forall_mem_singleton.2 ?_
    rw [← h.qualifiedName_eq]
    exact hh.qualifiedName className
  | self =>
    refine List.forall_mem_singleton.2 ?_
    rw [← h.ownName_eq]
    exact hh.ownName
  | string => exact List.forall_mem_singleton.2 (by decide +kernel)
  | int | bool | void => exact nofun

end ClassHeader.PlainlyNamed

theorem ClassHeader.PlainlyNamed.specialOwner {s : Scope} (hh : s.header.PlainlyNamed)
    {receiver : Operand} {name : String} (hname : s.specialOwner receiver = .ok name) :
    PlainPath name := by
  unfold Scope.specialOwner at hname
  split at hname
  · cases hname
    exact hh.superName
  · exact hh.memberOwner hname

theorem plain_numbered {stem : String} (h : Plain stem) (n : Nat) :
    Plain (LabelSupply.numbered stem n) := by
  intro c hc
  have hform : LabelSupply.numbered stem n = stem ++ "_" ++ n.repr := rfl
  have hmark : "_".toList = ['_'] := by decide
  rw [hform, String.toList_append, String.toList_append, hmark, List.mem_append, List.mem_append,
    List.mem_singleton]
  rintro ((hmem | rfl) | hmem)
  · exact h c hc hmem
  · exact absurd hc (by decide)
  · have hdigit : ∀ c ∈ [' ', '\n', '/', '(', ';'], c.isDigit = false := by simp
    exact Line.not_mem_repr n (hdigit c hc) hmem

theorem Scope.fits_of_increment? {destination : Operand} {value : Instruction} {name : String}
    {delta : Int} (h : increment? destination value = some (name, delta)) :
    Op.fitsIncrement delta = true := by
  unfold increment? at h
  split at h
  · dsimp only at h
    split at h
    · obtain ⟨_, hdelta, he⟩ := Option.map_eq_some_iff.1 h
      cases he
      exact (Option.filter_eq_some_iff.1 hdelta).2
    · cases h
  · cases h

namespace Lower

variable {α β : Type} {P : Line → Prop}

theorem Every.bind_fresh {stem : String} {f : String → Lower β}
    (hf : ∀ n, Every P (f (LabelSupply.numbered stem n))) : Every P (Lower.fresh stem >>= f) := by
  intro supply
  exact hf (supply.freshNumber stem) _

end Lower

namespace Scope

open Line (Legible)
open Lower (Every)

variable {s : Scope}

theorem every_bare {l : Line} (h : l.isBare = true) : Every Legible (.line l) :=
  .line (Line.legible_bare h)

variable (s)

theorem legible_load (x : Operand) : Every Legible (s.load x) := by
  induction x with
  | literal value ty => exact every_bare rfl
  | var name ty => exact .bind_lift fun _ _ => every_bare rfl
  | element array index ty ih =>
    exact .bind_lift fun _ _ => .bind (every_bare rfl) fun _ => .bind ih fun _ => every_bare rfl
  | self =>
    unfold load
    split
    · exact .fail _
    · exact every_bare rfl

theorem legible_loadAll (l : List Operand) : Every Legible (s.loadAll l) := by
  induction l with
  | nil => exact .pure ()
  | cons x rest ih => exact .bind (s.legible_load x) fun _ => ih

theorem legible_loadArguments {β : Type} {l : List Operand} {f : Nat → Lower β}
    (hf : Every Legible (f l.length)) : Every Legible (s.loadArguments l >>= f) := by
  rw [loadArguments, bind_assoc]
  refine .bind (s.legible_loadAll l) fun _ => ?_
  split
  · exact fun _ _ hmem => absurd hmem List.not_mem_nil
  · exact hf

theorem legible_arithmetic (op : Arithmetic) (left right : Operand) :
    Every Legible (s.arithmetic op left right) :=
  .bind (s.legible_load left) fun _ => .bind (s.legible_load right) fun _ => every_bare rfl

theorem legible_compare (op : Comparison) (left right : Operand) {label : String}
    (hlabel : Plain label) : Every Legible (s.compare op left right label) := by
  have hjump {j : Jump} (hj : ∀ mnemonic pops, j ≠ .other mnemonic pops) :
      Every Legible (Lower.jump j label) := .line (Line.legible_jump hj hlabel)
  unfold compare
  split
  · exact .bind (s.legible_load left) fun _ => hjump (by cases op <;> exact nofun)
  · split
    · exact .bind (s.legible_load right) fun _ => hjump (by cases op <;> exact nofun)
    · exact .bind (s.legible_load left) fun _ => .bind (s.legible_load right) fun _ =>
        hjump (by cases op <;> exact nofun)

theorem legible_binary (op : BinaryOp) (left right : Operand) :
    Every Legible (s.binary op left right) := by
  have hlabel {name : String} (h : Plain name) : Every Legible (Lower.line (.label name)) :=
    .line (Line.legible_label h)
  have hjump {j : Jump} {name : String} (hj : ∀ mnemonic pops, j ≠ .other mnemonic pops)
      (h : Plain name) : Every Legible (Lower.jump j name) := .line (Line.legible_jump hj h)
  have hcomparison (c : Comparison) : Every Legible (s.comparison c left right) := by
    refine .bind_fresh fun n => .bind_fresh fun k => ?_
    have hholds : Plain (LabelSupply.numbered "CMP_TRUE" n) := plain_numbered (by decide +kernel) n
    have hdone : Plain (LabelSupply.numbered "CMP_END" k) := plain_numbered (by decide +kernel) k
    exact .bind (s.legible_compare c left right hholds) fun _ => .bind (every_bare rfl) fun _ =>
      .bind (hjump nofun hdone) fun _ => .bind (hlabel hholds) fun _ =>
      .bind (every_bare rfl) fun _ => hlabel hdone
  cases op with
  | lt => exact hcomparison .lt
  | ge => exact hcomparison .ge
  | and =>
    refine .bind_fresh fun n => .bind_fresh fun k => ?_
    have hfails : Plain (LabelSupply.numbered "AND_FALSE" n) := plain_numbered (by decide +kernel) n
    have hdone : Plain (LabelSupply.numbered "AND_END" k) := plain_numbered (by decide +kernel) k
    exact .bind (s.legible_load left) fun _ => .bind (hjump nofun hfails) fun _ =>
      .bind (s.legible_load right) fun _ => .bind (hjump nofun hfails) fun _ =>
      .bind (every_bare rfl) fun _ => .bind (hjump nofun hdone) fun _ =>
      .bind (hlabel hfails) fun _ => .bind (every_bare rfl) fun _ => hlabel hdone
  | _ => exact s.legible_arithmetic _ left right

section Named

variable {s} (hh : s.header.PlainlyNamed)
include hh

theorem legible_newArray (element : Ty) (length : Operand) :
    Every Legible (s.newArray element length) := by
  refine .bind (s.legible_load length) fun _ => ?_
  split
  · exact every_bare rfl
  · exact every_bare rfl
  · exact .bind_lift fun _ hname =>
      .line (Line.legible_newReferenceArray (hh.memberOwner hname))

theorem legible_newObject (ty : Ty) : Every Legible (s.newObject ty) :=
  .bind_lift fun _ hname =>
    .bind (.line (Line.legible_newObject (hh.memberOwner hname))) fun _ => every_bare rfl

theorem legible_invoke {c : Call} {how : Invocation} {owner method descriptor : String}
    (howner : PlainPath owner) (hmethod : Plain method)
    (hdescriptor : s.callDescriptor c = .ok descriptor) {pops : Nat}
    (hpops : pops = c.arguments.length + if how = .static then 0 else 1) :
    Every Legible (Lower.op (.invoke how owner method descriptor pops
      (if c.result = .void then 0 else 1))) := by
  have hline := Line.legible_invoke howner hmethod how
    (σ := s.header.machineSignature (c.arguments.map Operand.ty) c.result) ?_
  · have hlength : (s.header.machineSignature (c.arguments.map Operand.ty) c.result).parameters.length =
        c.arguments.length := by
      simp [ClassHeader.machineSignature]
    have hvoid : s.header.machineType c.result = .void ↔ c.result = .void := by
      cases c.result <;> simp [ClassHeader.machineType]
    rw [hlength] at hline
    simp only [ClassHeader.machineSignature, hvoid] at hline
    rw [callDescriptor_eq hdescriptor, hpops]
    exact .line hline
  · intro t ht
    obtain ⟨ty, -, rfl⟩ : ∃ ty, ty ∈ c.result :: c.arguments.map Operand.ty ∧
        s.header.machineType ty = t := List.mem_map.1 ht
    exact hh.machineType ty

theorem legible_call {c : Call} (hc : ∀ name ∈ c.callee.method?, Plain name) :
    Every Legible (s.call c) := by
  obtain ⟨callee, arguments, result⟩ := c
  cases callee with
  | new =>
    unfold call
    dsimp only
    split
    · exact legible_newArray hh _ _
    · exact .fail _
    · exact legible_newObject hh _
    · exact .fail _
  | length array => exact .bind (s.legible_load array) fun _ => every_bare rfl
  | static className method =>
    exact s.legible_loadArguments (.bind_lift fun _ hdescriptor =>
      legible_invoke hh (hh.qualifiedName className) (hc method rfl) hdescriptor rfl)
  | virtual receiver method =>
    exact .bind (s.legible_load receiver) fun _ => s.legible_loadArguments
      (.bind_lift fun _ howner => .bind_lift fun _ hdescriptor =>
        legible_invoke hh (hh.memberOwner howner) (hc method rfl) hdescriptor rfl)
  | special receiver method =>
    exact .bind (s.legible_load receiver) fun _ => s.legible_loadArguments
      (.bind_lift fun _ howner => .bind_lift fun _ hdescriptor =>
        legible_invoke hh (hh.specialOwner howner) (hc method rfl) hdescriptor rfl)

theorem legible_field {object : Operand} {field : FieldRef} {o : String → String → Op}
    (ho : ∀ {owner descriptor}, PlainPath owner → '\n' ∉ descriptor.toList →
      (Line.op (o owner descriptor)).Legible) :
    Every Legible (do let target ← s.fieldTarget object field; Lower.op (o target.1 target.2)) := by
  refine .bind_lift fun target htarget => .line ?_
  obtain ⟨howner, hdescriptor⟩ := fieldTarget_eq_ok htarget
  refine ho (hh.memberOwner howner) ?_
  rw [ClassHeader.descriptor_eq hdescriptor]
  exact MachineType.unbroken_text (hh.machineType field.ty)

theorem legible_expression {i : Instruction} (hi : ∀ name ∈ i.memberNames, Plain name) :
    Every Legible (s.expression i) := by
  cases i with
  | single x => exact s.legible_load x
  | binary op left right => exact s.legible_binary op left right
  | not x =>
    exact .bind (every_bare rfl) fun _ => .bind (s.legible_load x) fun _ => every_bare rfl
  | call c =>
    unfold expression
    dsimp only
    split
    · exact .fail _
    · exact legible_call hh fun name hname => hi name (Option.mem_toList.2 hname)
  | getField object field =>
    exact .bind (s.legible_load object) fun _ => legible_field hh fun howner hdescriptor =>
      Line.legible_getField howner (hi field.name List.mem_cons_self) hdescriptor
  | assign | ret | putField | goto | branch => exact .fail _

theorem legible_branch {condition : Instruction} (hi : ∀ name ∈ condition.memberNames, Plain name)
    {label : String} (hlabel : Plain label) : Every Legible (s.branch condition label) := by
  have hvalue : Every Legible (do s.expression condition; .jump .neZero label) :=
    .bind (legible_expression hh hi) fun _ => .line (Line.legible_jump nofun hlabel)
  unfold branch
  dsimp only
  split
  · split
    · exact s.legible_compare _ _ _ hlabel
    · exact hvalue
  · exact hvalue

theorem legible_assign {destination : Operand} {value : Instruction}
    (hi : ∀ name ∈ value.memberNames, Plain name) :
    Every Legible (s.assign destination value) := by
  have hvalue := legible_expression hh hi
  unfold assign
  split
  · next name delta hincrement =>
    exact .bind_lift fun _ _ => .line (Line.legible_increment (fits_of_increment? hincrement))
  · split
    · exact .bind hvalue fun _ => .bind_lift fun _ _ => every_bare rfl
    · exact .bind_lift fun _ _ => .bind (every_bare rfl) fun _ =>
        .bind (s.legible_load _) fun _ => .bind hvalue fun _ => every_bare rfl
    · exact .fail _
    · exact .fail _

theorem legible_statement {i : Instruction} (hi : ∀ name ∈ i.memberNames, Plain name)
    (htarget : ∀ label, i.target? = some label → Plain label) :
    Every Legible (s.statement i) := by
  have hvalue (he : s.statement i = do s.expression i; .op .pop) :
      Every Legible (s.statement i) := by
    rw [he]
    exact .bind (legible_expression hh hi) fun _ => every_bare rfl
  cases i with
  | assign destination value => exact legible_assign hh hi
  | call c =>
    refine .bind (legible_call hh fun name hname => hi name (Option.mem_toList.2 hname)) fun _ => ?_
    split
    · exact every_bare rfl
    · exact .pure ()
  | ret value =>
    cases value with
    | none => exact every_bare rfl
    | some x => exact .bind (s.legible_load x) fun _ => every_bare rfl
  | putField object field value =>
    exact .bind (s.legible_load object) fun _ => .bind (s.legible_load value) fun _ =>
      legible_field hh fun howner hdescriptor =>
        Line.legible_putField howner (hi field.name List.mem_cons_self) hdescriptor
  | goto label => exact .line (Line.legible_jump nofun (htarget label rfl))
  | branch condition label =>
    have hcondition : ∀ name ∈ condition.memberNames, Plain name := hi
    exact legible_branch hh hcondition (htarget label rfl)
  | _ => exact hvalue rfl

omit hh in
theorem legible_labels {names : List String} (h : ∀ name ∈ names, Plain name) :
    Every Legible (labels names) := by
  induction names with
  | nil => exact .pure ()
  | cons name rest ih =>
    obtain ⟨hname, hrest⟩ := List.forall_mem_cons.1 h
    exact .bind (.line (Line.legible_label hname)) fun _ => ih hrest

end Named

variable {s}

theorem legible_lower (hm : s.method.WellFormed) (hh : s.header.PlainlyNamed)
    (hnames : s.method.PlainlyNamed) : ∀ l ∈ s.lower.lines, l.Legible := by
  have hlabels (n : Node) : ∀ name ∈ s.method.labelsAt n, Plain name := by
    intro name hname
    obtain ⟨e, he, rfl⟩ := List.mem_map.1 hname
    exact hnames.labels e (List.mem_of_mem_filter he)
  have hstatements {l : List (Node × Instruction)} (hl : ∀ e ∈ l, e ∈ s.method.instructions) :
      Every Legible (s.statements l) := by
    induction l with
    | nil => exact .pure ()
    | cons e rest ih =>
      obtain ⟨n, i⟩ := e
      obtain ⟨he, hrest⟩ := List.forall_mem_cons.1 hl
      refine .bind (legible_labels (hlabels n)) fun _ =>
        .bind (legible_statement hh (hnames.members _ he) fun label hlabel => ?_) fun _ => ih hrest
      obtain ⟨t, ht⟩ := hm.jumps_declared n i label he hlabel
      exact hnames.labels _ (Method.mem_labels ht)
  have hbody : Every Legible s.body :=
    .bind (hstatements fun _ he => he) fun _ => legible_labels (hlabels .exit)
  exact hbody _

end Scope

namespace StackMachine

def Program.read? (labels : List String) (text : String) : Option Program :=
  ((text.toList.splitOn '\n').dropLast.mapM Line.read?).map fun lines => ⟨lines, labels⟩

end StackMachine

open StackMachine

theorem exists_rows {lines : List Line} (h : ∀ l ∈ lines, l.Legible) :
    ∃ rows : List (List Char),
      (String.join (lines.map Line.text)).toList.splitOn '\n' = rows ++ [[]] ∧
      rows.mapM Line.read? = some lines := by
  induction lines with
  | nil => exact ⟨[], rfl, rfl⟩
  | cons l rest ih =>
    obtain ⟨⟨row, htext, hunbroken, hread⟩, hrest⟩ := List.forall_mem_cons.1 h
    obtain ⟨rows, hsplit, hrows⟩ := ih hrest
    refine ⟨row.toList :: rows, ?_, ?_⟩
    · have hjoin : (String.join ((l :: rest).map Line.text)).toList =
          row.toList ++ '\n' :: (String.join (rest.map Line.text)).toList := by
        simp [String.toList_join, htext]
      rw [hjoin, List.splitOn_append_cons_self, List.splitOn_eq_singleton hunbroken, hsplit]
      rfl
    · rw [List.mapM_cons, hread, hrows]
      rfl

theorem Body.read?_text {body : Body} (h : ∀ l ∈ body.lines, l.Legible) (labels : List String) :
    Program.read? labels body.text = some ⟨body.lines.toList, labels⟩ := by
  obtain ⟨rows, hsplit, hrows⟩ := exists_rows fun l hl => h l (Array.mem_toList_iff.1 hl)
  rw [Program.read?, Body.text, hsplit, List.dropLast_concat, hrows]
  rfl

theorem Scope.read?_text {s : Scope} {body : Body} (hm : s.method.WellFormed)
    (hh : s.header.PlainlyNamed) (hnames : s.method.PlainlyNamed) (h : s.assemble = .ok body) :
    Program.read? (s.method.labels.map Prod.fst) body.text = some (s.program body) := by
  refine Body.read?_text (fun l hl => ?_) _
  have hlines := lines_of_assemble h
  exact legible_lower hm hh hnames l (hlines ▸ Array.mem_toList_iff.2 hl)

end ClassLowering
