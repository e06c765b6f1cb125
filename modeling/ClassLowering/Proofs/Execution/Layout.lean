import ClassLowering.Proofs.Code.Additions
import ClassLowering.Proofs.Code.Labels
import ClassLowering.Proofs.Execution.Selection
import ClassLowering.Proofs.Method.Structure

namespace ClassLowering

open StackMachine

namespace Body

variable {b b' body : Body} {lines : List Line}

theorem label_not_mem_of_defined (h : b.addAll lines = .ok body) {name : String}
    (hname : name ∈ b.defined) : Line.label name ∉ lines := by
  induction lines generalizing b with
  | nil => exact List.not_mem_nil
  | cons l rest ih =>
    obtain ⟨b', hadd, hrest⟩ := addAll_cons_add h
    have henters := add_enters hadd
    intro hmem
    rcases List.mem_cons.1 hmem with hl | hmem
    · exact (henters.label name hl.symm).1 hname
    · exact ih hrest (henters.defined_subset hname) hmem

theorem label_unique (h : b.addAll lines = .ok body) {i j : Nat} {name : String}
    (hi : lines[i]? = some (.label name)) (hj : lines[j]? = some (.label name)) : i = j := by
  induction lines generalizing b i j with
  | nil => cases hi
  | cons l rest ih =>
    obtain ⟨b', hadd, hrest⟩ := addAll_cons_add h
    have hlater {k : Nat} (hl : l = .label name) (hk : rest[k]? = some (.label name)) : False :=
      label_not_mem_of_defined hrest ((add_enters hadd).label name hl).2 (List.mem_of_getElem? hk)
    cases i with
    | zero =>
      cases j with
      | zero => rfl
      | succ j => exact (hlater (Option.some.inj hi) hj).elim
    | succ i =>
      cases j with
      | zero => exact (hlater (Option.some.inj hj) hi).elim
      | succ j => rw [ih hrest hi hj]

end Body

namespace Lower

def Writes {α : Type} (x : Lower α) : Prop :=
  ∀ supply a, (x supply).outcome = .ok a → (x supply).lines ≠ []

variable {α β : Type} {x : Lower α} {f : α → Lower β}

theorem writes_line (l : Line) : Writes (line l) := fun _ _ _ => List.cons_ne_nil l []

theorem writes_fail (fault : Fault) : Writes (fail fault : Lower α) := nofun

theorem Writes.bind (h : Writes x) : Writes (x >>= f) := by
  intro supply b ho
  obtain ⟨a, ha, he⟩ := bind_eq_ok ho
  rw [he]
  exact List.append_ne_nil_of_left_ne_nil (h supply a ha) _

theorem writes_bind (h : ∀ a, Writes (f a)) : Writes (x >>= f) := by
  intro supply b ho
  obtain ⟨a, ha, he⟩ := bind_eq_ok ho
  rw [he] at ho ⊢
  exact List.append_ne_nil_of_right_ne_nil _ (h a _ b ho)

end Lower

namespace Scope

open Lower (writes_bind writes_fail writes_line)

theorem writes_call (s : Scope) (c : Call) : (s.call c).Writes := by
  unfold call
  dsimp only
  split
  · split
    · refine writes_bind fun _ => ?_
      split
      · exact writes_line _
      · exact writes_line _
      · exact writes_bind fun _ => writes_line _
    · exact writes_fail _
    · exact writes_bind fun _ => writes_bind fun _ => writes_line _
    · exact writes_fail _
  · exact writes_bind fun _ => writes_line _
  · exact writes_bind fun _ => writes_bind fun _ => writes_line _
  · exact writes_bind fun _ => writes_bind fun _ => writes_bind fun _ => writes_bind fun _ =>
      writes_line _
  · exact writes_bind fun _ => writes_bind fun _ => writes_bind fun _ => writes_bind fun _ =>
      writes_line _

theorem writes_assign (s : Scope) (destination : Operand) (value : Instruction) :
    (s.assign destination value).Writes := by
  unfold assign
  split
  · exact writes_bind fun _ => writes_line _
  · split
    · exact writes_bind fun _ => writes_bind fun _ => writes_line _
    · exact writes_bind fun _ => writes_bind fun _ => writes_bind fun _ => writes_bind fun _ =>
        writes_line _
    · exact writes_fail _
    · exact writes_fail _

theorem writes_compare (s : Scope) (op : Comparison) (left right : Operand) (label : String) :
    (s.compare op left right label).Writes := by
  unfold compare
  split
  · exact writes_bind fun _ => writes_line _
  · split
    · exact writes_bind fun _ => writes_line _
    · exact writes_bind fun _ => writes_bind fun _ => writes_line _

theorem writes_statement (s : Scope) (i : Instruction) : (s.statement i).Writes := by
  cases i with
  | assign destination value => exact s.writes_assign destination value
  | call c => exact (s.writes_call c).bind
  | ret value =>
    cases value with
    | none => exact writes_line _
    | some x => exact writes_bind fun _ => writes_line _
  | putField object field value =>
    exact writes_bind fun _ => writes_bind fun _ => writes_bind fun _ => writes_line _
  | goto label => exact writes_line _
  | branch condition label =>
    change (s.branch condition label).Writes
    unfold branch
    dsimp only
    split
    · split
      · exact s.writes_compare _ _ _ _
      · exact writes_bind fun _ => writes_line _
    · exact writes_bind fun _ => writes_line _
  | _ => exact writes_bind fun _ => writes_line _

variable {Memory : Type} {s : Scope} {body : Body} {w : World Memory}

def program (s : Scope) (body : Body) : Program :=
  ⟨body.lines.toList, s.method.labels.map Prod.fst⟩

theorem exists_body (h : s.assemble.toOption.isSome = true) : ∃ body, s.assemble = .ok body := by
  cases hassemble : s.assemble with
  | ok body => exact ⟨body, rfl⟩
  | error fault =>
    rw [hassemble] at h
    cases h

theorem lines_of_assemble (h : s.assemble = .ok body) : (s.program body).lines = s.lower.lines :=
  toList_lines_of_assemble h

theorem sound_of_assemble (h : s.assemble = .ok body) : (s.program body).Sound := by
  have hall := assemble_eq_ok h
  obtain ⟨hbounded, hdepth, hreach, -⟩ := s.emptyBody_spec
  have hlines := lines_of_assemble h
  refine ⟨fun hi hj => ?_, fun hr hl => ?_⟩
  · rw [hlines] at hi hj
    exact Body.label_unique hall hi hj
  · rw [hlines] at hr hl
    have hsettle := Body.settles_of_reached hall hbounded hdepth hreach s.supplied_lower hr
    exact (hsettle.limits hall hbounded s.supplied_lower hl).1

theorem labels_eq (names : List String) (supply : LabelSupply) :
    labels names supply = ⟨names.map .label, .ok (), supply⟩ := by
  induction names with
  | nil => rfl
  | cons name rest ih =>
    rw [labels]
    change (⟨[.label name] ++ (labels rest supply).lines, (labels rest supply).outcome,
      (labels rest supply).supply⟩ : Written Unit) = _
    rw [ih]
    rfl

def firstOf (l : List (Node × Instruction)) : Node := (l.head?.map Prod.fst).getD .exit

def codeFrom (s : Scope) : List (Node × Instruction) → Lower Unit
  | [] => pure ()
  | (_, i) :: rest => do
    s.statement i
    labels (s.method.labelsAt (firstOf rest))
    s.codeFrom rest

theorem statements_eq (l : List (Node × Instruction)) :
    (do s.statements l; labels (s.method.labelsAt .exit)) = (do
      labels (s.method.labelsAt (firstOf l))
      s.codeFrom l) := by
  induction l with
  | nil => exact (bind_pure_unit (x := labels (s.method.labelsAt .exit))).symm
  | cons e rest ih =>
    obtain ⟨n, i⟩ := e
    simp only [statements, codeFrom, bind_assoc, ih]
    rfl

theorem mem_lines_statements {l : List (Node × Instruction)} {supply : LabelSupply}
    (ho : (s.statements l supply).outcome = .ok ()) {n : Node} {i : Instruction} (hi : (n, i) ∈ l)
    {name : String} (hname : name ∈ s.method.labelsAt n) :
    Line.label name ∈ (s.statements l supply).lines := by
  induction l generalizing supply with
  | nil => cases hi
  | cons e rest ih =>
    obtain ⟨u, hlabels, he⟩ := Lower.bind_eq_ok ho
    rw [statements, he]
    rw [statements, he] at ho
    refine List.mem_append.2 ?_
    rcases List.mem_cons.1 hi with rfl | hi
    · left
      rw [labels_eq]
      exact List.mem_map_of_mem hname
    · right
      obtain ⟨u', -, he'⟩ := Lower.bind_eq_ok ho
      rw [he'] at ho ⊢
      exact List.mem_append_right _ (ih ho hi)

theorem mem_labelsAt {m : Method} {label : String} {n : Node} (h : m.target? label = some n) :
    label ∈ m.labelsAt n :=
  List.mem_map.2 ⟨(label, n), List.mem_filter.2 ⟨Method.mem_labels h, decide_eq_true rfl⟩, rfl⟩

theorem find_of_target (hm : s.method.WellFormed) (h : s.assemble = .ok body) {label : String}
    {n : Node} (ht : s.method.target? label = some n) :
    label ∈ (s.program body).labels ∧ ∃ q, (s.program body).find label = some q := by
  have hname := mem_labelsAt ht
  have hlookup := Method.mem_labels ht
  refine ⟨List.mem_map.2 ⟨_, hlookup, rfl⟩, ?_⟩
  have hline : Line.label label ∈ s.lower.lines := by
    obtain ⟨u, hstatements, he⟩ := Lower.bind_eq_ok (outcome_of_assemble h)
    change Line.label label ∈ (s.body _).lines
    rw [Scope.body, he]
    rcases hm.label_target _ hlookup with hexit | hbody
    · refine List.mem_append_right _ ?_
      rw [labels_eq]
      exact List.mem_map_of_mem (hexit ▸ hname)
    · obtain ⟨i, hi⟩ := Method.exists_instruction? hbody
      exact List.mem_append_left _ (mem_lines_statements hstatements (Method.mem_instructions.2 hi) hname)
  obtain ⟨q, hq⟩ := List.getElem?_of_mem hline
  rw [← lines_of_assemble h] at hq
  exact ⟨q, (sound_of_assemble h).find_eq hq⟩

def Stands (s : Scope) (p : Program) (names : List String) (l : List (Node × Instruction))
    (q : Nat) : Prop :=
  ∃ supply, p.labels ⊆ supply.used ∧ (s.codeFrom l supply).outcome = .ok () ∧
    p.lines.drop q = names.map .label ++ (s.codeFrom l supply).lines

theorem stands_start (h : s.assemble = .ok body) :
    s.Stands (s.program body) (s.method.labelsAt (firstOf s.method.instructions))
      s.method.instructions 0 := by
  let supply : LabelSupply := { used := s.method.labels.map Prod.fst }
  have ho : (s.body supply).outcome = .ok () := outcome_of_assemble h
  have hlines : (s.program body).lines = (s.body supply).lines := lines_of_assemble h
  rw [Scope.body, statements_eq] at ho hlines
  obtain ⟨u, -, he⟩ := Lower.bind_eq_ok ho
  rw [he, labels_eq] at ho hlines
  exact ⟨supply, List.Subset.refl _, ho, hlines⟩

variable {p : Program} {names : List String} {l : List (Node × Instruction)} {q : Nat}

theorem Stands.drop (h : s.Stands p names l q) (k : Nat) (hk : k ≤ names.length) :
    s.Stands p (names.drop k) l (q + k) := by
  obtain ⟨supply, hused, ho, hq⟩ := h
  refine ⟨supply, hused, ho, ?_⟩
  rw [← List.drop_drop, hq, List.drop_append_of_le_length (by rwa [List.length_map]), List.map_drop]

theorem Stands.label (h : s.Stands p names l q) {k : Nat} {name : String}
    (hk : names[k]? = some name) : p.lines[q + k]? = some (.label name) := by
  obtain ⟨supply, hused, ho, hq⟩ := h
  have hlt := (List.getElem?_eq_some_iff.1 hk).1
  rw [← List.getElem?_drop, hq, List.getElem?_append_left (by rwa [List.length_map]),
    List.getElem?_map, hk]
  rfl

theorem Stands.pass (h : s.Stands p names l q) (stack : List Datum) (st : Store Memory) :
    s.Stands p [] l (q + names.length) ∧ StateTransition.Reaches (p.step w)
      (.running (q, stack), st) (.running (q + names.length, stack), st) := by
  induction names generalizing q with
  | nil => exact ⟨h, .refl⟩
  | cons name rest ih =>
    have hstep : p.step w (.running (q, stack), st) = some (.running (q + 1, stack), st) :=
      Program.step_label (h.label (k := 0) rfl)
    obtain ⟨hstands, hreach⟩ := ih (h.drop 1 (Nat.succ_pos _))
    rw [List.length_cons, Nat.add_comm rest.length 1, ← Nat.add_assoc]
    exact ⟨hstands, .head hstep hreach⟩

theorem used_statement (s : Scope) (i : Instruction) (supply : LabelSupply) :
    supply.used ⊆ (s.statement i supply).supply.used := by
  have htargets : ∀ label, i.target? = some label → label ∈ i.target?.toList :=
    fun _ => Option.mem_toList.2
  obtain ⟨generated, h⟩ := s.labels_statement htargets supply
  rw [h.used_eq]
  exact List.subset_append_right _ _

theorem Stands.code {n : Node} {i : Instruction} (h : s.Stands p [] ((n, i) :: l) q) :
    ∃ supply rest, p.labels ⊆ supply.used ∧ (s.statement i supply).outcome = .ok () ∧
      p.lines.drop q = (s.statement i supply).lines ++ rest ∧
      s.Stands p (s.method.labelsAt (firstOf l)) l (q + (s.statement i supply).lines.length) := by
  obtain ⟨supply, hused, ho, hq⟩ := h
  rw [codeFrom] at ho hq
  obtain ⟨u, hstatement, he⟩ := Lower.bind_eq_ok ho
  rw [he] at ho hq
  obtain ⟨u', -, he'⟩ := Lower.bind_eq_ok ho
  rw [he', labels_eq] at ho hq
  exact ⟨supply, _, hused, hstatement, hq, _,
    List.Subset.trans hused (s.used_statement i supply), ho, Program.drop_past hq⟩

theorem Stands.statement {n : Node} {i : Instruction} (h : s.Stands p [] ((n, i) :: l) q)
    (hi : Selects s p w (s.statement i) i) :
    ∃ q', q < q' ∧ s.Stands p (s.method.labelsAt (firstOf l)) l q' ∧
      ∃ y : StackEffect Memory, (∀ stack, control <$> y stack = s.execute w i) ∧
        ∀ stack st, Reached p.lines q stack.length →
          p.Comes w (.running (q, stack), st) q' (y stack st) := by
  obtain ⟨supply, rest, hused, ho, hq, hnext⟩ := h.code
  obtain ⟨y, hmeets, hcontrol⟩ := hi
  have hwrites := s.writes_statement i supply () ho
  exact ⟨_, Nat.lt_add_of_pos_right (List.length_pos_of_ne_nil hwrites), hnext, y, hcontrol,
    (hmeets supply () q rest hused ho hq).2⟩

theorem Stands.suffix {before : List (Node × Instruction)}
    (h : s.Stands p (s.method.labelsAt (firstOf (before ++ l))) (before ++ l) q) :
    ∃ q', s.Stands p (s.method.labelsAt (firstOf l)) l q' := by
  induction before generalizing q with
  | nil => exact ⟨q, h⟩
  | cons e rest ih =>
    have hpassed := h.drop _ (Nat.le_refl _)
    rw [List.drop_length] at hpassed
    obtain ⟨supply, rest, -, -, -, hnext⟩ := hpassed.code
    exact ih hnext

theorem exists_stands (h : s.assemble = .ok body) {before : List (Node × Instruction)}
    (hsplit : s.method.instructions = before ++ l) :
    ∃ q, s.Stands (s.program body) (s.method.labelsAt (firstOf l)) l q := by
  have hstart := stands_start h
  rw [hsplit] at hstart
  exact hstart.suffix

end Scope

end ClassLowering
