import ClassLowering.Proofs.Code.Level
import ClassLowering.Proofs.Code.Lookups

namespace ClassLowering

def Call.Neutral (c : Call) : Prop :=
  (c.callee = .new → c.result.isArray = true) ∧
    ((∃ array, c.callee = .length array) → c.result ≠ .void) ∧ c.isConstructorInit = false

namespace Instruction

def calls : Instruction → List Call
  | .assign _ value => value.calls
  | .branch condition _ => condition.calls
  | .call c => [c]
  | _ => []

def isTest : Instruction → Bool
  | .binary .and _ _ | .binary .lt _ _ | .binary .ge _ _ => true
  | _ => false

def storesTest : Instruction → Bool
  | .assign (.element _ _ _) value => value.isTest
  | _ => false

def runsOn : Instruction → Bool
  | .goto _ | .ret _ => false
  | _ => true

end Instruction

theorem LooksUp.spares {α : Type} {r : Except Fault α} (h : LooksUp r) :
    Spares (fun _ => True) r := by
  cases r with
  | error fault =>
    obtain ⟨cause, rfl⟩ := h fault rfl
    exact id
  | ok a => exact trivial

namespace Scope

open Body (At Notes)
open Lower (Level)

variable (s : Scope) {k : Nat} {live : Bool} {own : List String}
  {F F' : LabelSupply → List (String × Int) → Prop}

theorem spares_register (name : String) : Spares (fun _ => True) (s.register name) := by
  unfold register
  split
  · exact trivial
  · exact id

theorem spares_memberOwner (ty : Ty) : Spares (fun _ => True) (s.header.memberOwner ty) :=
  (s.header.looksUp_memberOwner ty).spares

theorem spares_callDescriptor (c : Call) : Spares (fun _ => True) (s.callDescriptor c) :=
  (s.looksUp_callDescriptor c).spares

theorem spares_fieldTarget (object : Operand) (field : FieldRef) :
    Spares (fun _ => True) (s.fieldTarget object field) :=
  (s.looksUp_fieldTarget object field).spares

theorem spares_specialOwner (receiver : Operand) :
    Spares (fun _ => True) (s.specialOwner receiver) :=
  (s.looksUp_specialOwner receiver).spares

theorem level_load (x : Operand) : Level (At F live k) (s.load x) fun _ => At F live (k + 1) := by
  induction x generalizing k with
  | literal value ty => exact .op k rfl rfl
  | var name ty => exact .bind (.lift (s.spares_register name)) fun _ => .op k rfl rfl
  | element array index ty ih =>
    refine .bind (.lift (s.spares_register array)) fun r => ?_
    refine .bind (.op k rfl rfl) fun _ => .bind ih fun _ => ?_
    exact .op k rfl rfl
  | self =>
    unfold load
    split
    · exact .fail id _
    · exact .op k rfl rfl

theorem level_loadAll (l : List Operand) :
    Level (At F live k) (s.loadAll l) fun _ => At F live (k + l.length) := by
  induction l generalizing k with
  | nil => exact .pure fun _ _ => id
  | cons x rest ih =>
    refine .bind (s.level_load x) fun _ => ih.mono fun _ supply b hb => ?_
    rw [List.length_cons, Nat.add_comm rest.length 1, ← Nat.add_assoc]
    exact hb

theorem level_loadArguments (l : List Operand) :
    Level (At F live k) (s.loadArguments l) fun count supply b =>
      count = l.length ∧ At F live (k + count) supply b := by
  refine .bind (s.level_loadAll l) fun _ => ?_
  split
  · exact .fail id _
  · exact .pure fun _ _ hb => ⟨rfl, hb⟩

theorem level_invoke (receiver : Operand) (arguments : List Operand)
    {owner descriptor : Except Fault String} (howner : Spares (fun _ => True) owner)
    (hdescriptor : Spares (fun _ => True) descriptor) {o : String → String → Nat → Op} {pushes : Nat}
    (ho : ∀ owner descriptor count, (o owner descriptor count).pops = count + 1 ∧
      (o owner descriptor count).pushes = pushes) :
    Level (At F live k) (do
      s.load receiver
      let count ← s.loadArguments arguments
      let owner ← owner
      let descriptor ← descriptor
      .op (o owner descriptor count)) fun _ => At F live (k + pushes) := by
  refine .bind (s.level_load receiver) fun _ => .bind (s.level_loadArguments arguments) fun count => ?_
  refine .assume fun _ => .bind (.lift howner) fun owner => .bind (.lift hdescriptor) fun descriptor => ?_
  obtain ⟨hpops, hpushes⟩ := ho owner descriptor count
  exact .op k (by omega) (by omega)

theorem level_newArray (element : Ty) (length : Operand) :
    Level (At F live k) (s.newArray element length) fun _ => At F live (k + 1) := by
  refine .bind (s.level_load length) fun _ => ?_
  split
  · exact .op k rfl rfl
  · exact .op k rfl rfl
  · exact .bind (.lift (s.spares_memberOwner element)) fun className => .op k rfl rfl

theorem level_call {c : Call} (hc : c.Neutral) :
    Level (At F live k) (s.call c) fun _ => At F live (k + if c.result = .void then 0 else 1) := by
  obtain ⟨hnew, hlength, -⟩ := hc
  unfold call
  dsimp only
  split
  · next hcallee =>
    have harray := hnew hcallee
    cases hresult : c.result with
    | array element =>
      rw [if_neg nofun]
      split
      · exact s.level_newArray _ _
      · exact .fail id _
      · next hno => exact absurd rfl (hno element)
      · exact .fail id _
    | _ =>
      rw [hresult] at harray
      cases harray
  · next array hcallee =>
    rw [if_neg (hlength ⟨array, hcallee⟩)]
    exact .bind (s.level_load array) fun _ => .op k rfl rfl
  · refine .bind (s.level_loadArguments _) fun count => .assume fun _ => ?_
    refine .bind (.lift (s.spares_callDescriptor c)) fun descriptor => .op k rfl rfl
  · exact s.level_invoke _ _ (s.spares_memberOwner _) (s.spares_callDescriptor c)
      fun _ _ _ => ⟨rfl, rfl⟩
  · exact s.level_invoke _ _ (s.spares_specialOwner _) (s.spares_callDescriptor c)
      fun _ _ _ => ⟨rfl, rfl⟩

theorem level_compare (op : Comparison) (left right : Operand) {label : String}
    (hlive : live = true → Notes F label k F')
    (hdead : live = false → ∀ supply l, F supply l → F' supply l) :
    Level (At F live k) (s.compare op left right label) fun _ => At F' live k := by
  have hjump {j : Jump} {n : Nat} (hn : n = k + j.pops) (hj : j.isUnconditional = false) :
      Level (At F live n) (Lower.jump j label) fun _ => At F' live k := by
    have h := Level.jump k hn hlive hdead
    rw [hj, Bool.not_false, Bool.and_true] at h
    exact h
  unfold compare
  split
  · exact .bind (s.level_load left) fun _ => hjump (by cases op <;> rfl) (by cases op <;> rfl)
  · split
    · exact .bind (s.level_load right) fun _ => hjump (by cases op <;> rfl) (by cases op <;> rfl)
    · refine .bind (s.level_load left) fun _ => .bind (s.level_load right) fun _ => ?_
      exact hjump (by cases op <;> rfl) (by cases op <;> rfl)

def after (live : Bool) (name : String) (depth : Nat) (expected : String → Option Int) :
    String → Option Int :=
  if live then Function.update expected name (some (depth : Int)) else expected

theorem notes_after {pending : List String} {expected : String → Option Int} {name : String}
    (hname : name ∈ pending) (hown : name ∉ own)
    (hexpected : expected name = none ∨ expected name = some (k : Int)) :
    (live = true → Notes (Expects own pending expected) name k
      (Expects own pending (after live name k expected))) ∧
    (live = false → ∀ supply l, Expects own pending expected supply l →
      Expects own pending (after live name k expected) supply l) := by
  constructor
  · rintro rfl
    exact notes_pending hname hown hexpected
  · rintro rfl
    exact fun _ _ => id

theorem after_live (name : String) (expected : String → Option Int) :
    after true name k expected = Function.update expected name (some (k : Int)) := rfl

theorem after_self {expected : String → Option Int} {name : String}
    (h : expected name = none ∨ expected name = some (k : Int)) :
    after live name k expected name = none ∨ after live name k expected name = some (k : Int) := by
  cases live with
  | true => exact .inr (Function.update_self _ _ _)
  | false => exact h

theorem after_of_ne {expected : String → Option Int} {name other : String} (h : other ≠ name) :
    after live name k expected other = expected other := by
  cases live with
  | true => exact Function.update_of_ne h _ _
  | false => rfl

theorem level_const (v : Int32) :
    Level (At F live k) (Lower.op (.const v)) fun _ => At F live (k + 1) := .op k rfl rfl

theorem level_land {other done : String} (v : Int32) {expected : String → Option Int}
    (hne : done ≠ other) (ho : other ∉ own) (hd : done ∉ own)
    (hother : expected other = none ∧ k = 0 ∨ expected other = some (k : Int))
    (hdone : expected done = none ∨ expected done = some ((k + 1 : Nat) : Int)) :
    Level (At (Expects own [done, other] expected) false (k + 1)) (do
      Lower.line (.label other)
      .op (.const v)
      .line (.label done)) fun _ => At (Recorded own) true (k + 1) := by
  have hmem : done ∈ [done, other] := by simp
  have hmem' : other ∈ [done, other] := by simp
  have hbehind : Function.update expected other (some (k : Int)) done = expected done :=
    Function.update_of_ne hne _ _
  have hend : Level
      (At (Expects own [done, other] (Function.update expected other (some (k : Int)))) true (k + 1))
      (Lower.line (.label done)) fun _ => At (Recorded own) true (k + 1) :=
    (Level.label (fun _ => rfl) (notes_pending hmem hd (hbehind ▸ hdone)) (by nofun)).mono
      fun _ _ _ hb => ⟨hb.reachable_eq, hb.depth_eq, hb.labels.forget⟩
  refine .bind (.label nofun (notes_pending hmem' ho (hother.imp And.left id)) fun _ => ?_)
    fun _ => .bind (level_const v) fun _ => hend
  refine hother.imp And.right fun hsome supply l h => ?_
  rw [h.pending_eq other hmem', hsome]
  rfl

theorem level_join {other done : String} {v w : Int32} {expected : String → Option Int}
    (hne : done ≠ other) (ho : other ∉ own) (hd : done ∉ own) (hk : live = true ∨ k = 0)
    (hother : expected other = after live other k (fun _ => none) other)
    (hdone : expected done = none) :
    Level (At (Expects own [done, other] expected) live k) (do
      Lower.op (.const v)
      .jump .always done
      .line (.label other)
      .op (.const w)
      .line (.label done)) fun _ => At (Recorded own) true (k + 1) := by
  obtain ⟨hlive, hdead⟩ := @notes_after (k + 1) live own _ expected done List.mem_cons_self hd
    (.inl hdone)
  have hgoto : Level (At (Expects own [done, other] expected) live (k + 1))
      (Lower.jump .always done) fun _ =>
        At (Expects own [done, other] (after live done (k + 1) expected)) false (k + 1) := by
    have h := Level.jump (j := .always) (k + 1) rfl hlive hdead
    rw [Jump.isUnconditional_iff.2 (.inl rfl), Bool.not_true, Bool.and_false] at h
    exact h
  refine .bind (level_const v) fun _ => .bind hgoto fun _ =>
    level_land w hne ho hd ?_ (after_self (.inl hdone))
  rw [after_of_ne hne.symm, hother]
  cases live with
  | true =>
    rw [after_live, Function.update_self]
    exact .inr rfl
  | false => exact .inl ⟨rfl, hk.resolve_left nofun⟩

theorem level_comparison (op : Comparison) (left right : Operand) (hk : live = true ∨ k = 0) :
    Level (At (Recorded own) live k) (s.comparison op left right) fun _ =>
      At (Recorded own) true (k + 1) := by
  refine .bind (level_fresh _) fun holds => .assume fun ⟨hholds, _⟩ => ?_
  refine .bind (level_fresh _) fun done => .assume fun ⟨hdone, hnew⟩ => ?_
  have hne : done ≠ holds := fun he => hnew (he ▸ List.mem_cons_self)
  have hmem : holds ∈ [done, holds] := by simp
  obtain ⟨hlive, hdead⟩ := @notes_after k live own _ (fun _ => none) holds hmem hholds (.inl rfl)
  refine .bind (s.level_compare op left right hlive hdead) fun _ => ?_
  exact level_join hne hholds hdone hk rfl (after_of_ne hne)

theorem level_conjunction (left right : Operand) (hk : live = true ∨ k = 0) :
    Level (At (Recorded own) live k) (s.conjunction left right) fun _ =>
      At (Recorded own) true (k + 1) := by
  refine .bind (level_fresh _) fun fails => .assume fun ⟨hfails, _⟩ => ?_
  refine .bind (level_fresh _) fun done => .assume fun ⟨hdone, hnew⟩ => ?_
  have hne : done ≠ fails := fun he => hnew (he ▸ List.mem_cons_self)
  have hmem : fails ∈ [done, fails] := by simp
  have hjump {expected : String → Option Int}
      (hexpected : expected fails = none ∨ expected fails = some (k : Int)) :
      Level (At (Expects own [done, fails] expected) live (k + 1)) (Lower.jump .eqZero fails) fun _ =>
        At (Expects own [done, fails] (after live fails k expected)) live k := by
    obtain ⟨hlive, hdead⟩ := @notes_after k live own _ expected fails hmem hfails hexpected
    have h := Level.jump (j := .eqZero) k rfl hlive hdead
    rw [show Jump.eqZero.isUnconditional = false from rfl, Bool.not_false, Bool.and_true] at h
    exact h
  refine .bind (s.level_load left) fun _ => .bind (hjump (.inl rfl)) fun _ => ?_
  refine .bind (s.level_load right) fun _ => .bind (hjump (after_self (.inl rfl))) fun _ => ?_
  refine level_join hne hfails hdone hk ?_ ((after_of_ne hne).trans (after_of_ne hne))
  cases live with
  | true => rw [after_live, after_live, Function.update_idem]
  | false => rfl

theorem level_arithmetic (op : Arithmetic) (left right : Operand) :
    Level (At F live k) (s.arithmetic op left right) fun _ => At F live (k + 1) := by
  exact .bind (s.level_load left) fun _ => .bind (s.level_load right) fun _ => .op k rfl rfl

theorem level_expression {i : Instruction} (hc : ∀ c ∈ i.calls, c.Neutral)
    (hk : i.isTest = true → live = true ∨ k = 0) :
    Level (At (Recorded own) live k) (s.expression i) fun _ =>
      At (Recorded own) (live || i.isTest) (k + 1) := by
  have hplain (h : i.isTest = false) : (live || i.isTest) = live := by rw [h, Bool.or_false]
  cases i with
  | single x =>
    rw [hplain rfl]
    exact s.level_load x
  | binary op left right =>
    cases op with
    | and =>
      rw [Instruction.isTest, Bool.or_true]
      exact s.level_conjunction left right (hk rfl)
    | lt =>
      rw [Instruction.isTest, Bool.or_true]
      exact s.level_comparison .lt left right (hk rfl)
    | ge =>
      rw [Instruction.isTest, Bool.or_true]
      exact s.level_comparison .ge left right (hk rfl)
    | _ =>
      rw [hplain rfl]
      exact s.level_arithmetic _ left right
  | not x =>
    rw [hplain rfl]
    exact .bind (level_const 1) fun _ => .bind (s.level_load x) fun _ => .op k rfl rfl
  | call c =>
    rw [hplain rfl]
    change Level _ (if c.result = .void then .fail (.unsupported (.valueOfVoidCall c))
      else s.call c) _
    split
    · exact .fail id _
    · next hresult =>
      have h := @level_call s k live (Recorded own) c (hc c (by simp [Instruction.calls]))
      rw [if_neg hresult] at h
      exact h
  | getField object field =>
    rw [hplain rfl]
    refine .bind (s.level_load object) fun _ => .bind (.lift (s.spares_fieldTarget object field)) ?_
    exact fun target => .op k rfl rfl
  | _ => exact .fail id _

def Clear (own : List String) (live : Bool) (supply : LabelSupply) (b : Body) : Prop :=
  ∃ here, (live = true → here = true) ∧ At (Recorded own) here 0 supply b

theorem level_clear {α : Type} {x : Lower α} {Q : α → LabelSupply → Body → Prop}
    (h : ∀ here, (live = true → here = true) → Level (At (Recorded own) here 0) x Q) :
    Level (Clear own live) x Q := by
  rintro supply b ⟨here, hhere, hb⟩
  exact h here hhere supply b hb

theorem level_last {o : Op} {here : Bool} (hk : k = o.pops) (hpushes : o.pushes = 0)
    (hhere : live = true → here = true) :
    Level (At (Recorded own) here k) (Lower.op o) fun _ => Clear own live := by
  have h : Level (At (Recorded own) here k) (Lower.op o) fun _ => At (Recorded own) here 0 :=
    .op 0 (by omega) (by omega)
  exact h.mono fun _ _ _ hb => ⟨here, hhere, hb⟩

theorem level_exit (e : Exit) :
    Level (At (Recorded own) live e.pops) (Lower.line (.exit e)) fun _ => Clear own false := by
  have h : Level (At (Recorded own) live e.pops) (Lower.line (.exit e)) fun _ =>
      At (Recorded own) false 0 := .exit 0 (Nat.zero_add _).symm
  exact h.mono fun _ _ _ hb => ⟨false, id, hb⟩

theorem level_assign {destination : Operand} {value : Instruction}
    (hc : ∀ c ∈ value.calls, c.Neutral)
    (hk : (Instruction.assign destination value).storesTest = true → live = true) :
    Level (At (Recorded own) live 0) (s.assign destination value) fun _ => Clear own live := by
  have hor : live = true → (live || value.isTest) = true := fun h => by rw [h, Bool.true_or]
  unfold assign
  split
  · refine .bind (.lift (s.spares_register _)) fun r => ?_
    exact level_last rfl rfl id
  · cases destination with
    | var name ty =>
      refine .bind (s.level_expression hc fun _ => .inr rfl) fun _ => ?_
      refine .bind (.lift (s.spares_register name)) fun r => ?_
      exact level_last rfl rfl hor
    | element array index ty =>
      have harray {r : Nat} : Level (At (Recorded own) live 0) (Lower.op (.load .reference r))
          fun _ => At (Recorded own) live 1 := .op 0 rfl rfl
      refine .bind (.lift (s.spares_register array)) fun r => .bind harray fun _ => ?_
      refine .bind (s.level_load index) fun _ => ?_
      refine .bind (s.level_expression hc fun ht => .inl (hk ht)) fun _ => ?_
      exact level_last rfl rfl hor
    | _ => exact .fail id _

theorem level_jump_own {j : Jump} {label : String} (hlabel : label ∈ own) :
    Level (At (Recorded own) live j.pops) (Lower.jump j label) fun _ =>
      At (Recorded own) (live && !j.isUnconditional) 0 :=
  .jump 0 (Nat.zero_add _).symm (fun _ => notes_own hlabel) fun _ _ _ => id

theorem level_branch {condition : Instruction} {label : String}
    (hc : ∀ c ∈ condition.calls, c.Neutral) (hlabel : label ∈ own) :
    Level (At (Recorded own) live 0) (s.branch condition label) fun _ => Clear own live := by
  have hvalue : Level (At (Recorded own) live 0)
      (do s.expression condition; .jump .neZero label) fun _ => Clear own live := by
    refine .bind (s.level_expression hc fun _ => .inr rfl) fun _ => ?_
    refine (level_jump_own (j := .neZero) hlabel).mono fun _ _ _ hb => ⟨_, fun h => ?_, hb⟩
    rw [h]
    rfl
  unfold branch
  dsimp only
  split
  · split
    · refine (s.level_compare _ _ _ (fun _ => notes_own hlabel) fun _ _ _ => id).mono ?_
      exact fun _ _ _ hb => ⟨live, id, hb⟩
    · exact hvalue
  · exact hvalue

theorem level_statement {i : Instruction} (hc : ∀ c ∈ i.calls, c.Neutral)
    (hk : i.storesTest = true → live = true) (htarget : ∀ label, i.target? = some label → label ∈ own) :
    Level (At (Recorded own) live 0) (s.statement i) fun _ => Clear own (live && i.runsOn) := by
  have hvalue (ht : (live && i.runsOn) = live) (he : s.statement i = do s.expression i; .op .pop) :
      Level (At (Recorded own) live 0) (s.statement i) fun _ => Clear own (live && i.runsOn) := by
    rw [ht, he]
    refine .bind (s.level_expression hc fun _ => .inr rfl) fun _ => level_last rfl rfl fun h => ?_
    rw [h, Bool.true_or]
  have hruns (h : i.runsOn = true) : (live && i.runsOn) = live := by rw [h, Bool.and_true]
  cases i with
  | assign destination value =>
    rw [hruns rfl]
    exact s.level_assign hc hk
  | call c =>
    rw [hruns rfl]
    have hneutral := hc c (List.mem_singleton.2 rfl)
    refine .bind (s.level_call hneutral) fun _ => ?_
    rw [hneutral.2.2, Bool.or_false]
    by_cases hvoid : c.result = .void
    · rw [if_pos hvoid, if_neg (by simpa using hvoid)]
      exact .pure fun _ _ hb => ⟨live, id, hb⟩
    · rw [if_neg hvoid, if_pos (by simpa using hvoid)]
      exact level_last rfl rfl id
  | ret value =>
    rw [Instruction.runsOn, Bool.and_false]
    cases value with
    | none => exact level_exit .void
    | some x => exact .bind (s.level_load x) fun _ => level_exit (.value _)
  | putField object field value =>
    rw [hruns rfl]
    refine .bind (s.level_load object) fun _ => .bind (s.level_load value) fun _ => ?_
    exact .bind (.lift (s.spares_fieldTarget object field)) fun target => level_last rfl rfl id
  | goto label =>
    rw [Instruction.runsOn, Bool.and_false]
    refine (level_jump_own (j := .always) (htarget label rfl)).mono fun _ _ _ hb => ⟨_, nofun, hb⟩
  | branch condition label =>
    rw [hruns rfl]
    exact s.level_branch hc (htarget label rfl)
  | _ => exact hvalue (hruns rfl) rfl

theorem level_labels {names : List String} (hnames : ∀ name ∈ names, name ∈ own) :
    Level (Clear own live) (labels names) fun _ => Clear own (live || !names.isEmpty) := by
  induction names generalizing live with
  | nil =>
    rw [List.isEmpty_nil, Bool.not_true, Bool.or_false]
    exact .pure fun _ _ => id
  | cons name rest ih =>
    obtain ⟨hname, hrest⟩ := List.forall_mem_cons.1 hnames
    refine .bind (Q := fun _ => Clear own true) (level_clear fun here hhere => ?_) fun _ => ?_
    · have hlabel : Level (At (Recorded own) here 0) (Lower.line (.label name)) fun _ =>
          At (Recorded own) true 0 := .label (fun _ => rfl) (notes_own hname) fun _ => .inl rfl
      exact hlabel.mono fun _ _ _ hb => ⟨true, fun _ => rfl, hb⟩
    · have h := @ih true hrest
      rw [Bool.true_or] at h
      rw [List.isEmpty_cons, Bool.not_false, Bool.or_true]
      exact h

end Scope

end ClassLowering
