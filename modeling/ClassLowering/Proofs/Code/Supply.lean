import ClassLowering.Code.Lowering

namespace ClassLowering

def Op.demand : Op → Nat
  | .dup => 1
  | o => o.pops

def Line.demand : Line → Nat
  | .op o => o.demand
  | .jump j _ => j.pops
  | .exit e => e.pops
  | .label _ => 0

theorem Line.pops_le_demand (l : Line) : l.pops ≤ l.demand := by
  cases l with
  | op o =>
    cases o with
    | dup => exact Nat.zero_le 1
    | _ => exact Nat.le_refl _
  | jump j target => exact Nat.le_refl _
  | exit e => exact Nat.le_refl _
  | label name => exact Nat.le_refl _

theorem Line.demand_eq_pops {l : Line} (h : l.pushes = 0) : l.demand = l.pops := by
  cases l with
  | op o =>
    cases o with
    | dup => cases h
    | _ => rfl
  | _ => rfl

def Line.leaves (c : Nat) : Line → Nat
  | .label _ => 0
  | l => c - l.pops + l.pushes

def known (c : Nat) (lines : List Line) : Nat := lines.foldl Line.leaves c

def Supplied : Nat → List Line → Prop
  | _, [] => True
  | c, l :: rest => (0 < l.pushes → l.demand ≤ c) ∧ Supplied (l.leaves c) rest

theorem known_append (c : Nat) (l l' : List Line) :
    known c (l ++ l') = known (known c l) l' := List.foldl_append

theorem supplied_append {c : Nat} {l l' : List Line} :
    Supplied c (l ++ l') ↔ Supplied c l ∧ Supplied (known c l) l' := by
  induction l generalizing c with
  | nil => exact ⟨fun h => ⟨trivial, h⟩, And.right⟩
  | cons a l ih =>
    rw [List.cons_append, Supplied, Supplied, ih, and_assoc]
    rfl

theorem Supplied.demand_le {c p : Nat} {lines : List Line} {l : Line} (h : Supplied c lines)
    (hp : lines[p]? = some l) (hpush : 0 < l.pushes) : l.demand ≤ known c (lines.take p) := by
  induction lines generalizing c p with
  | nil => simp at hp
  | cons a rest ih =>
    cases p with
    | zero =>
      cases hp
      exact h.1 hpush
    | succ p => exact ih h.2 (by simpa using hp)

def Lower.Supplies {α : Type} (k : Nat) (x : Lower α) (post : α → Nat) : Prop :=
  ∀ supply c, k ≤ c → Supplied c (x supply).lines ∧
    ∀ a, (x supply).outcome = .ok a → post a ≤ known c (x supply).lines

namespace Lower.Supplies

variable {α β : Type} {k n : Nat}

theorem mono {x : Lower α} {post post' : α → Nat} (h : Supplies k x post)
    (hp : ∀ a, post' a ≤ post a) : Supplies k x post' := by
  intro supply c hc
  obtain ⟨hs, ho⟩ := h supply c hc
  exact ⟨hs, fun a ha => Nat.le_trans (hp a) (ho a ha)⟩

theorem pure {a : α} {post : α → Nat} (h : post a ≤ k) :
    Supplies k (Pure.pure a : Lower α) post := by
  intro supply c hc
  refine ⟨trivial, ?_⟩
  intro b hb
  cases hb
  exact Nat.le_trans h hc

theorem bind {x : Lower α} {f : α → Lower β} {mid : α → Nat} {post : β → Nat}
    (hx : Supplies k x mid) (hf : ∀ a, Supplies (mid a) (f a) post) :
    Supplies k (x >>= f) post := by
  intro supply c hc
  obtain ⟨hs, ho⟩ := hx supply c hc
  change Supplied c (Lower.bind x f supply).lines ∧
    ∀ b, (Lower.bind x f supply).outcome = .ok b → post b ≤ known c (Lower.bind x f supply).lines
  unfold Lower.bind
  rcases hxs : x supply with ⟨lines, fault | a, rest⟩
  · rw [hxs] at hs
    exact ⟨hs, nofun⟩
  · rw [hxs] at hs ho
    obtain ⟨hs', ho'⟩ := hf a rest (known c lines) (ho a rfl)
    refine ⟨supplied_append.2 ⟨hs, hs'⟩, ?_⟩
    intro b hb
    rw [known_append]
    exact ho' b hb

theorem fail (fault : Fault) (post : α → Nat) : Supplies k (Lower.fail fault : Lower α) post :=
  fun _ _ _ => ⟨trivial, nofun⟩

theorem lift (value : Except Fault α) : Supplies k (liftM value : Lower α) fun _ => k :=
  fun _ _ hc => ⟨trivial, fun _ _ => hc⟩

theorem fresh (stem : String) : Supplies k (Lower.fresh stem) fun _ => k :=
  fun _ _ hc => ⟨trivial, fun _ _ => hc⟩

theorem op {o : Op} (hd : 0 < o.pushes → o.demand ≤ k) (hn : n ≤ k - o.pops + o.pushes) :
    Supplies k (Lower.op o) fun _ => n := by
  intro supply c hc
  refine ⟨⟨fun hp => Nat.le_trans (hd hp) hc, trivial⟩, ?_⟩
  intro _ _
  change n ≤ c - o.pops + o.pushes
  omega

theorem push {o : Op} (hd : o.demand = 0) (hp : o.pushes = 1) (ht : o.pops = 0) :
    Supplies k (Lower.op o) fun _ => k + 1 := by
  refine .op (fun _ => ?_) ?_
  · rw [hd]
    exact Nat.zero_le k
  · rw [hp, ht]
    exact Nat.le_refl _

theorem last {o : Op} (hd : 0 < o.pushes → o.demand ≤ k) : Supplies k (Lower.op o) fun _ => 0 :=
  .op hd (Nat.zero_le _)

theorem drop {x : Lower α} {post : α → Nat} (h : Supplies k x post) : Supplies k x fun _ => 0 :=
  h.mono fun _ => Nat.zero_le _

theorem jump (j : Jump) (target : String) : Supplies k (Lower.jump j target) fun _ => k - j.pops := by
  intro supply c hc
  refine ⟨⟨nofun, trivial⟩, ?_⟩
  intro _ _
  change k - j.pops ≤ c - j.pops + 0
  omega

theorem label (name : String) : Supplies k (Lower.line (.label name)) fun _ => 0 :=
  fun _ _ _ => ⟨⟨nofun, trivial⟩, fun _ _ => Nat.zero_le _⟩

theorem exit (e : Exit) : Supplies k (Lower.line (.exit e)) fun _ => 0 :=
  fun _ _ _ => ⟨⟨nofun, trivial⟩, fun _ _ => Nat.zero_le _⟩

end Lower.Supplies

namespace Scope

open Lower (Supplies)

variable (s : Scope) {k : Nat}

theorem supplies_load (x : Operand) : Supplies k (s.load x) fun _ => k + 1 := by
  induction x generalizing k with
  | literal value ty => exact .push rfl rfl rfl
  | var name ty => exact .bind (.lift _) fun r => .push rfl rfl rfl
  | element array index ty ih =>
    refine .bind (.lift _) fun r => .bind (.push rfl rfl rfl) fun _ => ?_
    refine .bind ih fun _ => .op (fun _ => ?_) ?_
    · exact Nat.le_add_left 2 k
    · exact Nat.le_refl _
  | self =>
    unfold load
    split
    · exact .fail _ _
    · exact .push rfl rfl rfl

theorem supplies_loadAll (l : List Operand) :
    Supplies k (s.loadAll l) fun _ => k + l.length := by
  induction l generalizing k with
  | nil => exact .pure (Nat.le_refl k)
  | cons x rest ih =>
    refine .bind (s.supplies_load x) fun _ => ih.mono fun _ => ?_
    rw [List.length_cons]
    omega

theorem supplies_loadArguments (l : List Operand) :
    Supplies k (s.loadArguments l) fun count => k + count := by
  refine .bind (s.supplies_loadAll l) fun _ => ?_
  split
  · exact .fail _ _
  · exact .pure (Nat.le_refl _)

theorem supplies_newArray (element : Ty) (length : Operand) :
    Supplies k (s.newArray element length) fun _ => 0 := by
  have hop {o : Op} (h : o.demand = 1) : Supplies (k + 1) (Lower.op o) fun _ => 0 := by
    refine .last fun _ => ?_
    omega
  refine .bind (s.supplies_load length) fun _ => ?_
  split
  · exact hop rfl
  · exact hop rfl
  · exact .bind (.lift _) fun className => hop rfl

theorem supplies_newObject (ty : Ty) : Supplies k (s.newObject ty) fun _ => 0 := by
  refine .bind (.lift _) fun className => ?_
  refine .bind (.push rfl rfl rfl) fun _ => ?_
  exact .last fun _ => Nat.le_add_left 1 k

theorem supplies_invoke (receiver : Operand) (arguments : List Operand)
    (owner descriptor : Except Fault String) (o : String → String → Nat → Op)
    (ho : ∀ owner descriptor count, (o owner descriptor count).demand = count + 1) :
    Supplies k (do
      s.load receiver
      let count ← s.loadArguments arguments
      let owner ← owner
      let descriptor ← descriptor
      .op (o owner descriptor count)) fun _ => 0 := by
  refine .bind (s.supplies_load _) fun _ => .bind (s.supplies_loadArguments _) fun count => ?_
  refine .bind (.lift _) fun owner => .bind (.lift _) fun descriptor => .last fun _ => ?_
  rw [ho]
  omega

theorem supplies_call (c : Call) : Supplies k (s.call c) fun _ => 0 := by
  unfold call
  dsimp only
  split
  · split
    · exact s.supplies_newArray _ _
    · exact .fail _ _
    · exact s.supplies_newObject _
    · exact .fail _ _
  · exact .bind (s.supplies_load _) fun _ => .last fun _ => Nat.le_add_left 1 k
  · refine .bind (s.supplies_loadArguments _) fun count => .bind (.lift _) fun descriptor => ?_
    exact .last fun _ => Nat.le_add_left count k
  · exact s.supplies_invoke _ _ _ _ (fun owner descriptor count => .invoke .virtual owner _
      descriptor (count + 1) _) fun _ _ _ => rfl
  · exact s.supplies_invoke _ _ _ _ (fun owner descriptor count => .invoke .special owner _
      descriptor (count + 1) _) fun _ _ _ => rfl

theorem supplies_compare (op : Comparison) (left right : Operand) (label : String) :
    Supplies k (s.compare op left right label) fun _ => 0 := by
  have hjump {j : Jump} {n : Nat} : Supplies n (Lower.jump j label) fun _ => 0 :=
    (Lower.Supplies.jump j label).drop
  unfold compare
  split
  · exact .bind (s.supplies_load left) fun _ => hjump
  · split
    · exact .bind (s.supplies_load right) fun _ => hjump
    · exact .bind (s.supplies_load left) fun _ => .bind (s.supplies_load right) fun _ => hjump

theorem supplies_const (v : Int32) : Supplies k (Lower.op (.const v)) fun _ => k + 1 :=
  .push rfl rfl rfl

theorem supplies_comparison (op : Comparison) (left right : Operand) :
    Supplies k (s.comparison op left right) fun _ => 0 := by
  refine .bind (.fresh _) fun holds => .bind (.fresh _) fun done => ?_
  refine .bind (s.supplies_compare op left right holds) fun _ => .bind (supplies_const _) fun _ => ?_
  refine .bind (.jump _ _) fun _ => .bind (.label _) fun _ => ?_
  exact .bind (supplies_const _) fun _ => .label _

theorem supplies_conjunction (left right : Operand) :
    Supplies k (s.conjunction left right) fun _ => 0 := by
  refine .bind (.fresh _) fun fails => .bind (.fresh _) fun done => ?_
  refine .bind (s.supplies_load left) fun _ => .bind (.jump _ _) fun _ => ?_
  refine .bind (s.supplies_load right) fun _ => .bind (.jump _ _) fun _ => ?_
  refine .bind (supplies_const _) fun _ => .bind (.jump _ _) fun _ => ?_
  exact .bind (.label _) fun _ => .bind (supplies_const _) fun _ => .label _

theorem supplies_arithmetic (op : Arithmetic) (left right : Operand) :
    Supplies k (s.arithmetic op left right) fun _ => 0 := by
  refine .bind (s.supplies_load left) fun _ => .bind (s.supplies_load right) fun _ => ?_
  exact .last fun _ => Nat.le_add_left 2 k

theorem supplies_binary (op : BinaryOp) (left right : Operand) :
    Supplies k (s.binary op left right) fun _ => 0 := by
  cases op with
  | and => exact s.supplies_conjunction left right
  | lt => exact s.supplies_comparison .lt left right
  | ge => exact s.supplies_comparison .ge left right
  | _ => exact s.supplies_arithmetic _ left right

theorem supplies_expression (i : Instruction) : Supplies k (s.expression i) fun _ => 0 := by
  cases i with
  | single x => exact (s.supplies_load x).drop
  | binary op left right => exact s.supplies_binary op left right
  | not x =>
    refine .bind (.push rfl rfl rfl) fun _ => ?_
    exact .bind (s.supplies_load x) fun _ => .last fun _ => Nat.le_add_left 2 k
  | call c =>
    unfold expression
    dsimp only
    split
    · exact .fail _ _
    · exact s.supplies_call c
  | getField object field =>
    refine .bind (s.supplies_load object) fun _ => .bind (.lift _) fun target => ?_
    exact .last fun _ => Nat.le_add_left 1 k
  | _ => exact .fail _ _

theorem supplies_of_no_push {o : Op} (h : o.pushes = 0) :
    Supplies k (Lower.op o) fun _ => 0 :=
  .last fun hp => absurd h (Nat.ne_of_gt hp)

theorem supplies_assign (destination : Operand) (value : Instruction) :
    Supplies k (s.assign destination value) fun _ => 0 := by
  unfold assign
  split
  · exact .bind (.lift _) fun r => supplies_of_no_push rfl
  · split
    · refine .bind (s.supplies_expression value) fun _ => .bind (.lift _) fun r => ?_
      exact supplies_of_no_push rfl
    · refine .bind (.lift _) fun r => .bind (.push rfl rfl rfl) fun _ => ?_
      refine .bind (s.supplies_load _) fun _ => .bind (s.supplies_expression value) fun _ => ?_
      exact supplies_of_no_push rfl
    · exact .fail _ _
    · exact .fail _ _

theorem supplies_branch (condition : Instruction) (label : String) :
    Supplies k (s.branch condition label) fun _ => 0 := by
  have hvalue : Supplies k (do s.expression condition; .jump .neZero label) fun _ => 0 :=
    .bind (s.supplies_expression condition) fun _ =>
      (Lower.Supplies.jump _ label).drop
  unfold branch
  dsimp only
  split
  · split
    · exact s.supplies_compare _ _ _ label
    · exact hvalue
  · exact hvalue

theorem supplies_statement (i : Instruction) : Supplies k (s.statement i) fun _ => 0 := by
  have hpop : ∀ n, Supplies n (Lower.op .pop) fun _ => 0 := fun n => supplies_of_no_push rfl
  cases i with
  | assign destination value => exact s.supplies_assign destination value
  | call c =>
    refine .bind (s.supplies_call c) fun _ => ?_
    split
    · exact hpop 0
    · exact .pure (Nat.le_refl 0)
  | ret value =>
    cases value with
    | none => exact .exit _
    | some x => exact .bind (s.supplies_load x) fun _ => .exit _
  | putField object field value =>
    refine .bind (s.supplies_load object) fun _ => .bind (s.supplies_load value) fun _ => ?_
    exact .bind (.lift _) fun target => supplies_of_no_push rfl
  | goto label => exact (Lower.Supplies.jump _ label).drop
  | branch condition label => exact s.supplies_branch condition label
  | _ => exact .bind (s.supplies_expression _) fun _ => hpop 0

theorem supplies_labels (names : List String) : Supplies k (labels names) fun _ => 0 := by
  induction names generalizing k with
  | nil => exact .pure (Nat.zero_le k)
  | cons name rest ih => exact .bind (.label name) fun _ => ih

theorem supplies_statements (l : List (Node × Instruction)) :
    Supplies k (s.statements l) fun _ => 0 := by
  induction l generalizing k with
  | nil => exact .pure (Nat.zero_le k)
  | cons e rest ih =>
    refine .bind (supplies_labels _) fun _ => .bind (s.supplies_statement e.2) fun _ => ih

theorem supplied_lower : Supplied 0 s.lower.lines := by
  have h : Supplies 0 s.body fun _ => 0 :=
    .bind (s.supplies_statements _) fun _ => supplies_labels _
  exact (h _ 0 (Nat.le_refl 0)).1

end Scope

end ClassLowering
