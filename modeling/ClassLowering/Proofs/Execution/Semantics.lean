import Mathlib.Logic.Function.Basic
import ClassLowering.Proofs.Reading

namespace ClassLowering

structure Semantics (Value Memory : Type) where
  literal : Int32 → Ty → Value
  isTrue : Value → Bool
  not : Value → Value
  binary : BinaryOp → Value → Value → Value
  element : Ty → Memory → Value → Value → Value
  field : FieldRef → Memory → Value → Value
  writeElement : Ty → Memory → Value → Value → Value → Memory
  writeField : FieldRef → Memory → Value → Value → Memory
  call : Call → Memory → List Value → Value × Memory
  other : Instruction → Memory → List Value → Value × Memory

def Semantics.integers : Semantics Int Unit where
  literal value _ := value.toInt
  isTrue x := x ≠ 0
  not x := 1 - x
  binary
    | .add, x, y => x + y
    | .sub, x, y => x - y
    | .mul, x, y => x * y
    | .div, x, y => x.tdiv y
    | .and, x, y => if x ≠ 0 ∧ y ≠ 0 then 1 else 0
    | .or, x, y => if x ≠ 0 ∨ y ≠ 0 then 1 else 0
    | .lt, x, y => if x < y then 1 else 0
    | .ge, x, y => if y ≤ x then 1 else 0
  element _ _ _ _ := 0
  field _ _ _ := 0
  writeElement _ _ _ _ _ := ()
  writeField _ _ _ _ := ()
  call _ _ _ := (0, ())
  other _ _ _ := (0, ())

inductive Action (Value : Type) where
  | call (call : Call) (values : List Value)
  | fieldWrite (field : FieldRef) (object value : Value)
  | elementWrite (array index value : Value)
  | branch (taken : Bool)
  | ret (value : Option Value)
  deriving DecidableEq

structure Frame (Value : Type) where
  self : Value
  read : String → Value

inductive Control (Value : Type) where
  | next
  | jump (label : String)
  | ret (value : Option Value)
  deriving DecidableEq

structure Evaluation (Value Memory : Type) where
  value : Value
  memory : Memory
  actions : List (Action Value) := []

structure Effect (Value Memory : Type) where
  actions : List (Action Value)
  memory : Memory
  write : Option (String × Value) := none
  control : Control Value := .next

variable {Value Memory : Type}

def Operand.value (sem : Semantics Value Memory) (frame : Frame Value) (memory : Memory) :
    Operand → Value
  | .literal value ty => sem.literal value ty
  | .var name _ => frame.read name
  | .element array index ty =>
    sem.element ty memory (frame.read array) (index.value sem frame memory)
  | .self => frame.self

def Call.inputs (c : Call) : List Operand :=
  match c.callee with
  | .length array => [array]
  | _ => c.reads

namespace Instruction

def evaluate (sem : Semantics Value Memory) (frame : Frame Value) (memory : Memory)
    (i : Instruction) : Evaluation Value Memory :=
  match i with
  | .single x => ⟨x.value sem frame memory, memory, []⟩
  | .not x => ⟨sem.not (x.value sem frame memory), memory, []⟩
  | .binary op left right =>
    ⟨sem.binary op (left.value sem frame memory) (right.value sem frame memory), memory, []⟩
  | .getField object field => ⟨sem.field field memory (object.value sem frame memory), memory, []⟩
  | .call c =>
    let values := c.reads.map fun x => x.value sem frame memory
    let result := sem.call c memory values
    ⟨result.1, result.2, [.call c values]⟩
  | .assign _ _ | .ret _ | .putField _ _ _ | .goto _ | .branch _ _ =>
    let result := sem.other i memory (i.reads.map fun x => x.value sem frame memory)
    ⟨result.1, result.2, []⟩

def execute (sem : Semantics Value Memory) (frame : Frame Value) (memory : Memory)
    (i : Instruction) : Effect Value Memory :=
  match i with
  | .assign (.var name _) value =>
    let result := value.evaluate sem frame memory
    { actions := result.actions, memory := result.memory, write := some (name, result.value) }
  | .assign (.element array index ty) value =>
    let place := index.value sem frame memory
    let result := value.evaluate sem frame memory
    { actions := result.actions ++ [.elementWrite (frame.read array) place result.value]
      memory := sem.writeElement ty result.memory (frame.read array) place result.value }
  | .assign _ value =>
    let result := value.evaluate sem frame memory
    { actions := result.actions, memory := result.memory }
  | .ret value =>
    let result := value.map fun x => x.value sem frame memory
    { actions := [.ret result], memory, control := .ret result }
  | .putField object field value =>
    let target := object.value sem frame memory
    let stored := value.value sem frame memory
    { actions := [.fieldWrite field target stored]
      memory := sem.writeField field memory target stored }
  | .goto label => { actions := [], memory, control := .jump label }
  | .branch condition label =>
    let result := condition.evaluate sem frame memory
    let taken := sem.isTrue result.value
    { actions := result.actions ++ [.branch taken]
      memory := result.memory
      control := if taken then .jump label else .next }
  | .call _ | .getField _ _ | .not _ | .binary _ _ _ | .single _ =>
    let result := i.evaluate sem frame memory
    { actions := result.actions, memory := result.memory }

def IsExpression : Instruction → Prop
  | .single _ | .not _ | .binary _ _ _ | .getField _ _ | .call _ => True
  | .assign _ _ | .ret _ | .putField _ _ _ | .goto _ | .branch _ _ => False

end Instruction

variable {sem : Semantics Value Memory} {f g : Frame Value} {memory : Memory}

theorem Operand.value_congr (hs : f.self = g.self) {x : Operand}
    (h : ∀ v, x.Uses v → f.read v = g.read v) :
    x.value sem f memory = x.value sem g memory := by
  induction x with
  | literal value ty => rfl
  | var name ty => exact h name (.var name ty)
  | element array index ty ih =>
    have hbase := h array (.base array index ty)
    have hindex := ih fun v hv => h v (.index hv)
    rw [Operand.value, Operand.value, hbase, hindex]
  | self => exact hs

namespace Instruction

theorem map_value_congr (hs : f.self = g.self) {l : List Operand}
    (h : ∀ v, (∃ x ∈ l, x.Uses v) → f.read v = g.read v) :
    (l.map fun x => x.value sem f memory) = l.map fun x => x.value sem g memory :=
  List.map_congr_left fun x hx => Operand.value_congr hs fun v hv => h v ⟨x, hx, hv⟩

theorem evaluate_congr (hs : f.self = g.self) {i : Instruction}
    (h : ∀ v, (∃ x ∈ i.reads, x.Uses v) → f.read v = g.read v) :
    i.evaluate sem f memory = i.evaluate sem g memory := by
  have hx {x : Operand} (hm : x ∈ i.reads) : x.value sem f memory = x.value sem g memory :=
    Operand.value_congr hs fun v hv => h v ⟨x, hm, hv⟩
  have hmap : (i.reads.map fun x => x.value sem f memory) =
      i.reads.map fun x => x.value sem g memory := map_value_congr hs h
  cases i with
  | single x => rw [evaluate, evaluate, hx (by simp [reads])]
  | not x => rw [evaluate, evaluate, hx (by simp [reads])]
  | binary op left right =>
    rw [evaluate, evaluate, hx (x := left) (by simp [reads]), hx (x := right) (by simp [reads])]
  | getField object field => rw [evaluate, evaluate, hx (by simp [reads])]
  | call c =>
    rw [reads] at hmap
    rw [evaluate, evaluate, hmap]
  | assign destination value => rw [evaluate, evaluate, hmap]
  | ret value => rw [evaluate, evaluate, hmap]
  | putField object field value => rw [evaluate, evaluate, hmap]
  | goto label => rw [evaluate, evaluate, hmap]
  | branch condition label => rw [evaluate, evaluate, hmap]

theorem execute_congr (hs : f.self = g.self) {i : Instruction}
    (h : ∀ v, i.ReadsVar v → f.read v = g.read v) :
    i.execute sem f memory = i.execute sem g memory := by
  have hreads {j : Instruction} (hj : j.reads ⊆ i.reads) :
      j.evaluate sem f memory = j.evaluate sem g memory :=
    evaluate_congr hs fun v ⟨x, hx, hv⟩ => h v (.inl ⟨x, hj hx, hv⟩)
  have hx {x : Operand} (hm : x ∈ i.reads) : x.value sem f memory = x.value sem g memory :=
    Operand.value_congr hs fun v hv => h v (.inl ⟨x, hm, hv⟩)
  cases i with
  | assign destination value =>
    have hvalue := hreads (j := value) fun x hx => hx
    cases destination with
    | var name ty => rw [execute, execute, hvalue]
    | element array index ty =>
      have huse {v : String} (hv : (Operand.element array index ty).Uses v) :
          f.read v = g.read v := h v (.inr ⟨array, index, ty, rfl, hv⟩)
      have hindex : index.value sem f memory = index.value sem g memory :=
        Operand.value_congr hs fun v hv => huse (.index hv)
      rw [execute, execute, hvalue, hindex, huse (.base array index ty)]
    | literal value ty => rw [execute, execute, hvalue] <;> nofun
    | self => rw [execute, execute, hvalue] <;> nofun
  | ret value =>
    have hmap : (value.map fun x => x.value sem f memory) =
        value.map fun x => x.value sem g memory := by
      cases value with
      | none => rfl
      | some x => exact congrArg some (hx (by simp [reads]))
    rw [execute, execute, hmap]
  | putField object field value =>
    rw [execute, execute, hx (x := object) (by simp [reads]), hx (x := value) (by simp [reads])]
  | goto label => rfl
  | branch condition label =>
    rw [execute, execute, hreads (j := condition) fun x hx => hx]
  | call c => rw [execute, execute, hreads fun x hx => hx]
  | getField object field => rw [execute, execute, hreads fun x hx => hx]
  | not x => rw [execute, execute, hreads fun x hx => hx]
  | binary op left right => rw [execute, execute, hreads fun x hx => hx]
  | single x => rw [execute, execute, hreads fun x hx => hx]

theorem assigns_iff_write {i : Instruction} {v : String} :
    i.Assigns v ↔ ∃ x, (i.execute sem f memory).write = some (v, x) := by
  unfold Assigns
  cases i with
  | assign destination value =>
    cases destination <;> simp [destination?, execute]
  | _ => simp [destination?, execute]

end Instruction

theorem Method.not_assignsAt {m : Method} {n : Node} {i : Instruction}
    (hi : m.instruction? n = some i) {v : String}
    (h : ∀ x, (i.execute sem f memory).write ≠ some (v, x)) : ¬ m.AssignsAt n v := by
  rintro ⟨j, hj, hassign⟩
  rw [hi] at hj
  cases hj
  obtain ⟨x, hx⟩ := Instruction.assigns_iff_write.1 hassign
  exact h x hx

structure Layout (Cell Value : Type) where
  place : String → Cell
  self : (Cell → Value) → Value

namespace Layout

def frame {Cell : Type} (lay : Layout Cell Value) (cells : Cell → Value) : Frame Value :=
  ⟨lay.self cells, fun v => cells (lay.place v)⟩

def own (receiver : Value) : Layout String Value := ⟨id, fun _ => receiver⟩

def registers (m : Method) (receiver : Value) : Layout (Option Nat) Value :=
  ⟨m.table.register?, fun cells => if m.isStatic then receiver else cells (some 0)⟩

end Layout

structure Machine (Cell Value Memory : Type) where
  cells : Cell → Value
  memory : Memory
  actions : List (Action Value) := []

section

variable {Cell : Type} [DecidableEq Cell]

def Machine.apply (s : Machine Cell Value Memory) (lay : Layout Cell Value)
    (e : Effect Value Memory) : Machine Cell Value Memory :=
  { cells := e.write.elim s.cells fun (v, x) => Function.update s.cells (lay.place v) x
    memory := e.memory
    actions := s.actions ++ e.actions }

theorem Machine.cells_apply_of_none {e : Effect Value Memory} (h : e.write = none)
    (s : Machine Cell Value Memory) (lay : Layout Cell Value) : (s.apply lay e).cells = s.cells := by
  rw [apply, h]
  rfl

theorem Machine.cells_apply_of_some {e : Effect Value Memory} {v : String} {x : Value}
    (h : e.write = some (v, x)) (s : Machine Cell Value Memory) (lay : Layout Cell Value) (c : Cell) :
    (s.apply lay e).cells c = if c = lay.place v then x else s.cells c := by
  rw [apply, h]
  exact Function.update_apply _ _ _ _

namespace Method

def visit (m : Method) (sem : Semantics Value Memory) (lay : Layout Cell Value)
    (s : Machine Cell Value Memory) (n : Node) : Machine Cell Value Memory :=
  (m.instruction? n).elim s fun i => s.apply lay (i.execute sem (lay.frame s.cells) s.memory)

def along (m : Method) (sem : Semantics Value Memory) (lay : Layout Cell Value)
    (s : Machine Cell Value Memory) (path : List Node) : Machine Cell Value Memory :=
  path.foldl (m.visit sem lay) s

end Method

end

end ClassLowering
