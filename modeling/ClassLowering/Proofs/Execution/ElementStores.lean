import ClassLowering.Proofs.Execution.Frame
import ClassLowering.Proofs.Execution.Simulation

namespace ClassLowering

open StackMachine
open StateTransition (Reaches)

namespace Instruction

def createsObject : Instruction → Bool
  | .call c =>
    match c.callee with
    | .new => !c.result.isArray
    | _ => false
  | _ => false

end Instruction

namespace Scope

variable {Memory : Type} {s : Scope} {p : Program} {w : World Memory} {array : String}
  {index : Operand} {ty : Ty} {value : Instruction}

theorem residue_of_creates (h : value.createsObject = true) (d : Datum) : residue value d = [d] := by
  cases value with
  | call c =>
    obtain ⟨callee, arguments, result⟩ := c
    cases callee with
    | new =>
      have hobject : result.isArray = false := by simpa [Instruction.createsObject] using h
      simp [residue, answers, hobject]
    | _ => cases h
  | _ => cases h

theorem residue_of_not_creates (h : value.createsObject = false) (d : Datum) :
    residue value d = [] := by
  cases value with
  | call c =>
    refine residue_call (fun hnew => ?_) d
    simpa only [Instruction.createsObject, hnew, Bool.not_eq_false'] using h
  | _ => rfl

structure StoresElement (s : Scope) (p : Program) (w : World Memory) (array : String)
    (index : Operand) (ty : Ty) (value : Instruction) (left taken : Datum → Datum → Datum → List Datum)
    (q r : Nat) : Prop where
  store : p.lines[r]? = some (.op (.storeElement ty.elementKind))
  finds : ∀ (depth : Nat) stack st, Reached p.lines q depth → depth ≤ stack.length →
    p.Comes w (.running (q, stack), st) r (StackEffect.pushAll (do
      let (base, i, d) ← s.elementData w array index value
      return left base i d ++ taken base i d) stack st)
  writes : ∀ (depth : Nat) stack st, Reached p.lines q depth → depth ≤ stack.length →
    p.Comes w (.running (q, stack), st) (r + 1) (StackEffect.pushAll (do
      let (base, i, d) ← s.elementData w array index value
      let _ ← Run.request w (.storeElement ty.elementKind) (taken base i d)
      return left base i d) stack st)

theorem exists_storesElement {left taken : Datum → Datum → Datum → List Datum}
    (harranged : ∀ base i d,
      d :: (residue value d ++ [i, base]) = (left base i d ++ taken base i d).reverse)
    (hthree : ∀ base i d, (taken base i d).length = 3) {n : Node} {l : List (Node × Instruction)}
    {q : Nat} (hp : p.Sound) (h : s.Stands p [] ((n, .assign (.element array index ty) value) :: l) q) :
    ∃ r, s.StoresElement p w array index ty value left taken q r ∧
      s.Stands p (s.method.labelsAt (firstOf l)) l (r + 1) := by
  obtain ⟨supply, rest, hused, ho, hq, hnext⟩ := h.code
  have hwrites := (meets_element (w := w) harranged hthree hp supply () q rest hused ho hq).2
  rw [statement_element] at ho hq hnext hwrites
  obtain ⟨u, hoperands, he⟩ := Lower.bind_eq_ok ho
  rw [he] at hq hnext hwrites
  rw [List.append_assoc] at hq
  rw [List.length_append, ← Nat.add_assoc] at hnext hwrites
  have hfinds := (meets_elementOperands (w := w) harranged hp supply u q _ hused hoperands hq).2
  refine ⟨q + (s.elementOperands array index value supply).lines.length, ⟨?_, ?_, ?_⟩, hnext⟩
  · rw [← List.getElem?_drop, hq, List.getElem?_append_right (Nat.le_refl _), Nat.sub_self]
    rfl
  · exact fun depth stack st hreach hdepth =>
      Program.comes_framed (framed_pushAll _) hfinds hreach hdepth st
  · exact fun depth stack st hreach hdepth =>
      Program.comes_framed (framed_pushAll _) hwrites hreach hdepth st

section Standing

variable {n : Node} {l : List (Node × Instruction)} {q : Nat} (hp : p.Sound)
  (hq : s.Stands p [] ((n, .assign (.element array index ty) value) :: l) q)
include hp hq

theorem exists_stored (w : World Memory) (hvalue : value.createsObject = false) :
    ∃ r, s.StoresElement p w array index ty value (fun _ _ _ => []) (fun base i d => [base, i, d])
        q r ∧ s.Stands p (s.method.labelsAt (firstOf l)) l (r + 1) := by
  refine exists_storesElement (fun base i d => ?_) (fun _ _ _ => rfl) hp hq
  rw [residue_of_not_creates hvalue]
  rfl

theorem exists_misstored (w : World Memory) (hvalue : value.createsObject = true) :
    ∃ r, s.StoresElement p w array index ty value (fun base _ _ => [base]) (fun _ i d => [i, d, d])
        q r ∧ s.Stands p (s.method.labelsAt (firstOf l)) l (r + 1) := by
  refine exists_storesElement (fun base i d => ?_) (fun _ _ _ => rfl) hp hq
  rw [residue_of_creates hvalue]
  rfl

end Standing

theorem element_stored {body : Body} (h : s.assemble = .ok body)
    {before l : List (Node × Instruction)} {n : Node}
    (hsplit : s.method.instructions = before ++ (n, .assign (.element array index ty) value) :: l)
    (w : World Memory) :
    (∃ q, s.Stands (s.program body) [] ((n, .assign (.element array index ty) value) :: l) q) ∧
      ∀ q, s.Stands (s.program body) [] ((n, .assign (.element array index ty) value) :: l) q →
        ∃ r, s.Stands (s.program body) (s.method.labelsAt (firstOf l)) l (r + 1) ∧
          (value.createsObject = false → s.StoresElement (s.program body) w array index ty value
            (fun _ _ _ => []) (fun base i d => [base, i, d]) q r) ∧
          (value.createsObject = true → s.StoresElement (s.program body) w array index ty value
            (fun base _ _ => [base]) (fun _ i d => [i, d, d]) q r) := by
  have hp := sound_of_assemble h
  constructor
  · obtain ⟨q, hq⟩ := exists_stands h hsplit
    have hpassed := hq.drop _ (Nat.le_refl _)
    rw [List.drop_length] at hpassed
    exact ⟨_, hpassed⟩
  · intro q hq
    cases hvalue : value.createsObject with
    | false =>
      obtain ⟨r, hstores, hnext⟩ := exists_stored hp hq w hvalue
      exact ⟨r, hnext, fun _ => hstores, nofun⟩
    | true =>
      obtain ⟨r, hstores, hnext⟩ := exists_misstored hp hq w hvalue
      exact ⟨r, hnext, nofun, fun _ => hstores⟩

def enterSignature (element : Ty) : Signature :=
  { name := "enter", isStatic := true, parameters := [⟨"a", .array element⟩, ⟨"i", .int⟩] }

def enterInstruction (element : Ty) (value : Instruction) : Instruction :=
  .assign (.element "a" (.var "i" .int) element) value

def enter (element : Ty) (value : Instruction) : Method :=
  { enterSignature element with
    code := #[enterInstruction element value]
    body := [⟨2⟩]
    labels := []
    table :=
      { entries := [("a", ⟨.array element, some 0⟩), ("i", ⟨.int, some 1⟩)], names_nodup := by simp }
    body_code := by simp [Node.ofSlot]
    flow := ⟨#[⟨[⟨2⟩], []⟩, ⟨[], [⟨2⟩]⟩, ⟨[⟨1⟩], [⟨0⟩]⟩]⟩ }

def enterScope (element : Ty) (value : Instruction) : Scope := ⟨{ name := "Cell" }, enter element value⟩

def arrayWorld : World (Int32 → Int32 → Int32) where
  perform
    | .storeElement _, [⟨.reference, base⟩, ⟨.int, i⟩, d], memory =>
      .ok d fun array => if array = base then Function.update (memory base) i d.word else memory array
    | .newObject _, [], memory => .ok ⟨.reference, 7⟩ memory
    | _, _, memory => .error ⟨.reference, 1⟩ memory
  divisionByZero := ⟨.reference, 0⟩

def enterStore : Store (Int32 → Int32 → Int32) :=
  ⟨fun register => if register = 0 then ⟨.reference, 5⟩ else .int 2, fun _ _ => 0, []⟩

def lessThanFive : Instruction := .binary .lt (.var "i" .int) (.literal 5 .int)

theorem element_stored_enter :
    Method.build (enterSignature .bool) [.instruction (enterInstruction .bool lessThanFive)] =
      .ok (enter .bool lessThanFive) ∧
    ∃ body, (enterScope .bool lessThanFive).assemble = .ok body ∧ ∃ r,
      ((enterScope .bool lessThanFive).program body).lines[r]? = some (.op (.storeElement .bool)) ∧
      ∀ stack, Reaches (((enterScope .bool lessThanFive).program body).step arrayWorld)
          (.running (0, stack), enterStore)
          (.running (r, .int 1 :: .int 2 :: ⟨.reference, 5⟩ :: stack), enterStore) ∧
        ∃ st, Reaches (((enterScope .bool lessThanFive).program body).step arrayWorld)
            (.running (0, stack), enterStore) (.running (r + 1, stack), st) ∧
          st.memory 5 2 = 1 := by
  have hbuild : Method.build (enterSignature .bool)
      [.instruction (enterInstruction .bool lessThanFive)] = .ok (enter .bool lessThanFive) := by
    decide +kernel
  have hok : (enterScope .bool lessThanFive).assemble.toOption.isSome = true := by decide +kernel
  obtain ⟨body, h⟩ := exists_body hok
  have hsplit : (enterScope .bool lessThanFive).method.instructions =
      [] ++ (⟨2⟩, enterInstruction .bool lessThanFive) :: [] := rfl
  obtain ⟨r, -, hplain, -⟩ := (element_stored h hsplit arrayWorld).2 0 (stands_start h)
  have hstores := hplain rfl
  refine ⟨hbuild, body, h, r, hstores.store, fun stack =>
    ⟨hstores.finds 0 stack enterStore .start (Nat.zero_le _), _,
      hstores.writes 0 stack enterStore .start (Nat.zero_le _), ?_⟩⟩
  decide +kernel

def newCell : Instruction := .call ⟨.new, [], .object "Cell"⟩

theorem created_object_misstored :
    Method.build (enterSignature (.object "Cell"))
        [.instruction (enterInstruction (.object "Cell") newCell)] =
      .ok (enter (.object "Cell") newCell) ∧
    ∃ body, (enterScope (.object "Cell") newCell).assemble = .ok body ∧ ∃ r,
      ((enterScope (.object "Cell") newCell).program body).lines[r]? =
        some (.op (.storeElement .reference)) ∧
      ∀ stack, (∃ st, Reaches (((enterScope (.object "Cell") newCell).program body).step arrayWorld)
          (.running (0, stack), enterStore)
          (.running (r, ⟨.reference, 7⟩ :: ⟨.reference, 7⟩ :: .int 2 :: ⟨.reference, 5⟩ :: stack),
            st)) ∧
        ∃ st, Reaches (((enterScope (.object "Cell") newCell).program body).step arrayWorld)
            (.running (0, stack), enterStore) (.ended (.failed (.thrown ⟨.reference, 1⟩)), st) ∧
          st.acts = [.request (.newObject "Cell") [],
            .request (.storeElement .reference) [.int 2, ⟨.reference, 7⟩, ⟨.reference, 7⟩]] ∧
          st.memory 5 2 = 0 := by
  have hbuild : Method.build (enterSignature (.object "Cell"))
      [.instruction (enterInstruction (.object "Cell") newCell)] =
        .ok (enter (.object "Cell") newCell) := by
    decide +kernel
  have hok : (enterScope (.object "Cell") newCell).assemble.toOption.isSome = true := by
    decide +kernel
  obtain ⟨body, h⟩ := exists_body hok
  obtain ⟨r, hstores, -⟩ := exists_misstored (sound_of_assemble h) (stands_start h) arrayWorld rfl
  refine ⟨hbuild, body, h, r, hstores.store, fun stack =>
    ⟨⟨_, hstores.finds 0 stack enterStore .start (Nat.zero_le _)⟩, _,
      hstores.writes 0 stack enterStore .start (Nat.zero_le _), ?_, ?_⟩⟩
  · decide +kernel
  · decide +kernel

end Scope

end ClassLowering
