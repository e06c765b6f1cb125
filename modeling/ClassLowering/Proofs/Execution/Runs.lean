import Mathlib.Logic.Function.Iterate
import ClassLowering.Proofs.Execution.Semantics
import ClassLowering.Proofs.Method.FallThrough

namespace ClassLowering

variable {Value Memory : Type}

namespace Method

def destination (m : Method) (n : Node) : Control Value → Node
  | .next => m.following n
  | .jump label => (m.target? label).getD .exit
  | .ret _ => .exit

def advance (m : Method) (sem : Semantics Value Memory) (receiver : Value)
    (s : Node × Machine String Value Memory) : Node × Machine String Value Memory :=
  (m.instruction? s.1).elim s fun i =>
    let e := i.execute sem ((Layout.own receiver).frame s.2.cells) s.2.memory
    (m.destination s.1 e.control, s.2.apply (.own receiver) e)

def run (m : Method) (sem : Semantics Value Memory) (receiver : Value) (store : String → Value)
    (memory : Memory) (steps : Nat) : Node × Machine String Value Memory :=
  (m.advance sem receiver)^[steps] (m.start, ⟨store, memory, []⟩)

def Observes (m : Method) (sem : Semantics Value Memory) (receiver : Value)
    (store : String → Value) (memory : Memory) (actions : List (Action Value)) : Prop :=
  ∃ steps, actions <+: (m.run sem receiver store memory steps).2.actions

def Ends (m : Method) (sem : Semantics Value Memory) (receiver : Value) (store : String → Value)
    (memory : Memory) (actions : List (Action Value)) (final : Memory) : Prop :=
  ∃ steps, (m.run sem receiver store memory steps).1 = .exit ∧
    (m.run sem receiver store memory steps).2.actions = actions ∧
    (m.run sem receiver store memory steps).2.memory = final

def Follows (m m' : Method) (sem : Semantics Value Memory) (receiver : Value) : Prop :=
  ∀ store memory steps, ∃ steps',
    (m'.run sem receiver store memory steps').2.actions =
      (m.run sem receiver store memory steps).2.actions ∧
    (m'.run sem receiver store memory steps').2.memory =
      (m.run sem receiver store memory steps).2.memory ∧
    ((m.run sem receiver store memory steps).1 = .exit →
      (m'.run sem receiver store memory steps').1 = .exit)

variable {m m' m'' : Method} {sem : Semantics Value Memory} {receiver : Value}
  {store : String → Value} {memory : Memory}

theorem Follows.refl (m : Method) : m.Follows m sem receiver := by
  intro store memory steps
  exact ⟨steps, rfl, rfl, id⟩

theorem Follows.trans (h : m.Follows m' sem receiver) (h' : m'.Follows m'' sem receiver) :
    m.Follows m'' sem receiver := by
  intro store memory steps
  obtain ⟨steps', ha, hm, he⟩ := h store memory steps
  obtain ⟨steps'', ha', hm', he'⟩ := h' store memory steps'
  exact ⟨steps'', ha'.trans ha, hm'.trans hm, fun hs => he' (he hs)⟩

theorem Follows.observes (h : m.Follows m' sem receiver) {actions : List (Action Value)}
    (ho : m.Observes sem receiver store memory actions) :
    m'.Observes sem receiver store memory actions := by
  obtain ⟨steps, hp⟩ := ho
  obtain ⟨steps', ha, -, -⟩ := h store memory steps
  exact ⟨steps', ha ▸ hp⟩

theorem Follows.ends (h : m.Follows m' sem receiver) {actions : List (Action Value)}
    {final : Memory} (hend : m.Ends sem receiver store memory actions final) :
    m'.Ends sem receiver store memory actions final := by
  obtain ⟨steps, hx, rfl, rfl⟩ := hend
  obtain ⟨steps', ha, hm, he⟩ := h store memory steps
  exact ⟨steps', he hx, ha, hm⟩

theorem run_succ (m : Method) (sem : Semantics Value Memory) (receiver : Value)
    (store : String → Value) (memory : Memory) (steps : Nat) :
    m.run sem receiver store memory (steps + 1) =
      m.advance sem receiver (m.run sem receiver store memory steps) :=
  Function.iterate_succ_apply' _ _ _

theorem advance_of_instruction {s : Node × Machine String Value Memory} {i : Instruction}
    (hi : m.instruction? s.1 = some i) :
    m.advance sem receiver s =
      (m.destination s.1
          (i.execute sem ((Layout.own receiver).frame s.2.cells) s.2.memory).control,
        s.2.apply (.own receiver)
          (i.execute sem ((Layout.own receiver).frame s.2.cells) s.2.memory)) := by
  rw [advance, hi]
  rfl

theorem advance_of_no_instruction {s : Node × Machine String Value Memory}
    (hi : m.instruction? s.1 = none) : m.advance sem receiver s = s := by
  rw [advance, hi]
  rfl

theorem leads_destination (hm : m.JumpsDeclared) {n : Node} {i : Instruction}
    (hi : m.instruction? n = some i) (frame : Frame Value) (memory : Memory) :
    m.Leads i (m.following n) (m.destination n (i.execute sem frame memory).control) := by
  have hjump {label : String} (hl : i.target? = some label) :
      m.target? label = some ((m.target? label).getD .exit) := by
    obtain ⟨t, ht⟩ := hm n i label (mem_instructions.2 hi) hl
    rw [ht]
    rfl
  cases i with
  | goto label => exact hjump rfl
  | branch condition label =>
    simp only [Instruction.execute]
    split
    · exact .inr (hjump rfl)
    · exact .inl rfl
  | assign place value => cases place <;> rfl
  | _ => rfl

end Method

end ClassLowering
