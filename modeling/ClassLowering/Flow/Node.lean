namespace ClassLowering

structure Node where
  index : Nat
  deriving DecidableEq, Repr, Inhabited

namespace Node

def entry : Node := ⟨0⟩

def exit : Node := ⟨1⟩

def ofSlot (slot : Nat) : Node := ⟨slot + 2⟩

def slot? (n : Node) : Option Nat :=
  if n.index < 2 then none else some (n.index - 2)

def isSentinel (n : Node) : Bool := n.index < 2

def text (n : Node) : String :=
  if n = entry then "begin" else if n = exit then "end" else s!"n{n.index}"

instance : ToString Node := ⟨text⟩

def debugText (n : Node) : String := s!"NodeId({n.index})"

@[simp] theorem slot?_ofSlot (slot : Nat) : (ofSlot slot).slot? = some slot := by
  simp [slot?, ofSlot]

@[simp] theorem isSentinel_ofSlot (slot : Nat) : (ofSlot slot).isSentinel = false :=
  decide_eq_false (by simp only [ofSlot]; omega)

theorem slot?_eq_some_iff {n : Node} {slot : Nat} : n.slot? = some slot ↔ n = ofSlot slot := by
  cases n
  simp only [slot?, ofSlot, mk.injEq]
  split <;> simp <;> omega

end Node

end ClassLowering
