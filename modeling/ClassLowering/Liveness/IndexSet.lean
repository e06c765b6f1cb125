namespace ClassLowering

structure IndexSet where
  bound : Nat
  bits : Nat
  deriving DecidableEq, Repr, Inhabited

namespace IndexSet

def blockSize : Nat := 64

def empty (bound : Nat) : IndexSet := ⟨bound, 0⟩

def capacity (s : IndexSet) : Nat := blockSize * ((s.bound + blockSize - 1) / blockSize)

def contains (s : IndexSet) (i : Nat) : Bool := i < s.bound && s.bits.testBit i

def isEmpty (s : IndexSet) : Bool := s.bits = 0

def toList (s : IndexSet) : List Nat := (List.range s.capacity).filter s.bits.testBit

def size (s : IndexSet) : Nat := s.toList.length

def insert (s : IndexSet) (i : Nat) : IndexSet :=
  if i < s.bound then { s with bits := s.bits ||| (1 <<< i) } else s

def canInsert (s : IndexSet) (i : Nat) : Bool := i < s.bound && !s.bits.testBit i

def erase (s : IndexSet) (i : Nat) : IndexSet :=
  if i < s.bound && s.bits.testBit i then { s with bits := s.bits ^^^ (1 <<< i) } else s

def canErase (s : IndexSet) (i : Nat) : Bool := s.contains i

def union (s t : IndexSet) : IndexSet :=
  { s with bits := s.bits ||| t.bits % (1 <<< s.capacity) }

def canGrow (s t : IndexSet) : Bool := decide (s.union t ≠ s)

def diff (s t : IndexSet) : IndexSet :=
  { s with bits := s.bits ^^^ (s.bits &&& t.bits) }

def text (s : IndexSet) : String :=
  let members := ", ".intercalate (s.toList.map toString)
  "\x7b" ++ members ++ "\x7d"

@[simp] theorem bound_insert (s : IndexSet) (i : Nat) : (s.insert i).bound = s.bound := by
  unfold insert
  split <;> rfl

@[simp] theorem bound_erase (s : IndexSet) (i : Nat) : (s.erase i).bound = s.bound := by
  unfold erase
  split <;> rfl

@[simp] theorem bound_union (s t : IndexSet) : (s.union t).bound = s.bound := rfl

@[simp] theorem bound_diff (s t : IndexSet) : (s.diff t).bound = s.bound := rfl

theorem bound_le_capacity (s : IndexSet) : s.bound ≤ s.capacity := by
  simp only [capacity, blockSize]
  omega

theorem mem_toList {s : IndexSet} {i : Nat} :
    i ∈ s.toList ↔ i < s.capacity ∧ s.bits.testBit i = true := by
  simp [toList]

theorem testBit_insert (s : IndexSet) (i j : Nat) :
    (s.insert i).bits.testBit j =
      (s.bits.testBit j || decide (i = j ∧ i < s.bound)) := by
  unfold insert
  split
  · next inside => simp [inside, Nat.testBit_or, Nat.one_shiftLeft, Nat.testBit_two_pow]
  · next outside => simp [outside]

theorem testBit_union (s t : IndexSet) (j : Nat) :
    (s.union t).bits.testBit j =
      (s.bits.testBit j || (decide (j < s.capacity) && t.bits.testBit j)) := by
  simp [union, Nat.testBit_or, Nat.one_shiftLeft, Nat.testBit_mod_two_pow]

theorem testBit_diff (s t : IndexSet) (j : Nat) :
    (s.diff t).bits.testBit j = (s.bits.testBit j && !t.bits.testBit j) := by
  simp only [diff, Nat.testBit_xor, Nat.testBit_and]
  cases s.bits.testBit j <;> cases t.bits.testBit j <;> rfl

end IndexSet

end ClassLowering
