import ClassLowering.Search

namespace ClassLowering

structure LabelSupply where
  used : List String := []
  next : Nat := 0
  deriving DecidableEq, Repr, Inhabited

namespace LabelSupply

def numbered (stem : String) (n : Nat) : String := s!"{stem}_{n}"

def reserve (s : LabelSupply) (labels : List String) : LabelSupply :=
  { s with used := labels ++ s.used }

def freshNumber (s : LabelSupply) (stem : String) : Nat :=
  firstFrom (fun n => numbered stem n ∉ s.used) s.next s.used.length

def fresh (s : LabelSupply) (stem : String) : String × LabelSupply :=
  let n := s.freshNumber stem
  (numbered stem n, { used := numbered stem n :: s.used, next := n + 1 })

end LabelSupply

end ClassLowering
