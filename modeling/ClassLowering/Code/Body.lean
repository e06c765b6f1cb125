import ClassLowering.Code.LabelSupply
import ClassLowering.Code.Line
import ClassLowering.Fault

namespace ClassLowering

structure Body where
  lines : Array Line := #[]
  depth : Int := 0
  maxDepth : Nat := 0
  labelDepths : List (String × Int) := []
  defined : List String := []
  reachable : Bool := true
  registers : List Nat := []
  supply : LabelSupply := {}
  deriving DecidableEq, Repr, Inhabited

namespace Body

def depthLimit : Nat := 65535

def text (b : Body) : String := String.join (b.lines.toList.map Line.text)

def localsLimit (b : Body) : Nat := b.registers.length

def touch (b : Body) (register : Nat) : Body :=
  { b with registers := b.registers.insert register }

def write (b : Body) (line : Line) : Body :=
  { b with lines := b.lines.push line }

def reserve (b : Body) (labels : List String) : Body :=
  { b with supply := b.supply.reserve labels }

def fresh (b : Body) (stem : String) : String × Body :=
  let (label, supply) := b.supply.fresh stem
  (label, { b with supply })

def adjust (b : Body) (pops pushes : Nat) : Body × Except Defect Unit :=
  let depth := b.depth + pushes - pops
  if depth < 0 ∧ b.reachable = true then
    ({ b with depth }, .error (.stackUnderflow depth pops pushes))
  else
    let depth := max depth 0
    let b := { b with depth }
    if depth > depthLimit then (b, .error .stackOverflow)
    else ({ b with maxDepth := max b.maxDepth depth.toNat }, .ok ())

def expectDepth (b : Body) (label : String) : Body × Except Defect Unit :=
  if !b.reachable then (b, .ok ())
  else
    match b.labelDepths.lookup label with
    | some expected =>
      if b.depth = expected then (b, .ok ())
      else (b, .error (.branchDepth label expected b.depth))
    | none => ({ b with labelDepths := (label, b.depth) :: b.labelDepths }, .ok ())

def enterLabel (b : Body) (label : String) : Body × Except Defect Unit :=
  match b.labelDepths.lookup label with
  | some expected =>
    if b.reachable = true ∧ b.depth ≠ expected then
      (b, .error (.labelDepth label expected b.depth))
    else ({ b with depth := expected, reachable := true }, .ok ())
  | none =>
    let depth := if b.reachable then b.depth else 0
    ({ b with
        depth, reachable := true, labelDepths := (label, depth) :: b.labelDepths }, .ok ())

def defineLabel (b : Body) (label : String) : Body × Except Defect Unit :=
  if label ∈ b.defined then (b, .error (.labelDefinedTwice label))
  else
    let b := { b with defined := label :: b.defined, supply := b.supply.reserve [label] }
    match b.enterLabel label with
    | (b, .ok ()) => (b.write (.label label), .ok ())
    | failed => failed

def addOp (b : Body) (op : Op) : Body × Except Defect Unit :=
  let touched := match op.register? with
    | some register => b.touch register
    | none => b
  (touched.write (.op op)).adjust op.pops op.pushes

def addJump (b : Body) (j : Jump) (target : String) : Body × Except Defect Unit :=
  match (b.write (.jump j target)).adjust j.pops 0 with
  | (b, .ok ()) =>
    match b.expectDepth target with
    | (b, .ok ()) => ({ b with reachable := b.reachable && !j.isUnconditional }, .ok ())
    | failed => failed
  | failed => failed

def addExit (b : Body) (e : Exit) : Body × Except Defect Unit :=
  match (b.write (.exit e)).adjust e.pops 0 with
  | (b, .ok ()) => ({ b with reachable := false }, .ok ())
  | failed => failed

def add (b : Body) : Line → Body × Except Defect Unit
  | .op (.increment register delta) =>
    if Op.fitsIncrement delta then b.addOp (.increment register delta)
    else (b, .error (.incrementRange delta))
  | .op op => b.addOp op
  | .jump j target => b.addJump j target
  | .exit e => b.addExit e
  | .label name => b.defineLabel name

def addAll (b : Body) : List Line → Except Defect Body
  | [] => .ok b
  | line :: rest =>
    match b.add line with
    | (b, .ok ()) => b.addAll rest
    | (_, .error defect) => .error defect

theorem addAll_append (b : Body) (lines more : List Line) :
    b.addAll (lines ++ more) = (b.addAll lines).bind fun b => b.addAll more := by
  induction lines generalizing b with
  | nil => rfl
  | cons line rest ih =>
    rw [List.cons_append, addAll, addAll]
    rcases b.add line with ⟨next, _ | _⟩
    · rfl
    · exact ih next

end Body

end ClassLowering
