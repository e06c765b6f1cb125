import ClassLowering.Fault
import ClassLowering.Flow.Graph
import ClassLowering.Method.Presence
import ClassLowering.Method.VariableTable

namespace ClassLowering

inductive Access where
  | publicAccess
  | privateAccess
  | protectedAccess
  | packageAccess
  deriving DecidableEq, Repr, Inhabited

def Access.keyword : Access → String
  | publicAccess => "public"
  | privateAccess => "private"
  | protectedAccess => "protected"
  | packageAccess => ""

structure Signature where
  name : String
  access : Access := .publicAccess
  isStatic : Bool := false
  isFinal : Bool := false
  isConstructor : Bool := false
  parameters : List Parameter := []
  result : Ty := .void
  deriving DecidableEq, Repr, Inhabited

namespace Signature

def flags (s : Signature) : Nat :=
  s.isStatic.toNat + 2 * s.isFinal.toNat + 4 * s.isConstructor.toNat

def isParameter (s : Signature) (name : String) : Bool :=
  s.parameters.any (·.name == name)

def firstLocal (s : Signature) : Nat :=
  -- Counts on beyond 65535, too.
  (!s.isStatic).toNat + s.parameters.length

end Signature

structure Method extends Signature where
  code : Array Instruction := #[]
  body : List Node := []
  present : Array Bool := presence code.size body
  labels : List (String × Node) := []
  table : VariableTable := .empty
  flow : FlowGraph := .empty 0
  body_code : ∀ n ∈ body, ∃ slot < code.size, n = .ofSlot slot := by decide
  present_eq : present = presence code.size body := by rfl
  deriving DecidableEq, Repr

namespace Method

def contains (m : Method) (n : Node) : Bool :=
  (n.slot?.bind fun slot => m.present[slot]?).getD false

def codeAt? (m : Method) (n : Node) : Option Instruction :=
  n.slot?.bind fun slot => m.code[slot]?

def instruction? (m : Method) (n : Node) : Option Instruction :=
  if m.contains n then m.codeAt? n else none

def instructions (m : Method) : List (Node × Instruction) :=
  m.body.filterMap fun n => (m.codeAt? n).map fun i => (n, i)

def nodeCount (m : Method) : Nat := m.code.size + 2

def target? (m : Method) (label : String) : Option Node := m.labels.lookup label

def labelsAt (m : Method) (n : Node) : List String :=
  (m.labels.filter (·.2 = n)).map Prod.fst

def mentions (m : Method) : List (String × Ty) :=
  m.instructions.flatMap fun (_, i) => i.mentions

def renumber (m : Method) : Method :=
  { m with
    table := .number (!m.isStatic) m.parameters m.mentions m.table }

def addFlow (m : Method) (g : FlowGraph) (n : Node) (i : Instruction) (next : Node) :
    Except Defect FlowGraph :=
  match i with
  | .goto label =>
    match m.target? label with
    | some target => .ok (g.addEdge n target)
    | none => .error (.unknownLabel label m.name)
  | .branch _ label =>
    match m.target? label with
    | some target => .ok ((g.addEdge n next).addEdge n target)
    | none => .error (.unknownLabel label m.name)
  | .ret _ => .ok (g.addEdge n .exit)
  | _ => .ok (g.addEdge n next)

def addFlows (m : Method) (g : FlowGraph) : List Node → Except Defect FlowGraph
  | [] => .ok g
  | n :: rest =>
    match m.instruction? n with
    | none => .error (.noInstruction n m.name)
    | some i => do
      let g ← m.addFlow g n i (rest.head?.getD .exit)
      m.addFlows g rest

def bodyFlow (m : Method) : Except Defect FlowGraph :=
  m.addFlows ((FlowGraph.empty m.nodeCount).addEdge .entry (m.body.head?.getD .exit)) m.body

def rebuildFlow (m : Method) : Except Defect Method := do
  return { m with flow := ← m.bodyFlow }

def heir (m : Method) (n : Node) : Node :=
  ((m.flow.successors n).find? (· ≠ n)).getD .exit

def without (m : Method) (n : Node) : Method :=
  { m with
    body := m.body.filter (· ≠ n)
    present := unflag m.present n
    labels := m.labels.map fun (label, target) =>
      (label, if target = n then m.heir n else target)
    flow := m.flow.splice n
    body_code := fun k hk => m.body_code k (List.mem_filter.1 hk).1
    present_eq := by rw [m.present_eq, unflag_presence] }

def removeInstruction (m : Method) (n : Node) : Bool × Method :=
  if m.contains n then (true, m.without n) else (false, m)

def remove (m : Method) (n : Node) : Method := (m.removeInstruction n).2

def headerText (m : Method) : String :=
  let receiver := if m.isStatic then "static " else ""
  let parameters := ", ".intercalate (m.parameters.map fun p => s!"{p.name}.{p.ty}")
  s!".method {m.access.keyword} {receiver}{m.name}({parameters}).{m.result} \x7b\n"

def labelText (label : String) : String := s!"  {label}:\n"

def text (m : Method) : String :=
  let body := m.instructions.flatMap fun (n, i) =>
    (m.labelsAt n).map labelText ++ [s!"    {i};\n"]
  String.join (m.headerText :: body ++ (m.labelsAt .exit).map labelText ++ ["\x7d"])

theorem contains_iff {m : Method} {n : Node} : m.contains n = true ↔ n ∈ m.body := by
  rw [contains, m.present_eq]
  refine Iff.trans ?_ (and_iff_right_of_imp (m.body_code n))
  constructor
  · intro h
    cases hslot : n.slot? with
    | none => simp [hslot] at h
    | some slot =>
      obtain rfl := Node.slot?_eq_some_iff.1 hslot
      by_cases hlt : slot < m.code.size
      · exact ⟨⟨slot, hlt, rfl⟩, by simpa [presence, hlt] using h⟩
      · simp [presence, hlt] at h
  · rintro ⟨⟨slot, hlt, rfl⟩, hmem⟩
    simp [presence, hlt, hmem]

theorem contains_eq (m : Method) (n : Node) : m.contains n = decide (n ∈ m.body) := by
  rw [Bool.eq_iff_iff, contains_iff, decide_eq_true_eq]

theorem contains_congr {m p : Method} (h : m.body = p.body) : m.contains = p.contains := by
  funext n
  rw [contains_eq, contains_eq, h]

theorem removeInstruction_fst (m : Method) (n : Node) :
    (m.removeInstruction n).1 = m.contains n := by
  unfold removeInstruction
  split <;> simp_all

theorem remove_eq (m : Method) (n : Node) :
    m.remove n = if n ∈ m.body then m.without n else m := by
  rw [remove, removeInstruction, contains_eq]
  split <;> simp_all

theorem body_remove (m : Method) (n : Node) :
    (m.remove n).body = m.body.filter (· ≠ n) := by
  rw [remove_eq]
  split
  · rfl
  · next absent =>
    refine (List.filter_eq_self.2 fun a member => ?_).symm
    have : a ≠ n := fun same => absent (same ▸ member)
    simpa using this

theorem contains_remove (m : Method) (n k : Node) :
    (m.remove n).contains k = (m.contains k && decide (k ≠ n)) := by
  simp [contains_eq, body_remove]

theorem code_remove (m : Method) (n : Node) : (m.remove n).code = m.code := by
  rw [remove_eq]
  split <;> rfl

end Method

end ClassLowering
