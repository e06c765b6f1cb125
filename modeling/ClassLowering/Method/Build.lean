import ClassLowering.Method.Basic

namespace ClassLowering

inductive Entry where
  | label (name : String)
  | instruction (i : Instruction)
  deriving DecidableEq, Repr, Inhabited

structure MethodBuilder where
  instructions : List Instruction := []
  labels : List (String × Node) := []
  pending : List String := []
  deriving DecidableEq, Repr, Inhabited

namespace MethodBuilder

def label (b : MethodBuilder) (name : String) : MethodBuilder :=
  { b with pending := b.pending ++ [name] }

def push (b : MethodBuilder) (i : Instruction) : MethodBuilder where
  instructions := b.instructions ++ [i]
  labels := b.labels ++ b.pending.map fun name => (name, .ofSlot b.instructions.length)
  pending := []

def add (b : MethodBuilder) : Entry → MethodBuilder
  | .label name => b.label name
  | .instruction i => b.push i

def placedLabels (b : MethodBuilder) : List (String × Node) :=
  b.labels ++ b.pending.map fun name => (name, .exit)

end MethodBuilder

namespace Method

def enterLabel (entry : String × Node) : List (String × Node) → List (String × Node)
  | [] => [entry]
  | other :: rest =>
    if entry.1 ≤ other.1 then entry :: other :: rest else other :: enterLabel entry rest

def firstRepeated? (earlier : List String) : List String → Option String
  | [] => none
  | name :: rest =>
    if name ∈ earlier then some name else firstRepeated? (name :: earlier) rest

def fromParts (signature : Signature) (code : Array Instruction) (labels : List (String × Node)) :
    Method :=
  { signature with
    code, labels
    body := (List.range code.size).map .ofSlot
    present := Array.replicate code.size true
    body_code := by simp [eq_comm]
    present_eq := presence_range code.size }

def build (signature : Signature) (entries : List Entry) : Except Fault Method :=
  let b := entries.foldl MethodBuilder.add {}
  match firstRepeated? [] (b.placedLabels.map Prod.fst) with
  | some label => .error (.malformed (.labelDeclaredTwice label signature.name))
  | none =>
    let m := fromParts signature b.instructions.toArray (b.placedLabels.foldr enterLabel [])
    (m.rebuildFlow.map renumber).mapError .malformed

theorem firstRepeated?_eq_none_iff {earlier names : List String} :
    firstRepeated? earlier names = none ↔ names.Nodup ∧ ∀ name ∈ names, name ∉ earlier := by
  induction names generalizing earlier with
  | nil => simp [firstRepeated?]
  | cons name rest ih =>
    by_cases known : name ∈ earlier
    · simp [firstRepeated?, known]
    · simp only [firstRepeated?, known, if_false, ih, List.nodup_cons, List.mem_cons,
        forall_eq_or_imp, not_or]
      constructor
      · rintro ⟨distinct, fresh⟩
        exact ⟨⟨fun member => (fresh _ member).1 rfl, distinct⟩, by simp,
          fun other member => (fresh other member).2⟩
      · rintro ⟨⟨absent, distinct⟩, -, fresh⟩
        exact ⟨distinct, fun other member =>
          ⟨fun same => absent (same ▸ member), fresh other member⟩⟩

end Method

end ClassLowering
