import ClassLowering.Method.Build

namespace ClassLowering

namespace Method

def codeOf (entries : List Entry) : List Instruction :=
  entries.filterMap fun
    | .instruction i => some i
    | .label _ => none

@[simp] theorem codeOf_nil : codeOf [] = [] := rfl

@[simp] theorem codeOf_cons_label (name : String) (rest : List Entry) :
    codeOf (.label name :: rest) = codeOf rest := rfl

@[simp] theorem codeOf_cons_instruction (i : Instruction) (rest : List Entry) :
    codeOf (.instruction i :: rest) = i :: codeOf rest := rfl

def place (count slot : Nat) : Node := if slot < count then .ofSlot slot else .exit

def placeLabels (count : Nat) : Nat → List Entry → List (String × Node)
  | _, [] => []
  | slot, .label name :: rest =>
    (name, place count slot) :: placeLabels count slot rest
  | slot, .instruction _ :: rest => placeLabels count (slot + 1) rest

theorem mem_placeLabels {count slot : Nat} {entries : List Entry} {e : String × Node}
    (h : e ∈ placeLabels count slot entries) :
    e.2 = .exit ∨ ∃ k < count, e.2 = .ofSlot k := by
  induction entries generalizing slot with
  | nil => simp [placeLabels] at h
  | cons entry rest ih =>
    cases entry with
    | label name =>
      rcases List.mem_cons.1 h with rfl | h
      · by_cases hs : slot < count
        · exact .inr ⟨slot, hs, if_pos hs⟩
        · exact .inl (if_neg hs)
      · exact ih h
    | instruction i => exact ih h

end Method

namespace MethodBuilder

open Method

theorem instructions_foldl_add (b : MethodBuilder) (entries : List Entry) :
    (entries.foldl add b).instructions = b.instructions ++ codeOf entries := by
  induction entries generalizing b with
  | nil => exact (List.append_nil _).symm
  | cons entry rest ih =>
    rw [List.foldl_cons, ih]
    cases entry with
    | label name => rfl
    | instruction i => exact List.append_assoc b.instructions [i] (codeOf rest)

theorem placedLabels_foldl_add (b : MethodBuilder) (entries : List Entry) {count : Nat}
    (hcount : count = b.instructions.length + (codeOf entries).length) :
    (entries.foldl add b).placedLabels =
      b.labels ++ (b.pending.map fun name => (name, place count b.instructions.length)) ++
        placeLabels count b.instructions.length entries := by
  induction entries generalizing b with
  | nil =>
    have hend : place count b.instructions.length = .exit := if_neg (by simp [hcount])
    simp [placedLabels, placeLabels, hend]
  | cons entry rest ih =>
    cases entry with
    | label name =>
      have hrest := ih (b.label name) hcount
      simpa [add, label, placeLabels] using hrest
    | instruction i =>
      have hslot : place count b.instructions.length = .ofSlot b.instructions.length :=
        if_pos (by simp [hcount])
      have hrest := ih (b.push i) (by simp [hcount, push]; omega)
      simpa [add, push, placeLabels, hslot] using hrest

theorem built (entries : List Entry) :
    (entries.foldl add {}).instructions = codeOf entries ∧
    (entries.foldl add {}).placedLabels = placeLabels (codeOf entries).length 0 entries := by
  have hlabels := placedLabels_foldl_add {} entries rfl
  rw [List.length_nil, Nat.zero_add] at hlabels
  exact ⟨instructions_foldl_add {} entries, hlabels⟩

end MethodBuilder

end ClassLowering
