import Mathlib.Data.List.Basic

namespace ClassLowering

inductive MachineType where
  | byte
  | char
  | double
  | float
  | int
  | long
  | short
  | boolean
  | void
  | object (name : String)
  | array (element : MachineType)
  deriving DecidableEq, Repr, Inhabited

structure MachineSignature where
  parameters : List MachineType
  result : MachineType
  deriving DecidableEq, Repr, Inhabited

namespace MachineType

def letter? : MachineType → Option Char
  | byte => some 'B'
  | char => some 'C'
  | double => some 'D'
  | float => some 'F'
  | int => some 'I'
  | long => some 'J'
  | short => some 'S'
  | boolean => some 'Z'
  | void | object _ | array _ => none

inductive SpelledField : List Char → MachineType → Prop
  | letter {t : MachineType} {c : Char} (h : t.letter? = some c) : SpelledField [c] t
  | object {name : String} (h : ';' ∉ name.toList) :
      SpelledField ('L' :: (name.toList ++ [';'])) (.object name)
  | array {text : List Char} {element : MachineType} (h : SpelledField text element) :
      SpelledField ('[' :: text) (.array element)

inductive SpelledResult : List Char → MachineType → Prop
  | field {text : List Char} {t : MachineType} (h : SpelledField text t) : SpelledResult text t
  | void : SpelledResult ['V'] .void

inductive SpelledParameters : List Char → List MachineType → Prop
  | nil : SpelledParameters [] []
  | cons {text rest : List Char} {t : MachineType} {ts : List MachineType}
      (h : SpelledField text t) (hrest : SpelledParameters rest ts) :
      SpelledParameters (text ++ rest) (t :: ts)

def ofLetter? : Char → Option MachineType
  | 'B' => some byte
  | 'C' => some char
  | 'D' => some double
  | 'F' => some float
  | 'I' => some int
  | 'J' => some long
  | 'S' => some short
  | 'Z' => some boolean
  | _ => none

def readName : List Char → Option (List Char × List Char)
  | [] => none
  | c :: text =>
    if c = ';' then some ([], text)
    else (readName text).map fun (name, rest) => (c :: name, rest)

def readField : List Char → Option (MachineType × List Char)
  | [] => none
  | 'L' :: text => (readName text).map fun (name, rest) => (.object (.ofList name), rest)
  | '[' :: text => (readField text).map fun (element, rest) => (.array element, rest)
  | c :: text => (ofLetter? c).map fun t => (t, text)

def readResult (text : List Char) : Option MachineType :=
  if text = ['V'] then some .void
  else
    match readField text with
    | some (t, []) => some t
    | _ => none

theorem ofLetter?_eq_some_iff {c : Char} {t : MachineType} :
    ofLetter? c = some t ↔ t.letter? = some c := by
  constructor
  · intro h
    unfold ofLetter? at h
    split at h <;> cases h <;> rfl
  · intro h
    cases t <;> cases h <;> rfl

theorem readName_append {name : List Char} (h : ';' ∉ name) (rest : List Char) :
    readName (name ++ ';' :: rest) = some (name, rest) := by
  induction name with
  | nil => rfl
  | cons c name ih =>
    obtain ⟨hc, hname⟩ := not_or.1 (mt List.mem_cons.2 h)
    rw [List.cons_append, readName, if_neg (Ne.symm hc), ih hname]
    rfl

theorem readName_eq_some {text name rest : List Char} (h : readName text = some (name, rest)) :
    text = name ++ ';' :: rest ∧ ';' ∉ name := by
  induction text generalizing name with
  | nil => exact nomatch h
  | cons c text ih =>
    unfold readName at h
    split at h
    · next hc =>
      cases h
      exact ⟨by rw [hc]; rfl, List.not_mem_nil⟩
    · next hc =>
      obtain ⟨⟨front, back⟩, hread, heq⟩ := Option.map_eq_some_iff.1 h
      cases heq
      obtain ⟨rfl, hfront⟩ := ih hread
      exact ⟨rfl, mt List.mem_cons.1 (not_or.2 ⟨Ne.symm hc, hfront⟩)⟩

theorem SpelledField.readField {text : List Char} {t : MachineType} (h : SpelledField text t)
    (rest : List Char) : readField (text ++ rest) = some (t, rest) := by
  induction h with
  | @letter t c h =>
    have hread := ofLetter?_eq_some_iff.2 h
    rw [List.singleton_append, MachineType.readField, hread, Option.map_some]
    · rintro rfl
      exact nomatch hread
    · rintro rfl
      exact nomatch hread
  | @object name h =>
    have hname := readName_append h rest
    simp [MachineType.readField, hname]
  | array _ ih => simp [MachineType.readField, ih]

theorem exists_spelledField {text rest : List Char} {t : MachineType}
    (h : readField text = some (t, rest)) : ∃ front, text = front ++ rest ∧ SpelledField front t := by
  fun_induction readField text generalizing t rest with
  | case1 => exact nomatch h
  | case2 text =>
    obtain ⟨⟨name, back⟩, hname, heq⟩ := Option.map_eq_some_iff.1 h
    cases heq
    obtain ⟨rfl, hfree⟩ := readName_eq_some hname
    have hspelled : SpelledField ('L' :: ((String.ofList name).toList ++ [';']))
        (.object (.ofList name)) := .object (by rwa [String.toList_ofList])
    rw [String.toList_ofList] at hspelled
    exact ⟨_, by simp, hspelled⟩
  | case3 text ih =>
    obtain ⟨⟨element, back⟩, hread, heq⟩ := Option.map_eq_some_iff.1 h
    cases heq
    obtain ⟨front, rfl, hfront⟩ := ih hread
    exact ⟨'[' :: front, rfl, .array hfront⟩
  | case4 c text =>
    obtain ⟨s, hletter, heq⟩ := Option.map_eq_some_iff.1 h
    cases heq
    exact ⟨[c], rfl, .letter (ofLetter?_eq_some_iff.1 hletter)⟩

theorem SpelledField.exists_cons {text : List Char} {t : MachineType} (h : SpelledField text t) :
    ∃ c rest, text = c :: rest ∧ c ≠ ')' := by
  cases h with
  | @letter _ c h =>
    refine ⟨c, [], rfl, ?_⟩
    rintro rfl
    exact nomatch ofLetter?_eq_some_iff.2 h
  | object _ => exact ⟨'L', _, rfl, by decide⟩
  | array _ => exact ⟨'[', _, rfl, by decide⟩

theorem length_lt_of_readField {text rest : List Char} {t : MachineType}
    (h : readField text = some (t, rest)) : rest.length < text.length := by
  obtain ⟨front, rfl, hfront⟩ := exists_spelledField h
  obtain ⟨c, tail, rfl, -⟩ := hfront.exists_cons
  rw [List.length_append, List.length_cons]
  omega

def readParameters (text : List Char) : Option (List MachineType × List Char) :=
  match text with
  | ')' :: rest => some ([], rest)
  | text =>
    match _h : readField text with
    | some (t, rest) => (readParameters rest).map fun (ts, back) => (t :: ts, back)
    | none => none
termination_by text.length
decreasing_by exact length_lt_of_readField _h

theorem readParameters_eq_some_iff {text rest : List Char} {ts : List MachineType} :
    readParameters text = some (ts, rest) ↔
      ∃ front, text = front ++ ')' :: rest ∧ SpelledParameters front ts := by
  constructor
  · intro h
    fun_induction readParameters text generalizing ts rest with
    | case1 back =>
      cases h
      exact ⟨[], rfl, .nil⟩
    | case2 text _ t back hread ih =>
      obtain ⟨⟨ts, after⟩, hrest, heq⟩ := Option.map_eq_some_iff.1 h
      cases heq
      obtain ⟨first, rfl, hfirst⟩ := exists_spelledField hread
      obtain ⟨front, rfl, hfront⟩ := ih hrest
      exact ⟨first ++ front, (List.append_assoc ..).symm, .cons hfirst hfront⟩
    | case3 => exact nomatch h
  · rintro ⟨front, rfl, h⟩
    induction h with
    | nil => rw [List.nil_append, readParameters]
    | @cons text back t ts h _ ih =>
      obtain ⟨c, tail, rfl, hc⟩ := h.exists_cons
      have hread := h.readField (back ++ ')' :: rest)
      rw [List.append_assoc, List.cons_append, readParameters]
      · split
        · next s after hs =>
          rw [← List.cons_append, hread] at hs
          cases hs
          rw [ih, Option.map_some]
        · next hs => rw [← List.cons_append, hread] at hs; exact nomatch hs
      · rintro _ ⟨⟩
        exact hc rfl

theorem readResult_eq_some_iff {text : List Char} {t : MachineType} :
    readResult text = some t ↔ SpelledResult text t := by
  constructor
  · intro h
    unfold readResult at h
    split at h
    · next hvoid =>
      cases h
      exact hvoid ▸ .void
    · split at h
      · next s hread =>
        cases h
        obtain ⟨front, rfl, hfront⟩ := exists_spelledField hread
        exact .field (by rwa [List.append_nil])
      · exact nomatch h
  · intro h
    cases h with
    | void => rfl
    | field h =>
      have hread := h.readField []
      rw [List.append_nil] at hread
      unfold readResult
      split
      · next hvoid =>
        rw [hvoid] at hread
        exact nomatch hread
      · rw [hread]

theorem SpelledField.text_eq {a b : List Char} {t : MachineType} (ha : SpelledField a t)
    (hb : SpelledField b t) : a = b := by
  induction ha generalizing b with
  | letter h =>
    cases hb with
    | letter h' => rw [Option.some.inj (h.symm.trans h')]
    | object _ => exact nomatch h
    | array _ => exact nomatch h
  | object _ =>
    cases hb with
    | letter h' => exact nomatch h'
    | object _ => rfl
  | array _ ih =>
    cases hb with
    | letter h' => exact nomatch h'
    | array h' => rw [ih h']

theorem SpelledField.ne_void {text : List Char} {t : MachineType} (h : SpelledField text t) :
    t ≠ .void := by
  rintro rfl
  cases h with
  | letter h => exact nomatch h

theorem SpelledResult.text_eq {a b : List Char} {t : MachineType} (ha : SpelledResult a t)
    (hb : SpelledResult b t) : a = b := by
  cases ha with
  | field ha =>
    cases hb with
    | field hb => exact ha.text_eq hb
    | void => exact absurd rfl ha.ne_void
  | void =>
    cases hb with
    | field hb => exact absurd rfl hb.ne_void
    | void => rfl

theorem SpelledParameters.text_eq {a b : List Char} {ts : List MachineType}
    (ha : SpelledParameters a ts) (hb : SpelledParameters b ts) : a = b := by
  induction ha generalizing b with
  | nil =>
    cases hb with
    | nil => rfl
  | cons h _ ih =>
    cases hb with
    | cons h' hrest => rw [h.text_eq h', ih hrest]

end MachineType

namespace MachineSignature

open MachineType

inductive Spelled : List Char → MachineSignature → Prop
  | intro {front back : List Char} {ts : List MachineType} {t : MachineType}
      (hfront : SpelledParameters front ts) (hback : SpelledResult back t) :
      Spelled ('(' :: (front ++ ')' :: back)) ⟨ts, t⟩

def read : List Char → Option MachineSignature
  | '(' :: text => do
    let (parameters, rest) ← readParameters text
    let result ← readResult rest
    return ⟨parameters, result⟩
  | _ => none

theorem read_eq_some_iff {text : List Char} {σ : MachineSignature} :
    read text = some σ ↔ Spelled text σ := by
  constructor
  · intro h
    unfold read at h
    split at h
    · next text =>
      obtain ⟨⟨ts, rest⟩, hparameters, h⟩ := Option.bind_eq_some_iff.1 h
      obtain ⟨t, hresult, h⟩ := Option.bind_eq_some_iff.1 h
      cases h
      obtain ⟨front, rfl, hfront⟩ := readParameters_eq_some_iff.1 hparameters
      exact .intro hfront (readResult_eq_some_iff.1 hresult)
    · exact nomatch h
  · rintro ⟨hfront, hback⟩
    rw [read, readParameters_eq_some_iff.2 ⟨_, rfl, hfront⟩]
    simp only [Option.bind_eq_bind, Option.bind_some, readResult_eq_some_iff.2 hback, Option.pure_def]

theorem Spelled.unique {text : List Char} {σ τ : MachineSignature} (hσ : Spelled text σ)
    (hτ : Spelled text τ) : σ = τ :=
  Option.some.inj ((read_eq_some_iff.2 hσ).symm.trans (read_eq_some_iff.2 hτ))

theorem Spelled.text_eq {a b : List Char} {σ : MachineSignature} (ha : Spelled a σ)
    (hb : Spelled b σ) : a = b := by
  cases ha with
  | intro hfront hback =>
    cases hb with
    | intro hfront' hback' => rw [hfront.text_eq hfront', hback.text_eq hback']

end MachineSignature

end ClassLowering
