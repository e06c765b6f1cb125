namespace ClassLowering

theorem getElem?_of_idxOf? {l : List String} {v : String} {i : Nat} (h : l.idxOf? v = some i) :
    l[i]? = some v := by
  induction l generalizing i with
  | nil => simp at h
  | cons a l ih =>
    rw [List.idxOf?_cons] at h
    split at h
    · next ha =>
      obtain rfl := Option.some.inj h
      simpa using ha
    · obtain ⟨j, hj, rfl⟩ := Option.map_eq_some_iff.1 h
      simpa using ih hj

structure NameIndex where
  places : List (String × Nat) := []
  deriving DecidableEq, Repr, Inhabited

namespace NameIndex

def place? (index : NameIndex) (name : String) : Option Nat := index.places.lookup name

def enter (index : NameIndex) (name : String) (place : Nat) : NameIndex :=
  ⟨index.places ++ [(name, place)]⟩

def ofNames (names : List String) : NameIndex := ⟨names.zipIdx⟩

theorem place?_enter_of_eq_none {index : NameIndex} {name : String}
    (h : index.place? name = none) (place : Nat) :
    (index.enter name place).place? name = some place := by
  rw [place?] at h
  rw [place?, enter, List.lookup_append, h, Option.none_or, List.lookup_cons, beq_self_eq_true]

theorem ofNames_concat (names : List String) (name : String) :
    ofNames (names ++ [name]) = (ofNames names).enter name names.length := by
  simp [ofNames, enter, List.zipIdx_append]

theorem place?_ofNames (names : List String) (name : String) :
    (ofNames names).place? name = names.idxOf? name := by
  have hfrom (start : Nat) :
      (names.zipIdx start).lookup name = (names.idxOf? name).map (· + start) := by
    induction names generalizing start with
    | nil => rfl
    | cons other rest ih =>
      rw [List.zipIdx_cons, List.lookup_cons, List.idxOf?_cons]
      by_cases h : other = name
      · subst h
        simp
      · rw [if_neg (by simpa using h), ih]
        have hne : (name == other) = false := by simpa using Ne.symm h
        rw [hne, Option.map_map]
        refine Option.map_congr fun k _ => ?_
        simp only [Function.comp]
        omega
  simpa [place?, ofNames] using hfrom 0

theorem getElem?_of_place? {names : List String} {name : String} {place : Nat}
    (h : (ofNames names).place? name = some place) : names[place]? = some name := by
  rw [place?_ofNames] at h
  exact getElem?_of_idxOf? h

end NameIndex

end ClassLowering
