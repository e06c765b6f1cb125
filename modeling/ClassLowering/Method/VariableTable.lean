import ClassLowering.Instruction
import ClassLowering.NameIndex

namespace ClassLowering

structure Parameter where
  name : String
  ty : Ty
  deriving DecidableEq, Repr, Inhabited

structure Descriptor where
  ty : Ty
  register : Option Nat
  deriving DecidableEq, Repr, Inhabited

structure VariableTable where
  entries : List (String × Descriptor) := []
  index : NameIndex := .ofNames (entries.map Prod.fst)
  index_eq : index = .ofNames (entries.map Prod.fst) := by rfl
  names_nodup : (entries.map Prod.fst).Nodup := by decide
  deriving DecidableEq, Repr

namespace VariableTable

def empty : VariableTable := {}

instance : Inhabited VariableTable := ⟨empty⟩

def names (t : VariableTable) : List String := t.entries.map Prod.fst

@[simp] theorem names_empty : empty.names = [] := rfl

def size (t : VariableTable) : Nat := t.entries.length

def find? (t : VariableTable) (name : String) : Option Descriptor :=
  (t.index.place? name).bind fun place => (t.entries[place]?).map Prod.snd

def contains (t : VariableTable) (name : String) : Bool := (t.index.place? name).isSome

def register? (t : VariableTable) (name : String) : Option Nat :=
  (t.find? name).bind Descriptor.register

theorem map_fst_modify (l : List (String × Descriptor)) (place : Nat)
    (f : Descriptor → Descriptor) :
    (l.modify place fun e => (e.1, f e.2)).map Prod.fst = l.map Prod.fst := by
  induction l generalizing place with
  | nil => cases place <;> rfl
  | cons e rest ih =>
    cases place with
    | zero => rfl
    | succ place => exact congrArg (e.1 :: ·) (ih place)

def modifyAt (t : VariableTable) (place : Nat) (f : Descriptor → Descriptor) : VariableTable where
  entries := t.entries.modify place fun e => (e.1, f e.2)
  index := t.index
  index_eq := by rw [map_fst_modify, ← t.index_eq]
  names_nodup := by
    rw [map_fst_modify]
    exact t.names_nodup

theorem place?_eq (t : VariableTable) (name : String) :
    t.index.place? name = t.names.idxOf? name := by
  rw [t.index_eq, NameIndex.place?_ofNames]
  rfl

theorem not_mem_names {t : VariableTable} {name : String} (h : t.index.place? name = none) :
    name ∉ t.names := by
  rwa [place?_eq, List.idxOf?_eq_none_iff] at h

def append (t : VariableTable) (name : String) (d : Descriptor)
    (h : t.index.place? name = none) : VariableTable where
  entries := t.entries ++ [(name, d)]
  index := t.index.enter name t.entries.length
  index_eq := by
    rw [List.map_append, List.map_singleton, NameIndex.ofNames_concat, List.length_map, t.index_eq]
  names_nodup := by
    rw [List.map_append, List.map_singleton, List.nodup_append]
    refine ⟨t.names_nodup, by simp, fun other hother _ hmem => ?_⟩
    rw [List.mem_singleton.1 hmem]
    rintro rfl
    exact not_mem_names h hother

def insert (t : VariableTable) (name : String) (d : Descriptor) : VariableTable :=
  match h : t.index.place? name with
  | some place => t.modifyAt place fun _ => d
  | none => t.append name d h

def changeRegister (t : VariableTable) (name : String) (register : Nat) : Bool × VariableTable :=
  match t.index.place? name with
  | some place => (true, t.modifyAt place fun d => { d with register })
  | none => (false, t)

def setRegister (t : VariableTable) (name : String) (register : Nat) : VariableTable :=
  (t.changeRegister name register).2

structure Numbering where
  table : VariableTable := .empty
  -- Counts on beyond 65535, the last register that a class file knows.
  next : Nat := 0

namespace Numbering

def add (n : Numbering) (name : String) (ty : Ty) : Numbering :=
  ⟨n.table.insert name ⟨ty, n.next⟩, n.next + 1⟩

def mention (previous : VariableTable) (n : Numbering) (v : String × Ty) : Numbering :=
  if n.table.contains v.1 then n
  else n.add v.1 (((previous.find? v.1).map Descriptor.ty).getD v.2)

end Numbering

def number (hasReceiver : Bool) (parameters : List Parameter) (mentions : List (String × Ty))
    (previous : VariableTable) : VariableTable :=
  let receiver : Numbering := if hasReceiver then Numbering.add {} "this" .self else {}
  let fixed := parameters.foldl (fun n p => n.add p.name p.ty) receiver
  (mentions.foldl (Numbering.mention previous) fixed).table

@[simp] theorem names_modifyAt (t : VariableTable) (place : Nat) (f : Descriptor → Descriptor) :
    (t.modifyAt place f).names = t.names := map_fst_modify t.entries place f

theorem contains_iff {t : VariableTable} {name : String} :
    t.contains name = true ↔ name ∈ t.names := by
  rw [contains, place?_eq, List.isSome_idxOf?]

@[simp] theorem names_setRegister (t : VariableTable) (name : String) (register : Nat) :
    (t.setRegister name register).names = t.names := by
  unfold setRegister changeRegister
  split <;> simp

theorem names_insert (t : VariableTable) (name : String) (d : Descriptor) :
    (t.insert name d).names = if name ∈ t.names then t.names else t.names ++ [name] := by
  unfold insert
  split
  · next place h =>
    rw [names_modifyAt, if_pos (contains_iff.1 (by simp [contains, h]))]
  · next h =>
    rw [if_neg (not_mem_names h)]
    simp [append, names]

end VariableTable

end ClassLowering
