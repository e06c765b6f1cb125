import ClassLowering.Code.Line
import ClassLowering.Proofs.Encoding.Signatures
import Mathlib.Data.List.TakeWhile

namespace ClassLowering

namespace Ty

def slotKind : Ty → ValueKind
  | int | bool | void => .int
  | string | array _ | object _ | self => .reference

def arrayKind : Ty → ElementKind
  | int | void => .int
  | bool => .bool
  | string | array _ | object _ | self => .reference

theorem kind_eq (ty : Ty) : ty.kind = ty.slotKind := by
  cases ty <;> rfl

theorem elementKind_eq (ty : Ty) : ty.elementKind = ty.arrayKind := by
  cases ty <;> rfl

end Ty

def MachineType.text : MachineType → String
  | byte => "B"
  | char => "C"
  | double => "D"
  | float => "F"
  | int => "I"
  | long => "J"
  | short => "S"
  | boolean => "Z"
  | void => "V"
  | object name => "L" ++ name ++ ";"
  | array element => "[" ++ element.text

def MachineType.names : MachineType → List String
  | object name => [name]
  | array element => element.names
  | byte | char | double | float | int | long | short | boolean | void => []

def MachineSignature.text (σ : MachineSignature) : String :=
  "(" ++ String.join (σ.parameters.map MachineType.text) ++ ")" ++ σ.result.text

namespace ClassHeader

def parts (name : String) : List String := (name.toList.splitOn '.').map .ofList

def path (parts : List String) : String := "/".intercalate parts

def ownParts (h : ClassHeader) : List String :=
  match h.package with
  | none => [h.name]
  | some package => if package = "" then [h.name] else parts package ++ [h.name]

def partsOf (h : ClassHeader) (simple : String) : List String :=
  if simple = h.name then h.ownParts
  else ((h.imports.map parts).find? fun l => l.getLast? = some simple).getD h.ownParts

def classPath (h : ClassHeader) (simple : String) : String := path (h.partsOf simple)

def memberClass (h : ClassHeader) : Ty → String
  | .object className => h.classPath className
  | .self => path h.ownParts
  | .string => "java/lang/String"
  | .int | .bool | .void | .array _ => ""

def superClass (h : ClassHeader) : String :=
  match h.superclass with
  | some simple => h.classPath simple
  | none => "java/lang/Object"

def machineType (h : ClassHeader) : Ty → MachineType
  | .int => .int
  | .bool => .boolean
  | .string => .object "java/lang/String"
  | .void => .void
  | .array element => .array (h.machineType element)
  | .object className => .object (h.classPath className)
  | .self => .object (path h.ownParts)

def machineSignature (h : ClassHeader) (parameters : List Ty) (result : Ty) : MachineSignature :=
  ⟨parameters.map h.machineType, h.machineType result⟩

section Dotted

variable (text : List Char)

theorem intercalate_splitOn_dot :
    ['/'].intercalate (text.splitOn '.') = text.map fun c => if c = '.' then '/' else c := by
  induction text with
  | nil => rfl
  | cons c rest ih =>
    have hne := List.splitOn_ne_nil '.' rest
    rw [List.splitOn_cons_eq_if_modifyHead, List.map_cons, ← ih]
    by_cases hc : c = '.'
    · subst hc
      rw [if_pos (beq_self_eq_true _), List.intercalate_cons_of_ne_nil hne]
      rfl
    · rw [if_neg (by simpa using hc), if_neg hc]
      cases hsplit : rest.splitOn '.' with
      | nil => exact absurd hsplit hne
      | cons first others =>
        cases others with
        | nil => simp
        | cons next others => simp [List.intercalate_cons_cons]

theorem slashed_eq (name : String) : slashed name = path (parts name) := by
  rw [← String.toList_inj, slashed, String.toList_map, path, String.toList_intercalate, parts,
    List.map_map]
  have hid : String.toList ∘ String.ofList = id := funext fun _ => String.toList_ofList
  rw [hid, List.map_id]
  exact (intercalate_splitOn_dot _).symm

theorem getLast?_splitOn_dot :
    (text.splitOn '.').getLast? = some (text.reverse.takeWhile (· ≠ '.')).reverse := by
  have hfree {part : List Char} (h : '.' ∉ part) : ∀ c ∈ part, decide (c ≠ '.') = true :=
    fun c hc => decide_eq_true fun he => h (he ▸ hc)
  by_cases hdot : '.' ∈ text.reverse
  · obtain ⟨part, before, hreverse, hpart⟩ := List.eq_append_cons_of_mem hdot
    have htext : text = before.reverse ++ '.' :: part.reverse := by
      rw [← List.reverse_reverse text, hreverse, List.reverse_append, List.reverse_cons,
        List.append_assoc, List.singleton_append]
    rw [hreverse, List.takeWhile_append_of_pos (hfree hpart), htext,
      List.splitOn_append_cons_self,
      List.splitOn_eq_singleton (mt List.mem_reverse.1 hpart), List.getLast?_concat,
      List.takeWhile_cons_of_neg (by decide), List.append_nil]
  · rw [List.splitOn_eq_singleton (mt List.mem_reverse.2 hdot), List.getLast?_singleton]
    rw [List.takeWhile_eq_self_iff.2 (hfree hdot), List.reverse_reverse]

end Dotted

theorem getLast?_parts (name : String) : (parts name).getLast? = some (lastPart name) := by
  rw [parts, List.getLast?_map, getLast?_splitOn_dot]
  rfl

variable (h : ClassHeader)

theorem ownName_eq : h.ownName = path h.ownParts := by
  have hone (name : String) : name = path [name] := String.intercalate_singleton.symm
  unfold ownName ownParts
  cases h.package with
  | none => exact hone h.name
  | some package =>
    by_cases hempty : package = ""
    · subst hempty
      exact hone h.name
    · have hparts : parts package ≠ [] := by
        simp [parts]
      dsimp only
      rw [if_neg (by simpa using hempty), if_neg hempty, path,
        String.intercalate_append_of_ne_nil hparts (List.cons_ne_nil _ _),
        String.intercalate_singleton, slashed_eq]
      rfl

theorem qualifiedName_eq (simple : String) : h.qualifiedName simple = h.classPath simple := by
  unfold qualifiedName classPath partsOf
  split
  · exact h.ownName_eq
  · have hlast : (fun name => decide (lastPart name = simple)) =
        (fun l : List String => decide (l.getLast? = some simple)) ∘ parts := by
      funext name
      simp [getLast?_parts]
    rw [List.find?_map, ← hlast]
    split
    · next name hfind =>
      rw [hfind]
      exact slashed_eq name
    · next hfind =>
      rw [hfind]
      exact h.ownName_eq

variable {h}

theorem memberOwner_eq {ty : Ty} {name : String} (hname : h.memberOwner ty = .ok name) :
    name = h.memberClass ty := by
  cases ty with
  | object className =>
    cases hname
    exact h.qualifiedName_eq className
  | self =>
    cases hname
    exact h.ownName_eq
  | string =>
    cases hname
    rfl
  | int | bool | void | array => cases hname

theorem superName_eq : h.superName = h.superClass := by
  unfold superName superClass
  cases h.superclass with
  | none => rfl
  | some simple => exact h.qualifiedName_eq simple

theorem descriptor_eq {ty : Ty} {text : String} (hd : h.descriptor ty = .ok text) :
    text = (h.machineType ty).text := by
  induction ty generalizing text with
  | int | bool | string | void =>
    cases hd
    rfl
  | array element ih =>
    obtain ⟨-, back, helement, rfl⟩ := exists_of_descriptor_array hd
    rw [ih helement]
    rfl
  | object className =>
    cases hd
    rw [qualifiedName_eq]
    rfl
  | self =>
    cases hd
    rw [ownName_eq]
    rfl

theorem mapM_descriptor_eq {types : List Ty} {texts : List String}
    (hd : types.mapM h.descriptor = .ok texts) :
    texts = (types.map h.machineType).map MachineType.text := by
  induction types generalizing texts with
  | nil =>
    cases hd
    rfl
  | cons ty rest ih =>
    obtain ⟨text, back, hty, hrest, rfl⟩ := exists_of_mapM_cons hd
    rw [descriptor_eq hty, ih hrest]
    rfl

theorem methodDescriptor_eq {parameters : List Ty} {result : Ty} {text : String}
    (hd : h.methodDescriptor parameters result = .ok text) :
    text = (h.machineSignature parameters result).text := by
  obtain ⟨texts, hparameters, hd⟩ := exists_of_bind_eq_ok hd
  obtain ⟨back, hresult, hd⟩ := exists_of_bind_eq_ok hd
  cases hd
  rw [mapM_descriptor_eq hparameters, descriptor_eq hresult]
  rfl

end ClassHeader

end ClassLowering
