import ClassLowering.ClassHeader
import ClassLowering.Proofs.Encoding.Grammar
import Mathlib.Data.List.Forall2

namespace ClassLowering

namespace Ty

def base : Ty → Ty
  | array element => element.base
  | ty => ty

def IsVoidArray (ty : Ty) : Prop := ty.isArray = true ∧ ty.base = .void

instance (ty : Ty) : Decidable ty.IsVoidArray := inferInstanceAs (Decidable (_ ∧ _))

theorem isVoidArray_array {element : Ty} :
    (array element).IsVoidArray ↔ element = .void ∨ element.IsVoidArray := by
  cases element <;> simp [IsVoidArray, isArray, base]

end Ty

def RefusesVoidArray {α : Type} (r : Except Fault α) (P : Prop) : Prop :=
  ∀ fault, r = .error fault ↔ fault = .unsupported (.arrayOf .void) ∧ P

namespace RefusesVoidArray

variable {α β : Type} {r : Except Fault α} {f : α → Except Fault β} {P Q : Prop}

theorem ok (a : α) : RefusesVoidArray (.ok a) False := by
  simp [RefusesVoidArray]

theorem refused : RefusesVoidArray (.error (.unsupported (.arrayOf .void)) : Except Fault α) True := by
  simp [RefusesVoidArray, eq_comm]

theorem congr (h : RefusesVoidArray r P) (hPQ : P ↔ Q) : RefusesVoidArray r Q := by
  rwa [← propext hPQ]

theorem bind (h : RefusesVoidArray r P) (hf : ∀ a, RefusesVoidArray (f a) Q) :
    RefusesVoidArray (r.bind f) (P ∨ Q) := by
  cases r with
  | error cause =>
    obtain ⟨rfl, hP⟩ := (h cause).1 rfl
    exact refused.congr ⟨fun _ => .inl hP, fun _ => trivial⟩
  | ok a =>
    have hP : ¬ P := fun hP => nomatch (h _).2 ⟨rfl, hP⟩
    exact (hf a).congr (or_iff_right hP).symm

theorem exists_ok (h : RefusesVoidArray r P) (hP : ¬ P) : ∃ a, r = .ok a := by
  cases r with
  | error cause => exact absurd ((h cause).1 rfl).2 hP
  | ok a => exact ⟨a, rfl⟩

end RefusesVoidArray

namespace ClassHeader

variable (h : ClassHeader)

theorem descriptor_array {element : Ty} (hne : element ≠ .void) :
    h.descriptor (.array element) = (h.descriptor element).bind fun text => .ok ("[" ++ text) := by
  rw [descriptor]
  · rfl
  · exact hne

theorem exists_of_bind_eq_ok {α β : Type} {r : Except Fault α} {f : α → Except Fault β} {b : β}
    (hb : r.bind f = .ok b) : ∃ a, r = .ok a ∧ f a = .ok b := by
  cases r with
  | error fault => cases hb
  | ok a => exact ⟨a, rfl, hb⟩

variable {h} in
theorem exists_of_descriptor_array {element : Ty} {text : String}
    (hd : h.descriptor (.array element) = .ok text) :
    element ≠ .void ∧ ∃ back, h.descriptor element = .ok back ∧ text = "[" ++ back := by
  have hne : element ≠ .void := by
    rintro rfl
    cases hd
  rw [h.descriptor_array hne] at hd
  obtain ⟨back, helement, he⟩ := exists_of_bind_eq_ok hd
  exact ⟨hne, back, helement, (Except.ok.inj he).symm⟩

variable {h} in
theorem exists_of_mapM_cons {ty : Ty} {rest : List Ty} {texts : List String}
    (hd : (ty :: rest).mapM h.descriptor = .ok texts) :
    ∃ text back, h.descriptor ty = .ok text ∧ rest.mapM h.descriptor = .ok back ∧
      texts = text :: back := by
  rw [List.mapM_cons] at hd
  obtain ⟨text, hty, hd⟩ := exists_of_bind_eq_ok hd
  obtain ⟨back, hrest, hd⟩ := exists_of_bind_eq_ok hd
  exact ⟨text, back, hty, hrest, (Except.ok.inj hd).symm⟩

theorem refuses_descriptor (ty : Ty) : RefusesVoidArray (h.descriptor ty) ty.IsVoidArray := by
  induction ty with
  | array element ih =>
    by_cases hvoid : element = .void
    · subst hvoid
      exact RefusesVoidArray.refused.congr (by simp [Ty.isVoidArray_array])
    · rw [h.descriptor_array hvoid]
      refine (ih.bind fun _ => .ok _).congr ?_
      rw [or_false, Ty.isVoidArray_array, or_iff_right hvoid]
  | _ => exact (RefusesVoidArray.ok _).congr (by simp [Ty.IsVoidArray, Ty.isArray])

theorem refuses_mapM (types : List Ty) :
    RefusesVoidArray (types.mapM h.descriptor) (∃ ty ∈ types, ty.IsVoidArray) := by
  induction types with
  | nil => exact (RefusesVoidArray.ok _).congr (by simp)
  | cons ty rest ih =>
    rw [List.mapM_cons]
    refine ((h.refuses_descriptor ty).bind fun _ => ih.bind fun _ => .ok _).congr ?_
    simp

theorem refuses_methodDescriptor (parameters : List Ty) (result : Ty) :
    RefusesVoidArray (h.methodDescriptor parameters result)
      (∃ ty ∈ result :: parameters, ty.IsVoidArray) := by
  refine ((h.refuses_mapM parameters).bind fun _ =>
    (h.refuses_descriptor result).bind fun _ => .ok _).congr ?_
  simp [or_comm]

end ClassHeader

structure Encodable (parameters : List Ty) (result : Ty) : Prop where
  values : ∀ ty ∈ parameters, ty ≠ .void
  arrays : ∀ ty ∈ result :: parameters, ¬ ty.IsVoidArray

namespace ClassHeader

open MachineType

def resolved (h : ClassHeader) : Ty → MachineType
  | .int => .int
  | .bool => .boolean
  | .string => .object stringClass
  | .void => .void
  | .array element => .array (h.resolved element)
  | .object className => .object (h.qualifiedName className)
  | .self => .object h.ownName

variable (h : ClassHeader)

def resolvedSignature (parameters : List Ty) (result : Ty) : MachineSignature :=
  ⟨parameters.map h.resolved, h.resolved result⟩

def NamesDelimited : Prop := ∀ simple, ';' ∉ (h.qualifiedName simple).toList

variable {h}

theorem NamesDelimited.ownName (hnames : h.NamesDelimited) : ';' ∉ h.ownName.toList := by
  have hown : h.qualifiedName h.name = h.ownName := by simp [qualifiedName]
  exact hown ▸ hnames h.name

theorem namesDelimited_of_imports (hown : ';' ∉ h.ownName.toList)
    (himports : ∀ name ∈ h.imports, ';' ∉ name.toList) : h.NamesDelimited := by
  intro simple
  unfold qualifiedName
  split
  · exact hown
  · split
    · next name hfind =>
      have hname := himports name (List.mem_of_find?_eq_some hfind)
      rw [slashed, String.toList_map, List.mem_map]
      rintro ⟨c, hc, heq⟩
      split at heq
      · exact absurd heq (by decide)
      · exact hname (heq ▸ hc)
    · exact hown

theorem spelledField_object {name : String} (hname : ';' ∉ name.toList) :
    SpelledField (s!"L{name};").toList (.object name) := by
  have htext : (s!"L{name};").toList = 'L' :: (name.toList ++ [';']) := by
    have hform : s!"L{name};" = "L" ++ name ++ ";" := rfl
    rw [hform, String.toList_append, String.toList_append]
    rfl
  exact htext ▸ .object hname

theorem NamesDelimited.spelledField (hnames : h.NamesDelimited) {ty : Ty} (hne : ty ≠ .void)
    {text : String} (hd : h.descriptor ty = .ok text) : SpelledField text.toList (h.resolved ty) := by
  induction ty generalizing text with
  | int =>
    cases hd
    exact .letter rfl
  | bool =>
    cases hd
    exact .letter rfl
  | string =>
    cases hd
    exact spelledField_object (by decide)
  | void => exact absurd rfl hne
  | array element ih =>
    obtain ⟨hvoid, back, helement, rfl⟩ := exists_of_descriptor_array hd
    rw [String.toList_append]
    exact .array (ih hvoid helement)
  | object className =>
    cases hd
    exact spelledField_object (hnames className)
  | self =>
    cases hd
    exact spelledField_object hnames.ownName

theorem NamesDelimited.spelledResult (hnames : h.NamesDelimited) {ty : Ty} {text : String}
    (hd : h.descriptor ty = .ok text) : SpelledResult text.toList (h.resolved ty) := by
  by_cases hvoid : ty = .void
  · subst hvoid
    cases hd
    exact .void
  · exact .field (hnames.spelledField hvoid hd)

theorem NamesDelimited.spelledParameters (hnames : h.NamesDelimited) {types : List Ty}
    (hvalues : ∀ ty ∈ types, ty ≠ .void) {texts : List String}
    (hd : types.mapM h.descriptor = .ok texts) :
    SpelledParameters (String.join texts).toList (types.map h.resolved) := by
  rw [String.toList_join]
  induction types generalizing texts with
  | nil =>
    cases hd
    exact .nil
  | cons ty rest ih =>
    obtain ⟨text, back, hty, hrest, rfl⟩ := exists_of_mapM_cons hd
    rw [List.flatMap_cons]
    exact .cons (hnames.spelledField (hvalues ty List.mem_cons_self) hty)
      (ih (fun ty hmem => hvalues ty (List.mem_cons_of_mem _ hmem)) hrest)

theorem NamesDelimited.exists_spelled (hnames : h.NamesDelimited) {parameters : List Ty}
    {result : Ty} (ht : Encodable parameters result) :
    ∃ text, h.methodDescriptor parameters result = .ok text ∧
      MachineSignature.Spelled text.toList (h.resolvedSignature parameters result) := by
  obtain ⟨texts, hparameters⟩ := (h.refuses_mapM parameters).exists_ok
    fun ⟨ty, hmem, hty⟩ => ht.arrays ty (List.mem_cons_of_mem _ hmem) hty
  obtain ⟨back, hresult⟩ :=
    (h.refuses_descriptor result).exists_ok (ht.arrays result List.mem_cons_self)
  refine ⟨s!"({String.join texts}){back}", ?_, ?_⟩
  · rw [methodDescriptor, hparameters, hresult]
    rfl
  · have htext : (s!"({String.join texts}){back}").toList =
        '(' :: ((String.join texts).toList ++ ')' :: back.toList) := by
      have hform : s!"({String.join texts}){back}" = "(" ++ String.join texts ++ ")" ++ back := rfl
      rw [hform]
      simp only [String.toList_append]
      simp
    rw [htext]
    exact .intro (hnames.spelledParameters ht.values hparameters) (hnames.spelledResult hresult)

theorem resolvedSignature_eq_iff {ps qs : List Ty} {r q : Ty} :
    h.resolvedSignature ps r = h.resolvedSignature qs q ↔
      List.Forall₂ (fun a b => h.resolved a = h.resolved b) ps qs ∧ h.resolved r = h.resolved q := by
  have hparameters : ps.map h.resolved = qs.map h.resolved ↔
      List.Forall₂ (fun a b => h.resolved a = h.resolved b) ps qs := by
    rw [← List.forall₂_eq_eq_eq, List.forall₂_map_left_iff, List.forall₂_map_right_iff]
  rw [resolvedSignature, resolvedSignature, MachineSignature.mk.injEq, hparameters]

variable (h)

theorem method_descriptors_decodable :
    (h.NamesDelimited →
      (∀ ps r, Encodable ps r →
        ∃ text, h.methodDescriptor ps r = .ok text ∧
          MachineSignature.read text.toList = some (h.resolvedSignature ps r) ∧
          ∀ σ, MachineSignature.Spelled text.toList σ ↔ σ = h.resolvedSignature ps r) ∧
      ∀ ps r qs q, Encodable ps r → Encodable qs q →
        (h.methodDescriptor ps r = h.methodDescriptor qs q ↔
          List.Forall₂ (fun a b => h.resolved a = h.resolved b) ps qs ∧
            h.resolved r = h.resolved q)) ∧
    ∀ ps r fault, h.methodDescriptor ps r = .error fault ↔
      fault = .unsupported (.arrayOf .void) ∧
        ∃ ty ∈ r :: ps, ty.isArray = true ∧ ty.base = .void := by
  refine ⟨fun hnames => ⟨fun ps r ht => ?_, fun ps r qs q ht hs => ?_⟩,
    fun ps r fault => h.refuses_methodDescriptor ps r fault⟩
  · obtain ⟨text, hd, hspelled⟩ := hnames.exists_spelled ht
    have hread := MachineSignature.read_eq_some_iff.2 hspelled
    refine ⟨text, hd, hread, fun σ => ?_⟩
    rw [← MachineSignature.read_eq_some_iff, hread, Option.some.injEq, eq_comm]
  · obtain ⟨text, hd, hspelled⟩ := hnames.exists_spelled ht
    obtain ⟨other, hd', hspelled'⟩ := hnames.exists_spelled hs
    rw [hd, hd', Except.ok.injEq, ← resolvedSignature_eq_iff, ← String.toList_inj]
    constructor
    · intro htext
      rw [← htext] at hspelled'
      exact hspelled.unique hspelled'
    · intro htypes
      exact hspelled.text_eq (htypes ▸ hspelled')

def simple : ClassHeader :=
  { name := "Simple", package := some "pt.up", imports := ["java.util.ArrayList", "io"] }

theorem method_descriptors_decodable_simple :
    simple.NamesDelimited ∧
      Encodable [.array .string, .int, .object "ArrayList"] .void ∧
      MachineSignature.read "([Ljava/lang/String;ILjava/util/ArrayList;)V".toList =
        some ⟨[.array (.object "java/lang/String"), .int, .object "java/util/ArrayList"], .void⟩ ∧
      simple.methodDescriptor [.self] .bool = simple.methodDescriptor [.object "Unknown"] .bool ∧
      simple.methodDescriptor [.self] .bool ≠ simple.methodDescriptor [.object "io"] .bool ∧
      simple.methodDescriptor [.array (.array .void)] .int =
        .error (.unsupported (.arrayOf .void)) := by
  have hnames : simple.NamesDelimited :=
    namesDelimited_of_imports (by decide +kernel) (by decide +kernel)
  have htypes : Encodable [.array .string, .int, .object "ArrayList"] .void :=
    ⟨by decide, by decide⟩
  have hself : Encodable [.self] .bool := ⟨by decide, by decide⟩
  have hunknown : Encodable [.object "Unknown"] .bool := ⟨by decide, by decide⟩
  have himport : Encodable [.object "io"] .bool := ⟨by decide, by decide⟩
  obtain ⟨hdecodes, hrefused⟩ := method_descriptors_decodable simple
  obtain ⟨hread, hsame⟩ := hdecodes hnames
  refine ⟨hnames, htypes, ?_, ?_, ?_, ?_⟩
  · obtain ⟨text, hd, hspelled, -⟩ := hread _ _ htypes
    have htext : simple.methodDescriptor [.array .string, .int, .object "ArrayList"] .void =
        .ok "([Ljava/lang/String;ILjava/util/ArrayList;)V" := by decide +kernel
    obtain rfl := Except.ok.inj (hd.symm.trans htext)
    exact hspelled.trans (by decide +kernel)
  · exact (hsame _ _ _ _ hself hunknown).2 (by decide +kernel)
  · rw [Ne, hsame _ _ _ _ hself himport]
    decide +kernel
  · exact (hrefused _ _ _).2 ⟨rfl, _, List.mem_cons_of_mem _ List.mem_cons_self, rfl, rfl⟩

end ClassHeader

end ClassLowering
