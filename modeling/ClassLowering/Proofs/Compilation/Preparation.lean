import ClassLowering.Compiler
import ClassLowering.Proofs.Rounds

namespace ClassLowering

namespace Compiler

variable {s : Settings} {m m' : Method} {c : Compiler} {u : ClassUnit}

theorem prepareRecorded_constructor (h : m.isConstructor = true) :
    prepareRecorded s m = { method := m, outcome := .ok () } := if_pos h

theorem prepareRecorded_spec (hm : m.isConstructor = false) (h : m.rebuildFlow = .ok m') :
    (prepareRecorded s m).method = ((Pipeline.ofSettings s).run m').method ∧
      (prepareRecorded s m).outcome = ((Pipeline.ofSettings s).run m').outcome.map fun _ => () := by
  have hprepare : (prepare s m).method = ((Pipeline.ofSettings s).run m').method ∧
      (prepare s m).outcome = ((Pipeline.ofSettings s).run m').outcome.map fun _ => () := by
    unfold prepare
    rw [h]
    dsimp only
    cases ((Pipeline.ofSettings s).run m').outcome <;> exact ⟨rfl, rfl⟩
  unfold prepareRecorded
  rw [if_neg (by simp [hm])]
  dsimp only
  split
  · exact hprepare
  · next fault hfault => exact ⟨hprepare.1, hfault ▸ hprepare.2⟩

theorem unit_compile (c : Compiler) (u : ClassUnit) :
    (c.compile u).unit =
      { u with methods := u.methods.map fun m => (prepareRecorded c.settings m).method } := by
  have hmap : (u.methods.map (prepareRecorded c.settings)).map Report.method =
      u.methods.map fun m => (prepareRecorded c.settings m).method := List.map_map
  unfold compile
  dsimp only
  rw [hmap]
  split <;> rfl

theorem outcome_compile (c : Compiler) (u : ClassUnit) :
    (c.compile u).outcome =
      match u.methods.findSome? fun m => fault? (prepareRecorded c.settings m) with
      | some fault => .error fault
      | none => (c.compile u).unit.listing.2 := by
  have hfind : (u.methods.map (prepareRecorded c.settings)).findSome? fault? =
      u.methods.findSome? fun m => fault? (prepareRecorded c.settings m) := List.findSome?_map
  unfold compile
  dsimp only
  rw [hfind]
  cases u.methods.findSome? fun m => fault? (prepareRecorded c.settings m) <;> rfl

theorem settings_compile (c : Compiler) (u : ClassUnit) :
    (c.compile u).compiler.settings = c.settings := by
  unfold compile
  dsimp only
  split <;> rfl

theorem fault?_eq_none {r : Report Unit} : fault? r = none ↔ r.outcome = .ok () := by
  unfold fault?
  cases r.outcome <;> simp

theorem compile_eq_ok {text : String} (h : (c.compile u).outcome = .ok text) :
    (∀ m ∈ u.methods, (prepareRecorded c.settings m).outcome = .ok ()) ∧
      (c.compile u).unit.listing.2 = .ok text := by
  rw [outcome_compile] at h
  split at h
  · cases h
  · next hnone =>
    refine ⟨fun m hm => fault?_eq_none.1 ?_, h⟩
    exact List.findSome?_eq_none_iff.1 hnone m hm

theorem exists_rebuildFlow (hm : m.isConstructor = false)
    (h : (prepareRecorded s m).outcome = .ok ()) : ∃ g, m.bodyFlow = .ok g := by
  cases hf : m.bodyFlow with
  | ok g => exact ⟨g, rfl⟩
  | error defect =>
    have hrebuild : m.rebuildFlow = .error defect := by
      rw [Method.rebuildFlow, hf]
      rfl
    unfold prepareRecorded prepare at h
    rw [if_neg (by simp [hm]), hrebuild] at h
    cases h

end Compiler

namespace ClassUnit

theorem exists_methodListing {header : ClassHeader} {l : List Method} {text : String}
    (h : (methodListings header l).2 = .ok text) {m : Method} (hm : m ∈ l) :
    ∃ before listing after, m.listing header = .ok listing ∧ text = before ++ listing ++ after := by
  induction l generalizing text with
  | nil => cases hm
  | cons first rest ih =>
    unfold methodListings at h
    split at h
    · cases h
    · next listing hfirst =>
      dsimp only at h
      cases hrest : (methodListings header rest).2 with
      | error fault =>
        rw [hrest] at h
        cases h
      | ok others =>
        rw [hrest] at h
        cases h
        rcases List.mem_cons.1 hm with rfl | hm
        · exact ⟨"\n", listing, others, hfirst, rfl⟩
        · obtain ⟨before, own, after, hown, rfl⟩ := ih hrest hm
          refine ⟨"\n" ++ listing ++ before, own, after, hown, ?_⟩
          simp only [String.append_assoc]

theorem exists_listing {u : ClassUnit} {text : String} (h : u.listing.2 = .ok text) {m : Method}
    (hm : m ∈ u.compiled) : ∃ before listing after,
      m.listing u.toClassHeader = .ok listing ∧ text = before ++ listing ++ after := by
  unfold listing at h
  split at h
  · cases h
  · next prologue _ =>
    dsimp only at h
    cases hmethods : (methodListings u.toClassHeader u.compiled).2 with
    | error fault =>
      rw [hmethods] at h
      cases h
    | ok methods =>
      rw [hmethods] at h
      cases h
      obtain ⟨before, own, after, hown, rfl⟩ := exists_methodListing hmethods hm
      refine ⟨prologue ++ before, own, after, hown, ?_⟩
      simp only [String.append_assoc]

end ClassUnit

theorem Method.listing_eq_ok {header : ClassHeader} {m : Method} {listing : String}
    (h : m.listing header = .ok listing) : ∃ front body, Scope.assemble ⟨header, m⟩ = .ok body ∧
      listing = front ++ s!"    .limit locals {body.localsLimit}\n" ++ body.text ++
        ".end method\n" := by
  unfold Method.listing at h
  cases hd : header.methodDescriptor (m.parameters.map Parameter.ty) m.result with
  | error fault =>
    rw [hd] at h
    cases h
  | ok descriptor =>
    rw [hd] at h
    cases hb : Scope.assemble ⟨header, m⟩ with
    | error fault =>
      simp only [hb] at h
      cases h
    | ok body =>
      simp only [hb] at h
      cases h
      exact ⟨_, body, rfl, rfl⟩

end ClassLowering
