import Mathlib.Data.List.Nodup
import ClassLowering.Code.Body

namespace ClassLowering

def registersOf (lines : List Line) : List Nat := lines.filterMap Line.register?

theorem registersOf_append (l l' : List Line) :
    registersOf (l ++ l') = registersOf l ++ registersOf l' := List.filterMap_append

namespace Body

variable {b b' body : Body} {lines : List Line}

structure Keeps (b b' : Body) : Prop where
  defined_eq : b'.defined = b.defined
  registers_eq : b'.registers = b.registers

theorem Keeps.trans {mid : Body} (h : Keeps b mid) (h' : Keeps mid b') : Keeps b b' :=
  ⟨h'.defined_eq.trans h.defined_eq, h'.registers_eq.trans h.registers_eq⟩

theorem keeps_write (b : Body) (l : Line) : Keeps b (b.write l) := ⟨rfl, rfl⟩

theorem keeps_adjust (b : Body) (pops pushes : Nat) : Keeps b (b.adjust pops pushes).1 := by
  unfold adjust
  dsimp only
  split
  · exact ⟨rfl, rfl⟩
  · split <;> exact ⟨rfl, rfl⟩

theorem keeps_expectDepth (b : Body) (name : String) : Keeps b (b.expectDepth name).1 := by
  unfold expectDepth
  split
  · exact ⟨rfl, rfl⟩
  · split
    · split <;> exact ⟨rfl, rfl⟩
    · exact ⟨rfl, rfl⟩

theorem keeps_enterLabel (b : Body) (name : String) : Keeps b (b.enterLabel name).1 := by
  unfold enterLabel
  split
  · split <;> exact ⟨rfl, rfl⟩
  · exact ⟨rfl, rfl⟩

theorem keeps_addJump (b : Body) (j : Jump) (target : String) :
    Keeps b (b.addJump j target).1 := by
  have hadjust := (b.keeps_write (.jump j target)).trans (keeps_adjust _ j.pops 0)
  unfold addJump
  split
  · next written he =>
    rw [he] at hadjust
    have hexpect := written.keeps_expectDepth target
    split
    · next expecting hx =>
      rw [hx] at hexpect
      exact ⟨(hadjust.trans hexpect).defined_eq, (hadjust.trans hexpect).registers_eq⟩
    · exact hadjust.trans hexpect
  · exact hadjust

theorem keeps_addExit (b : Body) (e : Exit) : Keeps b (b.addExit e).1 := by
  have hadjust := (b.keeps_write (.exit e)).trans (keeps_adjust _ e.pops 0)
  unfold addExit
  split
  · next written he =>
    rw [he] at hadjust
    exact ⟨hadjust.defined_eq, hadjust.registers_eq⟩
  · exact hadjust

theorem keeps_addOp (b : Body) (o : Op) :
    Keeps (o.register?.elim b b.touch) (b.addOp o).1 := by
  unfold addOp
  cases o.register? with
  | none => exact (b.keeps_write (.op o)).trans (keeps_adjust _ _ _)
  | some r => exact ((b.touch r).keeps_write (.op o)).trans (keeps_adjust _ _ _)

theorem keeps_defineLabel {name : String} (h : b.defineLabel name = (b', .ok ())) :
    name ∉ b.defined ∧ Keeps { b with defined := name :: b.defined } b' := by
  unfold defineLabel at h
  split at h
  · cases h
  · next hnew =>
    have henter := keeps_enterLabel { b with
      defined := name :: b.defined, supply := b.supply.reserve [name] } name
    refine ⟨hnew, ?_⟩
    dsimp only at h
    split at h
    · next entered he =>
      cases h
      rw [he] at henter
      exact ⟨henter.defined_eq, henter.registers_eq⟩
    · next hfail => exact absurd h (hfail _)

structure Enters (l : Line) (b b' : Body) : Prop where
  label : ∀ name, l = .label name → name ∉ b.defined ∧ name ∈ b'.defined
  defined_subset : b.defined ⊆ b'.defined
  registers_eq : b'.registers = l.register?.elim b.registers b.registers.insert

theorem add_enters {l : Line} (h : b.add l = (b', .ok ())) : Enters l b b' := by
  have hkeeps {x : Body × Except Defect Unit} {start : Body} (hx : x = (b', .ok ()))
      (hl : ∀ name, l ≠ .label name) (hk : Keeps start x.1) (hd : start.defined = b.defined)
      (hr : start.registers = l.register?.elim b.registers b.registers.insert) : Enters l b b' := by
    rw [hx] at hk
    refine ⟨fun name hname => absurd hname (hl name), ?_, hk.registers_eq.trans hr⟩
    exact (hk.defined_eq.trans hd) ▸ List.Subset.refl _
  have hop {o : Op} (hl : l = .op o) (ho : b.addOp o = (b', .ok ())) : Enters l b b' := by
    subst hl
    refine hkeeps ho nofun (b.keeps_addOp o) ?_ ?_
    · cases o.register? <;> rfl
    · change _ = o.register?.elim b.registers b.registers.insert
      cases o.register? <;> rfl
  unfold add at h
  split at h
  · split at h
    · exact hop rfl h
    · cases h
  · exact hop rfl h
  · exact hkeeps h nofun (b.keeps_addJump _ _) rfl rfl
  · exact hkeeps h nofun (b.keeps_addExit _) rfl rfl
  · obtain ⟨hnew, hk⟩ := keeps_defineLabel h
    refine ⟨?_, ?_, hk.registers_eq⟩
    · rintro other ⟨⟩
      exact ⟨hnew, hk.defined_eq ▸ List.mem_cons_self⟩
    · rw [hk.defined_eq]
      exact List.subset_cons_self _ _

theorem addAll_cons_add {l : Line} {rest : List Line} (h : b.addAll (l :: rest) = .ok body) :
    ∃ b', b.add l = (b', .ok ()) ∧ b'.addAll rest = .ok body := by
  rw [addAll] at h
  split at h
  · next b' hadd => exact ⟨b', hadd, h⟩
  · cases h

theorem registers_addAll (h : b.addAll lines = .ok body) :
    (b.registers.Nodup → body.registers.Nodup) ∧
      ∀ r, r ∈ body.registers ↔ r ∈ b.registers ∨ r ∈ registersOf lines := by
  induction lines generalizing b with
  | nil =>
    cases h
    exact ⟨id, fun r => by simp [registersOf]⟩
  | cons l rest ih =>
    obtain ⟨b', hadd, hrest⟩ := addAll_cons_add h
    obtain ⟨hnodup, hmem⟩ := ih hrest
    rw [(add_enters hadd).registers_eq] at hnodup hmem
    unfold registersOf at hmem ⊢
    cases hl : l.register? with
    | none =>
      rw [hl] at hnodup hmem
      rw [List.filterMap_cons_none hl]
      exact ⟨hnodup, hmem⟩
    | some r =>
      rw [hl] at hnodup hmem
      rw [List.filterMap_cons_some hl]
      refine ⟨fun hb => hnodup (List.Nodup.insert hb), fun x => ?_⟩
      rw [hmem, Option.elim_some, List.mem_insert_iff, List.mem_cons, or_comm (a := x = r),
        or_assoc]

end Body

end ClassLowering
