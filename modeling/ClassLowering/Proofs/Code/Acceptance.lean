import ClassLowering.Code.Body

namespace ClassLowering

def Defect.IsDepth : Defect → Prop
  | .stackUnderflow _ _ _ | .branchDepth _ _ _ | .labelDepth _ _ _ => True
  | _ => False

namespace Body

variable {b : Body} {n pops : Nat} {name : String} {live : Bool}
  {F F' : LabelSupply → List (String × Int) → Prop} {supply : LabelSupply}

structure At (F : LabelSupply → List (String × Int) → Prop) (live : Bool) (depth : Nat)
    (supply : LabelSupply) (b : Body) : Prop where
  reachable_eq : b.reachable = live
  depth_eq : b.depth = depth
  labels : F supply b.labelDepths

def Notes (F : LabelSupply → List (String × Int) → Prop) (name : String) (depth : Nat)
    (F' : LabelSupply → List (String × Int) → Prop) : Prop :=
  ∀ supply l, F supply l →
    (l.lookup name = some (depth : Int) ∧ F' supply l) ∨
      (l.lookup name = none ∧ F' supply ((name, (depth : Int)) :: l))

def Accepts (Q : Body → Prop) : Body × Except Defect Unit → Prop
  | (_, .error defect) => ¬ defect.IsDepth
  | (b, .ok ()) => Q b

theorem adjust_accepts (pushes : Nat) (h : b.depth = n + pops) :
    Accepts (fun b' => ∃ top, b' = { b with depth := (n + pushes : Nat), maxDepth := top })
      (b.adjust pops pushes) := by
  have hdepth : b.depth + pushes - pops = (n + pushes : Nat) := by omega
  unfold adjust
  rw [hdepth, if_neg fun hneg => by omega]
  dsimp only
  rw [Int.max_eq_left (Int.natCast_nonneg _)]
  split
  · exact id
  · exact ⟨_, rfl⟩

theorem At.addOp {o : Op} (h : b.At F live (n + o.pops) supply) :
    Accepts (At F live (n + o.pushes) supply) (b.addOp o) := by
  have hadjust {start : Body} (hlive : start.reachable = live) (hdepth : start.depth = n + o.pops)
      (hlabels : F supply start.labelDepths) :
      Accepts (At F live (n + o.pushes) supply) (start.adjust o.pops o.pushes) := by
    have ha := adjust_accepts o.pushes hdepth
    generalize start.adjust o.pops o.pushes = result at ha ⊢
    obtain ⟨b', d | u⟩ := result
    · exact ha
    · obtain ⟨top, rfl⟩ := ha
      exact ⟨hlive, rfl, hlabels⟩
  unfold Body.addOp
  cases o.register? with
  | none => exact hadjust h.reachable_eq h.depth_eq h.labels
  | some register => exact hadjust h.reachable_eq h.depth_eq h.labels

theorem At.add_op {o : Op} (h : b.At F live (n + o.pops) supply) :
    Accepts (At F live (n + o.pushes) supply) (b.add (.op o)) := by
  cases o with
  | increment register delta =>
    change Accepts _ (if Op.fitsIncrement delta then b.addOp (.increment register delta)
      else (b, .error (.incrementRange delta)))
    split
    · exact h.addOp
    · exact id
  | _ => exact h.addOp

theorem At.add_exit {e : Exit} (h : b.At F live (n + e.pops) supply) :
    Accepts (At F false n supply) (b.add (.exit e)) := by
  have ha := @adjust_accepts (b.write (.exit e)) n e.pops 0 h.depth_eq
  change Accepts _ (b.addExit e)
  unfold addExit
  generalize (b.write (.exit e)).adjust e.pops 0 = result at ha ⊢
  obtain ⟨b', d | u⟩ := result
  · exact ha
  · obtain ⟨top, rfl⟩ := ha
    exact ⟨rfl, rfl, h.labels⟩

theorem At.expectDepth (h : b.At F live n supply) (hlive : live = true → Notes F name n F')
    (hdead : live = false → ∀ supply l, F supply l → F' supply l) :
    Accepts (At F' live n supply) (b.expectDepth name) := by
  have hreach := h.reachable_eq
  unfold Body.expectDepth
  rw [hreach]
  cases live with
  | false => exact ⟨hreach, h.depth_eq, hdead rfl _ _ h.labels⟩
  | true =>
    rw [if_neg (by decide)]
    obtain ⟨hl, hF⟩ | ⟨hl, hF⟩ := hlive rfl _ _ h.labels
    · rw [hl]
      dsimp only
      rw [if_pos h.depth_eq]
      exact ⟨hreach, h.depth_eq, hF⟩
    · rw [hl]
      rw [← h.depth_eq] at hF
      exact ⟨rfl, h.depth_eq, hF⟩

theorem At.add_jump {j : Jump} (h : b.At F live (n + j.pops) supply)
    (hlive : live = true → Notes F name n F')
    (hdead : live = false → ∀ supply l, F supply l → F' supply l) :
    Accepts (At F' (live && !j.isUnconditional) n supply) (b.add (.jump j name)) := by
  have ha := @adjust_accepts (b.write (.jump j name)) n j.pops 0 h.depth_eq
  change Accepts _ (b.addJump j name)
  unfold addJump
  generalize (b.write (.jump j name)).adjust j.pops 0 = result at ha ⊢
  obtain ⟨start, d | u⟩ := result
  · exact ha
  · obtain ⟨top, rfl⟩ := ha
    have hstart : At F live n supply
        { b.write (.jump j name) with depth := (n + 0 : Nat), maxDepth := top } :=
      ⟨h.reachable_eq, rfl, h.labels⟩
    have he := hstart.expectDepth hlive hdead
    dsimp only
    generalize Body.expectDepth _ name = result at he ⊢
    obtain ⟨b', d | u⟩ := result
    · exact he
    · exact ⟨congrArg (· && !j.isUnconditional) he.reachable_eq, he.depth_eq, he.labels⟩

theorem At.enterLabel {k : Nat} (h : b.At F live k supply) (hlive : live = true → k = n)
    (hnotes : Notes F name n F')
    (hdead : live = false → n = 0 ∨ ∀ supply l, F supply l → (l.lookup name).isSome) :
    Accepts (At F' true n supply) (b.enterLabel name) := by
  have hreach := h.reachable_eq
  have hdepth := h.depth_eq
  unfold Body.enterLabel
  obtain ⟨hl, hF⟩ | ⟨hl, hF⟩ := hnotes _ _ h.labels
  · rw [hl]
    dsimp only
    rw [if_neg]
    · exact ⟨rfl, rfl, hF⟩
    · rintro ⟨hr, hne⟩
      rw [hdepth, hlive (hreach.symm.trans hr)] at hne
      exact hne rfl
  · have hhere : (if b.reachable = true then b.depth else 0) = (n : Int) := by
      cases live with
      | true => rw [if_pos hreach, hdepth, hlive rfl]
      | false =>
        rw [if_neg (by simp [hreach])]
        obtain hn | hknown := hdead rfl
        · rw [hn]
          rfl
        · have hsome := hknown _ _ h.labels
          rw [hl] at hsome
          cases hsome
    rw [hl]
    dsimp only
    rw [hhere]
    exact ⟨rfl, rfl, hF⟩

theorem At.add_label {k : Nat} (h : b.At F live k supply) (hlive : live = true → k = n)
    (hnotes : Notes F name n F')
    (hdead : live = false → n = 0 ∨ ∀ supply l, F supply l → (l.lookup name).isSome) :
    Accepts (At F' true n supply) (b.add (.label name)) := by
  change Accepts _ (b.defineLabel name)
  unfold defineLabel
  split
  · exact id
  · have he := At.enterLabel (b := { b with
        defined := name :: b.defined, supply := b.supply.reserve [name] })
      ⟨h.reachable_eq, h.depth_eq, h.labels⟩ hlive hnotes hdead
    dsimp only
    generalize Body.enterLabel _ name = result at he ⊢
    obtain ⟨b', d | u⟩ := result
    · exact he
    · exact ⟨he.reachable_eq, he.depth_eq, he.labels⟩

end Body

end ClassLowering
