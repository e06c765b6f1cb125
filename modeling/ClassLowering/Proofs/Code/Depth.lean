import ClassLowering.Code.Body

namespace ClassLowering

def Line.runsOn : Line → Bool
  | .op _ | .label _ => true
  | .jump j _ => !j.isUnconditional
  | .exit _ => false

namespace Body

variable {b b' : Body}

structure Bounded (b : Body) : Prop where
  depth_nonneg : 0 ≤ b.depth
  depth_le : b.depth ≤ b.maxDepth
  label : ∀ name d, b.labelDepths.lookup name = some d → 0 ≤ d ∧ d ≤ b.maxDepth

structure Extends (b b' : Body) : Prop where
  maxDepth_le : b.maxDepth ≤ b'.maxDepth
  lookup : ∀ name d, b.labelDepths.lookup name = some d → b'.labelDepths.lookup name = some d

theorem Extends.refl (b : Body) : b.Extends b := ⟨Nat.le_refl _, fun _ _ => id⟩

theorem Extends.trans {b'' : Body} (h : b.Extends b') (h' : b'.Extends b'') : b.Extends b'' :=
  ⟨Nat.le_trans h.maxDepth_le h'.maxDepth_le, fun name d hd => h'.lookup name d (h.lookup name d hd)⟩

structure Adds (line : Line) (b b' : Body) : Prop where
  lines_eq : b'.lines = b.lines.push line
  keeps : b.Extends b'
  bounded : b.Bounded → b'.Bounded
  depth_eq : b.reachable = true → b'.depth = b.depth + line.pushes - line.pops
  reachable_eq : b.reachable = true → b'.reachable = line.runsOn
  target : b.reachable = true → ∀ j name, line = .jump j name →
    b'.labelDepths.lookup name = some b'.depth
  label : ∀ name, line = .label name →
    b'.reachable = true ∧ b'.labelDepths.lookup name = some b'.depth

theorem lookup_cons_of_none {l : List (String × Int)} {name other : String} {d e : Int}
    (hn : l.lookup name = none) (h : l.lookup other = some d) :
    ((name, e) :: l).lookup other = some d := by
  have hne : other ≠ name := by
    rintro rfl
    rw [hn] at h
    cases h
  rw [List.lookup_cons, beq_false_of_ne hne]
  exact h

theorem adjust_cases (b : Body) (pops pushes : Nat) :
    let d : Int := b.depth + pushes - pops
    (b.reachable = true ∧ d < 0 ∧
      b.adjust pops pushes = ({ b with depth := d }, .error (.stackUnderflow d pops pushes))) ∨
    ((b.reachable = true → 0 ≤ d) ∧ max d 0 > depthLimit ∧
      b.adjust pops pushes = ({ b with depth := max d 0 }, .error .stackOverflow)) ∨
    ((b.reachable = true → 0 ≤ d) ∧ max d 0 ≤ depthLimit ∧
      b.adjust pops pushes =
        ({ b with depth := max d 0, maxDepth := max b.maxDepth (max d 0).toNat }, .ok ())) := by
  intro d
  unfold adjust
  dsimp only
  split
  · next hcheck => exact .inl ⟨hcheck.2, hcheck.1, rfl⟩
  · next hcheck =>
    have hdepth : b.reachable = true → 0 ≤ d := fun hr => Int.not_lt.1 fun hneg => hcheck ⟨hneg, hr⟩
    split
    · next hlimit => exact .inr (.inl ⟨hdepth, hlimit, rfl⟩)
    · next hlimit => exact .inr (.inr ⟨hdepth, Int.not_lt.1 hlimit, rfl⟩)

theorem adjust_eq_ok {pops pushes : Nat} (h : b.adjust pops pushes = (b', .ok ())) :
    (b.reachable = true → 0 ≤ b.depth + pushes - pops) ∧
      b' = { b with
        depth := max (b.depth + pushes - pops) 0
        maxDepth := max b.maxDepth (max (b.depth + pushes - pops) 0).toNat } := by
  obtain ⟨-, -, he⟩ | ⟨-, -, he⟩ | ⟨hdepth, -, he⟩ := b.adjust_cases pops pushes
  · cases he.symm.trans h
  · cases he.symm.trans h
  · cases he.symm.trans h
    exact ⟨hdepth, rfl⟩

theorem adds_of_adjust {line : Line} (hrun : line.runsOn = true)
    (hlabel : ∀ name, line ≠ .label name) (hjump : ∀ j name, line ≠ .jump j name)
    (hlines : b'.lines = b.lines.push line) (hreach : b'.reachable = b.reachable)
    (hlabels : b'.labelDepths = b.labelDepths)
    (hdepth : b.reachable = true → 0 ≤ b.depth + line.pushes - line.pops)
    (hd : b'.depth = max (b.depth + line.pushes - line.pops) 0)
    (hm : b'.maxDepth = max b.maxDepth b'.depth.toNat) : Adds line b b' := by
  have hle : b.maxDepth ≤ b'.maxDepth := by rw [hm]; exact Nat.le_max_left _ _
  refine ⟨hlines, ⟨hle, fun name d h => by rw [hlabels]; exact h⟩, ?_, ?_, ?_, ?_, ?_⟩
  · intro hb
    refine ⟨by omega, by omega, ?_⟩
    intro name d h
    rw [hlabels] at h
    obtain ⟨h0, h1⟩ := hb.label name d h
    exact ⟨h0, by omega⟩
  · intro hr
    have h0 := hdepth hr
    omega
  · intro hr
    rw [hreach, hr, hrun]
  · intro _ j name h
    exact absurd h (hjump j name)
  · intro name h
    exact absurd h (hlabel name)

theorem addOp_spec {op : Op} (h : b.addOp op = (b', .ok ())) : Adds (.op op) b b' := by
  unfold addOp at h
  obtain ⟨hd, rfl⟩ := adjust_eq_ok h
  cases hr : op.register? with
  | none =>
    rw [hr] at hd
    exact adds_of_adjust rfl nofun nofun rfl rfl rfl hd rfl rfl
  | some register =>
    rw [hr] at hd
    exact adds_of_adjust rfl nofun nofun rfl rfl rfl hd rfl rfl

theorem expectDepth_spec {label : String} (h : b.expectDepth label = (b', .ok ())) :
    b.Extends b' ∧ b'.lines = b.lines ∧ b'.depth = b.depth ∧ b'.reachable = b.reachable ∧
      b'.maxDepth = b.maxDepth ∧ (b.Bounded → b'.Bounded) ∧
      (b.reachable = true → b'.labelDepths.lookup label = some b'.depth) := by
  unfold expectDepth at h
  split at h
  · next hr =>
    cases h
    refine ⟨.refl b, rfl, rfl, rfl, rfl, id, fun hr' => ?_⟩
    simp [hr'] at hr
  · split at h
    · next expected he =>
      split at h
      · next hd =>
        cases h
        refine ⟨.refl b, rfl, rfl, rfl, rfl, id, fun _ => ?_⟩
        rw [he, hd]
      · cases h
    · next hnone =>
      cases h
      refine ⟨⟨Nat.le_refl _, fun name d hd => lookup_cons_of_none hnone hd⟩, rfl, rfl, rfl, rfl, ?_,
        fun _ => List.lookup_cons_self⟩
      intro hb
      refine ⟨hb.depth_nonneg, hb.depth_le, ?_⟩
      intro name d hd
      rw [List.lookup_cons] at hd
      split at hd
      · cases hd
        exact ⟨hb.depth_nonneg, hb.depth_le⟩
      · exact hb.label name d hd

theorem enterLabel_spec {label : String} (h : b.enterLabel label = (b', .ok ())) :
    b.Extends b' ∧ b'.lines = b.lines ∧ b'.reachable = true ∧ (b.Bounded → b'.Bounded) ∧
      b'.labelDepths.lookup label = some b'.depth ∧
      (b.reachable = true → b'.depth = b.depth) := by
  unfold enterLabel at h
  split at h
  · next expected he =>
    split at h
    · cases h
    · next hcheck =>
      cases h
      refine ⟨⟨Nat.le_refl _, fun _ _ => id⟩, rfl, rfl, ?_, he, ?_⟩
      · intro hb
        obtain ⟨h0, h1⟩ := hb.label label expected he
        exact ⟨h0, h1, hb.label⟩
      · intro hr
        exact Decidable.byContradiction fun hne => hcheck ⟨hr, fun e => hne e.symm⟩
  · next hnone =>
    cases h
    -- A label first met below an exit is guessed to stand at depth zero.
    refine ⟨⟨Nat.le_refl _, fun name d hd => lookup_cons_of_none hnone hd⟩, rfl, rfl, ?_,
      List.lookup_cons_self, fun hr => if_pos hr⟩
    intro hb
    have hdepth : 0 ≤ (if b.reachable = true then b.depth else 0) ∧
        (if b.reachable = true then b.depth else 0) ≤ b.maxDepth := by
      split
      · exact ⟨hb.depth_nonneg, hb.depth_le⟩
      · exact ⟨Int.le_refl 0, Int.natCast_nonneg _⟩
    refine ⟨hdepth.1, hdepth.2, ?_⟩
    intro name d hd
    rw [List.lookup_cons] at hd
    split at hd
    · cases hd
      exact hdepth
    · exact hb.label name d hd

theorem defineLabel_spec {name : String} (h : b.defineLabel name = (b', .ok ())) :
    Adds (.label name) b b' := by
  unfold defineLabel at h
  split at h
  · cases h
  · dsimp only at h
    split at h
    · next entered he =>
      cases h
      obtain ⟨hext, hlines, hreach, hbound, hlookup, hdepth⟩ := enterLabel_spec he
      refine ⟨?_, ⟨hext.maxDepth_le, hext.lookup⟩, ?_, ?_, fun _ => hreach, nofun, ?_⟩
      · exact congrArg (·.push (Line.label name)) hlines
      · intro hb
        have hb' := hbound ⟨hb.depth_nonneg, hb.depth_le, hb.label⟩
        exact ⟨hb'.depth_nonneg, hb'.depth_le, hb'.label⟩
      · intro hr
        have hd : entered.depth = b.depth := hdepth hr
        simpa [write, Line.pushes, Line.pops] using hd
      · rintro other h
        cases h
        exact ⟨hreach, hlookup⟩
    · next hfail =>
      exact absurd h (hfail _)

theorem addJump_spec {j : Jump} {target : String} (h : b.addJump j target = (b', .ok ())) :
    Adds (.jump j target) b b' := by
  unfold addJump at h
  split at h
  · next adjusted ha =>
    obtain ⟨hd, rfl⟩ := adjust_eq_ok ha
    split at h
    · next expecting he =>
      cases h
      obtain ⟨hext, hlines, hdepth, hreach, hmax, hbound, hlookup⟩ := expectDepth_spec he
      refine ⟨hlines, ⟨?_, hext.lookup⟩, ?_, ?_, ?_, ?_, nofun⟩
      · exact Nat.le_trans (Nat.le_max_left _ _) hext.maxDepth_le
      · intro hb
        have hb' := hbound ⟨Int.le_max_right _ _, by simp only [write]; omega, fun name d h => by
          obtain ⟨h0, h1⟩ := hb.label name d h
          exact ⟨h0, by simp only [write]; omega⟩⟩
        exact ⟨hb'.depth_nonneg, hb'.depth_le, hb'.label⟩
      · intro hr
        have h0 := hd hr
        change expecting.depth = _
        rw [hdepth]
        simp only [write, Line.pushes, Line.pops] at h0 ⊢
        omega
      · intro hr
        have hr' : expecting.reachable = true := hreach.trans hr
        simp [hr', Line.runsOn]
      · intro hr i name h
        cases h
        exact hlookup hr
    · next hfail => exact absurd h (hfail _)
  · next hfail => exact absurd h (hfail _)

theorem addExit_spec {e : Exit} (h : b.addExit e = (b', .ok ())) : Adds (.exit e) b b' := by
  unfold addExit at h
  split at h
  · next adjusted ha =>
    obtain ⟨hd, rfl⟩ := adjust_eq_ok ha
    cases h
    refine ⟨rfl, ⟨Nat.le_max_left _ _, fun _ _ => id⟩, ?_, ?_, fun _ => rfl, nofun, nofun⟩
    · intro hb
      refine ⟨Int.le_max_right _ _, by simp only [write]; omega, ?_⟩
      intro name d h
      obtain ⟨h0, h1⟩ := hb.label name d h
      exact ⟨h0, by simp only [write]; omega⟩
    · intro hr
      have h0 := hd hr
      simp only [write, Line.pushes, Line.pops] at h0 ⊢
      omega
  · next hfail => exact absurd h (hfail _)

theorem add_spec {line : Line} (h : b.add line = (b', .ok ())) : Adds line b b' := by
  unfold add at h
  split at h
  · split at h
    · exact addOp_spec h
    · cases h
  · exact addOp_spec h
  · exact addJump_spec h
  · exact addExit_spec h
  · exact defineLabel_spec h

end Body

end ClassLowering
