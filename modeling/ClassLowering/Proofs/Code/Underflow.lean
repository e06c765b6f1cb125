import ClassLowering.Proofs.Code.Headroom

namespace ClassLowering

namespace Body

variable {b b' : Body} {pops pushes p q : Nat} {d : Int}

inductive Made : Body → Prop where
  | empty : Made {}
  | reserve {b : Body} (labels : List String) : Made b → Made (b.reserve labels)
  | fresh {b : Body} (stem : String) : Made b → Made (b.fresh stem).2
  | touch {b : Body} (register : Nat) : Made b → Made (b.touch register)
  | add {b b' : Body} {l : Line} : Made b → b.add l = (b', .ok ()) → Made b'

theorem Made.inRange (h : b.Made) : b.InRange := by
  induction h with
  | empty => exact ⟨⟨Int.le_refl 0, Int.le_refl 0, nofun⟩, Nat.zero_le _⟩
  | reserve labels _ ih => exact ih.congr rfl rfl rfl
  | fresh stem _ ih => exact ih.congr rfl rfl rfl
  | touch register _ ih => exact ih.congr rfl rfl rfl
  | add _ hadd ih => exact ih.add hadd

def Lacks (b : Body) (pops pushes : Nat) (d : Int) : Prop :=
  b.reachable = true ∧ d = b.depth + pushes - pops ∧ d < 0

theorem adjust_underflow_iff :
    (b.adjust pops pushes).2 = .error (.stackUnderflow d p q) ↔
      b.Lacks pops pushes d ∧ p = pops ∧ q = pushes := by
  have hpresent (h : b.reachable = true → 0 ≤ b.depth + pushes - pops) :
      ¬ (b.Lacks pops pushes d ∧ p = pops ∧ q = pushes) := by
    rintro ⟨⟨hr, rfl, hneg⟩, -⟩
    exact Int.not_lt.2 (h hr) hneg
  obtain ⟨hr, hneg, he⟩ | ⟨hdepth, -, he⟩ | ⟨hdepth, -, he⟩ := b.adjust_cases pops pushes
  · rw [he]
    refine ⟨fun h => ?_, ?_⟩
    · cases h
      exact ⟨⟨hr, rfl, hneg⟩, rfl, rfl⟩
    · rintro ⟨⟨-, rfl, -⟩, rfl, rfl⟩
      rfl
  · rw [he]
    exact iff_of_false nofun (hpresent hdepth)
  · rw [he]
    exact iff_of_false nofun (hpresent hdepth)

theorem expectDepth_not_underflow {label : String} :
    (b.expectDepth label).2 ≠ .error (.stackUnderflow d p q) := by
  unfold expectDepth
  split
  · nofun
  · split
    · split <;> nofun
    · nofun

theorem addOp_underflow_iff {o : Op} :
    (b.addOp o).2 = .error (.stackUnderflow d p q) ↔
      b.Lacks o.pops o.pushes d ∧ p = o.pops ∧ q = o.pushes := by
  unfold addOp
  rw [adjust_underflow_iff]
  cases o.register? <;> exact Iff.rfl

theorem addJump_underflow_iff {j : Jump} {target : String} :
    (b.addJump j target).2 = .error (.stackUnderflow d p q) ↔
      b.Lacks j.pops 0 d ∧ p = j.pops ∧ q = 0 := by
  have hadjust := @adjust_underflow_iff (b.write (.jump j target)) j.pops 0 p q d
  refine Iff.trans ?_ hadjust
  unfold addJump
  split
  · next adjusted ha =>
    rw [ha]
    have hexpect := @expectDepth_not_underflow adjusted p q d target
    split
    · exact ⟨nofun, nofun⟩
    · exact ⟨fun h => absurd h hexpect, nofun⟩
  · exact Iff.rfl

theorem addExit_underflow_iff {e : Exit} :
    (b.addExit e).2 = .error (.stackUnderflow d p q) ↔
      b.Lacks e.pops 0 d ∧ p = e.pops ∧ q = 0 := by
  have hadjust := @adjust_underflow_iff (b.write (.exit e)) e.pops 0 p q d
  refine Iff.trans ?_ hadjust
  unfold addExit
  split
  · next adjusted ha =>
    rw [ha]
  · exact Iff.rfl

theorem add_op_eq {o : Op} (ho : ∀ register delta, o ≠ .increment register delta) :
    b.add (.op o) = b.addOp o := by
  cases o with
  | increment register delta => exact absurd rfl (ho register delta)
  | _ => rfl

theorem add_underflow_iff {l : Line} (hdepth : 0 ≤ b.depth) (hl : ∀ name, l ≠ .label name) :
    (b.add l).2 = .error (.stackUnderflow d p q) ↔
      b.Lacks l.pops l.pushes d ∧ p = l.pops ∧ q = l.pushes := by
  cases l with
  | op o =>
    by_cases hincrement : ∃ register delta, o = .increment register delta
    · -- An increment out of range is refused before its depth is looked at, and takes nothing.
      obtain ⟨register, delta, rfl⟩ := hincrement
      have hnone : ¬ b.Lacks 0 0 d := by
        rintro ⟨-, hd, hneg⟩
        omega
      change (if Op.fitsIncrement delta then b.addOp (.increment register delta)
        else (b, .error (.incrementRange delta))).2 = _ ↔ _
      split
      · exact addOp_underflow_iff
      · exact ⟨nofun, fun h => absurd h.1 hnone⟩
    · rw [add_op_eq fun register delta ho => hincrement ⟨register, delta, ho⟩]
      exact addOp_underflow_iff
  | jump j target => exact addJump_underflow_iff
  | exit e => exact addExit_underflow_iff
  | label name => exact absurd rfl (hl name)

theorem add_op_of_masked {o : Op} {count : Nat} (hcount : b.depth = count) (hmissing : count < o.pops)
    (hmasked : o.pops ≤ count + o.pushes) (hpushes : o.pushes ≤ depthLimit) :
    ∃ b', b.add (.op o) = (b', .ok ()) ∧ b'.depth = count + o.pushes - o.pops := by
  have hadd : b.add (.op o) = b.addOp o := by
    refine add_op_eq ?_
    rintro register delta rfl
    exact Nat.not_lt_zero _ hmissing
  have hadjust {start : Body} (hstart : start.depth = count) :
      ∃ b', start.adjust o.pops o.pushes = (b', .ok ()) ∧
        b'.depth = count + o.pushes - o.pops := by
    obtain ⟨-, hneg, -⟩ | ⟨-, hover, -⟩ | ⟨-, -, he⟩ := start.adjust_cases o.pops o.pushes
    · omega
    · omega
    · exact ⟨_, he, by rw [hstart]; exact Int.max_eq_left (by omega)⟩
  rw [hadd]
  unfold addOp
  cases o.register? with
  | none => exact hadjust hcount
  | some register => exact hadjust hcount

theorem underflow_noticed (hb : b.Made) (hreach : b.reachable = true) {l : Line}
    (hl : ∀ name, l ≠ .label name) :
    ∃ count : Nat, b.depth = count ∧ count ≤ 65535 ∧
      (∀ depth pops pushes, (b.add l).2 = .error (.stackUnderflow depth pops pushes) ↔
        count + l.pushes < l.pops ∧ depth = count + l.pushes - l.pops ∧ pops = l.pops ∧
          pushes = l.pushes) ∧
      (l.pushes = 0 → count < l.pops →
        (b.add l).2 = .error (.stackUnderflow (count - l.pops) l.pops 0)) ∧
      (count < l.pops → l.pops ≤ count + l.pushes → l.pushes ≤ 65535 →
        ∃ b', b.add l = (b', .ok ()) ∧ b'.depth = count + l.pushes - l.pops ∧
          b'.depth < l.pushes) := by
  have hrange := hb.inRange
  obtain ⟨count, hcount⟩ := Int.eq_ofNat_of_zero_le hrange.bounded.depth_nonneg
  have hle := hrange.depth_le
  have hiff (depth : Int) (pops pushes : Nat) :
      (b.add l).2 = .error (.stackUnderflow depth pops pushes) ↔
        count + l.pushes < l.pops ∧ depth = count + l.pushes - l.pops ∧ pops = l.pops ∧
          pushes = l.pushes := by
    rw [add_underflow_iff hrange.bounded.depth_nonneg hl, Lacks, hcount]
    refine ⟨?_, ?_⟩
    · rintro ⟨⟨-, hdepth, hneg⟩, hp, hq⟩
      exact ⟨by omega, hdepth, hp, hq⟩
    · rintro ⟨hlack, hdepth, hp, hq⟩
      exact ⟨⟨hreach, hdepth, by omega⟩, hp, hq⟩
  refine ⟨count, hcount, by unfold depthLimit at hle; omega, hiff, ?_, ?_⟩
  · intro hzero hmissing
    exact (hiff _ _ _).2 ⟨by omega, by omega, rfl, hzero.symm⟩
  · intro hmissing hmasked hpushes
    cases l with
    | op o =>
      obtain ⟨b', hadd, hdepth⟩ := add_op_of_masked hcount hmissing hmasked hpushes
      exact ⟨b', hadd, hdepth, by rw [hdepth]; simp only [Line.pushes, Line.pops] at *; omega⟩
    | label name => exact absurd rfl (hl name)
    | _ => exact absurd hmasked (Nat.not_le.2 hmissing)

theorem underflow_noticed_one :
    ∃ b : Body, b.Made ∧ b.reachable = true ∧ b.depth = 1 ∧
      (∃ b', b.add (.op (.arithmetic .add)) = (b', .ok ()) ∧ b'.depth = 0) ∧
      (b.add (.jump .lt "less")).2 = .error (.stackUnderflow (-1) 2 0) := by
  have hmade : Made { lines := #[.op (.const 1)], depth := 1, maxDepth := 1 } :=
    .add (l := .op (.const 1)) .empty rfl
  refine ⟨_, hmade, rfl, rfl, ?_, ?_⟩
  · obtain ⟨count, hcount, -, -, -, hmasked⟩ :=
      underflow_noticed (l := .op (.arithmetic .add)) hmade rfl nofun
    obtain rfl : 1 = count := Int.ofNat.inj hcount
    obtain ⟨b', hadd, hdepth, -⟩ := hmasked (by decide) (by decide) (by decide)
    exact ⟨b', hadd, hdepth⟩
  · obtain ⟨count, hcount, -, -, hnoticed, -⟩ :=
      underflow_noticed (l := .jump .lt "less") hmade rfl nofun
    obtain rfl : 1 = count := Int.ofNat.inj hcount
    exact hnoticed rfl (by decide)

theorem negation_accepted :
    Made {} ∧ ({} : Body).reachable = true ∧
      ({} : Body).depth < (Line.op (.other "ineg" none 1 1)).pops ∧
      ({} : Body).add (.op (.other "ineg" none 1 1)) =
        ({ lines := #[.op (.other "ineg" none 1 1)] }, .ok ()) :=
  ⟨.empty, rfl, by decide, by decide +kernel⟩

end Body

end ClassLowering
