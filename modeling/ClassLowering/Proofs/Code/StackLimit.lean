import ClassLowering.Proofs.Code.Depth
import ClassLowering.Proofs.Code.Supply
import ClassLowering.Proofs.Method.Structure

namespace ClassLowering

inductive Reached (lines : List Line) : Nat → Int → Prop where
  | start : Reached lines 0 0
  | next {p : Nat} {d : Int} {l : Line} :
      Reached lines p d → lines[p]? = some l → l.runsOn = true →
      Reached lines (p + 1) (d + l.pushes - l.pops)
  | jump {p q : Nat} {d : Int} {j : Jump} {name : String} :
      Reached lines p d → lines[p]? = some (.jump j name) → lines[q]? = some (.label name) →
      Reached lines q (d - j.pops)

namespace Body

variable {b b' body start : Body} {lines : List Line} {p : Nat} {d : Int}

theorem addAll_cons {l : Line} {rest : List Line} (h : b.addAll (l :: rest) = .ok body) :
    ∃ b', Adds l b b' ∧ b.addAll [l] = .ok b' ∧ b'.addAll rest = .ok body := by
  rw [addAll] at h
  split at h
  · next b' hadd =>
    refine ⟨b', add_spec hadd, ?_, h⟩
    rw [addAll, hadd]
    rfl
  · cases h

theorem addAll_spec (h : b.addAll lines = .ok body) :
    b.Extends body ∧ (b.Bounded → body.Bounded) ∧
      body.lines.toList = b.lines.toList ++ lines := by
  induction lines generalizing b with
  | nil =>
    cases h
    exact ⟨.refl _, id, (List.append_nil _).symm⟩
  | cons l rest ih =>
    obtain ⟨b', ha, -, hrest⟩ := addAll_cons h
    obtain ⟨he, hb, hl⟩ := ih hrest
    refine ⟨ha.keeps.trans he, fun h => hb (ha.bounded h), ?_⟩
    rw [hl, ha.lines_eq, Array.toList_push, List.append_assoc]
    rfl

structure Stage (start : Body) (lines : List Line) (body : Body) (p : Nat) (b : Body) : Prop where
  before : start.addAll (lines.take p) = .ok b
  after : b.addAll (lines.drop p) = .ok body

theorem exists_stage (h : start.addAll lines = .ok body) (p : Nat) :
    ∃ b, Stage start lines body p b := by
  rw [← List.take_append_drop p lines, addAll_append] at h
  cases hb : start.addAll (lines.take p) with
  | error defect =>
    rw [hb] at h
    cases h
  | ok b =>
    rw [hb] at h
    exact ⟨b, hb, h⟩

theorem Stage.unique (h : Stage start lines body p b) (h' : Stage start lines body p b') :
    b = b' := by
  have he := h.before.symm.trans h'.before
  cases he
  rfl

theorem Stage.next (h : Stage start lines body p b) {l : Line} (hp : lines[p]? = some l) :
    ∃ b', Adds l b b' ∧ Stage start lines body (p + 1) b' := by
  obtain ⟨hlt, hget⟩ := List.getElem?_eq_some_iff.1 hp
  have hafter := h.after
  rw [List.drop_eq_getElem_cons hlt, hget] at hafter
  obtain ⟨b', ha, hone, hrest⟩ := addAll_cons hafter
  refine ⟨b', ha, ?_, hrest⟩
  rw [List.take_add_one, hp, Option.toList_some, addAll_append, h.before]
  exact hone

theorem Stage.bounded (h : Stage start lines body p b) (hs : start.Bounded) :
    b.Bounded ∧ b.Extends body :=
  ⟨(addAll_spec h.before).2.1 hs, (addAll_spec h.after).1⟩

def Arrives (start : Body) (lines : List Line) (body : Body) (p : Nat) (d : Int) : Prop :=
  ∃ b, Stage start lines body p b ∧ b.reachable = true ∧ b.depth = d ∧
    (known 0 (lines.take p) : Int) ≤ d

structure Settles (start : Body) (lines : List Line) (body : Body) (p : Nat) (d : Int) : Prop where
  at_label : ∀ name, lines[p]? = some (.label name) → body.labelDepths.lookup name = some d
  elsewhere : (∀ name, lines[p]? ≠ some (.label name)) → Arrives start lines body p d

theorem Arrives.settles (h : Arrives start lines body p d) (hs : start.Bounded) :
    Settles start lines body p d := by
  refine ⟨?_, fun _ => h⟩
  intro name hp
  obtain ⟨b, hb, hr, rfl, -⟩ := h
  obtain ⟨b', ha, hb'⟩ := hb.next hp
  have hd : b'.depth = b.depth := by
    rw [ha.depth_eq hr]
    simp [Line.pushes, Line.pops]
  rw [← hd]
  exact (hb'.bounded hs).2.lookup name _ (ha.label name rfl).2

theorem Settles.arrives (h : Settles start lines body p d) {l : Line} (hp : lines[p]? = some l)
    (hl : ∀ name, l ≠ .label name) : Arrives start lines body p d := by
  refine h.elsewhere ?_
  intro name hname
  rw [hp] at hname
  exact hl name (Option.some.inj hname)

theorem Arrives.demand_le (h : Arrives start lines body p d) (hs : start.Bounded)
    (hsupply : Supplied 0 lines) {l : Line} (hp : lines[p]? = some l) : (l.demand : Int) ≤ d := by
  obtain ⟨b, hb, hr, rfl, hknown⟩ := h
  by_cases hpush : 0 < l.pushes
  · have hd := hsupply.demand_le hp hpush
    omega
  · obtain ⟨b', ha, hb'⟩ := hb.next hp
    have h0 := (hb'.bounded hs).1.depth_nonneg
    have hd := ha.depth_eq hr
    rw [Line.demand_eq_pops (by omega)]
    omega

theorem known_take_succ {l : Line} (hp : lines[p]? = some l) :
    known 0 (lines.take (p + 1)) = l.leaves (known 0 (lines.take p)) := by
  rw [List.take_add_one, hp, Option.toList_some, known_append]
  rfl

theorem Settles.next_label (h : Settles start lines body p d) (hall : start.addAll lines = .ok body)
    (hs : start.Bounded) {name : String} (hp : lines[p]? = some (.label name)) :
    Arrives start lines body (p + 1) d := by
  -- The body can be unreachable above the label, which then takes the depth that a jump brought.
  obtain ⟨b, hb⟩ := exists_stage hall p
  obtain ⟨b', ha, hb'⟩ := hb.next hp
  obtain ⟨hbound, hext⟩ := hb'.bounded hs
  obtain ⟨hr, hl⟩ := ha.label name rfl
  have hd : b'.depth = d := by
    have hlookup := hext.lookup name _ hl
    rw [h.at_label name hp] at hlookup
    exact (Option.some.inj hlookup).symm
  refine ⟨b', hb', hr, hd, ?_⟩
  rw [known_take_succ hp, ← hd]
  exact hbound.depth_nonneg

theorem Settles.next (h : Settles start lines body p d) (hall : start.addAll lines = .ok body)
    (hs : start.Bounded) (hsupply : Supplied 0 lines) {l : Line} (hp : lines[p]? = some l)
    (hrun : l.runsOn = true) : Arrives start lines body (p + 1) (d + l.pushes - l.pops) := by
  by_cases hlabel : ∃ name, l = .label name
  · obtain ⟨name, rfl⟩ := hlabel
    simpa [Line.pushes, Line.pops] using h.next_label hall hs hp
  · have harrive := h.arrives hp fun name hl => hlabel ⟨name, hl⟩
    have hdemand := harrive.demand_le hs hsupply hp
    have hpops := l.pops_le_demand
    obtain ⟨b, hb, hr, rfl, hle⟩ := harrive
    obtain ⟨b', ha, hb'⟩ := hb.next hp
    refine ⟨b', hb', (ha.reachable_eq hr).trans hrun, ha.depth_eq hr, ?_⟩
    have hleaves : l.leaves (known 0 (lines.take p)) =
        known 0 (lines.take p) - l.pops + l.pushes := by
      cases l with
      | label name => exact absurd ⟨name, rfl⟩ hlabel
      | _ => rfl
    rw [known_take_succ hp, hleaves]
    omega

theorem Settles.jump (h : Settles start lines body p d) (hs : start.Bounded) {q : Nat} {j : Jump}
    {name : String} (hp : lines[p]? = some (.jump j name)) (hq : lines[q]? = some (.label name)) :
    Settles start lines body q (d - j.pops) := by
  obtain ⟨b, hb, hr, rfl, -⟩ := h.arrives hp nofun
  obtain ⟨b', ha, hb'⟩ := hb.next hp
  have hd : b'.depth = b.depth - j.pops := by
    rw [ha.depth_eq hr]
    simp [Line.pushes, Line.pops]
  refine ⟨?_, fun hno => absurd hq (hno name)⟩
  intro other hother
  rw [hq] at hother
  cases hother
  rw [← hd]
  exact (hb'.bounded hs).2.lookup name _ (ha.target hr j name rfl)

theorem settles_of_reached (hall : start.addAll lines = .ok body) (hs : start.Bounded)
    (hdepth : start.depth = 0) (hreach : start.reachable = true) (hsupply : Supplied 0 lines)
    (h : Reached lines p d) : Settles start lines body p d := by
  induction h with
  | start =>
    have hstart : Arrives start lines body 0 0 :=
      ⟨start, ⟨rfl, hall⟩, hreach, hdepth, Int.le_refl 0⟩
    exact hstart.settles hs
  | next _ hp hrun ih => exact (ih.next hall hs hsupply hp hrun).settles hs
  | jump _ hp hq ih => exact ih.jump hs hp hq

theorem Settles.unique {d' : Int} (h : Settles start lines body p d)
    (h' : Settles start lines body p d') : d = d' := by
  by_cases hlabel : ∃ name, lines[p]? = some (.label name)
  · obtain ⟨name, hp⟩ := hlabel
    have he := h.at_label name hp
    rw [h'.at_label name hp] at he
    exact (Option.some.inj he).symm
  · have hno : ∀ name, lines[p]? ≠ some (.label name) := fun name hp => hlabel ⟨name, hp⟩
    obtain ⟨b, hb, -, rfl, -⟩ := h.elsewhere hno
    obtain ⟨b', hb', -, rfl, -⟩ := h'.elsewhere hno
    rw [hb.unique hb']

theorem Settles.limits (h : Settles start lines body p d) (hall : start.addAll lines = .ok body)
    (hs : start.Bounded) (hsupply : Supplied 0 lines) {l : Line} (hp : lines[p]? = some l) :
    (l.demand : Int) ≤ d ∧ d + l.pushes - l.pops ≤ body.maxDepth := by
  by_cases hlabel : ∃ name, l = .label name
  · obtain ⟨name, rfl⟩ := hlabel
    obtain ⟨h0, h1⟩ := ((addAll_spec hall).2.1 hs).label name d (h.at_label name hp)
    simpa [Line.demand, Line.pushes, Line.pops] using ⟨h0, h1⟩
  · have harrive := h.arrives hp fun name hl => hlabel ⟨name, hl⟩
    refine ⟨harrive.demand_le hs hsupply hp, ?_⟩
    obtain ⟨b, hb, hr, rfl, -⟩ := harrive
    obtain ⟨b', ha, hb'⟩ := hb.next hp
    obtain ⟨hbound, hext⟩ := hb'.bounded hs
    have hd := ha.depth_eq hr
    have hle := hbound.depth_le
    have hmax := hext.maxDepth_le
    omega

end Body

namespace Scope

theorem exists_emptyBody (s : Scope) : ∃ registers, s.emptyBody = { registers } := by
  have hfold (l : List Nat) (b : Body) :
      ∃ registers, l.foldl Body.touch b = { b with registers } := by
    induction l generalizing b with
    | nil => exact ⟨b.registers, rfl⟩
    | cons r rest ih => exact ih (b.touch r)
  exact hfold _ {}

theorem emptyBody_spec (s : Scope) :
    s.emptyBody.Bounded ∧ s.emptyBody.depth = 0 ∧ s.emptyBody.reachable = true ∧
      s.emptyBody.lines = #[] := by
  obtain ⟨registers, he⟩ := s.exists_emptyBody
  rw [he]
  exact ⟨⟨Int.le_refl 0, Int.le_refl 0, nofun⟩, rfl, rfl, rfl⟩

theorem assemble_eq_ok {s : Scope} {body : Body} (h : s.assemble = .ok body) :
    s.emptyBody.addAll s.lower.lines = .ok body := by
  unfold assemble at h
  dsimp only at h
  split at h
  · cases h
  · next b hb =>
    cases ho : s.lower.outcome with
    | error fault =>
      rw [ho] at h
      cases h
    | ok u =>
      rw [ho] at h
      cases h
      exact hb

theorem outcome_of_assemble {s : Scope} {body : Body} (h : s.assemble = .ok body) :
    s.lower.outcome = .ok () := by
  unfold assemble at h
  dsimp only at h
  split at h
  · cases h
  · cases ho : s.lower.outcome with
    | error fault =>
      rw [ho] at h
      cases h
    | ok u => rfl

theorem toList_lines_of_assemble {s : Scope} {body : Body} (h : s.assemble = .ok body) :
    body.lines.toList = s.lower.lines := by
  have hlines := (Body.addAll_spec (assemble_eq_ok h)).2.2
  rw [s.emptyBody_spec.2.2.2] at hlines
  exact hlines

theorem stack_limit_sound {s : Scope} {body : Body} (h : s.assemble = .ok body) :
    (∀ p d l, Reached body.lines.toList p d → body.lines.toList[p]? = some l →
      (l.demand : Int) ≤ d ∧ d + l.pushes - l.pops ≤ body.maxDepth) ∧
    ∀ p d d', Reached body.lines.toList p d → Reached body.lines.toList p d' → d = d' := by
  have hall := assemble_eq_ok h
  obtain ⟨hs, hdepth, hreach, hempty⟩ := s.emptyBody_spec
  have hlines : body.lines.toList = s.lower.lines := by
    rw [(Body.addAll_spec hall).2.2, hempty]
    rfl
  rw [hlines]
  have hsettle {p : Nat} {d : Int} (hr : Reached s.lower.lines p d) :=
    Body.settles_of_reached hall hs hdepth hreach s.supplied_lower hr
  refine ⟨?_, ?_⟩
  · intro p d l hr hp
    exact (hsettle hr).limits hall hs s.supplied_lower hp
  · intro p d d' hr hr'
    exact (hsettle hr).unique (hsettle hr')

def countdownBody : Body where
  lines := #[.label "again", .op (.load .int 1), .op (.const 1), .op (.arithmetic .sub),
    .op (.store .int 2), .op (.load .int 2), .op (.const 2), .op (.arithmetic .mul),
    .op (.store .int 3), .op (.load .int 3), .op (.store .int 1), .op (.load .int 1),
    .jump .gtZero "again", .op (.load .int 3), .exit (.value .int)]
  maxDepth := 2
  labelDepths := [("again", 0)]
  defined := ["again"]
  reachable := false
  registers := [3, 2, 1, 0]
  supply := { used := ["again"] }

theorem stack_limit_sound_countdown :
    assemble ⟨{ name := "Counter" }, Method.countdown⟩ = .ok countdownBody ∧
      ∀ d, Reached countdownBody.lines.toList 3 d → d = 2 := by
  have h : assemble ⟨{ name := "Counter" }, Method.countdown⟩ = .ok countdownBody := by
    decide +kernel
  have hone : Reached countdownBody.lines.toList 1 0 :=
    @Reached.next _ 0 0 (.label "again") .start rfl rfl
  have htwo : Reached countdownBody.lines.toList 2 1 :=
    @Reached.next _ 1 0 (.op (.load .int 1)) hone rfl rfl
  have hthree : Reached countdownBody.lines.toList 3 2 :=
    @Reached.next _ 2 1 (.op (.const 1)) htwo rfl rfl
  exact ⟨h, fun d hd => (stack_limit_sound h).2 3 d 2 hd hthree⟩

end Scope

end ClassLowering
