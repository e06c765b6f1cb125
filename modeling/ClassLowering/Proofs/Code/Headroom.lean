import ClassLowering.Proofs.Code.Accesses
import ClassLowering.Proofs.Code.Additions
import ClassLowering.Proofs.Code.Shelter

namespace ClassLowering

namespace Body

variable {b b' : Body} {lines : List Line}

structure InRange (b : Body) : Prop where
  bounded : b.Bounded
  maxDepth_le : b.maxDepth ≤ depthLimit

theorem InRange.depth_le (h : b.InRange) : b.depth ≤ depthLimit :=
  h.bounded.depth_le.trans (Int.ofNat_le.2 h.maxDepth_le)

theorem InRange.congr (h : b.InRange) (hdepth : b'.depth = b.depth)
    (hmax : b'.maxDepth = b.maxDepth) (hlabels : b'.labelDepths = b.labelDepths) : b'.InRange := by
  obtain ⟨⟨h0, h1, hlabel⟩, hle⟩ := h
  rw [← hmax] at hle
  refine ⟨⟨hdepth ▸ h0, hdepth ▸ hmax ▸ h1, ?_⟩, hle⟩
  rw [hlabels, hmax]
  exact hlabel

theorem adjust_maxDepth_le {pops pushes : Nat} (h : b.adjust pops pushes = (b', .ok ()))
    (hb : b.maxDepth ≤ depthLimit) : b'.maxDepth ≤ depthLimit := by
  obtain ⟨-, -, he⟩ | ⟨-, -, he⟩ | ⟨-, hlimit, he⟩ := b.adjust_cases pops pushes
  · cases he.symm.trans h
  · cases he.symm.trans h
  · cases he.symm.trans h
    exact Nat.max_le.2 ⟨hb, Int.toNat_le.2 hlimit⟩

theorem enterLabel_maxDepth {name : String} (h : b.enterLabel name = (b', .ok ())) :
    b'.maxDepth = b.maxDepth := by
  unfold enterLabel at h
  split at h
  · split at h
    · cases h
    · cases h
      rfl
  · cases h
    rfl

theorem addOp_maxDepth_le {o : Op} (h : b.addOp o = (b', .ok ()))
    (hb : b.maxDepth ≤ depthLimit) : b'.maxDepth ≤ depthLimit := by
  unfold addOp at h
  cases hr : o.register? with
  | none =>
    rw [hr] at h
    exact adjust_maxDepth_le h hb
  | some register =>
    rw [hr] at h
    exact adjust_maxDepth_le h hb

theorem add_maxDepth_le {l : Line} (h : b.add l = (b', .ok ()))
    (hb : b.maxDepth ≤ depthLimit) : b'.maxDepth ≤ depthLimit := by
  unfold add at h
  split at h
  · split at h
    · exact addOp_maxDepth_le h hb
    · cases h
  · exact addOp_maxDepth_le h hb
  · unfold addJump at h
    split at h
    · next adjusted ha =>
      split at h
      · next expecting he =>
        obtain ⟨-, -, -, -, hmax, -⟩ := expectDepth_spec he
        cases h
        exact hmax.trans_le (adjust_maxDepth_le ha hb)
      · next hfail => exact absurd h (hfail _)
    · next hfail => exact absurd h (hfail _)
  · unfold addExit at h
    split at h
    · next adjusted ha =>
      have hle : adjusted.maxDepth ≤ depthLimit := adjust_maxDepth_le ha hb
      cases h
      exact hle
    · next hfail => exact absurd h (hfail _)
  · unfold defineLabel at h
    split at h
    · cases h
    · dsimp only at h
      split at h
      · next entered he =>
        cases h
        exact (enterLabel_maxDepth he).trans_le hb
      · next hfail => exact absurd h (hfail _)

theorem InRange.add (hb : b.InRange) {l : Line} (h : b.add l = (b', .ok ())) : b'.InRange :=
  ⟨(add_spec h).bounded hb.bounded, add_maxDepth_le h hb.maxDepth_le⟩

theorem InRange.addAll (hb : b.InRange) (h : b.addAll lines = .ok b') : b'.InRange := by
  induction lines generalizing b with
  | nil =>
    cases h
    exact hb
  | cons l rest ih =>
    obtain ⟨next, hadd, hrest⟩ := addAll_cons_add h
    exact ih (hb.add hadd) hrest

end Body

theorem Scope.inRange_emptyBody (s : Scope) : s.emptyBody.InRange := by
  obtain ⟨registers, he⟩ := s.exists_emptyBody
  refine ⟨s.emptyBody_spec.1, ?_⟩
  rw [he]
  exact Nat.zero_le _

namespace Lower

variable {α β : Type} {supply supply' : LabelSupply} {b b' : Body}

inductive Takes (y : Lower β) (supply' : LabelSupply) (b' : Body) :
    {α : Type} → Lower α → LabelSupply → Body → Prop where
  | here : Takes y supply' b' y supply' b'
  | first {α γ : Type} {x : Lower α} {f : α → Lower γ} {supply : LabelSupply} {b : Body} :
      Takes y supply' b' x supply b → Takes y supply' b' (x >>= f) supply b
  | rest {α γ : Type} {x : Lower α} {f : α → Lower γ} {supply mid : LabelSupply} {b next : Body}
      {a : α} :
      x.onto supply b = .ok (a, mid, next) → Takes y supply' b' (f a) mid next →
      Takes y supply' b' (x >>= f) supply b

theorem Takes.inRange {x : Lower α} {y : Lower β} (h : Takes y supply' b' x supply b)
    (hb : b.InRange) : b'.InRange := by
  induction h with
  | here => exact hb
  | first _ ih => exact ih hb
  | rest hx _ ih => exact ih (hb.addAll (onto_eq_ok.1 hx).1)

end Lower

def Line.OnlyAdjusts : Line → Prop
  | .op (.increment _ _) => False
  | .op _ => True
  | _ => False

namespace Body

variable {b b' : Body} {lines : List Line} {defect : Defect}

theorem adjust_error {pops pushes : Nat} (h : b.adjust pops pushes = (b', .error defect)) :
    defect = .stackOverflow ∨ defect.IsDepth := by
  obtain ⟨-, -, he⟩ | ⟨-, -, he⟩ | ⟨-, -, he⟩ := b.adjust_cases pops pushes
  · cases he.symm.trans h
    exact .inr trivial
  · cases he.symm.trans h
    exact .inl rfl
  · cases he.symm.trans h

theorem add_error {l : Line} (hl : l.OnlyAdjusts) (h : b.add l = (b', .error defect)) :
    defect = .stackOverflow ∨ defect.IsDepth := by
  cases l with
  | op o => cases o <;> first | exact adjust_error h | exact hl.elim
  | _ => exact hl.elim

theorem addAll_error (hl : ∀ l ∈ lines, l.OnlyAdjusts) (h : b.addAll lines = .error defect) :
    defect = .stackOverflow ∨ defect.IsDepth := by
  induction lines generalizing b with
  | nil => cases h
  | cons l rest ih =>
    obtain ⟨hfirst, hrest⟩ := List.forall_mem_cons.1 hl
    rw [Body.addAll] at h
    split at h
    · exact ih hrest h
    · next hadd =>
      cases h
      exact add_error hfirst hadd

end Body

namespace Lower

variable {α β : Type} {P : Fault → Prop} {x : Lower α} {f : α → Lower β}

def Faults (P : Fault → Prop) (x : Lower α) : Prop :=
  ∀ supply fault, (x supply).outcome = .error fault → P fault

namespace Faults

theorem pure (a : α) : Faults P (Pure.pure a) := fun _ _ => nofun

theorem fail {fault : Fault} (h : P fault) : Faults P (Lower.fail fault : Lower α) := by
  rintro _ _ ⟨⟩
  exact h

theorem op (o : Op) : Faults P (Lower.op o) := fun _ _ => nofun

theorem bind (hx : Faults P x) (hf : ∀ a, Faults P (f a)) : Faults P (x >>= f) := by
  intro supply fault h
  change (Lower.bind x f supply).outcome = _ at h
  have hfault := hx supply
  unfold Lower.bind at h
  rcases hstep : x supply with ⟨lines, cause | a, rest⟩
  · rw [hstep] at h hfault
    cases h
    exact hfault _ rfl
  · rw [hstep] at h
    exact hf a rest fault h

theorem lift {value : Except Fault α} (h : ∀ fault, value = .error fault → P fault) :
    Faults P (liftM value : Lower α) := fun _ => h

end Faults

end Lower

namespace Scope

open Body (At)
open Lower (Every Faults Takes)

variable (s : Scope) {supply supply' : LabelSupply} {b b' : Body}

theorem every_load_adjusts (x : Operand) : Every Line.OnlyAdjusts (s.load x) := by
  induction x with
  | literal value ty => exact .line trivial
  | var name ty => exact .bind_lift fun _ _ => .line trivial
  | element array index ty ih =>
    refine .bind_lift fun _ _ => .bind (.line trivial) fun _ => ?_
    exact .bind ih fun _ => .line trivial
  | self =>
    unfold load
    split
    · exact .fail _
    · exact .line trivial

theorem every_loadAll_adjusts (l : List Operand) : Every Line.OnlyAdjusts (s.loadAll l) := by
  induction l with
  | nil => exact .pure _
  | cons x rest ih => exact .bind (s.every_load_adjusts x) fun _ => ih

def LoadFault (fault : Fault) : Prop :=
  (∃ v, fault = .malformed (.noRegister v s.method.name)) ∨
    s.method.isStatic = true ∧ fault = .unsupported (.receiverInStatic s.method.name)

theorem faults_register (v : String) : Faults s.LoadFault (liftM (s.register v) : Lower Nat) := by
  refine .lift fun fault h => ?_
  unfold register at h
  split at h
  · cases h
  · cases h
    exact .inl ⟨v, rfl⟩

theorem faults_load (x : Operand) : Faults s.LoadFault (s.load x) := by
  induction x with
  | literal value ty => exact .op _
  | var name ty => exact .bind (s.faults_register name) fun _ => .op _
  | element array index ty ih =>
    refine .bind (s.faults_register array) fun _ => .bind (.op _) fun _ => ?_
    exact .bind ih fun _ => .op _
  | self =>
    unfold load
    split
    · next hstatic => exact .fail (.inr ⟨hstatic, rfl⟩)
    · exact .op _

theorem faults_loadAll (l : List Operand) : Faults s.LoadFault (s.loadAll l) := by
  induction l with
  | nil => exact .pure _
  | cons x rest ih => exact .bind (s.faults_load x) fun _ => ih

theorem spares_loadAll (l : List Operand) (hb : b.InRange) (supply : LabelSupply) :
    Spares (fun r => r.2.2.depth = b.depth + l.length) ((s.loadAll l).onto supply b) := by
  obtain ⟨k, hk⟩ := Int.eq_ofNat_of_zero_le hb.bounded.depth_nonneg
  -- Operands have no labels, so nothing need be known of what is on record for them.
  have hat : At (fun _ _ => True) b.reachable k supply b := ⟨rfl, hk, trivial⟩
  refine (s.level_loadAll l supply b hat).mono fun r hr => ?_
  have hdepth := hr.depth_eq
  omega

theorem length_le_of_loadAll {l : List Operand} {u : Unit} (hb : b.InRange)
    (h : (s.loadAll l).onto supply b = .ok (u, supply', b')) : l.length ≤ Body.depthLimit := by
  have hdepth := s.spares_loadAll l hb supply
  rw [h] at hdepth
  have hle := (hb.addAll (Lower.onto_eq_ok.1 h).1).depth_le
  have h0 := hb.bounded.depth_nonneg
  have heq : b'.depth = b.depth + l.length := hdepth
  omega

theorem loadAll_error {l : List Operand} {fault : Fault} (hb : b.InRange)
    (h : (s.loadAll l).onto supply b = .error fault) :
    fault = .malformed .stackOverflow ∨
      (s.loadAll l supply).outcome = .error fault ∧ s.LoadFault fault := by
  have hspared := s.spares_loadAll l hb supply
  rw [h] at hspared
  unfold Lower.onto at h
  split at h
  · next defect hadd =>
    cases h
    have hcause := Body.addAll_error (s.every_loadAll_adjusts l supply) hadd
    exact .inl (congrArg _ (hcause.resolve_right hspared))
  · right
    cases ho : (s.loadAll l supply).outcome with
    | error cause =>
      have hcause := s.faults_loadAll l supply cause ho
      rw [ho] at h
      cases h
      exact ⟨rfl, hcause⟩
    | ok u =>
      rw [ho] at h
      cases h

theorem onto_loadArguments (receiver : Operand) (arguments : List Operand) :
    (do s.load receiver; s.loadArguments arguments : Lower Nat).onto supply b =
      ((s.loadAll (receiver :: arguments)).onto supply b).bind fun r =>
        if Body.depthLimit < arguments.length then .error (.malformed .tooManyArguments)
        else .ok (arguments.length, r.2) := by
  have hassoc : (do s.load receiver; s.loadArguments arguments : Lower Nat) =
      s.loadAll (receiver :: arguments) >>= fun _ =>
        if Body.depthLimit < arguments.length then .fail (.malformed .tooManyArguments)
        else pure arguments.length := (bind_assoc _ _ _).symm
  rw [hassoc, Lower.onto_bind]
  refine congrArg _ (funext fun r => ?_)
  split <;> rfl

theorem call_eq_operands {c : Call} {receiver : Operand} {name : String}
    (h : c.callee = .virtual receiver name ∨ c.callee = .special receiver name) :
    ∃ invoke : Nat → Lower Unit, s.call c =
      (do s.load receiver; s.loadArguments c.arguments) >>= fun count => invoke (count + 1) := by
  unfold call
  obtain hcallee | hcallee := h
  · rw [hcallee]
    exact ⟨fun pops => do
      let owner ← s.header.memberOwner receiver.ty
      let descriptor ← s.callDescriptor c
      .op (.invoke .virtual owner name descriptor pops (if c.result = .void then 0 else 1)),
      (bind_assoc _ _ _).symm⟩
  · rw [hcallee]
    exact ⟨fun pops => do
      let owner ← s.specialOwner receiver
      let descriptor ← s.callDescriptor c
      .op (.invoke .special owner name descriptor pops (if c.result = .void then 0 else 1)),
      (bind_assoc _ _ _).symm⟩

theorem count_le_of_loadArguments {receiver : Operand} {arguments : List Operand} {count : Nat}
    (hb : b.InRange) (h : (do s.load receiver; s.loadArguments arguments : Lower Nat).onto supply b =
      .ok (count, supply', b')) : count = arguments.length ∧ count + 1 ≤ Body.depthLimit := by
  rw [onto_loadArguments] at h
  cases hx : (s.loadAll (receiver :: arguments)).onto supply b with
  | error fault =>
    rw [hx] at h
    cases h
  | ok r =>
    obtain ⟨u, mid, next⟩ := r
    have hle := s.length_le_of_loadAll hb hx
    rw [hx] at h
    change (if _ then _ else _) = _ at h
    split at h
    · cases h
    · cases h
      exact ⟨rfl, hle⟩

theorem call_error_of_many {c : Call} {receiver : Operand} {name : String} (hb : b.InRange)
    (hcallee : c.callee = .virtual receiver name ∨ c.callee = .special receiver name)
    (hmany : Body.depthLimit < c.arguments.length + 1) (supply : LabelSupply) :
    ∃ fault, (s.call c).onto supply b = .error fault ∧
      (s.loadAll (receiver :: c.arguments)).onto supply b = .error fault := by
  cases hx : (s.loadAll (receiver :: c.arguments)).onto supply b with
  | error fault =>
    obtain ⟨invoke, hcall⟩ := s.call_eq_operands hcallee
    refine ⟨fault, ?_, rfl⟩
    rw [hcall]
    refine Lower.onto_bind_of_error ?_
    rw [onto_loadArguments, hx]
    rfl
  | ok r => exact absurd hmany (Nat.not_lt.2 (s.length_le_of_loadAll hb hx))

theorem depths_in_range :
    (∀ c receiver name, c.callee = .virtual receiver name ∨ c.callee = .special receiver name →
      ∀ supply b, Takes (s.call c) supply b s.body { used := s.method.labels.map Prod.fst }
          s.emptyBody →
        (∀ count supply' b', (do s.load receiver; s.loadArguments c.arguments : Lower Nat).onto
            supply b = .ok (count, supply', b') →
          count = c.arguments.length ∧ count + 1 ≤ 65535) ∧
        (65535 < c.arguments.length + 1 →
          ∃ fault, (s.call c).onto supply b = .error fault ∧
            (s.loadAll (receiver :: c.arguments)).onto supply b = .error fault ∧
            (fault = .malformed .stackOverflow ∨
              (s.loadAll (receiver :: c.arguments) supply).outcome = .error fault ∧
                s.LoadFault fault))) ∧
    ∀ p b, s.emptyBody.addAll (s.lower.lines.take p) = .ok b →
      0 ≤ b.depth ∧ b.depth ≤ b.maxDepth ∧ b.maxDepth ≤ 65535 := by
  refine ⟨fun c receiver name hcallee supply b htakes => ⟨?_, fun hmany => ?_⟩, fun p b hb => ?_⟩
  · intro count supply' b' hload
    exact s.count_le_of_loadArguments (htakes.inRange s.inRange_emptyBody) hload
  · have hb : b.InRange := htakes.inRange s.inRange_emptyBody
    obtain ⟨fault, hcall, hload⟩ := s.call_error_of_many hb hcallee hmany supply
    exact ⟨fault, hcall, hload, s.loadAll_error hb hload⟩
  · have hrange := s.inRange_emptyBody.addAll hb
    exact ⟨hrange.bounded.depth_nonneg, hrange.bounded.depth_le, hrange.maxDepth_le⟩

def crowdCall (n : Nat) : Call :=
  { callee := .virtual .self "take", arguments := .replicate n (.literal 0 .int), result := .void }

def crowd (n : Nat) : Scope :=
  ⟨{ name := "Crowd" },
    { name := "crowd", code := #[.call (crowdCall n)], body := [⟨2⟩], body_code := by simp [Node.ofSlot] }⟩

theorem takes_crowd (n : Nat) : Takes ((crowd n).call (crowdCall n)) {} (crowd n).emptyBody
    (crowd n).body {} (crowd n).emptyBody :=
  .first (.rest rfl (.first (.first .here)))

theorem outcome_loadAll_crowd (n : Nat) (supply : LabelSupply) :
    ((crowd n).loadAll (.self :: (crowdCall n).arguments) supply).outcome = .ok () := by
  have hliterals (k : Nat) :
      ((crowd n).loadAll (.replicate k (.literal 0 .int)) supply).outcome = .ok () := by
    induction k with
    | zero => rfl
    | succ k ih => exact ih
  exact hliterals n

theorem depths_in_range_crowd :
    (∃ count supply b, (do (crowd 2).load .self; (crowd 2).loadArguments (crowdCall 2).arguments :
        Lower Nat).onto {} (crowd 2).emptyBody = .ok (count, supply, b) ∧ count = 2 ∧
          count + 1 ≤ 65535) ∧
      ((crowd 65535).call (crowdCall 65535)).onto {} (crowd 65535).emptyBody =
        .error (.malformed .stackOverflow) ∧
      ∃ b, (crowd 2).emptyBody.addAll ((crowd 2).lower.lines.take 3) = .ok b ∧ b.depth = 3 ∧
        b.depth ≤ b.maxDepth ∧ b.maxDepth ≤ 65535 := by
  obtain ⟨hfew, -⟩ := (depths_in_range (crowd 2)).1 _ _ _ (.inl rfl) _ _ (takes_crowd 2)
  have hmany (n : Nat) (hn : 65535 < n + 1) :
      ((crowd n).call (crowdCall n)).onto {} (crowd n).emptyBody =
        .error (.malformed .stackOverflow) := by
    obtain ⟨-, hrefused⟩ := (depths_in_range (crowd n)).1 _ _ _ (.inl rfl) _ _ (takes_crowd n)
    obtain ⟨fault, hcall, -, rfl | ⟨hload, -⟩⟩ := hrefused (by rwa [crowdCall, List.length_replicate])
    · exact hcall
    · rw [outcome_loadAll_crowd] at hload
      cases hload
  exact ⟨⟨_, _, _, rfl, hfew _ _ _ rfl⟩, hmany 65535 (by decide), _, rfl, rfl,
    ((depths_in_range (crowd 2)).2 3 _ rfl).2⟩

end Scope

end ClassLowering
