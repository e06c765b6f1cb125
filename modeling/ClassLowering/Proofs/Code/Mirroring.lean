import ClassLowering.Proofs.Code.Additions
import ClassLowering.Proofs.Code.Level

namespace ClassLowering

structure Body.Known (supply : LabelSupply) (b : Body) : Prop where
  recorded : ∀ name d, b.labelDepths.lookup name = some d → name ∈ supply.used
  defined : b.defined ⊆ supply.used

structure Paired (r : String → String → Prop) (blank : List String) (supply : LabelSupply) (b : Body)
    (supply' : LabelSupply) (b' : Body) : Prop where
  known : b.Known supply
  known' : b'.Known supply'
  used : ∀ a a', r a a' → a ∈ supply.used ∧ a' ∈ supply'.used
  unique : ∀ a a' c c', r a a' → r c c' → (a = c ↔ a' = c')
  lookup_eq : ∀ a a', r a a' → b'.labelDepths.lookup a' = b.labelDepths.lookup a
  defined : ∀ a a', r a a' → a' ∈ b'.defined → a ∈ b.defined
  blank_eq : ∀ name ∈ blank, b.labelDepths.lookup name = none
  blank_used : ∀ name ∈ blank, name ∈ supply.used ∧ ∀ a', ¬ r name a'

def joined (r : String → String → Prop) (name name' : String) (a a' : String) : Prop :=
  r a a' ∨ a = name ∧ a' = name'

structure Mirrored (r : String → String → Prop) (blank : List String) (live : Bool)
    (supply : LabelSupply) (b : Body) (supply' : LabelSupply) (b' : Body) : Prop
    extends Paired r blank supply b supply' b' where
  depth_eq : b'.depth = b.depth
  reachable_eq : b'.reachable = b.reachable
  maxDepth_le : b'.maxDepth ≤ b.maxDepth
  reached : live = true → b.reachable = true

section Bodies

variable {r r₀ : String → String → Prop} {blank : List String} {live : Bool} {name name' : String}
  {supply supply' : LabelSupply} {b b' c c' : Body}

theorem Paired.congr (h : Paired r blank supply b supply' b') (hl : c.labelDepths = b.labelDepths)
    (hd : c.defined = b.defined) (hl' : c'.labelDepths = b'.labelDepths)
    (hd' : c'.defined = b'.defined) : Paired r blank supply c supply' c' := by
  refine ⟨⟨hl ▸ h.known.recorded, hd ▸ h.known.defined⟩, ⟨hl' ▸ h.known'.recorded,
    hd' ▸ h.known'.defined⟩, h.used, h.unique, ?_, ?_, ?_, h.blank_used⟩
  · rw [hl, hl']
    exact h.lookup_eq
  · rw [hd, hd']
    exact h.defined
  · rw [hl]
    exact h.blank_eq

theorem Paired.forget (h : Paired r blank supply b supply' b') (hr : ∀ a a', r₀ a a' → r a a') :
    Paired r₀ blank supply b supply' b' :=
  ⟨h.known, h.known', fun a a' ha => h.used a a' (hr a a' ha),
    fun a a' c c' ha hc => h.unique a a' c c' (hr a a' ha) (hr c c' hc),
    fun a a' ha => h.lookup_eq a a' (hr a a' ha), fun a a' ha => h.defined a a' (hr a a' ha),
    h.blank_eq, fun name hn => ⟨(h.blank_used name hn).1, fun a' ha =>
      (h.blank_used name hn).2 a' (hr name a' ha)⟩⟩

theorem Body.Known.record (h : b.Known supply) (hname : name ∈ supply.used) (d : Int) :
    Body.Known supply { b with labelDepths := (name, d) :: b.labelDepths } := by
  refine ⟨fun other e he => ?_, h.defined⟩
  by_cases hne : other = name
  · exact hne ▸ hname
  · rw [lookup_cons_ne hne] at he
    exact h.recorded other e he

theorem Paired.record (h : Paired r blank supply b supply' b') (hname : r name name') (d : Int) :
    Paired r blank supply { b with labelDepths := (name, d) :: b.labelDepths }
      supply' { b' with labelDepths := (name', d) :: b'.labelDepths } := by
  obtain ⟨hu, hu'⟩ := h.used _ _ hname
  refine ⟨h.known.record hu d, h.known'.record hu' d, h.used, h.unique, ?_, h.defined, ?_,
    h.blank_used⟩
  · intro a a' ha
    by_cases he : a = name
    · have he' := (h.unique _ _ _ _ ha hname).1 he
      rw [he, he', List.lookup_cons_self, List.lookup_cons_self]
    · have he' := mt (h.unique _ _ _ _ ha hname).2 he
      rw [lookup_cons_ne he, lookup_cons_ne he']
      exact h.lookup_eq a a' ha
  · intro other ho
    have hne : other ≠ name := by
      rintro rfl
      exact (h.blank_used other ho).2 name' hname
    rw [lookup_cons_ne hne]
    exact h.blank_eq other ho

theorem Paired.define (h : Paired r blank supply b supply' b') (hname : r name name') :
    Paired r blank supply { b with defined := name :: b.defined }
      supply' { b' with defined := name' :: b'.defined } := by
  obtain ⟨hu, hu'⟩ := h.used _ _ hname
  refine ⟨⟨h.known.recorded, List.cons_subset.2 ⟨hu, h.known.defined⟩⟩,
    ⟨h.known'.recorded, List.cons_subset.2 ⟨hu', h.known'.defined⟩⟩, h.used, h.unique, h.lookup_eq,
    ?_, h.blank_eq, h.blank_used⟩
  intro a a' ha ha'
  rcases List.mem_cons.1 ha' with he' | ha'
  · exact List.mem_cons.2 (.inl ((h.unique _ _ _ _ ha hname).2 he'))
  · exact List.mem_cons_of_mem _ (h.defined a a' ha ha')

theorem Body.Known.fresh (h : b.Known supply) (stem : String) : b.Known (supply.fresh stem).2 :=
  ⟨fun name d hd => List.mem_cons_of_mem _ (h.recorded name d hd),
    fun _ hn => List.mem_cons_of_mem _ (h.defined hn)⟩

theorem Paired.fresh (h : Paired r blank supply b supply' b') (stem : String) :
    Paired (joined r (supply.fresh stem).1 (supply'.fresh stem).1) blank (supply.fresh stem).2 b
      (supply'.fresh stem).2 b' := by
  have hnew := supply.fresh_not_mem stem
  have hnew' := supply'.fresh_not_mem stem
  have hnone {s : LabelSupply} {b : Body} {name : String} (hk : b.Known s) (hn : name ∉ s.used) :
      b.labelDepths.lookup name = none := by
    cases hl : b.labelDepths.lookup name with
    | none => rfl
    | some d => exact absurd (hk.recorded name d hl) hn
  refine ⟨h.known.fresh stem, h.known'.fresh stem, ?_, ?_, ?_, ?_, h.blank_eq, ?_⟩
  · rintro a a' (ha | ⟨rfl, rfl⟩)
    · exact ⟨List.mem_cons_of_mem _ (h.used a a' ha).1, List.mem_cons_of_mem _ (h.used a a' ha).2⟩
    · exact ⟨List.mem_cons_self, List.mem_cons_self⟩
  · rintro a a' c c' (ha | ⟨rfl, rfl⟩) (hc | ⟨rfl, rfl⟩)
    · exact h.unique a a' c c' ha hc
    · exact iff_of_false (fun he => hnew (he ▸ (h.used a a' ha).1))
        fun he => hnew' (he ▸ (h.used a a' ha).2)
    · exact iff_of_false (fun he => hnew (he ▸ (h.used c c' hc).1))
        fun he => hnew' (he ▸ (h.used c c' hc).2)
    · exact iff_of_true rfl rfl
  · rintro a a' (ha | ⟨rfl, rfl⟩)
    · exact h.lookup_eq a a' ha
    · rw [hnone h.known hnew, hnone h.known' hnew']
  · rintro a a' (ha | ⟨rfl, rfl⟩)
    · exact h.defined a a' ha
    · exact fun hd => absurd (h.known'.defined hd) hnew'
  · intro name hn
    obtain ⟨hu, hr⟩ := h.blank_used name hn
    refine ⟨List.mem_cons_of_mem _ hu, ?_⟩
    rintro a' (ha | ⟨rfl, -⟩)
    · exact hr a' ha
    · exact hnew hu

theorem Mirrored.leave {other other' : String}
    (h : Mirrored (joined (joined r name name') other other') blank true supply b supply' b') :
    Mirrored r blank live supply b supply' b' :=
  ⟨h.toPaired.forget fun _ _ ha => .inl (.inl ha), h.depth_eq, h.reachable_eq, h.maxDepth_le,
    fun _ => h.reached rfl⟩

namespace Body

theorem adjust_congr {pops pushes : Nat} (hd : b'.depth = b.depth)
    (hr : b'.reachable = b.reachable) (h : b.adjust pops pushes = (c, .ok ())) :
    ∃ d, c = { b with depth := d, maxDepth := max b.maxDepth d.toNat } ∧
      b'.adjust pops pushes =
        ({ b' with depth := d, maxDepth := max b'.maxDepth d.toNat }, .ok ()) := by
  simp only [adjust] at h ⊢
  rw [hd, hr]
  split at h
  · cases h
  · next hcheck =>
    split at h
    · cases h
    · next hlimit =>
      cases h
      rw [if_neg hcheck, if_neg hlimit]
      exact ⟨_, rfl, rfl⟩

end Body

theorem Mirrored.adjust (h : Mirrored r blank live supply b supply' b') {pops pushes : Nat}
    (ha : b.adjust pops pushes = (c, .ok ())) :
    ∃ c', b'.adjust pops pushes = (c', .ok ()) ∧ Mirrored r blank live supply c supply' c' := by
  obtain ⟨d, rfl, ha'⟩ := Body.adjust_congr h.depth_eq h.reachable_eq ha
  refine ⟨_, ha', h.toPaired.congr rfl rfl rfl rfl, rfl, h.reachable_eq, ?_, h.reached⟩
  exact Nat.max_le.2 ⟨Nat.le_trans h.maxDepth_le (Nat.le_max_left _ _), Nat.le_max_right _ _⟩

theorem Mirrored.write (h : Mirrored r blank live supply b supply' b') (l l' : Line) :
    Mirrored r blank live supply (b.write l) supply' (b'.write l') :=
  ⟨h.toPaired.congr rfl rfl rfl rfl, h.depth_eq, h.reachable_eq, h.maxDepth_le, h.reached⟩

theorem Mirrored.touch (h : Mirrored r blank live supply b supply' b') (o o' : Op) :
    Mirrored r blank live supply (o.register?.elim b b.touch) supply'
      (o'.register?.elim b' b'.touch) := by
  cases o.register? <;> cases o'.register? <;>
    exact ⟨h.toPaired.congr rfl rfl rfl rfl, h.depth_eq, h.reachable_eq, h.maxDepth_le, h.reached⟩

theorem Mirrored.addOp (h : Mirrored r blank live supply b supply' b') {o o' : Op}
    (hpops : o'.pops = o.pops) (hpushes : o'.pushes = o.pushes) (ha : b.addOp o = (c, .ok ())) :
    ∃ c', b'.addOp o' = (c', .ok ()) ∧ Mirrored r blank live supply c supply' c' := by
  have hstart (b : Body) (o : Op) :
      b.addOp o = ((o.register?.elim b b.touch).write (.op o)).adjust o.pops o.pushes := by
    unfold Body.addOp
    cases o.register? <;> rfl
  rw [hstart] at ha ⊢
  rw [hpops, hpushes]
  exact ((h.touch o o').write _ _).adjust ha

theorem Mirrored.add_op (h : Mirrored r blank live supply b supply' b') {o o' : Op}
    (hpops : o'.pops = o.pops) (hpushes : o'.pushes = o.pushes)
    (hdelta : ∀ register' delta, o' = .increment register' delta →
      ∃ register, o = .increment register delta) (ha : b.add (.op o) = (c, .ok ())) :
    ∃ c', b'.add (.op o') = (c', .ok ()) ∧ Mirrored r blank live supply c supply' c' := by
  have hplain : b.addOp o = (c, .ok ()) := by
    unfold Body.add at ha
    split at ha
    · next he =>
      cases he
      split at ha
      · exact ha
      · cases ha
    · next he =>
      cases he
      exact ha
    · cases ‹Line.op o = _›
    · cases ‹Line.op o = _›
    · cases ‹Line.op o = _›
  obtain ⟨c', hc', hm⟩ := h.addOp hpops hpushes hplain
  refine ⟨c', ?_, hm⟩
  cases o' with
  | increment register' delta =>
    obtain ⟨register, rfl⟩ := hdelta register' delta rfl
    have hfits : Op.fitsIncrement delta = true := by
      by_contra hno
      rw [Body.add, if_neg hno] at ha
      cases ha
    rw [Body.add, if_pos hfits]
    exact hc'
  | _ => exact hc'

theorem Mirrored.expectDepth (h : Mirrored r blank live supply b supply' b') (hname : r name name')
    (ha : b.expectDepth name = (c, .ok ())) :
    ∃ c', b'.expectDepth name' = (c', .ok ()) ∧ Mirrored r blank live supply c supply' c' := by
  unfold Body.expectDepth at ha ⊢
  rw [h.reachable_eq, h.lookup_eq _ _ hname, h.depth_eq]
  split at ha
  · next hr =>
    cases ha
    exact ⟨b', if_pos hr, h⟩
  · next hr =>
    rw [if_neg hr]
    split at ha
    · split at ha
      · next hd =>
        cases ha
        rw [if_pos hd]
        exact ⟨b', rfl, h⟩
      · cases ha
    · cases ha
      exact ⟨_, rfl, (h.toPaired.record hname b.depth).congr rfl rfl rfl rfl, rfl, rfl,
        h.maxDepth_le, h.reached⟩

theorem Mirrored.add_jump (h : Mirrored r blank live supply b supply' b') {j : Jump}
    (hname : r name name') (ha : b.add (.jump j name) = (c, .ok ())) :
    ∃ c', b'.add (.jump j name') = (c', .ok ()) ∧
      Mirrored r blank (live && !j.isUnconditional) supply c supply' c' := by
  change b.addJump j name = _ at ha
  change ∃ c', b'.addJump j name' = _ ∧ _
  unfold Body.addJump at ha ⊢
  split at ha
  · next start hstart =>
    obtain ⟨start', hstart', hm⟩ := (h.write _ (.jump j name')).adjust hstart
    rw [hstart']
    dsimp only
    split at ha
    · next expecting hexpect =>
      obtain ⟨expecting', hexpect', hm⟩ := hm.expectDepth hname hexpect
      cases ha
      rw [hexpect']
      refine ⟨_, rfl, hm.toPaired.congr rfl rfl rfl rfl, hm.depth_eq, ?_, hm.maxDepth_le, ?_⟩
      · rw [hm.reachable_eq]
      · intro hlive
        rw [Bool.and_eq_true] at hlive ⊢
        exact ⟨hm.reached hlive.1, hlive.2⟩
    · next hfail => exact absurd ha (hfail _)
  · next hfail => exact absurd ha (hfail _)

theorem Mirrored.add_exit (h : Mirrored r blank live supply b supply' b') {e : Exit}
    (ha : b.add (.exit e) = (c, .ok ())) :
    ∃ c', b'.add (.exit e) = (c', .ok ()) ∧ Mirrored r blank false supply c supply' c' := by
  change b.addExit e = _ at ha
  change ∃ c', b'.addExit e = _ ∧ _
  unfold Body.addExit at ha ⊢
  split at ha
  · next start hstart =>
    obtain ⟨start', hstart', hm⟩ := (h.write _ (.exit e)).adjust hstart
    cases ha
    rw [hstart']
    exact ⟨_, rfl, hm.toPaired.congr rfl rfl rfl rfl, hm.depth_eq, rfl, hm.maxDepth_le, nofun⟩
  · next hfail => exact absurd ha (hfail _)

theorem Mirrored.enterLabel (h : Mirrored r blank live supply b supply' b') (hname : r name name')
    (ha : b.enterLabel name = (c, .ok ())) :
    ∃ c', b'.enterLabel name' = (c', .ok ()) ∧ Mirrored r blank true supply c supply' c' := by
  unfold Body.enterLabel at ha ⊢
  rw [h.reachable_eq, h.lookup_eq _ _ hname, h.depth_eq]
  split at ha
  · split at ha
    · cases ha
    · next hcheck =>
      cases ha
      rw [if_neg hcheck]
      exact ⟨_, rfl, h.toPaired.congr rfl rfl rfl rfl, rfl, rfl, h.maxDepth_le, fun _ => rfl⟩
  · cases ha
    exact ⟨_, rfl, (h.toPaired.record hname _).congr rfl rfl rfl rfl, rfl, rfl, h.maxDepth_le,
      fun _ => rfl⟩

theorem Mirrored.add_label (h : Mirrored r blank live supply b supply' b') (hname : r name name')
    (ha : b.add (.label name) = (c, .ok ())) :
    ∃ c', b'.add (.label name') = (c', .ok ()) ∧ Mirrored r blank true supply c supply' c' := by
  change b.defineLabel name = _ at ha
  change ∃ c', b'.defineLabel name' = _ ∧ _
  unfold Body.defineLabel at ha ⊢
  split at ha
  · cases ha
  · next hnew =>
    have hnew' : name' ∉ b'.defined := mt (h.defined name name' hname) hnew
    rw [if_neg hnew']
    have hdefine : Mirrored r blank live supply
        { b with defined := name :: b.defined, supply := b.supply.reserve [name] } supply'
        { b' with defined := name' :: b'.defined, supply := b'.supply.reserve [name'] } :=
      ⟨(h.toPaired.define hname).congr rfl rfl rfl rfl, h.depth_eq, h.reachable_eq, h.maxDepth_le,
        h.reached⟩
    dsimp only at ha ⊢
    split at ha
    · next entered henter =>
      obtain ⟨entered', henter', hm⟩ := hdefine.enterLabel hname henter
      cases ha
      rw [henter']
      exact ⟨_, rfl, hm.write _ _⟩
    · next hfail => exact absurd ha (hfail _)

end Bodies

namespace Lower

variable {α β α' β' : Type}

def Mirrors (P : LabelSupply → Body → LabelSupply → Body → Prop) (x : Lower α) (x' : Lower α')
    (Q : α → α' → LabelSupply → Body → LabelSupply → Body → Prop) : Prop :=
  ∀ supply b supply' b', P supply b supply' b' → ∀ a next c, x.onto supply b = .ok (a, next, c) →
    ∃ a' next' c', x'.onto supply' b' = .ok (a', next', c') ∧ Q a a' next c next' c'

namespace Mirrors

variable {P : LabelSupply → Body → LabelSupply → Body → Prop} {x : Lower α} {x' : Lower α'}
  {Q : α → α' → LabelSupply → Body → LabelSupply → Body → Prop} {r : String → String → Prop}
  {blank : List String} {live : Bool} {name name' : String}

theorem mono {Q' : α → α' → LabelSupply → Body → LabelSupply → Body → Prop} (h : Mirrors P x x' Q)
    (hQ : ∀ a a' s b s' b', Q a a' s b s' b' → Q' a a' s b s' b') : Mirrors P x x' Q' := by
  intro s b s' b' hb a next c hc
  obtain ⟨a', next', c', hc', hq⟩ := h s b s' b' hb a next c hc
  exact ⟨a', next', c', hc', hQ _ _ _ _ _ _ hq⟩

theorem assume {p : Prop} (h : p → Mirrors P x x' Q) :
    Mirrors (fun s b s' b' => p ∧ P s b s' b') x x' Q := fun s b s' b' hb => h hb.1 s b s' b' hb.2

theorem bind {f : α → Lower β} {f' : α' → Lower β'}
    {R : β → β' → LabelSupply → Body → LabelSupply → Body → Prop} (hx : Mirrors P x x' Q)
    (hf : ∀ a a', Mirrors (Q a a') (f a) (f' a') R) : Mirrors P (x >>= f) (x' >>= f') R := by
  intro s b s' b' hb value next c hc
  obtain ⟨a, mid, e, hstep, hrest⟩ := onto_bind_eq_ok hc
  obtain ⟨a', mid', e', hstep', hq⟩ := hx s b s' b' hb a mid e hstep
  obtain ⟨value', next', c', hc', hr⟩ := hf a a' mid e mid' e' hq value next c hrest
  exact ⟨value', next', c', (onto_bind_of_ok hstep').trans hc', hr⟩

theorem pure {a : α} {a' : α'} (h : ∀ s b s' b', P s b s' b' → Q a a' s b s' b') :
    Mirrors P (Pure.pure a : Lower α) (Pure.pure a' : Lower α') Q := by
  intro s b s' b' hb value next c hc
  cases hc
  exact ⟨a', s', b', rfl, h s b s' b' hb⟩

theorem fail (fault : Fault) (x' : Lower α')
    (Q : α → α' → LabelSupply → Body → LabelSupply → Body → Prop) :
    Mirrors P (Lower.fail fault : Lower α) x' Q := by
  intro s b s' b' hb value next c hc
  cases hc

theorem lift {value : Except Fault α} {value' : Except Fault α'}
    (h : ∀ a, value = .ok a → ∃ a', value' = .ok a') :
    Mirrors P (liftM value : Lower α) (liftM value' : Lower α') fun a a' s b s' b' =>
      (value = .ok a ∧ value' = .ok a') ∧ P s b s' b' := by
  intro s b s' b' hb a next c hc
  cases hv : value with
  | error fault =>
    subst hv
    cases hc
  | ok a₀ =>
    obtain ⟨a', hv'⟩ := h a₀ hv
    subst hv hv'
    cases hc
    exact ⟨a', s', b', rfl, ⟨rfl, rfl⟩, hb⟩

theorem same {value : Except Fault α} {f : α → Lower β} {f' : α → Lower β'}
    {R : β → β' → LabelSupply → Body → LabelSupply → Body → Prop}
    (hf : ∀ a, Mirrors P (f a) (f' a) R) : Mirrors P (liftM value >>= f) (liftM value >>= f') R := by
  refine bind (lift fun a ha => ⟨a, ha⟩) fun a a' => assume fun ⟨ha, ha'⟩ => ?_
  rw [ha] at ha'
  cases ha'
  exact hf a

theorem line {l l' : Line} {R : LabelSupply → Body → LabelSupply → Body → Prop}
    (h : ∀ s b s' b' c, P s b s' b' → b.add l = (c, .ok ()) →
      ∃ c', b'.add l' = (c', .ok ()) ∧ R s c s' c') :
    Mirrors P (Lower.line l) (Lower.line l') fun _ _ => R := by
  intro s b s' b' hb a next c hc
  obtain ⟨hall, -, rfl⟩ := onto_eq_ok.1 hc
  obtain ⟨c₁, hone, hnil⟩ := Body.addAll_cons_add hall
  cases hnil
  obtain ⟨c', hone', hr⟩ := h s b s' b' c hb hone
  refine ⟨(), s', c', onto_eq_ok.2 ⟨?_, rfl, rfl⟩, hr⟩
  change b'.addAll [l'] = .ok c'
  rw [Body.addAll, hone']
  rfl

theorem op {o o' : Op} (hpops : o'.pops = o.pops) (hpushes : o'.pushes = o.pushes)
    (hdelta : ∀ register' delta, o' = .increment register' delta →
      ∃ register, o = .increment register delta) :
    Mirrors (Mirrored r blank live) (Lower.op o) (Lower.op o') fun _ _ => Mirrored r blank live :=
  line fun _ _ _ _ _ hb hc => hb.add_op hpops hpushes hdelta hc

theorem op_self (o : Op) :
    Mirrors (Mirrored r blank live) (Lower.op o) (Lower.op o) fun _ _ => Mirrored r blank live :=
  op rfl rfl fun register _ h => ⟨register, h⟩

theorem load (kind : ValueKind) (k k' : Nat) :
    Mirrors (Mirrored r blank live) (Lower.op (.load kind k)) (Lower.op (.load kind k')) fun _ _ =>
      Mirrored r blank live :=
  op rfl rfl nofun

theorem store (kind : ValueKind) (k k' : Nat) :
    Mirrors (Mirrored r blank live) (Lower.op (.store kind k)) (Lower.op (.store kind k')) fun _ _ =>
      Mirrored r blank live :=
  op rfl rfl nofun

theorem increment (k k' : Nat) (delta : Int) :
    Mirrors (Mirrored r blank live) (Lower.op (.increment k delta)) (Lower.op (.increment k' delta))
      fun _ _ => Mirrored r blank live := by
  refine op rfl rfl fun register delta' h => ?_
  cases h
  exact ⟨k, rfl⟩

theorem jump {j : Jump} (hname : r name name') :
    Mirrors (Mirrored r blank live) (Lower.jump j name) (Lower.jump j name') fun _ _ =>
      Mirrored r blank (live && !j.isUnconditional) :=
  line fun _ _ _ _ _ hb hc => hb.add_jump hname hc

theorem jump_on {j : Jump} (hname : r name name') (hj : j.isUnconditional = false) :
    Mirrors (Mirrored r blank live) (Lower.jump j name) (Lower.jump j name') fun _ _ =>
      Mirrored r blank live := by
  have hjump : Mirrors (Mirrored r blank live) (Lower.jump j name) (Lower.jump j name') fun _ _ =>
      Mirrored r blank (live && !j.isUnconditional) := jump hname
  rw [hj, Bool.not_false, Bool.and_true] at hjump
  exact hjump

theorem exit (e : Exit) :
    Mirrors (Mirrored r blank live) (Lower.line (.exit e)) (Lower.line (.exit e)) fun _ _ =>
      Mirrored r blank false :=
  line fun _ _ _ _ _ hb hc => hb.add_exit hc

theorem label (hname : r name name') :
    Mirrors (Mirrored r blank live) (Lower.line (.label name)) (Lower.line (.label name')) fun _ _ =>
      Mirrored r blank true :=
  line fun _ _ _ _ _ hb hc => hb.add_label hname hc

theorem fresh (stem : String) :
    Mirrors (Mirrored r blank live) (Lower.fresh stem) (Lower.fresh stem) fun name name' =>
      Mirrored (joined r name name') blank live := by
  intro s b s' b' hb name next c hc
  cases hc
  exact ⟨_, _, b', rfl, hb.toPaired.fresh stem, hb.depth_eq, hb.reachable_eq, hb.maxDepth_le,
    hb.reached⟩

end Mirrors

end Lower

end ClassLowering
