import Mathlib.Logic.Function.Basic
import ClassLowering.Code.Lowering
import ClassLowering.Proofs.Code.Acceptance
import ClassLowering.Proofs.Code.Freshness

namespace ClassLowering

def Fault.IsDepth : Fault → Prop
  | .malformed defect => defect.IsDepth
  | _ => False

def Spares {α : Type} (Q : α → Prop) : Except Fault α → Prop
  | .error fault => ¬ fault.IsDepth
  | .ok a => Q a

theorem Spares.mono {α : Type} {Q Q' : α → Prop} {r : Except Fault α} (h : Spares Q r)
    (hQ : ∀ a, Q a → Q' a) : Spares Q' r := by
  cases r with
  | error fault => exact h
  | ok a => exact hQ a h

theorem Spares.bind {α β : Type} {P : α → Prop} {Q : β → Prop} {r : Except Fault α}
    {f : α → Except Fault β} (h : Spares P r) (hf : ∀ a, P a → Spares Q (f a)) :
    Spares Q (r.bind f) := by
  cases r with
  | error fault => exact h
  | ok a => exact hf a h

namespace Lower

variable {α β : Type}

def onto (x : Lower α) (supply : LabelSupply) (b : Body) :
    Except Fault (α × LabelSupply × Body) :=
  match b.addAll (x supply).lines with
  | .error defect => .error (.malformed defect)
  | .ok b => (x supply).outcome.map fun a => (a, (x supply).supply, b)

theorem onto_bind (x : Lower α) (f : α → Lower β) (supply : LabelSupply) (b : Body) :
    (x >>= f).onto supply b = (x.onto supply b).bind fun r => (f r.1).onto r.2.1 r.2.2 := by
  change (Lower.bind x f).onto supply b = _
  unfold onto
  rcases hx : x supply with ⟨lines, fault | a, rest⟩
  · have he : Lower.bind x f supply = ⟨lines, .error fault, rest⟩ := by
      simp only [Lower.bind, hx]
    rw [he]
    cases b.addAll lines with
    | error d => rfl
    | ok b' => rfl
  · have he : Lower.bind x f supply =
        ⟨lines ++ (f a rest).lines, (f a rest).outcome, (f a rest).supply⟩ := by
      simp only [Lower.bind, hx]
    rw [he, Body.addAll_append]
    cases b.addAll lines with
    | error d => rfl
    | ok b' => rfl

section Onto

variable {x : Lower α} {supply next : LabelSupply} {b c : Body}

theorem onto_eq_ok {a : α} : x.onto supply b = .ok (a, next, c) ↔
    b.addAll (x supply).lines = .ok c ∧ (x supply).outcome = .ok a ∧ (x supply).supply = next := by
  unfold onto
  cases b.addAll (x supply).lines with
  | error defect => simp
  | ok d =>
    cases (x supply).outcome with
    | error fault => simp [Except.map]
    | ok a' =>
      simp only [Except.map, Except.ok.injEq, Prod.mk.injEq]
      exact ⟨fun ⟨ha, hs, hd⟩ => ⟨hd, ha, hs⟩, fun ⟨hd, ha, hs⟩ => ⟨ha, hs, hd⟩⟩

theorem onto_bind_of_ok {f : α → Lower β} {a : α} (h : x.onto supply b = .ok (a, next, c)) :
    (x >>= f).onto supply b = (f a).onto next c := by
  rw [onto_bind, h]
  rfl

theorem onto_bind_of_error {f : α → Lower β} {fault : Fault}
    (h : x.onto supply b = .error fault) : (x >>= f).onto supply b = .error fault := by
  rw [onto_bind, h]
  rfl

theorem onto_bind_eq_ok {f : α → Lower β} {value : β}
    (h : (x >>= f).onto supply b = .ok (value, next, c)) :
    ∃ a mid e, x.onto supply b = .ok (a, mid, e) ∧ (f a).onto mid e = .ok (value, next, c) := by
  rw [onto_bind] at h
  cases hx : x.onto supply b with
  | error fault =>
    rw [hx] at h
    cases h
  | ok r =>
    rw [hx] at h
    exact ⟨r.1, r.2.1, r.2.2, rfl, h⟩

end Onto

def Level (P : LabelSupply → Body → Prop) (x : Lower α) (Q : α → LabelSupply → Body → Prop) : Prop :=
  ∀ supply b, P supply b → Spares (fun r => Q r.1 r.2.1 r.2.2) (x.onto supply b)

namespace Level

open Body (At Accepts Notes)

variable {P : LabelSupply → Body → Prop} {x : Lower α} {k m n : Nat} {live : Bool} {name : String}
  {F F' : LabelSupply → List (String × Int) → Prop}

theorem mono {Q Q' : α → LabelSupply → Body → Prop} (h : Level P x Q)
    (hQ : ∀ a supply b, Q a supply b → Q' a supply b) : Level P x Q' :=
  fun supply b hb => (h supply b hb).mono fun r => hQ r.1 r.2.1 r.2.2

theorem assume {p : Prop} {Q : α → LabelSupply → Body → Prop} (h : p → Level P x Q) :
    Level (fun supply b => p ∧ P supply b) x Q := fun supply b hb => h hb.1 supply b hb.2

theorem bind {f : α → Lower β} {Q : α → LabelSupply → Body → Prop}
    {R : β → LabelSupply → Body → Prop} (hx : Level P x Q) (hf : ∀ a, Level (Q a) (f a) R) :
    Level P (x >>= f) R := by
  intro supply b hb
  rw [onto_bind]
  exact (hx supply b hb).bind fun r hr => hf r.1 r.2.1 r.2.2 hr

theorem pure {a : α} {Q : α → LabelSupply → Body → Prop} (h : ∀ supply b, P supply b → Q a supply b) :
    Level P (Pure.pure a : Lower α) Q := h

theorem fail {fault : Fault} (h : ¬ fault.IsDepth) (Q : α → LabelSupply → Body → Prop) :
    Level P (Lower.fail fault : Lower α) Q := fun _ _ _ => h

theorem lift {value : Except Fault α} (h : Spares (fun _ => True) value) :
    Level P (liftM value : Lower α) fun _ => P := by
  intro supply b hb
  cases value with
  | error fault => exact h
  | ok a => exact hb

theorem line {l : Line} {Q : Unit → LabelSupply → Body → Prop}
    (h : ∀ supply b, P supply b → Accepts (Q () supply) (b.add l)) : Level P (Lower.line l) Q := by
  intro supply b hb
  have hl := h supply b hb
  have hlines : (Lower.line l supply).lines = [l] := rfl
  unfold onto
  rw [hlines, Body.addAll]
  generalize b.add l = result at hl ⊢
  obtain ⟨b', d | u⟩ := result
  · exact hl
  · exact hl

theorem op {o : Op} (n : Nat) (hk : k = n + o.pops) (hm : m = n + o.pushes) :
    Level (At F live k) (Lower.op o) fun _ => At F live m := by
  subst hk hm
  exact line fun _ _ hb => hb.add_op

theorem exit {e : Exit} (n : Nat) (hk : k = n + e.pops) :
    Level (At F live k) (Lower.line (.exit e)) fun _ => At F false n := by
  subst hk
  exact line fun _ _ hb => hb.add_exit

theorem jump {j : Jump} (n : Nat) (hk : k = n + j.pops) (hlive : live = true → Notes F name n F')
    (hdead : live = false → ∀ supply l, F supply l → F' supply l) :
    Level (At F live k) (Lower.jump j name) fun _ =>
      At F' (live && !j.isUnconditional) n := by
  subst hk
  exact line fun _ _ hb => hb.add_jump hlive hdead

theorem label (hlive : live = true → k = n) (hnotes : Notes F name n F')
    (hdead : live = false → n = 0 ∨ ∀ supply l, F supply l → (l.lookup name).isSome) :
    Level (At F live k) (Lower.line (.label name)) fun _ => At F' true n :=
  line fun _ _ hb => hb.add_label hlive hnotes hdead

end Level

end Lower

structure Expects (own pending : List String) (expected : String → Option Int)
    (supply : LabelSupply) (l : List (String × Int)) : Prop where
  used : ∀ name d, l.lookup name = some d → name ∈ supply.used
  own_used : ∀ name ∈ own, name ∈ supply.used
  own_eq : ∀ name ∈ own, ∀ d, l.lookup name = some d → d = 0
  pending_used : ∀ name ∈ pending, name ∈ supply.used
  pending_eq : ∀ name ∈ pending, l.lookup name = expected name

def Recorded (own : List String) : LabelSupply → List (String × Int) → Prop :=
  Expects own [] fun _ => none

section Labels

open Body (At Notes)
open Lower (Level)

variable {own pending : List String} {expected : String → Option Int} {name : String} {k : Nat}
  {live : Bool}

theorem Expects.forget {supply : LabelSupply} {l : List (String × Int)}
    (h : Expects own pending expected supply l) : Recorded own supply l :=
  ⟨h.used, h.own_used, h.own_eq, nofun, nofun⟩

theorem lookup_cons_ne {l : List (String × Int)} {other : String} {d : Int} (h : other ≠ name) :
    ((name, d) :: l).lookup other = l.lookup other := by
  rw [List.lookup_cons, beq_false_of_ne h]

theorem notes_own (hname : name ∈ own) : Notes (Recorded own) name 0 (Recorded own) := by
  intro supply l h
  cases hl : l.lookup name with
  | some d =>
    obtain rfl := h.own_eq name hname d hl
    exact .inl ⟨rfl, h⟩
  | none =>
    refine .inr ⟨rfl, ?_, h.own_used, ?_, nofun, nofun⟩
    · intro other d hd
      by_cases he : other = name
      · subst he
        exact h.own_used other hname
      · rw [lookup_cons_ne he] at hd
        exact h.used other d hd
    · intro other ho d hd
      by_cases he : other = name
      · subst he
        rw [List.lookup_cons_self] at hd
        exact (Option.some.inj hd).symm
      · rw [lookup_cons_ne he] at hd
        exact h.own_eq other ho d hd

theorem notes_pending (hname : name ∈ pending) (hown : name ∉ own)
    (hexpected : expected name = none ∨ expected name = some (k : Int)) :
    Notes (Expects own pending expected) name k
      (Expects own pending (Function.update expected name (some (k : Int)))) := by
  intro supply l h
  have heq := h.pending_eq name hname
  obtain hnone | hsome := hexpected
  · right
    refine ⟨heq.trans hnone, ?_, h.own_used, ?_, h.pending_used, ?_⟩
    · intro other d hd
      by_cases he : other = name
      · subst he
        exact h.pending_used other hname
      · rw [lookup_cons_ne he] at hd
        exact h.used other d hd
    · intro other ho d hd
      have he : other ≠ name := fun he => hown (he ▸ ho)
      rw [lookup_cons_ne he] at hd
      exact h.own_eq other ho d hd
    · intro other ho
      by_cases he : other = name
      · subst he
        rw [List.lookup_cons_self, Function.update_self]
      · rw [lookup_cons_ne he, Function.update_of_ne he]
        exact h.pending_eq other ho
  · left
    have hsame : Function.update expected name (some (k : Int)) = expected := by
      rw [← hsome, Function.update_eq_self]
    rw [hsame]
    exact ⟨heq.trans hsome, h⟩

theorem level_fresh (stem : String) :
    Level (At (Expects own pending fun _ => none) live k) (Lower.fresh stem) fun name supply b =>
      (name ∉ own ∧ name ∉ pending) ∧
        At (Expects own (name :: pending) fun _ => none) live k supply b := by
  intro supply b hb
  have hnew := supply.fresh_not_mem stem
  have h := hb.labels
  refine ⟨⟨fun ho => hnew (h.own_used _ ho), fun hp => hnew (h.pending_used _ hp)⟩,
    hb.reachable_eq, hb.depth_eq, ?_, ?_, h.own_eq, ?_, ?_⟩
  · intro name d hd
    exact List.mem_cons_of_mem _ (h.used name d hd)
  · intro name ho
    exact List.mem_cons_of_mem _ (h.own_used name ho)
  · intro name hp
    exact (List.mem_cons.1 hp).elim (fun he => he ▸ List.mem_cons_self)
      fun hp => List.mem_cons_of_mem _ (h.pending_used name hp)
  · intro name hp
    rcases List.mem_cons.1 hp with rfl | hp
    · cases hl : b.labelDepths.lookup (supply.fresh stem).1 with
      | none => exact hl
      | some d => exact absurd (h.used _ d hl) hnew
    · exact h.pending_eq name hp

end Labels

end ClassLowering
