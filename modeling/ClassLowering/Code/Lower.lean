import ClassLowering.Code.LabelSupply
import ClassLowering.Code.Line
import ClassLowering.Fault

namespace ClassLowering

structure Written (α : Type) where
  lines : List Line
  outcome : Except Fault α
  supply : LabelSupply

def Lower (α : Type) : Type := LabelSupply → Written α

namespace Lower

def pure {α : Type} (value : α) : Lower α := fun supply => ⟨[], .ok value, supply⟩

def bind {α β : Type} (step : Lower α) (next : α → Lower β) : Lower β := fun supply =>
  match step supply with
  | ⟨lines, .error fault, supply⟩ => ⟨lines, .error fault, supply⟩
  | ⟨lines, .ok value, supply⟩ =>
    let rest := next value supply
    ⟨lines ++ rest.lines, rest.outcome, rest.supply⟩

instance : Monad Lower where
  pure := Lower.pure
  bind := Lower.bind

def line (l : Line) : Lower Unit := fun supply => ⟨[l], .ok (), supply⟩

def op (o : Op) : Lower Unit := line (.op o)

def jump (j : Jump) (target : String) : Lower Unit := line (.jump j target)

def fail {α : Type} (fault : Fault) : Lower α := fun supply => ⟨[], .error fault, supply⟩

def lift {α : Type} (value : Except Fault α) : Lower α := fun supply => ⟨[], value, supply⟩

instance : MonadLift (Except Fault) Lower where
  monadLift := lift

def fresh (stem : String) : Lower String := fun supply =>
  let (label, supply) := supply.fresh stem
  ⟨[], .ok label, supply⟩

theorem pure_bind {α β : Type} (value : α) (next : α → Lower β) :
    (pure value).bind next = next value := rfl

theorem bind_pure {α : Type} (step : Lower α) : step.bind pure = step := by
  funext supply
  unfold bind
  split <;> simp_all [pure]

theorem bind_assoc {α β γ : Type} (step : Lower α) (next : α → Lower β) (last : β → Lower γ) :
    (step.bind next).bind last = step.bind fun value => (next value).bind last := by
  funext supply
  unfold bind
  rcases step supply with ⟨lines, _ | value, rest⟩
  · rfl
  · rcases h : next value rest with ⟨more, _ | _, _⟩ <;> simp [h]

instance : LawfulMonad Lower := .mk' Lower (fun x => bind_pure x) (fun a f => pure_bind a f)
  fun x f g => bind_assoc x f g

theorem bind_eq_ok {α β : Type} {x : Lower α} {f : α → Lower β} {supply : LabelSupply} {b : β}
    (h : ((x >>= f) supply).outcome = .ok b) :
    ∃ a, (x supply).outcome = .ok a ∧ (x >>= f) supply =
      ⟨(x supply).lines ++ (f a (x supply).supply).lines, (f a (x supply).supply).outcome,
        (f a (x supply).supply).supply⟩ := by
  change (Lower.bind x f supply).outcome = _ at h
  change ∃ a, _ ∧ Lower.bind x f supply = _
  unfold Lower.bind at h ⊢
  rcases hx : x supply with ⟨lines, fault | a, rest⟩
  · rw [hx] at h
    cases h
  · exact ⟨a, rfl, rfl⟩

end Lower

end ClassLowering
