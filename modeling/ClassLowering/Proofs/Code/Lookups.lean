import ClassLowering.Code.Lowering

namespace ClassLowering

def LooksUp {α : Type} (r : Except Fault α) : Prop :=
  ∀ fault, r = .error fault → ∃ cause, fault = .unsupported cause

namespace LooksUp

variable {α β : Type} {r : Except Fault α} {f : α → Except Fault β}

theorem ok (a : α) : LooksUp (.ok a) := nofun

theorem unsupported (cause : Unsupported) : LooksUp (.error (.unsupported cause) : Except Fault α) := by
  rintro _ ⟨⟩
  exact ⟨cause, rfl⟩

theorem bind (h : LooksUp r) (hf : ∀ a, LooksUp (f a)) : LooksUp (r.bind f) := by
  cases r with
  | error fault =>
    rintro _ ⟨⟩
    exact h fault rfl
  | ok a => exact hf a

end LooksUp

namespace ClassHeader

variable (h : ClassHeader)

theorem looksUp_memberOwner (ty : Ty) : LooksUp (h.memberOwner ty) := by
  cases ty with
  | object _ | self | string => exact .ok _
  | _ => exact .unsupported _

theorem looksUp_descriptor (ty : Ty) : LooksUp (h.descriptor ty) := by
  induction ty with
  | array element ih =>
    cases element with
    | void => exact .unsupported _
    | _ =>
      unfold descriptor
      exact LooksUp.bind ih fun _ => .ok _
  | _ => exact .ok _

theorem looksUp_mapM (types : List Ty) : LooksUp (types.mapM h.descriptor) := by
  induction types with
  | nil => exact .ok _
  | cons ty rest ih =>
    rw [List.mapM_cons]
    exact (h.looksUp_descriptor ty).bind fun _ => ih.bind fun _ => .ok _

end ClassHeader

namespace Scope

theorem register_eq_ok {s : Scope} {v : String} {k : Nat} :
    s.register v = .ok k ↔ s.method.table.register? v = some k := by
  unfold register
  cases s.method.table.register? v <;> simp

variable (s : Scope)

theorem looksUp_callDescriptor (c : Call) : LooksUp (s.callDescriptor c) :=
  (s.header.looksUp_mapM _).bind fun _ => (s.header.looksUp_descriptor _).bind fun _ => .ok _

theorem looksUp_fieldTarget (object : Operand) (field : FieldRef) :
    LooksUp (s.fieldTarget object field) :=
  (s.header.looksUp_memberOwner object.ty).bind fun _ =>
    (s.header.looksUp_descriptor _).bind fun _ => .ok _

theorem looksUp_specialOwner (receiver : Operand) : LooksUp (s.specialOwner receiver) := by
  unfold specialOwner
  split
  · exact .ok _
  · exact s.header.looksUp_memberOwner _

end Scope

end ClassLowering
