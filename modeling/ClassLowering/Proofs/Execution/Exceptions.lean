import ClassLowering.Proofs.Execution.DeadStores

namespace ClassLowering

structure Raise (Value Exception : Type) where
  actions : List (Action Value) := []
  exception : Exception
  deriving DecidableEq

structure Hazards (Value Memory Exception : Type) where
  quotient : Value → Value → Option Exception
  element : Ty → Memory → Value → Value → Option Exception
  field : FieldRef → Memory → Value → Option Exception
  writeElement : Ty → Memory → Value → Value → Value → Option Exception
  writeField : FieldRef → Memory → Value → Value → Option Exception
  call : Call → Memory → List Value → Option (Raise Value Exception)

def Hazards.divisions : Hazards Int Unit String where
  quotient _ divisor := if divisor = 0 then some "/ by zero" else none
  element _ _ _ _ := none
  field _ _ _ := none
  writeElement _ _ _ _ _ := none
  writeField _ _ _ _ := none
  call _ _ _ := none

variable {Value Memory Exception : Type}

section

variable (sem : Semantics Value Memory) (hz : Hazards Value Memory Exception)
  (frame : Frame Value) (memory : Memory)

def Operand.raise? : Operand → Option Exception
  | .element array index ty =>
    (index.raise?).or
      (hz.element ty memory (frame.read array) (index.value sem frame memory))
  | .literal _ _ | .var _ _ | .self => none

namespace Instruction

def binaryRaise? (op : BinaryOp) (left right : Operand) : Option Exception :=
  let ofLeft := left.raise? sem hz frame memory
  let ofRight := right.raise? sem hz frame memory
  match op with
  | .div =>
    (ofLeft.or ofRight).or
      (hz.quotient (left.value sem frame memory) (right.value sem frame memory))
  | .and => ofLeft.or (if sem.isTrue (left.value sem frame memory) then ofRight else none)
  | .add | .sub | .mul | .or | .lt | .ge => ofLeft.or ofRight

def evaluateRaise? (i : Instruction) : Option (Raise Value Exception) :=
  match i with
  | .single x | .not x => (x.raise? sem hz frame memory).map fun e => { exception := e }
  | .binary op left right =>
    (binaryRaise? sem hz frame memory op left right).map fun e => { exception := e }
  | .getField object field =>
    ((object.raise? sem hz frame memory).or
      (hz.field field memory (object.value sem frame memory))).map fun e => { exception := e }
  | .call c =>
    ((c.inputs.findSome? (Operand.raise? sem hz frame memory)).map fun e => { exception := e }).or
      (hz.call c memory (c.reads.map fun x => x.value sem frame memory))
  | .assign _ _ | .ret _ | .putField _ _ _ | .goto _ | .branch _ _ => none

def raise? (i : Instruction) : Option (Raise Value Exception) :=
  match i with
  | .assign (.element array index ty) value =>
    let result := value.evaluate sem frame memory
    let write := hz.writeElement ty result.memory (frame.read array)
      (index.value sem frame memory) result.value
    ((index.raise? sem hz frame memory).map fun e => { exception := e }).or
      ((value.evaluateRaise? sem hz frame memory).or
        (write.map fun e => { actions := result.actions, exception := e }))
  | .assign _ value => value.evaluateRaise? sem hz frame memory
  | .ret value => (value.bind (Operand.raise? sem hz frame memory)).map fun e => { exception := e }
  | .putField object field value =>
    let write := hz.writeField field memory (object.value sem frame memory)
      (value.value sem frame memory)
    (((object.raise? sem hz frame memory).or (value.raise? sem hz frame memory)).or write).map
      fun e => { exception := e }
  | .goto _ => none
  | .branch condition _ => condition.evaluateRaise? sem hz frame memory
  | .call _ | .getField _ _ | .not _ | .binary _ _ _ | .single _ =>
    i.evaluateRaise? sem hz frame memory

end Instruction

end

variable {sem : Semantics Value Memory} {hz : Hazards Value Memory Exception} {f g : Frame Value}
  {memory : Memory}

theorem Operand.raise?_congr (hs : f.self = g.self) {x : Operand}
    (h : ∀ v, x.Uses v → f.read v = g.read v) :
    x.raise? sem hz f memory = x.raise? sem hz g memory := by
  induction x with
  | element array index ty ih =>
    have hbase := h array (.base array index ty)
    have hindex : ∀ v, index.Uses v → f.read v = g.read v := fun v hv => h v (.index hv)
    rw [raise?, raise?, ih hindex, hbase, Operand.value_congr hs hindex]
  | _ => rfl

theorem Call.inputs_subset (c : Call) : c.inputs ⊆ c.reads := by
  unfold inputs
  split
  · next array h => simp [reads, h, Callee.receiver?]
  · exact List.Subset.refl _

namespace Instruction

theorem evaluateRaise?_congr (hs : f.self = g.self) {i : Instruction}
    (h : ∀ v, (∃ x ∈ i.reads, x.Uses v) → f.read v = g.read v) :
    i.evaluateRaise? sem hz f memory = i.evaluateRaise? sem hz g memory := by
  have hraise : ∀ x ∈ i.reads, x.raise? sem hz f memory = x.raise? sem hz g memory :=
    fun x hm => Operand.raise?_congr hs fun v hv => h v ⟨x, hm, hv⟩
  have hvalue : ∀ x ∈ i.reads, x.value sem f memory = x.value sem g memory :=
    fun x hm => Operand.value_congr hs fun v hv => h v ⟨x, hm, hv⟩
  cases i with
  | call c =>
    have hinputs : c.inputs.findSome? (Operand.raise? sem hz f memory) =
        c.inputs.findSome? (Operand.raise? sem hz g memory) := by
      rw [← List.head?_filterMap, ← List.head?_filterMap,
        List.filterMap_congr fun x hm => hraise x (c.inputs_subset hm)]
    have hvalues : (c.reads.map fun x => x.value sem f memory) =
        c.reads.map fun x => x.value sem g memory := List.map_congr_left hvalue
    rw [evaluateRaise?, evaluateRaise?, hinputs, hvalues]
  | binary op left right =>
    obtain ⟨hl, hr⟩ : left ∈ [left, right] ∧ right ∈ [left, right] := by simp
    have hbinary : binaryRaise? sem hz f memory op left right =
        binaryRaise? sem hz g memory op left right := by
      unfold binaryRaise?
      rw [hraise left hl, hraise right hr, hvalue left hl, hvalue right hr]
    rw [evaluateRaise?, evaluateRaise?, hbinary]
  | single x => rw [evaluateRaise?, evaluateRaise?, hraise x (by simp [reads])]
  | not x => rw [evaluateRaise?, evaluateRaise?, hraise x (by simp [reads])]
  | getField object field =>
    rw [evaluateRaise?, evaluateRaise?, hraise object (by simp [reads]),
      hvalue object (by simp [reads])]
  | _ => rfl

theorem raise?_congr (hs : f.self = g.self) {i : Instruction}
    (h : ∀ v, i.ReadsVar v → f.read v = g.read v) :
    i.raise? sem hz f memory = i.raise? sem hz g memory := by
  have hreads {j : Instruction} (hj : j.reads ⊆ i.reads) :
      j.evaluateRaise? sem hz f memory = j.evaluateRaise? sem hz g memory :=
    evaluateRaise?_congr hs fun v ⟨x, hx, hv⟩ => h v (.inl ⟨x, hj hx, hv⟩)
  have hraise {x : Operand} (hm : x ∈ i.reads) :
      x.raise? sem hz f memory = x.raise? sem hz g memory :=
    Operand.raise?_congr hs fun v hv => h v (.inl ⟨x, hm, hv⟩)
  have hvalue {x : Operand} (hm : x ∈ i.reads) : x.value sem f memory = x.value sem g memory :=
    Operand.value_congr hs fun v hv => h v (.inl ⟨x, hm, hv⟩)
  cases i with
  | assign destination value =>
    have hright := hreads (j := value) fun x hx => hx
    cases destination with
    | element array index ty =>
      have huse {v : String} (hv : (Operand.element array index ty).Uses v) :
          f.read v = g.read v := h v (.inr ⟨array, index, ty, rfl, hv⟩)
      have hindex : ∀ v, index.Uses v → f.read v = g.read v := fun v hv => huse (.index hv)
      have hresult : value.evaluate sem f memory = value.evaluate sem g memory :=
        evaluate_congr hs fun v ⟨x, hx, hv⟩ => h v (.inl ⟨x, hx, hv⟩)
      rw [raise?, raise?, hright, hresult, Operand.raise?_congr hs hindex,
        Operand.value_congr hs hindex, huse (.base array index ty)]
    | _ => exact hright
  | ret value =>
    cases value with
    | none => rfl
    | some x => rw [raise?, raise?, Option.bind_some, Option.bind_some, hraise (by simp [reads])]
  | putField object field value =>
    rw [raise?, raise?, hraise (x := object) (by simp [reads]),
      hraise (x := value) (by simp [reads]), hvalue (x := object) (by simp [reads]),
      hvalue (x := value) (by simp [reads])]
  | goto label => rfl
  | branch condition label => exact hreads (j := condition) fun x hx => hx
  | _ => exact hreads fun x hx => hx

theorem evaluateRaise?_silent {i : Instruction} (hcall : ∀ c, i ≠ .call c) {frame : Frame Value}
    {r : Raise Value Exception} (h : i.evaluateRaise? sem hz frame memory = some r) :
    r.actions = [] := by
  have hsilent {raised : Option Exception}
      (h : raised.map (fun e => ({ exception := e } : Raise Value Exception)) = some r) :
      r.actions = [] := by
    obtain ⟨e, -, rfl⟩ := Option.map_eq_some_iff.1 h
    rfl
  cases i with
  | call c => exact absurd rfl (hcall c)
  | single x => exact hsilent h
  | not x => exact hsilent h
  | binary op left right => exact hsilent h
  | getField object field => exact hsilent h
  | _ => cases h

end Instruction

structure Scenario (Value Memory Exception : Type) where
  semantics : Semantics Value Memory
  hazards : Hazards Value Memory Exception
  receiver : Value
  store : String → Value
  memory : Memory

namespace Scenario

variable (v : Scenario Value Memory Exception)

def stage (m : Method) (steps : Nat) : Node × Machine String Value Memory :=
  m.run v.semantics v.receiver v.store v.memory steps

def raised? (m : Method) (s : Node × Machine String Value Memory) :
    Option (Raise Value Exception) :=
  (m.instruction? s.1).bind fun i =>
    i.raise? v.semantics v.hazards ((Layout.own v.receiver).frame s.2.cells) s.2.memory

def Calm (m : Method) (steps : Nat) : Prop := ∀ k < steps, v.raised? m (v.stage m k) = none

end Scenario

namespace Method

def RaisesAt (m : Method) (v : Scenario Value Memory Exception) (n : Node)
    (actions : List (Action Value)) (exception : Exception) : Prop :=
  ∃ steps r, v.Calm m steps ∧ (v.stage m steps).1 = n ∧ v.raised? m (v.stage m steps) = some r ∧
    (v.stage m steps).2.actions ++ r.actions = actions ∧ r.exception = exception

variable {m m₀ : Method} {before after : Node → String → Prop} {n d : Node}
  {v : Scenario Value Memory Exception} {s s' : Node × Machine String Value Memory}
  {actions : List (Action Value)} {exception : Exception}

theorem actions_prefix_advance (m : Method) (sem : Semantics Value Memory) (receiver : Value)
    (s : Node × Machine String Value Memory) :
    s.2.actions <+: (m.advance sem receiver s).2.actions := by
  cases hi : m.instruction? s.1 with
  | none =>
    rw [advance_of_no_instruction hi]
  | some i =>
    rw [advance_of_instruction hi]
    exact List.prefix_append _ _

theorem stage_succ (v : Scenario Value Memory Exception) (m : Method) (steps : Nat) :
    v.stage m (steps + 1) = m.advance v.semantics v.receiver (v.stage m steps) :=
  m.run_succ v.semantics v.receiver v.store v.memory steps

theorem calm_succ {k : Nat} (hc : v.Calm m k) (h : v.raised? m (v.stage m k) = none) :
    v.Calm m (k + 1) := by
  intro j hj
  rcases Nat.lt_succ_iff_lt_or_eq.1 hj with hj | rfl
  · exact hc j hj
  · exact h

theorem RaisesAt.unique {k : Node} {actions' : List (Action Value)} {exception' : Exception}
    (h : m.RaisesAt v n actions exception) (h' : m.RaisesAt v k actions' exception') :
    n = k ∧ actions = actions' ∧ exception = exception' := by
  obtain ⟨steps, r, hcalm, rfl, hr, rfl, rfl⟩ := h
  obtain ⟨steps', r', hcalm', rfl, hr', rfl, rfl⟩ := h'
  obtain hlt | rfl | hlt := Nat.lt_trichotomy steps steps'
  · rw [hcalm' steps hlt] at hr
    cases hr
  · obtain rfl : r = r' := Option.some.inj (hr.symm.trans hr')
    exact ⟨rfl, rfl, rfl⟩
  · rw [hcalm steps' hlt] at hr'
    cases hr'

theorem Matches.raised?_eq (h : m.Matches d before s s') (hc : m.Covers before after)
    (hs : s.1 ≠ d) : v.raised? (m.remove d) s' = v.raised? m s := by
  unfold Scenario.raised?
  rw [h.instruction?_eq hs, h.memory_eq]
  cases hi : m.instruction? s.1 with
  | none => rfl
  | some i =>
    have hself : ((Layout.own v.receiver).frame s'.2.cells).self =
        ((Layout.own v.receiver).frame s.2.cells).self := rfl
    rw [Option.bind_some, Option.bind_some]
    refine Instruction.raise?_congr hself fun x hx => ?_
    exact h.agree x (hc.reads s.1 x h.reachable ⟨i, hi, hx⟩)

theorem IsDeadStore.raises_silently (hd : m.IsDeadStore after d) (hs : s.1 = d)
    {r : Raise Value Exception} (h : v.raised? m s = some r) : r.actions = [] := by
  obtain ⟨x, ty, e, hi, -, hcall, -⟩ := hd
  unfold Scenario.raised? at h
  rw [hs, hi] at h
  exact Instruction.evaluateRaise?_silent hcall h

theorem exists_calm_remove (hm : m.Linked) (hc : m.Covers before after)
    (hd : m.IsDeadStore after d) {steps : Nat} (hcalm : v.Calm m steps) :
    ∃ steps', m.Matches d before (v.stage m steps) (v.stage (m.remove d) steps') ∧
      v.Calm (m.remove d) steps' := by
  induction steps with
  | zero => exact ⟨0, matches_start hm d before _, nofun⟩
  | succ steps ih =>
    obtain ⟨steps', h, hcalm'⟩ := ih fun k hk => hcalm k (Nat.lt_succ_of_lt hk)
    have hnone := hcalm steps (Nat.lt_succ_self steps)
    rw [stage_succ]
    by_cases hs : (v.stage m steps).1 = d
    · exact ⟨steps', h.skip hm hc hd hs, hcalm'⟩
    · refine ⟨steps' + 1, ?_, calm_succ hcalm' ((h.raised?_eq hc hs).trans hnone)⟩
      rw [stage_succ]
      exact h.step hm hc hd hs

theorem RaisesAt.remove (h : m.RaisesAt v n actions exception) (hm : m.Linked)
    (hc : m.Covers before after) (hd : m.IsDeadStore after d) (hn : n ≠ d) :
    (m.remove d).RaisesAt v n actions exception := by
  obtain ⟨steps, r, hcalm, hnode, hr, ha, he⟩ := h
  obtain ⟨steps', h, hcalm'⟩ := exists_calm_remove hm hc hd hcalm
  have hs : (v.stage m steps).1 ≠ d := hnode ▸ hn
  refine ⟨steps', r, hcalm', ?_, (h.raised?_eq hc hs).trans hr, ?_, he⟩
  · rw [h.node_eq, past_of_ne hs, hnode]
  · rw [h.actions_eq, ha]

def Explained (m : Method) (v : Scenario Value Memory Exception) (d : Node)
    (before : Node → String → Prop) (s' : Node × Machine String Value Memory) : Prop :=
  (∃ steps, v.Calm m steps ∧ m.Matches d before (v.stage m steps) s' ∧ (v.stage m steps).1 ≠ d) ∨
    ∃ earlier other, earlier <+: s'.2.actions ∧ m.RaisesAt v d earlier other

theorem Matches.explained {steps : Nat} (h : m.Matches d before (v.stage m steps) s')
    (hcalm : v.Calm m steps) (hm : m.Linked) (hc : m.Covers before after)
    (hd : m.IsDeadStore after d) : m.Explained v d before s' := by
  by_cases hs : (v.stage m steps).1 = d
  · cases hr : v.raised? m (v.stage m steps) with
    | none =>
      refine .inl ⟨steps + 1, calm_succ hcalm hr, ?_⟩
      rw [stage_succ]
      exact ⟨h.skip hm hc hd hs, hd.advance_ne hm hs⟩
    | some r =>
      refine .inr ⟨s'.2.actions, r.exception, List.prefix_refl _, steps, r, hcalm, hs, hr, ?_, rfl⟩
      rw [hd.raises_silently hs hr, List.append_nil, h.actions_eq]
  · exact .inl ⟨steps, hcalm, h, hs⟩

theorem explained_of_calm_remove (hm : m.Linked) (hc : m.Covers before after)
    (hd : m.IsDeadStore after d) {steps' : Nat} (hcalm : v.Calm (m.remove d) steps') :
    m.Explained v d before (v.stage (m.remove d) steps') := by
  induction steps' with
  | zero =>
    have hzero : m.Matches d before (v.stage m 0) (v.stage (m.remove d) 0) :=
      matches_start hm d before _
    exact hzero.explained nofun hm hc hd
  | succ steps' ih =>
    have hnone := hcalm steps' (Nat.lt_succ_self steps')
    rw [stage_succ]
    rcases ih fun k hk => hcalm k (Nat.lt_succ_of_lt hk) with
      ⟨steps, hcalm, h, hs⟩ | ⟨earlier, other, hprefix, hraise⟩
    · have hcalm := calm_succ hcalm ((h.raised?_eq hc hs).symm.trans hnone)
      have hstep : m.Matches d before (v.stage m (steps + 1))
          ((m.remove d).advance v.semantics v.receiver (v.stage (m.remove d) steps')) := by
        rw [stage_succ]
        exact h.step hm hc hd hs
      exact hstep.explained hcalm hm hc hd
    · exact .inr ⟨earlier, other, hprefix.trans (actions_prefix_advance _ _ _ _), hraise⟩

theorem RaisesAt.of_remove (h : (m.remove d).RaisesAt v n actions exception) (hm : m.Linked)
    (hc : m.Covers before after) (hd : m.IsDeadStore after d) :
    m.RaisesAt v n actions exception ∨
      ∃ earlier other, earlier <+: actions ∧ m.RaisesAt v d earlier other := by
  obtain ⟨steps', r, hcalm', hnode, hr, ha, he⟩ := h
  rcases explained_of_calm_remove hm hc hd hcalm' with
    ⟨steps, hcalm, h, hs⟩ | ⟨earlier, other, hprefix, hraise⟩
  · refine .inl ⟨steps, r, hcalm, ?_, (h.raised?_eq hc hs).symm.trans hr, ?_, he⟩
    · rw [← past_of_ne hs, ← h.node_eq, hnode]
    · rw [← h.actions_eq, ha]
  · exact .inr ⟨earlier, other, hprefix.trans (ha ▸ List.prefix_append _ _), hraise⟩

structure KeepsRaises (m₀ m : Method) (v : Scenario Value Memory Exception) : Prop where
  linked : m.Linked
  expressions : m.AssignsExpressions
  instruction_eq : ∀ n i, m.instruction? n = some i → m₀.instruction? n = some i
  kept : ∀ n ∈ m.body, ∀ actions exception, m₀.RaisesAt v n actions exception →
    m.RaisesAt v n actions exception
  raised : ∀ n actions exception, m.RaisesAt v n actions exception →
    m₀.RaisesAt v n actions exception ∨ ∃ k x ty e earlier other,
      m₀.instruction? k = some (.assign (.var x ty) e) ∧ k ∉ m.body ∧ earlier <+: actions ∧
        m₀.RaisesAt v k earlier other

theorem KeepsRaises.remove (h : KeepsRaises m₀ m v) (hc : m.Covers before after)
    (hd : m.IsDeadStore after d) : KeepsRaises m₀ (m.remove d) v := by
  refine ⟨h.linked.remove hd.mem_body (hd.fallsThrough h.linked), h.expressions.remove d,
    ?_, ?_, ?_⟩
  · exact fun n i hi => h.instruction_eq n i (instruction?_remove.1 hi).1
  · intro n hn actions exception hraise
    obtain ⟨hb, hnd⟩ := mem_body_remove.1 hn
    exact (h.kept n hb actions exception hraise).remove h.linked hc hd hnd
  · intro n actions exception hraise
    have hgone {k : Node} (hk : k ∉ m.body) : k ∉ (m.remove d).body :=
      fun hb => hk (mem_body_remove.1 hb).1
    have hremoved : d ∉ (m.remove d).body := fun hb => (mem_body_remove.1 hb).2 rfl
    obtain ⟨x, ty, e, hi, -⟩ := id hd
    rcases hraise.of_remove h.linked hc hd with hraise | ⟨earlier, other, hprefix, hraise⟩
    · refine (h.raised n actions exception hraise).imp_right ?_
      rintro ⟨k, x, ty, e, earlier, other, hk, hb, hrest⟩
      exact ⟨k, x, ty, e, earlier, other, hk, hgone hb, hrest⟩
    -- Before the store that is removed now, another that went before it may have raised its own.
    · refine .inr ?_
      rcases h.raised d earlier other hraise with
        hraise | ⟨k, x, ty, e, earliest, first, hk, hb, hp, hraise⟩
      · exact ⟨d, x, ty, e, earlier, other, h.instruction_eq d _ hi, hremoved, hprefix, hraise⟩
      · exact ⟨k, x, ty, e, earliest, first, hk, hgone hb, hp.trans hprefix, hraise⟩

theorem KeepsRaises.renumber (h : KeepsRaises m₀ m v) : KeepsRaises m₀ m.renumber v :=
  ⟨h.linked.renumber, h.expressions, h.instruction_eq, h.kept, h.raised⟩

theorem KeepsRaises.optimize (h : KeepsRaises m₀ m v) (passes : List Pass) :
    KeepsRaises m₀ (Pipeline.optimize passes m).method v := by
  have hkept : KeptByRemoval fun m => KeepsRaises m₀ m v :=
    ⟨fun _ => linked, fun _ => expressions, fun _ _ _ _ => KeepsRaises.remove⟩
  exact Pipeline.optimize_induction (P := fun m => KeepsRaises m₀ m v)
    (fun m h => hkept.removeDeadStores h) (fun m h => h.renumber) passes h

theorem kept_nodes_raise {signature : Signature} {entries : List Entry}
    (hbuild : build signature entries = .ok m)
    (hassign : ∀ place e, .instruction (.assign place e) ∈ entries → e.IsExpression)
    (pipeline : Pipeline) (v : Scenario Value Memory Exception) :
    let m' := (pipeline.run m).method
    (∀ n ∈ m'.body, ∀ actions exception, m.RaisesAt v n actions exception →
      m'.RaisesAt v n actions exception) ∧
    ∀ n actions exception, m'.RaisesAt v n actions exception →
      m.RaisesAt v n actions exception ∨ ∃ k x ty e earlier other,
        m.instruction? k = some (.assign (.var x ty) e) ∧ k ∉ m'.body ∧ earlier <+: actions ∧
          m.RaisesAt v k earlier other := by
  have hstart : KeepsRaises m m v :=
    ⟨.of_build hbuild, fun n place e hi => hassign place e (entry_of_instruction hbuild hi),
      fun _ _ => id, fun _ _ _ _ => id, fun _ _ _ => .inl⟩
  have h := hstart.optimize pipeline.passes
  obtain ⟨table, hrun⟩ := pipeline.run_retable m
  rw [hrun]
  exact ⟨h.kept, h.raised⟩

def quotientEntries : List Entry :=
  [.instruction (.assign (.var "w" .int) (.single (.var "n" .int))),
    .instruction (.call ⟨.static "Log" "write", [.var "n" .int], .void⟩),
    .instruction (.assign (.var "q" .int) (.binary .div (.literal 10 .int) (.var "n" .int))),
    .instruction (.ret (some (.var "q" .int)))]

def quotientSignature : Signature :=
  { name := "quotient", isStatic := true, parameters := [⟨"n", .int⟩], result := .int }

def quotient : Method :=
  { quotientSignature with
    code := (codeOf quotientEntries).toArray
    body := [⟨2⟩, ⟨3⟩, ⟨4⟩, ⟨5⟩]
    table := { entries := [("n", ⟨.int, some 0⟩), ("w", ⟨.int, some 1⟩), ("q", ⟨.int, some 2⟩)] }
    flow := ⟨#[⟨[⟨2⟩], []⟩, ⟨[], [⟨5⟩]⟩, ⟨[⟨3⟩], [⟨0⟩]⟩, ⟨[⟨4⟩], [⟨2⟩]⟩, ⟨[⟨5⟩], [⟨3⟩]⟩,
      ⟨[⟨1⟩], [⟨4⟩]⟩]⟩ }

def withZeros : Scenario Int Unit String :=
  { semantics := .integers, hazards := .divisions, receiver := 0, store := fun _ => 0,
    memory := () }

theorem kept_nodes_raise_quotient :
    let m' := (Pipeline.run { passes := [.deadStoreElimination] } quotient).method
    build quotientSignature quotientEntries = .ok quotient ∧ m'.body = [⟨3⟩, ⟨4⟩, ⟨5⟩] ∧
      m'.RaisesAt withZeros ⟨4⟩ [.call ⟨.static "Log" "write", [.var "n" .int], .void⟩ [0]]
        "/ by zero" := by
  have hbuild : build quotientSignature quotientEntries = .ok quotient := by decide +kernel
  have hassign : ∀ place e, .instruction (.assign place e) ∈ quotientEntries → e.IsExpression := by
    intro place e h
    simp only [quotientEntries, List.mem_cons, reduceCtorEq, Entry.instruction.injEq,
      Instruction.assign.injEq, List.not_mem_nil, or_false, false_or] at h
    rcases h with ⟨-, rfl⟩ | ⟨-, rfl⟩ <;> exact trivial
  have hbody : (Pipeline.run { passes := [.deadStoreElimination] } quotient).method.body =
      [⟨3⟩, ⟨4⟩, ⟨5⟩] := by decide +kernel
  have hraise : quotient.RaisesAt withZeros ⟨4⟩
      [.call ⟨.static "Log" "write", [.var "n" .int], .void⟩ [0]] "/ by zero" := by
    refine ⟨2, { exception := "/ by zero" }, ?_, ?_, ?_, ?_, rfl⟩
    · unfold Scenario.Calm
      decide +kernel
    · decide +kernel
    · decide +kernel
    · decide +kernel
  have hmem : (⟨4⟩ : Node) ∈
      (Pipeline.run { passes := [.deadStoreElimination] } quotient).method.body := by
    rw [hbody]
    decide
  exact ⟨hbuild, hbody, (kept_nodes_raise hbuild hassign { passes := [.deadStoreElimination] }
    withZeros).1 _ hmem _ _ hraise⟩

def lostEntries : List Entry :=
  [.instruction (.assign (.var "x" .int) (.binary .div (.literal 1 .int) (.literal 0 .int))),
    .instruction (.ret (some (.literal 0 .int)))]

def lostSignature : Signature := { name := "lost", isStatic := true, result := .int }

def lost : Method :=
  { lostSignature with
    code := (codeOf lostEntries).toArray
    body := [⟨2⟩, ⟨3⟩]
    table := { entries := [("x", ⟨.int, some 0⟩)] }
    flow := ⟨#[⟨[⟨2⟩], []⟩, ⟨[], [⟨3⟩]⟩, ⟨[⟨3⟩], [⟨0⟩]⟩, ⟨[⟨1⟩], [⟨2⟩]⟩]⟩ }

theorem exception_lost :
    let m' := (Pipeline.run { passes := [.deadStoreElimination] } lost).method
    build lostSignature lostEntries = .ok lost ∧ lost.RaisesAt withZeros ⟨2⟩ [] "/ by zero" ∧
      (∀ n actions exception, ¬ m'.RaisesAt withZeros n actions exception) ∧
      m'.Ends .integers 0 (fun _ => 0) () [.ret (some 0)] () := by
  have hraise : lost.RaisesAt withZeros ⟨2⟩ [] "/ by zero" :=
    ⟨0, { exception := "/ by zero" }, nofun, by decide +kernel, by decide +kernel,
      by decide +kernel, rfl⟩
  have hleft : (Pipeline.run { passes := [.deadStoreElimination] } lost).method.instructions =
      [(⟨3⟩, .ret (some (.literal 0 .int)))] := by decide +kernel
  refine ⟨by decide +kernel, hraise, ?_, 1, by decide +kernel, by decide +kernel, rfl⟩
  rintro n actions exception ⟨steps, r, -, -, hr, -⟩
  obtain ⟨i, hi, hr⟩ := Option.bind_eq_some_iff.1 hr
  rw [← mem_instructions, hleft, List.mem_singleton] at hi
  obtain ⟨-, rfl⟩ := Prod.mk.inj hi
  cases hr

end Method

end ClassLowering
