import ClassLowering.Proofs.Execution.Runs
import ClassLowering.Proofs.Liveness.Paths
import ClassLowering.Proofs.Rounds

namespace ClassLowering

variable {Value Memory : Type}

namespace Method

structure Covers (m : Method) (before after : Node → String → Prop) : Prop where
  reads : ∀ a v, m.flow.Reachable a → m.ReadsAt a v → before a v
  through : ∀ a v, m.flow.Reachable a → a ∈ m.body → after a v → ¬ m.AssignsAt a v → before a v
  edge : ∀ a b v, m.flow.Reachable a → a ∈ m.body → m.flow.Edge a b → before b v → after a v

def Unneeded (m : Method) (after : Node → String → Prop) (n : Node) : Prop :=
  ∃ x ty e, m.instruction? n = some (.assign (.var x ty) e) ∧ ¬ after n x

def IsDeadStore (m : Method) (after : Node → String → Prop) (n : Node) : Prop :=
  ∃ x ty e, m.instruction? n = some (.assign (.var x ty) e) ∧ e.IsExpression ∧
    (∀ c, e ≠ .call c) ∧ ¬ after n x

variable {m : Method} {before after : Node → String → Prop} {n : Node}

theorem covers_compute (hm : m.WellFormed) :
    m.Covers (Liveness.compute m).LiveIn (Liveness.compute m).LiveOut := by
  refine ⟨?_, ?_, ?_⟩
  · intro a v ha hr
    obtain ⟨i, hi, -⟩ := id hr
    have ho := (Liveness.mem_order hm).2 ⟨ha, (instruction?_eq_some.1 hi).1⟩
    exact (Liveness.liveIn_iff hm ho v).2 (.inl hr)
  · intro a v ha hb hout hn
    exact (Liveness.liveIn_iff hm ((Liveness.mem_order hm).2 ⟨ha, hb⟩) v).2 (.inr ⟨hout, hn⟩)
  · intro a b v ha hb he hin
    exact (Liveness.liveOut_iff hm ((Liveness.mem_order hm).2 ⟨ha, hb⟩) v).2 ⟨b, he, hin⟩

theorem IsDeadStore.mem_body (hd : m.IsDeadStore after n) : n ∈ m.body := by
  obtain ⟨x, ty, e, hi, -⟩ := hd
  exact (instruction?_eq_some.1 hi).1

theorem IsDeadStore.fallsThrough (hd : m.IsDeadStore after n) (hm : m.Linked) :
    m.FallsThrough n := by
  obtain ⟨x, ty, e, hi, -⟩ := hd
  exact hm.fallsThrough_of_assign hi

theorem IsDeadStore.remove (hd : m.IsDeadStore after n) {k : Node} (hk : n ≠ k) :
    (m.remove k).IsDeadStore after n := by
  obtain ⟨x, ty, e, hi, he⟩ := hd
  exact ⟨x, ty, e, instruction?_remove.2 ⟨hi, hk⟩, he⟩

theorem IsDeadStore.unneeded (hd : m.IsDeadStore after n) : m.Unneeded after n := by
  obtain ⟨x, ty, e, hi, -, -, hx⟩ := hd
  exact ⟨x, ty, e, hi, hx⟩

theorem Unneeded.remove (hd : m.Unneeded after n) {k : Node} (hk : n ≠ k) :
    (m.remove k).Unneeded after n := by
  obtain ⟨x, ty, e, hi, hx⟩ := hd
  exact ⟨x, ty, e, instruction?_remove.2 ⟨hi, hk⟩, hx⟩

theorem Unneeded.before_of_after (hd : m.Unneeded after n) (hc : m.Covers before after)
    (hn : m.flow.Reachable n) {v : String} (hv : after n v) : before n v := by
  obtain ⟨x, ty, e, hi, hx⟩ := hd
  refine hc.through n v hn (instruction?_eq_some.1 hi).1 hv ?_
  rintro ⟨j, hj, t, ht⟩
  rw [hi] at hj
  cases hj
  cases ht
  exact hx hv

theorem reachable_of_remove (hm : m.WellFormed) (hn : n ∈ m.body) {a : Node}
    (h : (m.remove n).flow.Reachable a) : m.flow.Reachable a := by
  induction h with
  | refl => exact .refl
  | tail _ he ih =>
    obtain ⟨-, -, he | ⟨h1, h2⟩⟩ := (edge_remove hm.mirrored hn _ _).1 he
    · exact ih.tail he
    · exact (ih.tail h1).tail h2

theorem reachable_of_removeAll {nodes : List Node} (hm : m.WellFormed) {a : Node}
    (h : (nodes.foldl Method.remove m).flow.Reachable a) : m.flow.Reachable a := by
  induction nodes generalizing m with
  | nil => exact h
  | cons n rest ih =>
    have hrest := ih (hm.remove n) h
    by_cases hn : n ∈ m.body
    · exact reachable_of_remove hm hn hrest
    · rwa [remove_of_not_mem hn] at hrest

theorem Covers.remove (hc : m.Covers before after) (hm : m.WellFormed)
    (hd : m.Unneeded after n) : (m.remove n).Covers before after := by
  obtain ⟨x, ty, e, hi, -⟩ := id hd
  have hn := (instruction?_eq_some.1 hi).1
  have hreach {a : Node} := reachable_of_remove hm hn (a := a)
  refine ⟨?_, ?_, ?_⟩
  · rintro a v ha ⟨i, hi, hr⟩
    exact hc.reads a v (hreach ha) ⟨i, (instruction?_remove.1 hi).1, hr⟩
  · intro a v ha hb hout hna
    obtain ⟨hb, han⟩ := mem_body_remove.1 hb
    refine hc.through a v (hreach ha) hb hout ?_
    rintro ⟨i, hi, hassign⟩
    exact hna ⟨i, instruction?_remove.2 ⟨hi, han⟩, hassign⟩
  · intro a b v ha hb he hin
    have ha := hreach ha
    obtain ⟨hb, -⟩ := mem_body_remove.1 hb
    obtain ⟨-, -, he | ⟨h1, h2⟩⟩ := (edge_remove hm.mirrored hn a b).1 he
    · exact hc.edge a b v ha hb he hin
    · have hrn := ha.tail h1
      have hafter := hc.edge n b v hrn hn h2 hin
      exact hc.edge a n v ha hb h1 (hd.before_of_after hc hrn hafter)

structure Matches (m : Method) (n : Node) (before : Node → String → Prop)
    (s s' : Node × Machine String Value Memory) : Prop where
  reachable : m.flow.Reachable s.1
  inside : s.1 = .exit ∨ s.1 ∈ m.body
  node_eq : s'.1 = m.past n s.1
  memory_eq : s'.2.memory = s.2.memory
  actions_eq : s'.2.actions = s.2.actions
  agree : ∀ v, before s.1 v → s'.2.cells v = s.2.cells v

variable {sem : Semantics Value Memory} {receiver : Value}
  {s s' : Node × Machine String Value Memory}

theorem evaluate_of_expression {e : Instruction} (he : e.IsExpression) (hcall : ∀ c, e ≠ .call c)
    (frame : Frame Value) (memory : Memory) :
    (e.evaluate sem frame memory).memory = memory ∧
      (e.evaluate sem frame memory).actions = [] := by
  cases e with
  | call c => exact absurd rfl (hcall c)
  | single x => exact ⟨rfl, rfl⟩
  | not x => exact ⟨rfl, rfl⟩
  | binary op left right => exact ⟨rfl, rfl⟩
  | getField object field => exact ⟨rfl, rfl⟩
  | _ => exact absurd he id

theorem Matches.skip (h : m.Matches n before s s') (hm : m.Linked) (hc : m.Covers before after)
    (hd : m.IsDeadStore after n) (hs : s.1 = n) :
    m.Matches n before (m.advance sem receiver s) s' := by
  have hn := hd.mem_body
  have hf := hd.fallsThrough hm
  have hneed {v : String} (hv : before (m.following n) v) : after n v :=
    hc.edge n _ v (hs ▸ h.reachable) hn ((hf _).2 rfl) hv
  have hkeep := hd
  obtain ⟨x, ty, e, hi, he, hcall, hx⟩ := hd
  obtain ⟨hmem, hact⟩ := evaluate_of_expression he hcall
    ((Layout.own receiver).frame s.2.cells) s.2.memory
  rw [advance_of_instruction (hs ▸ hi)]
  refine ⟨?_, ?_, ?_, ?_, ?_, ?_⟩
  · exact (hs ▸ h.reachable).tail ((hf _).2 (by rw [hs]; rfl))
  · rw [hs]
    exact m.following_mem n
  · rw [h.node_eq, hs, past_self]
    exact (past_of_ne (hm.following_ne hn)).symm
  · rw [h.memory_eq]
    exact hmem.symm
  · rw [h.actions_eq]
    change s.2.actions = s.2.actions ++ _
    rw [Instruction.execute, hact, List.append_nil]
  · intro v hv
    rw [hs] at hv
    have hafter := hneed hv
    have hvx : v ≠ x := fun e => hx (e ▸ hafter)
    have hbefore := hkeep.unneeded.before_of_after hc (hs ▸ h.reachable) hafter
    rw [h.agree v (hs ▸ hbefore)]
    have hwrite : (Instruction.execute sem ((Layout.own receiver).frame s.2.cells) s.2.memory
        (.assign (.var x ty) e)).write = some (x, _) := rfl
    rw [Machine.cells_apply_of_some hwrite]
    exact (if_neg hvx).symm

theorem FallsThrough.destination_remove (hf : m.FallsThrough n) (hm : m.WellFormed)
    (hn : n ∈ m.body) {a : Node} (ha : a ≠ n) (c : Control Value) :
    (m.remove n).destination a c = m.past n (m.destination a c) := by
  have hexit : m.past n .exit = .exit := past_of_ne (Method.ne_exit_of_mem hn).symm
  cases c with
  | next => exact following_remove hm hn ha
  | jump label =>
    rw [destination, destination, hf.target?_remove hm hn]
    cases m.target? label with
    | none => exact hexit.symm
    | some t => rfl
  | ret value => exact hexit.symm

theorem cells_apply_congr {own own' : Machine String Value Memory} {e : Effect Value Memory}
    {v : String} (h : (∀ y, e.write ≠ some (v, y)) → own'.cells v = own.cells v) :
    (own'.apply (.own receiver) e).cells v = (own.apply (.own receiver) e).cells v := by
  cases hwrite : e.write with
  | none =>
    rw [Machine.cells_apply_of_none hwrite, Machine.cells_apply_of_none hwrite]
    exact h fun y => by simp [hwrite]
  | some w =>
    obtain ⟨x, y⟩ := w
    rw [Machine.cells_apply_of_some hwrite, Machine.cells_apply_of_some hwrite]
    split
    · rfl
    · next hvx =>
      refine h ?_
      intro z hz
      rw [hwrite] at hz
      cases hz
      exact hvx rfl

theorem Matches.execute_eq (h : m.Matches n before s s') (hc : m.Covers before after)
    {i : Instruction} (hi : m.instruction? s.1 = some i) :
    i.execute sem ((Layout.own receiver).frame s'.2.cells) s'.2.memory =
      i.execute sem ((Layout.own receiver).frame s.2.cells) s.2.memory := by
  have hself : ((Layout.own receiver).frame s'.2.cells).self =
      ((Layout.own receiver).frame s.2.cells).self := rfl
  rw [h.memory_eq]
  refine Instruction.execute_congr hself ?_
  intro v hv
  exact h.agree v (hc.reads s.1 v h.reachable ⟨i, hi, hv⟩)

theorem Matches.instruction?_eq (h : m.Matches n before s s') (hs : s.1 ≠ n) :
    (m.remove n).instruction? s'.1 = m.instruction? s.1 := by
  ext i
  rw [instruction?_remove, h.node_eq, past_of_ne hs]
  exact and_iff_left hs

theorem Matches.stop (h : m.Matches n before s s') (hn : n ∈ m.body)
    (hs : s.1 = .exit) :
    m.Matches n before (m.advance sem receiver s) ((m.remove n).advance sem receiver s') := by
  have hnone : m.instruction? s.1 = none := by
    rw [Option.eq_none_iff_forall_ne_some]
    intro i hi
    exact Method.ne_exit_of_mem (instruction?_eq_some.1 hi).1 hs
  have hnone' : (m.remove n).instruction? s'.1 = none :=
    (h.instruction?_eq (hs ▸ (Method.ne_exit_of_mem hn).symm)).trans hnone
  rw [advance_of_no_instruction hnone, advance_of_no_instruction hnone']
  exact h

theorem Matches.step (h : m.Matches n before s s') (hm : m.Linked) (hc : m.Covers before after)
    (hd : m.IsDeadStore after n) (hs : s.1 ≠ n) :
    m.Matches n before (m.advance sem receiver s) ((m.remove n).advance sem receiver s') := by
  have hn := hd.mem_body
  have hw := hm.toWellFormed
  rcases h.inside with hx | hb
  · exact h.stop hn hx
  · have hnode : s'.1 = s.1 := h.node_eq.trans (past_of_ne hs)
    obtain ⟨i, hi⟩ := Method.exists_instruction? hb
    have hi' : (m.remove n).instruction? s'.1 = some i := (h.instruction?_eq hs).trans hi
    rw [advance_of_instruction hi, advance_of_instruction hi', h.execute_eq hc hi, hnode]
    generalize he : i.execute sem ((Layout.own receiver).frame s.2.cells) s.2.memory = e
    have hleads : m.Leads i (m.following s.1) (m.destination s.1 e.control) :=
      he ▸ leads_destination hw.jumps_declared hi _ _
    have hedge : m.flow.Edge s.1 (m.destination s.1 e.control) :=
      (hm.edge_iff _ _).2 (.inr ⟨i, mem_instructions.2 hi, hleads⟩)
    refine ⟨h.reachable.tail hedge, hw.edge_target _ _ hedge, ?_, rfl, ?_, ?_⟩
    · exact (hd.fallsThrough hm).destination_remove hw hn hs _
    · change s'.2.actions ++ e.actions = s.2.actions ++ e.actions
      rw [h.actions_eq]
    · intro v hv
      have hafter := hc.edge _ _ v h.reachable hb hedge hv
      refine cells_apply_congr fun hno => ?_
      rw [← he] at hno
      exact h.agree v (hc.through _ v h.reachable hb hafter (not_assignsAt hi hno))

theorem matches_start (hm : m.Linked) (n : Node) (before : Node → String → Prop)
    (machine : Machine String Value Memory) :
    m.Matches n before (m.start, machine) ((m.remove n).start, machine) := by
  have hedge : m.flow.Edge .entry m.start := (hm.edge_iff _ _).2 (.inl ⟨rfl, rfl⟩)
  exact ⟨.single hedge, hm.edge_target _ _ hedge, start_remove hm.toWellFormed n, rfl, rfl,
    fun v _ => rfl⟩

theorem follows_remove (hm : m.Linked) (hc : m.Covers before after)
    (hd : m.IsDeadStore after n) : m.Follows (m.remove n) sem receiver := by
  intro store memory steps
  have hmatch : ∃ steps', m.Matches n before (m.run sem receiver store memory steps)
      ((m.remove n).run sem receiver store memory steps') := by
    induction steps with
    | zero => exact ⟨0, matches_start hm n before _⟩
    | succ steps ih =>
      obtain ⟨steps', h⟩ := ih
      rw [run_succ]
      -- The run without the store waits while the other is at it.
      by_cases hs : (m.run sem receiver store memory steps).1 = n
      · exact ⟨steps', h.skip hm hc hd hs⟩
      · refine ⟨steps' + 1, ?_⟩
        rw [run_succ]
        exact h.step hm hc hd hs
  obtain ⟨steps', h⟩ := hmatch
  refine ⟨steps', h.actions_eq, h.memory_eq, fun hx => ?_⟩
  rw [h.node_eq, hx]
  exact past_of_ne (Method.ne_exit_of_mem hd.mem_body).symm

theorem IsDeadStore.advance_ne (hd : m.IsDeadStore after n) (hm : m.Linked) (hs : s.1 = n) :
    (m.advance sem receiver s).1 ≠ n := by
  obtain ⟨x, ty, e, hi, -⟩ := id hd
  rw [advance_of_instruction (hs ▸ hi), hs]
  exact hm.following_ne hd.mem_body

theorem Matches.exists_past {store : String → Value} {memory : Memory} {steps : Nat}
    (h : m.Matches n before (m.run sem receiver store memory steps) s') (hm : m.Linked)
    (hc : m.Covers before after) (hd : m.IsDeadStore after n) :
    ∃ steps, m.Matches n before (m.run sem receiver store memory steps) s' ∧
      (m.run sem receiver store memory steps).1 ≠ n := by
  by_cases hs : (m.run sem receiver store memory steps).1 = n
  · refine ⟨steps + 1, ?_⟩
    rw [run_succ]
    exact ⟨h.skip hm hc hd hs, hd.advance_ne hm hs⟩
  · exact ⟨steps, h, hs⟩

theorem remove_follows (hm : m.Linked) (hc : m.Covers before after)
    (hd : m.IsDeadStore after n) : (m.remove n).Follows m sem receiver := by
  intro store memory steps'
  -- The induction is on the run without the store, and at each stage the run with it is past it.
  have hmatch : ∃ steps, m.Matches n before (m.run sem receiver store memory steps)
      ((m.remove n).run sem receiver store memory steps') ∧
      (m.run sem receiver store memory steps).1 ≠ n := by
    induction steps' with
    | zero =>
      have hzero : m.Matches n before (m.run sem receiver store memory 0)
          ((m.remove n).run sem receiver store memory 0) := matches_start hm n before _
      exact hzero.exists_past hm hc hd
    | succ steps' ih =>
      obtain ⟨steps, h, hs⟩ := ih
      have hstep : m.Matches n before (m.run sem receiver store memory (steps + 1))
          ((m.remove n).run sem receiver store memory (steps' + 1)) := by
        rw [run_succ, run_succ]
        exact h.step hm hc hd hs
      exact hstep.exists_past hm hc hd
  obtain ⟨steps, h, hs⟩ := hmatch
  refine ⟨steps, h.actions_eq.symm, h.memory_eq.symm, fun hx => ?_⟩
  rw [← hx, h.node_eq]
  exact (past_of_ne hs).symm

def AssignsExpressions (m : Method) : Prop :=
  ∀ n place e, m.instruction? n = some (.assign place e) → e.IsExpression

structure KeptByRemoval (P : Method → Prop) : Prop where
  linked : ∀ m, P m → m.Linked
  expressions : ∀ m, P m → m.AssignsExpressions
  remove : ∀ m before after n, P m → m.Covers before after → m.IsDeadStore after n →
    P (m.remove n)

theorem KeptByRemoval.removeAll {P : Method → Prop} (hP : KeptByRemoval P) {nodes : List Node}
    (hdead : ∀ n ∈ nodes, n ∉ m.body ∨ m.IsDeadStore after n) (hc : m.Covers before after)
    (h : P m) : P (nodes.foldl Method.remove m) := by
  induction nodes generalizing m with
  | nil => exact h
  | cons n rest ih =>
    obtain ⟨hn, hrest⟩ := List.forall_mem_cons.1 hdead
    rw [List.foldl_cons]
    rcases hn with hn | hd
    · rw [remove_of_not_mem hn]
      exact ih hrest hc h
    · -- The sets of the one liveness cover what each removal leaves as well.
      refine ih ?_ (hc.remove (hP.linked m h).toWellFormed hd.unneeded) (hP.remove m _ _ n h hc hd)
      intro k hk
      rw [mem_body_remove]
      by_cases hkn : k = n
      · exact .inl fun hb => hb.2 hkn
      · exact (hrest k hk).imp (fun hb hb' => hb hb'.1) fun hd => hd.remove hkn

theorem assign_of_dead {l : Liveness} {name : String} (hd : (n, name) ∈ m.deadStores l) :
    ∃ ty e, m.instruction? n = some (.assign (.var name ty) e) ∧ (∀ c, e ≠ .call c) ∧
      n ∈ l.order ∧ ¬ l.LiveOut n name := by
  obtain ⟨i, hi, hr, horder, -, ho⟩ := mem_deadStores.1 hd
  rw [mem_instructions] at hi
  have hout : ¬ l.LiveOut n name := by
    intro hv
    rw [Liveness.liveOutHas_iff.2 hv] at ho
    cases ho
  cases i with
  | assign place e =>
    cases place with
    | var x ty =>
      cases e with
      | call c => cases hr
      | _ =>
        cases hr
        exact ⟨ty, _, hi, nofun, horder, hout⟩
    | _ => cases hr
  | _ => cases hr

theorem unneeded_of_dead {l : Liveness} {name : String} (hd : (n, name) ∈ m.deadStores l) :
    m.Unneeded l.LiveOut n := by
  obtain ⟨ty, e, hi, -, -, hout⟩ := assign_of_dead hd
  exact ⟨name, ty, e, hi, hout⟩

theorem isDeadStore_of_mem (h : m.AssignsExpressions) {l : Liveness} {name : String}
    (hd : (n, name) ∈ m.deadStores l) : m.IsDeadStore l.LiveOut n := by
  obtain ⟨ty, e, hi, hcall, -, hout⟩ := assign_of_dead hd
  exact ⟨name, ty, e, hi, h n _ _ hi, hcall, hout⟩

theorem KeptByRemoval.removeDeadStores {P : Method → Prop} (hP : KeptByRemoval P) (h : P m) :
    P (Pass.removeDeadStores m).1 := by
  rw [Pipeline.removeDeadStores_method]
  refine hP.removeAll ?_ (covers_compute (hP.linked m h).toWellFormed) h
  intro n hn
  obtain ⟨⟨k, name⟩, hd, rfl⟩ := List.mem_map.1 hn
  exact .inr (isDeadStore_of_mem (hP.expressions m h) hd)

theorem AssignsExpressions.remove (h : m.AssignsExpressions) (n : Node) :
    (m.remove n).AssignsExpressions :=
  fun k place e hi => h k place e (instruction?_remove.1 hi).1

structure Equivalent (m₀ m : Method) (sem : Semantics Value Memory) (receiver : Value) : Prop where
  linked : m.Linked
  expressions : m.AssignsExpressions
  follows : m₀.Follows m sem receiver
  followed : m.Follows m₀ sem receiver

variable {m₀ : Method}

theorem Equivalent.remove (h : Equivalent m₀ m sem receiver) (hc : m.Covers before after)
    (hd : m.IsDeadStore after n) : Equivalent m₀ (m.remove n) sem receiver :=
  ⟨h.linked.remove hd.mem_body (hd.fallsThrough h.linked), h.expressions.remove n,
    h.follows.trans (follows_remove h.linked hc hd),
    (remove_follows h.linked hc hd).trans h.followed⟩

theorem Equivalent.removeDeadStores (h : Equivalent m₀ m sem receiver) :
    Equivalent m₀ (Pass.removeDeadStores m).1 sem receiver := by
  have hkept : KeptByRemoval fun m => Equivalent m₀ m sem receiver :=
    ⟨fun _ => linked, fun _ => expressions, fun _ _ _ _ => Equivalent.remove⟩
  exact hkept.removeDeadStores h

theorem Equivalent.renumber (h : Equivalent m₀ m sem receiver) :
    Equivalent m₀ m.renumber sem receiver :=
  ⟨h.linked.renumber, h.expressions, h.follows, h.followed⟩

theorem entry_of_instruction {signature : Signature} {entries : List Entry}
    (h : build signature entries = .ok m) {i : Instruction} (hi : m.instruction? n = some i) :
    .instruction i ∈ entries := by
  obtain ⟨g, -, rfl⟩ := build_eq_ok h
  obtain ⟨slot, -, hs⟩ := Option.bind_eq_some_iff.1 (instruction?_eq_some.1 hi).2
  have hmem : i ∈ codeOf entries := by
    have hget : (codeOf entries)[slot]? = some i := by simpa [renumber, draft, fromParts] using hs
    exact List.mem_of_getElem? hget
  obtain ⟨entry, hentry, he⟩ := List.mem_filterMap.1 hmem
  cases entry with
  | label name => cases he
  | instruction j =>
    cases he
    exact hentry

def idleEntries : List Entry :=
  [.label "again",
    .instruction (.assign (.var "z" .int) (.binary .mul (.var "n" .int) (.var "n" .int))),
    .instruction (.assign (.var "v" .int) (.single (.var "z" .int))),
    .instruction (.assign (.var "n" .int) (.binary .sub (.var "n" .int) (.literal 1 .int))),
    .instruction (.branch (.binary .lt (.literal 0 .int) (.var "n" .int)) "again"),
    .instruction (.ret (some (.var "n" .int)))]

def idle : Method :=
  { countdownSignature with
    code := (codeOf idleEntries).toArray
    body := [⟨2⟩, ⟨3⟩, ⟨4⟩, ⟨5⟩, ⟨6⟩]
    labels := [("again", ⟨2⟩)]
    table := { entries := [("this", ⟨.self, some 0⟩), ("n", ⟨.int, some 1⟩), ("z", ⟨.int, some 2⟩),
      ("v", ⟨.int, some 3⟩)] }
    flow := countdown.flow }

theorem elimination_preserves_runs {signature : Signature} {entries : List Entry}
    (hbuild : build signature entries = .ok m)
    (hassign : ∀ place e, .instruction (.assign place e) ∈ entries → e.IsExpression)
    (passes : List Pass) (sem : Semantics Value Memory) (receiver : Value)
    (store : String → Value) (memory : Memory) :
    let m' := (Pipeline.run { passes } m).method
    (∀ actions, m.Observes sem receiver store memory actions ↔
      m'.Observes sem receiver store memory actions) ∧
    ∀ actions final, m.Ends sem receiver store memory actions final ↔
      m'.Ends sem receiver store memory actions final := by
  have hstart : Equivalent m m sem receiver :=
    ⟨.of_build hbuild, fun n place e hi => hassign place e (entry_of_instruction hbuild hi),
      .refl m, .refl m⟩
  have h : Equivalent m (Pipeline.optimize passes m).method sem receiver :=
    Pipeline.optimize_induction (P := fun m' => Equivalent m m' sem receiver)
      (fun m' h => h.removeDeadStores) (fun m' h => h.renumber) passes hstart
  refine ⟨fun actions => ?_, fun actions final => ?_⟩
  · exact ⟨h.follows.observes, h.followed.observes⟩
  · exact ⟨h.follows.ends, h.followed.ends⟩

theorem elimination_preserves_idle :
    let m' := (Pipeline.run { passes := [.deadStoreElimination] } idle).method
    build countdownSignature idleEntries = .ok idle ∧ m'.body = [⟨4⟩, ⟨5⟩, ⟨6⟩] ∧
      m'.Ends .integers 0 (fun v => if v = "n" then 2 else 0) ()
        [.branch true, .branch false, .ret (some 0)] () := by
  have hbuild : build countdownSignature idleEntries = .ok idle := by decide +kernel
  have hassign : ∀ place e, .instruction (.assign place e) ∈ idleEntries → e.IsExpression := by
    intro place e h
    simp only [idleEntries, List.mem_cons, reduceCtorEq, Entry.instruction.injEq,
      Instruction.assign.injEq, List.not_mem_nil, or_false, false_or] at h
    rcases h with ⟨-, rfl⟩ | ⟨-, rfl⟩ | ⟨-, rfl⟩ <;> exact trivial
  have hends : idle.Ends .integers 0 (fun v => if v = "n" then 2 else 0) ()
      [.branch true, .branch false, .ret (some 0)] () :=
    ⟨9, by decide +kernel, by decide +kernel, rfl⟩
  exact ⟨hbuild, by decide +kernel, ((elimination_preserves_runs hbuild hassign
    [.deadStoreElimination] .integers 0 _ ()).2 _ _).1 hends⟩

end Method

end ClassLowering
