import Mathlib.Data.List.TakeWhile
import Mathlib.Logic.Function.Iterate
import ClassLowering.Proofs.Method.FallThrough
import ClassLowering.Proofs.Rounds

namespace ClassLowering

namespace Method

def survivor (m₀ m : Method) (t : Node) : Node :=
  ((m₀.body.dropWhile (· ≠ t)).find? m.contains).getD .exit

variable {m₀ m : Method} {n t : Node}

theorem survivor_eq_head (m₀ m : Method) (t : Node) :
    survivor m₀ m t = ((m₀.body.dropWhile (· ≠ t)).filter m.contains).head?.getD .exit := by
  rw [survivor, List.head?_filter]

theorem survivor_self (hm : m.WellFormed) (ht : t = .exit ∨ t ∈ m.body) : survivor m m t = t := by
  unfold survivor
  rcases ht with rfl | ht
  · have hall : ∀ x ∈ m.body, decide (x ≠ Node.exit) = true := fun x hx =>
      decide_eq_true (Method.ne_exit_of_mem hx)
    rw [List.dropWhile_eq_nil_iff.2 hall]
    rfl
  · obtain ⟨before, after, he⟩ := List.append_of_mem ht
    have hnodup := hm.body_nodup
    rw [he, List.nodup_append] at hnodup
    have hbefore : ∀ x ∈ before, decide (x ≠ t) = true := fun x hx =>
      decide_eq_true (hnodup.2.2 x hx t (by simp))
    have hdrop : m.body.dropWhile (· ≠ t) = t :: after := by
      rw [he, List.dropWhile_append_of_pos hbefore]
      simp
    have hmem : m.contains t = true := contains_iff.2 ht
    rw [hdrop, List.find?_cons_of_pos hmem]
    rfl

structure Rehomed (m₀ m : Method) : Prop where
  linked : m.Linked
  order : m₀.body.Nodup
  body_eq : m.body = m₀.body.filter m.contains
  target : ∀ label, m.target? label = (m₀.target? label).map (survivor m₀ m)

theorem Rehomed.refl (hm : m.Linked) : Rehomed m m := by
  have hself : m.body.filter m.contains = m.body :=
    List.filter_eq_self.2 fun x hx => contains_iff.2 hx
  refine ⟨hm, hm.body_nodup, hself.symm, fun label => ?_⟩
  cases ht : m.target? label with
  | none => rfl
  | some t =>
    rw [Option.map_some, survivor_self hm.toWellFormed (target?_mem hm.label_target ht)]

theorem Rehomed.survivor_remove (h : Rehomed m₀ m) (hn : n ∈ m.body) (t : Node) :
    survivor m₀ (m.remove n) t = m.past n (survivor m₀ m t) := by
  let later := (m₀.body.dropWhile (· ≠ t)).filter m.contains
  have hnodup : later.Nodup := (h.order.sublist (List.dropWhile_sublist _)).filter _
  have hlater : (m₀.body.dropWhile (· ≠ t)).filter (m.remove n).contains =
      later.filter (· ≠ n) := by
    rw [List.filter_filter]
    refine List.filter_congr fun x _ => ?_
    rw [contains_remove, Bool.and_comm]
  rw [survivor_eq_head, survivor_eq_head, hlater, head_filter_ne n hnodup, past]
  split
  · next hhead =>
    -- What comes after `n` is the same in the whole body as from `t` on.
    have hmem : n ∈ later := by
      cases hl : later with
      | nil =>
        rw [hl] at hhead
        exact absurd hhead.symm (Method.ne_exit_of_mem hn)
      | cons x rest =>
        rw [hl] at hhead
        exact List.mem_cons.2 (.inl hhead.symm)
    have hsplit : m.body = (m₀.body.takeWhile (· ≠ t)).filter m.contains ++ later := by
      rw [← List.filter_append, List.takeWhile_append_dropWhile]
      exact h.body_eq
    have hbody := h.linked.body_nodup
    rw [hsplit, List.nodup_append] at hbody
    rw [following, hsplit, nextIn_append fun hx => hbody.2.2 n hx n hmem rfl]
  · rfl

theorem Rehomed.remove (h : Rehomed m₀ m) (hn : n ∈ m.body) (hf : m.FallsThrough n) :
    Rehomed m₀ (m.remove n) := by
  refine ⟨h.linked.remove hn hf, h.order, ?_, fun label => ?_⟩
  · rw [body_remove]
    conv_lhs => rw [h.body_eq]
    rw [List.filter_filter]
    refine List.filter_congr fun x _ => ?_
    rw [contains_remove, Bool.and_comm]
  · rw [hf.target?_remove h.linked.toWellFormed hn, h.target, Option.map_map]
    refine congrArg (fun f => (m₀.target? label).map f) (funext fun t => ?_)
    exact (h.survivor_remove hn t).symm

theorem Rehomed.removeAll {nodes : List Node}
    (hstores : ∀ n ∈ nodes, ∀ i, m.instruction? n = some i → ∃ place e, i = .assign place e)
    (h : Rehomed m₀ m) : Rehomed m₀ (nodes.foldl Method.remove m) := by
  induction nodes generalizing m with
  | nil => exact h
  | cons n rest ih =>
    obtain ⟨hn, hrest⟩ := List.forall_mem_cons.1 hstores
    rw [List.foldl_cons]
    refine ih (fun k hk i hi => hrest k hk i (instruction?_remove.1 hi).1) ?_
    by_cases hb : n ∈ m.body
    · obtain ⟨i, hi⟩ := Method.exists_instruction? hb
      obtain ⟨place, e, rfl⟩ := hn i hi
      exact h.remove hb (h.linked.fallsThrough_of_assign hi)
    · rw [remove_of_not_mem hb]
      exact h

theorem assign_of_mem_deadStores {l : Liveness} {name : String} {i : Instruction}
    (hd : (n, name) ∈ m.deadStores l) (hi : m.instruction? n = some i) :
    ∃ place e, i = .assign place e := by
  obtain ⟨j, hj, hr, -⟩ := mem_deadStores.1 hd
  rw [mem_instructions, hi] at hj
  cases hj
  cases i with
  | assign place e => exact ⟨place, e, rfl⟩
  | _ => cases hr

theorem Rehomed.removeDeadStores (h : Rehomed m₀ m) :
    Rehomed m₀ (Pass.removeDeadStores m).1 := by
  rw [Pipeline.removeDeadStores_method]
  refine h.removeAll fun n hn i hi => ?_
  obtain ⟨⟨k, name⟩, hd, rfl⟩ := List.mem_map.1 hn
  exact assign_of_mem_deadStores hd hi

theorem Rehomed.iterate (h : Rehomed m₀ m) (runs : Nat) :
    Rehomed m₀ ((fun m => (Pass.removeDeadStores m).1)^[runs] m) := by
  induction runs generalizing m with
  | zero => exact h
  | succ runs ih => exact ih h.removeDeadStores

theorem Linked.exists_bodyFlow (hm : m.Linked) :
    ∃ g, m.bodyFlow = .ok g ∧ ∀ x y, g.Edge x y ↔ m.flow.Edge x y := by
  obtain ⟨g, hg⟩ := Method.exists_bodyFlow hm.jumps_declared
  obtain ⟨he, -, -⟩ := bodyFlow_spec hm.body_nodup hg
  exact ⟨g, hg, fun x y => (he x y).trans (hm.edge_iff x y).symm⟩

def detourEntries : List Entry :=
  [.label "again",
    .instruction (.assign (.var "z" .int) (.binary .mul (.var "n" .int) (.var "n" .int))),
    .instruction (.assign (.var "w" .int) (.single (.var "z" .int))),
    .instruction (.assign (.var "n" .int) (.binary .sub (.var "n" .int) (.literal 1 .int))),
    .instruction (.branch (.binary .lt (.literal 0 .int) (.var "n" .int)) "again"),
    .instruction (.branch (.binary .lt (.var "n" .int) (.literal 0 .int)) "after"),
    .instruction (.assign (.var "w" .int) (.single (.var "n" .int))),
    .label "after",
    .instruction (.assign (.var "z" .int) (.single (.var "n" .int)))]

def detour : Method :=
  { countdownSignature with
    code := (codeOf detourEntries).toArray
    body := [⟨2⟩, ⟨3⟩, ⟨4⟩, ⟨5⟩, ⟨6⟩, ⟨7⟩, ⟨8⟩]
    labels := [("after", ⟨8⟩), ("again", ⟨2⟩)]
    table := { entries := [("this", ⟨.self, some 0⟩), ("n", ⟨.int, some 1⟩), ("z", ⟨.int, some 2⟩),
      ("w", ⟨.int, some 3⟩)] }
    flow := ⟨#[⟨[⟨2⟩], []⟩, ⟨[], [⟨8⟩]⟩, ⟨[⟨3⟩], [⟨0⟩, ⟨5⟩]⟩, ⟨[⟨4⟩], [⟨2⟩]⟩, ⟨[⟨5⟩], [⟨3⟩]⟩,
      ⟨[⟨6⟩, ⟨2⟩], [⟨4⟩]⟩, ⟨[⟨7⟩, ⟨8⟩], [⟨5⟩]⟩, ⟨[⟨8⟩], [⟨6⟩]⟩, ⟨[⟨1⟩], [⟨6⟩, ⟨7⟩]⟩]⟩ }

theorem maintained_flow_agrees {signature : Signature} {entries : List Entry}
    (hbuild : build signature entries = .ok m) (runs : Nat) :
    let m' := (fun m => (Pass.removeDeadStores m).1)^[runs] m
    (∃ g, m'.bodyFlow = .ok g ∧ ∀ x y, g.Edge x y ↔ m'.flow.Edge x y) ∧
      ∀ label, m'.target? label = (m.target? label).map (survivor m m') := by
  have h : Rehomed m ((fun m => (Pass.removeDeadStores m).1)^[runs] m) :=
    (Rehomed.refl (.of_build hbuild)).iterate runs
  exact ⟨h.linked.exists_bodyFlow, h.target⟩

theorem maintained_flow_agrees_detour :
    let m' := (fun m => (Pass.removeDeadStores m).1)^[2] detour
    build countdownSignature detourEntries = .ok detour ∧ m'.body = [⟨4⟩, ⟨5⟩, ⟨6⟩] ∧
      m'.target? "again" = some ⟨4⟩ ∧ m'.target? "after" = some .exit ∧
      ∃ g, m'.bodyFlow = .ok g ∧ ∀ y, m'.flow.Edge ⟨6⟩ y → y = .exit ∧ g.Edge ⟨6⟩ y := by
  have hbuild : build countdownSignature detourEntries = .ok detour := by decide +kernel
  have hbody : ((fun m => (Pass.removeDeadStores m).1)^[2] detour).body = [⟨4⟩, ⟨5⟩, ⟨6⟩] := by
    decide +kernel
  have hedge : ((fun m => (Pass.removeDeadStores m).1)^[2] detour).flow.successors ⟨6⟩ =
      [.exit] := by decide +kernel
  obtain ⟨⟨g, hg, he⟩, htarget⟩ := maintained_flow_agrees hbuild 2
  refine ⟨hbuild, hbody, ?_, ?_, g, hg, fun y hy => ⟨?_, (he ⟨6⟩ y).2 hy⟩⟩
  · rw [htarget]
    decide +kernel
  · rw [htarget]
    decide +kernel
  · unfold FlowGraph.Edge at hy
    rw [hedge] at hy
    exact List.mem_singleton.1 hy

end Method

end ClassLowering
