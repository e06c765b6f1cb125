import ClassLowering.Proofs.Flow.Postorder
import ClassLowering.Proofs.Liveness.Paths

namespace ClassLowering

theorem count_le_of_settle {α : Type} [DecidableEq α] {step : α → α} {value result : α}
    {done bound count : Nat} (hstep : step (step value) = step value)
    (h : settle step value done bound = some (result, count)) : count ≤ done + 2 := by
  cases bound with
  | zero => cases h
  | succ bound =>
    simp only [settle] at h
    split at h
    · cases h
      omega
    · cases bound with
      | zero => cases h
      | succ bound =>
        simp only [settle, hstep, if_true] at h
        cases h
        omega

namespace Liveness

variable {g : FlowGraph} {l : Liveness} {F : Array Facts} {m : Method}

def Forward (g : FlowGraph) (l : Liveness) : Prop :=
  ∀ front n back, l.order = front ++ n :: back → ∀ s, g.Edge n s → s ∉ n :: back

theorem fits_pass (hl : l.Regular) (hF : l.Fits F) (g : FlowGraph) : l.Fits (pass g l F) :=
  pass_preserves (P := l.Fits) (fun _ _ hn hF => hF.update hl g hn) hF

theorem exists_update_pass (hl : l.Regular) (hF : l.Fits F) (g : FlowGraph) {front back : List Node}
    {n : Node} (hsplit : l.order = front ++ n :: back) :
    ∃ G, l.Fits G ∧ l.factsIn (pass g l F) n = l.factsIn (update g l.bound G n) n ∧
      (∀ s, s ∉ n :: back → l.factsIn (pass g l F) s = l.factsIn G s) ∧
      ∀ s, s ∉ front → l.factsIn G s = l.factsIn F s := by
  have hn : n ∈ l.order := hsplit ▸ List.mem_append_right _ List.mem_cons_self
  have hnodup := hl.order_nodup
  rw [hsplit] at hnodup
  have hfront : n ∉ front := fun h => List.disjoint_of_nodup_append hnodup h List.mem_cons_self
  have hback : n ∉ back := (List.nodup_cons.1 hnodup.of_append_right).1
  have hsub : ∀ x ∈ front ++ n :: back, x ∈ l.order := fun x hx => hsplit ▸ hx
  obtain ⟨hsubFront, hsubRest⟩ := List.forall_mem_append.1 hsub
  have hsubBack := (List.forall_mem_cons.1 hsubRest).2
  have hG := (factsIn_foldl_update hl g hsubFront hfront hF).1
  have hpass : pass g l F = (n :: back).foldl (update g l.bound)
      (front.foldl (update g l.bound) F) := by
    rw [pass, hsplit, List.foldl_append]
  refine ⟨_, hG, ?_, fun s hs => ?_, fun s hs => (factsIn_foldl_update hl g hsubFront hs hF).2⟩
  · rw [hpass]
    exact (factsIn_foldl_update hl g hsubBack hback (hG.update hl g hn)).2
  · rw [hpass]
    exact (factsIn_foldl_update hl g hsubRest hs hG).2

theorem update_pass (hl : l.Regular) (hF : l.Fits F) (hforward : l.Forward g) {n : Node}
    (hn : n ∈ l.order) : update g l.bound (pass g l F) n = pass g l F := by
  -- Nothing behind the node is a successor of it.
  obtain ⟨front, back, hsplit⟩ := List.append_of_mem hn
  obtain ⟨G, hG, hat, hkept, -⟩ := exists_update_pass hl hF g hsplit
  have hnext (s : Node) (hs : g.Edge n s) : l.factsIn (pass g l F) s = l.factsIn G s :=
    hkept s (hforward _ _ _ hsplit s hs)
  have hfit := fits_pass hl hF g
  have hin (i : Nat) :
      (∃ s, g.Edge n s ∧ l.In (pass g l F) s i) ↔ ∃ s, g.Edge n s ∧ l.In G s i :=
    exists_congr fun s => and_congr_right fun hs => by rw [In, In, hnext s hs]
  refine (hfit.update hl g hn).ext hfit (fun k _ i => ?_) fun k _ i => ?_
  · rw [in_update hl hfit g hn]
    split
    · next hk =>
      subst hk
      rw [In, hat, hin]
      exact ((in_update hl hG g hn k i).trans (if_pos rfl).to_iff).symm
    · rfl
  · rw [out_update hl hfit g hn]
    split
    · next hk =>
      subst hk
      rw [Out, hat, hin]
      exact ((out_update hl hG g hn k i).trans (if_pos rfl).to_iff).symm
    · rfl

theorem pass_pass (hl : l.Regular) (hF : l.Fits F) (hforward : l.Forward g) :
    pass g l (pass g l F) = pass g l F := by
  have hfold (nodes : List Node) (hsub : ∀ n ∈ nodes, n ∈ l.order) :
      nodes.foldl (update g l.bound) (pass g l F) = pass g l F := by
    induction nodes with
    | nil => rfl
    | cons n rest ih =>
      obtain ⟨hn, hrest⟩ := List.forall_mem_cons.1 hsub
      rw [List.foldl_cons, update_pass hl hF hforward hn, ih hrest]
  exact hfold l.order fun _ => id

theorem mem_front_of_edge (hm : m.WellFormed) (hfree : m.flow.LoopFree) {front back : List Node}
    {n s : Node} (hsplit : (start m).order = front ++ n :: back) (hs : m.flow.Edge n s)
    (hinner : s.isSentinel = false) : s ∈ front := by
  obtain ⟨first, rest, hpost, rfl, hrest⟩ := List.filter_eq_append_iff.1 hsplit
  obtain ⟨skipped, last, rfl, hskipped, -, -⟩ := List.filter_eq_cons_iff.1 hrest
  have hreverse : m.flow.postorder.reverse =
      last.reverse ++ n :: (skipped.reverse ++ first.reverse) := by
    rw [hpost]
    simp
  have hmem := FlowGraph.postorder_grounded hm.mirrored hfree _ _ _ hreverse s hs
  have hbody : s ∈ m.body := by
    refine (hm.edge_target n s hs).resolve_left ?_
    rintro rfl
    cases hinner
  have hkept : (!s.isSentinel && m.contains s) = true := by
    simpa [Method.contains_eq, hinner] using hbody
  refine List.mem_filter.2 ⟨?_, hkept⟩
  rcases List.mem_append.1 hmem with h | h
  · exact absurd hkept (hskipped s (List.mem_reverse.1 h))
  · exact List.mem_reverse.1 h

theorem forward_start (hm : m.WellFormed) (hfree : m.flow.LoopFree) :
    (start m).Forward m.flow := by
  intro front n back hsplit s hs hmem
  have horder : s ∈ (start m).order := hsplit ▸ List.mem_append_right _ hmem
  have hinner := Method.not_sentinel_of_mem ((mem_order hm).1 horder).2
  have hnodup := (start_regular hm).order_nodup
  rw [hsplit] at hnodup
  exact List.disjoint_of_nodup_append hnodup (mem_front_of_edge hm hfree hsplit hs hinner) hmem

theorem passes_le_two (hm : m.WellFormed) (hfree : m.flow.LoopFree) : (compute m).passes ≤ 2 := by
  obtain ⟨F, passes, hc, hs, -⟩ := compute_spec hm
  rw [hc, solve?, Option.map_eq_some_iff] at hs
  obtain ⟨⟨facts, count⟩, hsettle, hsolved⟩ := hs
  cases hsolved
  rw [hc]
  refine count_le_of_settle ?_ hsettle
  exact pass_pass (start_regular hm) (fits_start hm) (forward_start hm hfree)

theorem liveness_converges {signature : Signature} {entries : List Entry}
    (hbuild : Method.build signature entries = .ok m) :
    let l := compute m
    l.order.Nodup ∧ (∀ n, n ∈ l.order ↔ n ∈ m.body ∧ m.flow.Reachable n) ∧
      solve? m.flow (start m) = some l ∧ 0 < l.passes ∧
      l.passes ≤ 1 + 2 * l.order.length * l.tracked.length ∧
      (m.flow.LoopFree →
        (∀ front n back, l.order = front ++ n :: back → ∀ s, m.flow.Edge n s →
          s.isSentinel = false → s ∈ front) ∧ l.passes ≤ 2) := by
  have hm := (Method.build_spec hbuild).1
  obtain ⟨F, passes, hc, hs, -, -, -, hpos, hle⟩ := compute_spec hm
  dsimp only
  rw [order_compute hm]
  refine ⟨(start_regular hm).order_nodup, fun n => (mem_order hm).trans and_comm, hs, ?_, ?_,
    fun hfree => ⟨fun front n back hsplit s => mem_front_of_edge hm hfree hsplit, ?_⟩⟩
  · rw [hc]
    exact hpos
  · rw [hc]
    exact hle
  · exact passes_le_two hm hfree

def magnitudeEntries : List Entry :=
  [.instruction (.branch (.binary .lt (.var "n" .int) (.literal 0 .int)) "low"),
    .instruction (.assign (.var "x" .int) (.single (.var "n" .int))),
    .instruction (.goto "done"),
    .label "low",
    .instruction (.assign (.var "x" .int) (.binary .sub (.literal 0 .int) (.var "n" .int))),
    .label "done",
    .instruction (.ret (some (.var "x" .int)))]

def magnitudeSignature : Signature :=
  { name := "magnitude", isStatic := true, parameters := [⟨"n", .int⟩], result := .int }

def magnitude : Method :=
  { magnitudeSignature with
    code := (Method.codeOf magnitudeEntries).toArray
    body := [⟨2⟩, ⟨3⟩, ⟨4⟩, ⟨5⟩, ⟨6⟩]
    labels := [("done", ⟨6⟩), ("low", ⟨5⟩)]
    table := { entries := [("n", ⟨.int, some 0⟩), ("x", ⟨.int, some 1⟩)] }
    flow := ⟨#[⟨[⟨2⟩], []⟩, ⟨[], [⟨6⟩]⟩, ⟨[⟨3⟩, ⟨5⟩], [⟨0⟩]⟩, ⟨[⟨4⟩], [⟨2⟩]⟩, ⟨[⟨6⟩], [⟨3⟩]⟩,
      ⟨[⟨6⟩], [⟨2⟩]⟩, ⟨[⟨1⟩], [⟨4⟩, ⟨5⟩]⟩]⟩ }

theorem liveness_converges_magnitude :
    Method.build magnitudeSignature magnitudeEntries = .ok magnitude ∧ magnitude.flow.LoopFree ∧
      (compute magnitude).order = [⟨6⟩, ⟨4⟩, ⟨3⟩, ⟨5⟩, ⟨2⟩] ∧ (compute magnitude).passes ≤ 2 := by
  have hbuild : Method.build magnitudeSignature magnitudeEntries = .ok magnitude := by
    decide +kernel
  have hfree : magnitude.flow.LoopFree :=
    .of_rank (fun n => if n = .exit then 7 else n.index) (by decide)
  obtain ⟨-, -, -, -, -, hloopFree⟩ := liveness_converges hbuild
  exact ⟨hbuild, hfree, by decide +kernel, (hloopFree hfree).2⟩

end Liveness

end ClassLowering
