import ClassLowering.Proofs.Flow.Traversal
import ClassLowering.Proofs.Liveness.Solution
import ClassLowering.Proofs.Method.Structure
import ClassLowering.Proofs.Reading

namespace ClassLowering

namespace Liveness

def LiveIn (l : Liveness) (n : Node) (v : String) : Prop := l.Has (l.factsAt n).liveIn v

def LiveOut (l : Liveness) (n : Node) (v : String) : Prop := l.Has (l.factsAt n).liveOut v

variable {m : Method}

theorem tracked_nodup (m : Method) : (start m).tracked.Nodup := eraseDups_nodup _

theorem mem_order (hm : m.WellFormed) {n : Node} :
    n ∈ (start m).order ↔ m.flow.Reachable n ∧ n ∈ m.body := by
  have hp := (FlowGraph.postorder_spec hm.mirrored).2 n
  simp only [start, List.mem_filter, hp, Method.contains_eq, Bool.and_eq_true, Bool.not_eq_true',
    decide_eq_true_eq]
  exact and_congr_right fun _ => ⟨And.right, fun h => ⟨Method.not_sentinel_of_mem h, h⟩⟩

theorem factsAt_start (n : Node) :
    (start m).factsAt n =
      if n.index < m.nodeCount then initialFacts m (start m).tracked (start m).order n
      else .empty (start m).bound := by
  by_cases h : n.index < m.nodeCount <;> simp [factsAt, start, h]

theorem factsAt_start_of_not_mem {n : Node} (hn : n ∉ (start m).order) :
    (start m).factsAt n = .empty (start m).bound := by
  rw [factsAt_start]
  unfold initialFacts
  rw [if_neg hn]
  exact ite_self _

theorem factsAt_start_of_mem (hm : m.WellFormed) {n : Node} (hn : n ∈ (start m).order) :
    ∃ i, m.instruction? n = some i ∧
      (start m).factsAt n =
        { Facts.empty (start m).bound with
          reads := setOf (start m).tracked (readBy i)
          writes := setOf (start m).tracked (written i) } := by
  obtain ⟨-, hb⟩ := (mem_order hm).1 hn
  obtain ⟨i, hi⟩ := Method.exists_instruction? hb
  refine ⟨i, hi, ?_⟩
  rw [factsAt_start, if_pos (Method.index_lt_of_mem hb)]
  unfold initialFacts
  rw [if_pos hn, hi]
  rfl

theorem start_regular (hm : m.WellFormed) : (start m).Regular := by
  have hsets (n : Node) : ((start m).factsAt n).reads.Within (start m).bound ∧
      ((start m).factsAt n).writes.Within (start m).bound := by
    by_cases hn : n ∈ (start m).order
    · obtain ⟨i, -, hf⟩ := factsAt_start_of_mem hm hn
      rw [hf]
      exact ⟨(setOf_spec _ _).1, (setOf_spec _ _).1⟩
    · rw [factsAt_start_of_not_mem hn]
      exact ⟨IndexSet.within_empty _, IndexSet.within_empty _⟩
  refine ⟨?_, fun n hn => ?_, fun n => (hsets n).1, fun n => (hsets n).2⟩
  · exact (FlowGraph.postorder_spec hm.mirrored).1.filter _
  · simpa [start] using Method.index_lt_of_mem ((mem_order hm).1 hn).2

theorem start_live_empty (hm : m.WellFormed) (n : Node) :
    ((start m).factsAt n).liveIn = .empty (start m).bound ∧
      ((start m).factsAt n).liveOut = .empty (start m).bound := by
  by_cases hn : n ∈ (start m).order
  · obtain ⟨i, -, hf⟩ := factsAt_start_of_mem hm hn
    rw [hf]
    exact ⟨rfl, rfl⟩
  · rw [factsAt_start_of_not_mem hn]
    exact ⟨rfl, rfl⟩

theorem fits_start (hm : m.WellFormed) : (start m).Fits (start m).facts := by
  refine ⟨rfl, fun n => ?_, fun n => ?_, fun _ => rfl, fun _ => rfl, fun _ _ => rfl⟩
  · exact (start_live_empty hm n).1 ▸ IndexSet.within_empty _
  · exact (start_live_empty hm n).2 ▸ IndexSet.within_empty _

theorem compute_spec (hm : m.WellFormed) :
    ∃ F passes, compute m = { start m with facts := F, passes := passes } ∧
      solve? m.flow (start m) = some (compute m) ∧ (start m).Fits F ∧ Solves m.flow (start m) F ∧
      Founded m.flow (start m) F ∧ 0 < passes ∧
      passes ≤ 1 + 2 * (start m).order.length * (start m).bound := by
  have hin (n : Node) (i : Nat) : ¬ (start m).In (start m).facts n i := by
    change ¬ ((start m).factsAt n).liveIn.contains i = true
    rw [(start_live_empty hm n).1, IndexSet.contains_empty]
    exact Bool.false_ne_true
  have hout (n : Node) (i : Nat) : ¬ (start m).Out (start m).facts n i := by
    change ¬ ((start m).factsAt n).liveOut.contains i = true
    rw [(start_live_empty hm n).2, IndexSet.contains_empty]
    exact Bool.false_ne_true
  obtain ⟨F, passes, hs, hF⟩ := solve?_spec (start_regular hm) (fits_start hm) hin hout m.flow
  have hc : compute m = { start m with facts := F, passes := passes } := by
    rw [compute, hs]
    rfl
  exact ⟨F, passes, hc, hc ▸ hs, hF⟩

theorem index?_inj {l : Liveness} {v w : String} {k : Nat} (hv : l.index? v = some k)
    (hw : l.index? w = some k) : v = w :=
  Option.some.inj ((getElem?_of_idxOf? hv).symm.trans (getElem?_of_idxOf? hw))

theorem exists_index {n : Node} {v : String} (h : m.ReadsAt n v ∨ m.AssignsAt n v) :
    ∃ k, (start m).index? v = some k :=
  exists_idxOf? (List.mem_eraseDups.2 (Method.mem_mentions.2 ⟨n, h⟩))

theorem contains_setOf {v : String} {k : Nat} (hk : (start m).index? v = some k)
    (names : List String) : (setOf (start m).tracked names).contains k = true ↔ v ∈ names := by
  rw [(setOf_spec _ _).2 k]
  constructor
  · rintro ⟨w, hw, h⟩
    exact index?_inj hk h ▸ hw
  · exact fun h => ⟨v, h, hk⟩

theorem reads_iff (hm : m.WellFormed) {n : Node} {v : String} {k : Nat}
    (hn : n ∈ (start m).order) (hk : (start m).index? v = some k) :
    (start m).Reads n k ↔ m.ReadsAt n v := by
  obtain ⟨i, hi, hf⟩ := factsAt_start_of_mem hm hn
  rw [Reads, hf]
  refine (contains_setOf hk _).trans (mem_readBy.trans ?_)
  simp [Method.ReadsAt, hi]

theorem writes_iff (hm : m.WellFormed) {n : Node} {v : String} {k : Nat}
    (hn : n ∈ (start m).order) (hk : (start m).index? v = some k) :
    (start m).Writes n k ↔ ∃ i, m.instruction? n = some i ∧ v ∈ written i := by
  obtain ⟨i, hi, hf⟩ := factsAt_start_of_mem hm hn
  rw [Writes, hf]
  refine (contains_setOf hk _).trans ?_
  simp [hi]

theorem writes_of_assignsAt (hm : m.WellFormed) {n : Node} {v : String} {k : Nat}
    (hn : n ∈ (start m).order) (hk : (start m).index? v = some k) (h : m.AssignsAt n v) :
    (start m).Writes n k := by
  obtain ⟨i, hi, ha⟩ := h
  exact (writes_iff hm hn hk).2 ⟨i, hi, mem_written.2 (.inl ha)⟩

theorem assignsAt_of_writes (hm : m.WellFormed) {n : Node} {v : String} {k : Nat}
    (hn : n ∈ (start m).order) (hk : (start m).index? v = some k) (hw : (start m).Writes n k)
    (hr : ¬ m.ReadsAt n v) : m.AssignsAt n v := by
  obtain ⟨i, hi, hv⟩ := (writes_iff hm hn hk).1 hw
  rcases mem_written.1 hv with ha | ⟨index, ty, hd⟩
  · exact ⟨i, hi, ha⟩
  · exact absurd ⟨i, hi, Instruction.readsVar_of_element hd⟩ hr

theorem mem_order_of_reads {n : Node} {k : Nat} (h : (start m).Reads n k) :
    n ∈ (start m).order := by
  by_contra hn
  rw [Reads, factsAt_start_of_not_mem hn] at h
  simp [Facts.empty, IndexSet.contains_empty] at h

theorem has_writes_iff (hm : m.WellFormed) {n : Node}
    (hn : n ∈ (start m).order) {a : String} :
    (start m).Has ((start m).factsAt n).writes a ↔
      ∃ i, m.instruction? n = some i ∧ a ∈ written i := by
  constructor
  · rintro ⟨k, hk, h⟩
    exact (writes_iff hm hn hk).1 h
  · rintro ⟨i, hi, ha⟩
    have hmention : m.ReadsAt n a ∨ m.AssignsAt n a := by
      rcases mem_written.1 ha with h | ⟨index, ty, h⟩
      · exact .inr ⟨i, hi, h⟩
      · exact .inl ⟨i, hi, Instruction.readsVar_of_element h⟩
    obtain ⟨k, hk⟩ := exists_index hmention
    exact ⟨k, hk, (writes_iff hm hn hk).2 ⟨i, hi, ha⟩⟩

theorem order_compute (hm : m.WellFormed) : (compute m).order = (start m).order := by
  obtain ⟨F, passes, hc, -⟩ := compute_spec hm
  rw [hc]

theorem writes_compute (hm : m.WellFormed) (n : Node) :
    ((compute m).factsAt n).writes = ((start m).factsAt n).writes := by
  obtain ⟨F, passes, hc, -, hF, -⟩ := compute_spec hm
  rw [hc]
  exact hF.writes_eq n

theorem has_writes_compute (hm : m.WellFormed) {n : Node} (hn : n ∈ (start m).order) {a : String} :
    (compute m).Has ((compute m).factsAt n).writes a ↔
      ∃ i, m.instruction? n = some i ∧ a ∈ written i := by
  obtain ⟨F, passes, hc, -⟩ := compute_spec hm
  rw [writes_compute hm, ← has_writes_iff hm hn, hc]
  rfl

theorem mem_names_writes (hm : m.WellFormed) {n : Node} (hn : n ∈ (start m).order) {v : String} :
    v ∈ (compute m).names ((compute m).factsAt n).writes ↔
      ∃ i, m.instruction? n = some i ∧ v ∈ written i := by
  rw [← has_writes_compute hm hn]
  obtain ⟨F, passes, hc, -, hF, -⟩ := compute_spec hm
  rw [writes_compute hm, hc]
  exact mem_names (tracked_nodup m) ((start_regular hm).writes_within n)

theorem mem_names_reads (hm : m.WellFormed) {n : Node} (hn : n ∈ (start m).order) {v : String} :
    v ∈ (compute m).names ((compute m).factsAt n).reads ↔ m.ReadsAt n v := by
  obtain ⟨F, passes, hc, -, hF, -⟩ := compute_spec hm
  have hreads : ((compute m).factsAt n).reads = ((start m).factsAt n).reads := by
    rw [hc]
    exact hF.reads_eq n
  rw [hreads, hc]
  refine (mem_names (tracked_nodup m) ((start_regular hm).reads_within n)).trans ⟨?_, fun h => ?_⟩
  · rintro ⟨k, hk, h⟩
    exact (reads_iff hm hn hk).1 h
  · obtain ⟨k, hk⟩ := exists_index (.inl h)
    exact ⟨k, hk, (reads_iff hm hn hk).2 h⟩

theorem liveOut_iff (hm : m.WellFormed) {n : Node} (hn : n ∈ (start m).order) (v : String) :
    (compute m).LiveOut n v ↔ ∃ s, m.flow.Edge n s ∧ (compute m).LiveIn s v := by
  obtain ⟨F, passes, hc, -, -, hs, -⟩ := compute_spec hm
  rw [hc]
  constructor
  · rintro ⟨k, hk, h⟩
    obtain ⟨s, he, hi⟩ := (hs.out_iff n hn k).1 h
    exact ⟨s, he, k, hk, hi⟩
  · rintro ⟨s, he, k, hk, h⟩
    exact ⟨k, hk, (hs.out_iff n hn k).2 ⟨s, he, h⟩⟩

theorem liveIn_iff (hm : m.WellFormed) {n : Node} (hn : n ∈ (start m).order) (v : String) :
    (compute m).LiveIn n v ↔
      m.ReadsAt n v ∨ (compute m).LiveOut n v ∧ ¬ m.AssignsAt n v := by
  obtain ⟨F, passes, hc, -, -, hs, -⟩ := compute_spec hm
  rw [hc]
  constructor
  · rintro ⟨k, hk, h⟩
    rcases (hs.in_iff n hn k).1 h with h | ⟨h, hw⟩
    · exact .inl ((reads_iff hm hn hk).1 h)
    · exact .inr ⟨⟨k, hk, h⟩, fun ha => hw (writes_of_assignsAt hm hn hk ha)⟩
  · intro h
    -- The base of an element that is stored to counts as written, but it is read before that.
    by_cases hr : m.ReadsAt n v
    · obtain ⟨k, hk⟩ := exists_index (.inl hr)
      exact ⟨k, hk, (hs.in_iff n hn k).2 (.inl ((reads_iff hm hn hk).2 hr))⟩
    · obtain ⟨⟨k, hk, ho⟩, ha⟩ := h.resolve_left hr
      refine ⟨k, hk, (hs.in_iff n hn k).2 (.inr ⟨ho, fun hw => ha ?_⟩)⟩
      exact assignsAt_of_writes hm hn hk hw hr

theorem mem_order_of_needed (hm : m.WellFormed) {n s : Node} {k : Nat} (hn : m.flow.Reachable n)
    (he : m.flow.Edge n s) (h : Needed m.flow (start m) k s) : s ∈ (start m).order := by
  have hs : ∃ t, m.flow.Edge s t := by
    cases h with
    | here hs _ => exact ⟨_, hs⟩
    | later hs _ _ => exact ⟨_, hs⟩
  obtain ⟨t, ht⟩ := hs
  refine (mem_order hm).2 ⟨hn.tail he, ?_⟩
  rcases hm.edge_target n s he with rfl | hb
  · exact absurd ht (hm.not_edge_exit t)
  · exact hb

theorem out_of_needed (hm : m.WellFormed) {F : Array Facts} (hs : Solves m.flow (start m) F)
    {n : Node} {k : Nat} (hn : n ∈ (start m).order) (h : Needed m.flow (start m) k n) :
    (start m).Out F n k := by
  induction h with
  | here he hr =>
    have hi := (hs.in_iff _ (mem_order_of_reads hr) k).2 (.inl hr)
    exact (hs.out_iff _ hn k).2 ⟨_, he, hi⟩
  | later he hw hneed ih =>
    have ho := mem_order_of_needed hm ((mem_order hm).1 hn).1 he hneed
    have hi := (hs.in_iff _ ho k).2 (.inr ⟨ih ho, hw⟩)
    exact (hs.out_iff _ hn k).2 ⟨_, he, hi⟩

theorem path_of_needed (hm : m.WellFormed) {n : Node} {v : String} {k : Nat}
    (hn : m.flow.Reachable n) (hk : (start m).index? v = some k)
    (h : Needed m.flow (start m) k n) :
    ∃ path last, List.IsChain m.flow.Edge (n :: (path ++ [last])) ∧ m.ReadsAt last v ∧
      ∀ s ∈ path, ¬ m.AssignsAt s v := by
  induction h with
  | @here n s he hr =>
    have hs := (reads_iff hm (mem_order_of_reads hr) hk).1 hr
    exact ⟨[], s, by simpa using he, hs, by simp⟩
  | @later n s he hw hneed ih =>
    obtain ⟨path, last, hp, hr, ha⟩ := ih (hn.tail he)
    have hs := mem_order_of_needed hm hn he hneed
    refine ⟨s :: path, last, List.isChain_cons_cons.2 ⟨he, hp⟩, hr, ?_⟩
    intro t ht
    rcases List.mem_cons.1 ht with rfl | ht
    · exact fun h => hw (writes_of_assignsAt hm hs hk h)
    · exact ha t ht

theorem needed_of_path (hm : m.WellFormed) {n last : Node} {v : String} {k : Nat}
    {path : List Node} (hn : m.flow.Reachable n) (hk : (start m).index? v = some k)
    (hp : List.IsChain m.flow.Edge (n :: (path ++ [last]))) (hr : m.ReadsAt last v)
    (ha : ∀ s ∈ path, ¬ m.AssignsAt s v) : Needed m.flow (start m) k n := by
  have hread {n s : Node} (hn : m.flow.Reachable n) (he : m.flow.Edge n s) (h : m.ReadsAt s v) :
      Needed m.flow (start m) k n := by
    obtain ⟨i, hi, -⟩ := id h
    have hs : s ∈ (start m).order :=
      (mem_order hm).2 ⟨hn.tail he, (Method.instruction?_eq_some.1 hi).1⟩
    exact .here he ((reads_iff hm hs hk).2 h)
  induction path generalizing n with
  | nil => exact hread hn (List.isChain_cons_cons.1 hp).1 hr
  | cons s rest ih =>
    obtain ⟨he, hp⟩ := List.isChain_cons_cons.1 hp
    have hneed := ih (hn.tail he) hp fun t ht => ha t (by simp [ht])
    by_cases h : m.ReadsAt s v
    · exact hread hn he h
    · have hs := mem_order_of_needed hm hn he hneed
      exact .later he (fun hw => ha s (by simp) (assignsAt_of_writes hm hs hk hw h)) hneed

theorem liveOut_iff_path (hm : m.WellFormed) {n : Node} (hn : m.flow.Reachable n)
    (hb : n ∈ m.body) (v : String) :
    (compute m).LiveOut n v ↔
      ∃ path last, List.IsChain m.flow.Edge (n :: (path ++ [last])) ∧ m.ReadsAt last v ∧
        ∀ s ∈ path, ¬ m.AssignsAt s v := by
  have ho : n ∈ (start m).order := (mem_order hm).2 ⟨hn, hb⟩
  obtain ⟨F, passes, hc, -, -, hs, hf, -⟩ := compute_spec hm
  constructor
  · rw [hc]
    rintro ⟨k, hk, h⟩
    exact path_of_needed hm hn hk (hf.out n k h)
  · rintro ⟨path, last, hp, hr, ha⟩
    obtain ⟨k, hk⟩ := exists_index (.inl hr)
    rw [hc]
    exact ⟨k, hk, out_of_needed hm hs ho (needed_of_path hm hn hk hp hr ha)⟩

theorem solve?_compute (hm : m.WellFormed) :
    solve? m.flow (compute m) = some { compute m with passes := 1 } := by
  obtain ⟨F, passes, hc, hs, -⟩ := compute_spec hm
  have hp := pass_of_solve? hs
  rw [solve?, settle, if_pos hp]
  rfl

theorem liveness_exact {signature : Signature} {entries : List Entry} {m₀ : Method}
    (h : Method.build signature entries = .ok m₀) (removed : List Node) :
    let m := removed.foldl Method.remove m₀
    let l := compute m
    solve? m.flow (start m) = some l ∧
      (∀ n ∈ m.body, m.flow.Reachable n → ∀ v,
        (l.LiveOut n v ↔
          ∃ path last, List.IsChain m.flow.Edge (n :: (path ++ [last])) ∧ m.ReadsAt last v ∧
            ∀ s ∈ path, ¬ m.AssignsAt s v) ∧
        (l.LiveIn n v ↔ m.ReadsAt n v ∨ l.LiveOut n v ∧ ¬ m.AssignsAt n v)) ∧
      solve? m.flow l = some { l with passes := 1 } := by
  have hm := (Method.build_spec h).1.removeAll removed
  obtain ⟨F, passes, -, hs, -⟩ := compute_spec hm
  refine ⟨hs, fun n hb hn v => ⟨liveOut_iff_path hm hn hb v, ?_⟩, solve?_compute hm⟩
  exact liveIn_iff hm ((mem_order hm).2 ⟨hn, hb⟩) v

theorem liveness_exact_countdown :
    Method.build Method.countdownSignature Method.countdownEntries = .ok Method.countdown ∧
      (compute ([⟨4⟩].foldl Method.remove Method.countdown)).LiveOut ⟨5⟩ "n" := by
  have hedge : List.IsChain (Method.countdown.remove ⟨4⟩).flow.Edge [⟨5⟩, ⟨2⟩, ⟨3⟩, ⟨5⟩] := by decide
  have hentry : List.IsChain (Method.countdown.remove ⟨4⟩).flow.Edge [.entry, ⟨2⟩, ⟨3⟩, ⟨5⟩] := by decide
  have hreach : (Method.countdown.remove ⟨4⟩).flow.Reachable ⟨5⟩ :=
    List.relationReflTransGen_of_exists_isChain_cons _ hentry rfl
  have hexact := (liveness_exact Method.build_countdown [⟨4⟩]).2.1 ⟨5⟩ (by decide) hreach "n"
  refine ⟨Method.build_countdown, hexact.1.2 ⟨[⟨2⟩, ⟨3⟩], ⟨5⟩, hedge, ?_, ?_⟩⟩
  · exact ⟨_, rfl, .inl ⟨.var "n" .int, by decide, .var "n" .int⟩⟩
  · intro s hs
    rcases List.mem_cons.1 hs with rfl | hs
    · rintro ⟨i, hi, ty, ha⟩
      cases hi
      have hx : some (Operand.var "x" .int) = some (.var "n" ty) := ha
      simp at hx
    · obtain rfl := List.mem_singleton.1 hs
      rintro ⟨i, hi, ty, ha⟩
      cases hi
      have hy : some (Operand.var "y" .int) = some (.var "n" ty) := ha
      simp at hy

end Liveness

end ClassLowering
