import ClassLowering.DeadStore
import ClassLowering.Proofs.Liveness.Paths

namespace ClassLowering

namespace Method

structure Coincides (m m' : Method) : Prop where
  code_eq : m'.code = m.code
  body_eq : m'.body = m.body
  edge_iff : ∀ x y, m'.flow.Edge x y ↔ m.flow.Edge x y

variable {m m' : Method}

namespace Coincides

theorem instructions_eq (h : m.Coincides m') : m'.instructions = m.instructions := by
  unfold instructions codeAt?
  rw [h.code_eq, h.body_eq]

theorem instruction?_eq (h : m.Coincides m') (n : Node) : m'.instruction? n = m.instruction? n := by
  unfold instruction? codeAt?
  rw [h.code_eq, contains_congr h.body_eq]

theorem edge_eq (h : m.Coincides m') : m'.flow.Edge = m.flow.Edge := by
  funext x y
  exact propext (h.edge_iff x y)

theorem reachable_iff (h : m.Coincides m') (n : Node) :
    m'.flow.Reachable n ↔ m.flow.Reachable n := by
  rw [FlowGraph.Reachable, FlowGraph.Reachable, h.edge_eq]

theorem readsAt_iff (h : m.Coincides m') (n : Node) (v : String) :
    m'.ReadsAt n v ↔ m.ReadsAt n v := by
  rw [ReadsAt, ReadsAt, h.instruction?_eq]

theorem assignsAt_iff (h : m.Coincides m') (n : Node) (v : String) :
    m'.AssignsAt n v ↔ m.AssignsAt n v := by
  rw [AssignsAt, AssignsAt, h.instruction?_eq]

theorem mem_order_iff (h : m.Coincides m') (hm : m.WellFormed) (hm' : m'.WellFormed) (n : Node) :
    n ∈ (Liveness.start m').order ↔ n ∈ (Liveness.start m).order := by
  rw [Liveness.mem_order hm, Liveness.mem_order hm', h.reachable_iff, h.body_eq]

theorem liveOut_iff (h : m.Coincides m') (hm : m.WellFormed) (hm' : m'.WellFormed) {n : Node}
    (hn : n ∈ (Liveness.start m).order) (v : String) :
    (Liveness.compute m').LiveOut n v ↔ (Liveness.compute m).LiveOut n v := by
  obtain ⟨hreach, hb⟩ := (Liveness.mem_order hm).1 hn
  obtain ⟨hreach', hb'⟩ := (Liveness.mem_order hm').1 ((h.mem_order_iff hm hm' n).2 hn)
  rw [Liveness.liveOut_iff_path hm hreach hb, Liveness.liveOut_iff_path hm' hreach' hb', h.edge_eq]
  simp only [h.readsAt_iff, h.assignsAt_iff]

theorem has_writes_iff (h : m.Coincides m') (hm : m.WellFormed) (hm' : m'.WellFormed) {n : Node}
    (hn : n ∈ (Liveness.start m).order) (v : String) :
    (Liveness.compute m').Has ((Liveness.compute m').factsAt n).writes v ↔
      (Liveness.compute m).Has ((Liveness.compute m).factsAt n).writes v := by
  rw [Liveness.has_writes_compute hm hn,
    Liveness.has_writes_compute hm' ((h.mem_order_iff hm hm' n).2 hn), h.instruction?_eq]

theorem deadStores_eq (h : m.Coincides m') (hm : m.WellFormed) (hm' : m'.WellFormed) :
    m'.deadStores (.compute m') = m.deadStores (.compute m) := by
  unfold deadStores
  rw [h.instructions_eq]
  refine List.filterMap_congr fun e _ => ?_
  obtain ⟨n, i⟩ := e
  dsimp only
  split
  · next name _ =>
    have horder := h.mem_order_iff hm hm' n
    have hdead : (n ∈ (Liveness.compute m').order ∧ (Liveness.compute m').writesHas n name = true ∧
          (Liveness.compute m').liveOutHas n name = false) ↔
        (n ∈ (Liveness.compute m).order ∧ (Liveness.compute m).writesHas n name = true ∧
          (Liveness.compute m).liveOutHas n name = false) := by
      rw [Liveness.order_compute hm, Liveness.order_compute hm', horder]
      refine and_congr_right fun hn => ?_
      rw [Liveness.writesHas_iff, Liveness.writesHas_iff, h.has_writes_iff hm hm' hn,
        ← Bool.not_eq_true, ← Bool.not_eq_true, Liveness.liveOutHas_iff, Liveness.liveOutHas_iff]
      exact and_congr_right fun _ => not_congr (h.liveOut_iff hm hm' hn name)
    simp only [hdead]
  · rfl

end Coincides

end Method

end ClassLowering
