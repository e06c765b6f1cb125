import ClassLowering.Proofs.Method.Rehoming
import Mathlib.Logic.Relation

namespace ClassLowering

namespace FlowGraph

def Leads (g : FlowGraph) (a b : Node) : Prop := Relation.TransGen g.Edge a b

variable {g : FlowGraph} {n x y z : Node}

theorem leads_of_splice (hg : g.Mirrored) (h : (g.splice n).Leads x y) : g.Leads x y := by
  refine Relation.TransGen.closed (fun a b hab => ?_) _ _ h
  obtain ⟨-, -, he | ⟨hin, hout⟩⟩ := (edge_splice hg n a b).1 hab
  · exact .single he
  · exact .tail (.single hin) hout

theorem splice_leads (hg : g.Mirrored) (hx : x ≠ n) (h : g.Leads x z) :
    (z ≠ n → (g.splice n).Leads x z) ∧
      (z = n → ∀ y, y ≠ n → g.Edge n y → (g.splice n).Leads x y) := by
  have hedge {a b : Node} (ha : a ≠ n) (hb : b ≠ n)
      (h : g.Edge a b ∨ g.Edge a n ∧ g.Edge n b) : (g.splice n).Edge a b :=
    (edge_splice hg n a b).2 ⟨ha, hb, h⟩
  induction h with
  | @single z he =>
    refine ⟨fun hz => .single (hedge hx hz (.inl he)), ?_⟩
    rintro rfl y hy hnext
    exact .single (hedge hx hy (.inr ⟨he, hnext⟩))
  | @tail a z _ he ih =>
    obtain ⟨hstay, hthrough⟩ := ih
    by_cases ha : a = n
    · subst ha
      refine ⟨fun hz => hthrough rfl z hz he, ?_⟩
      rintro rfl y hy hnext
      exact hthrough rfl y hy hnext
    · refine ⟨fun hz => (hstay ha).tail (hedge ha hz (.inl he)), ?_⟩
      rintro rfl y hy hnext
      exact (hstay ha).tail (hedge ha hy (.inr ⟨he, hnext⟩))

theorem leads_splice_iff (hg : g.Mirrored) (hx : x ≠ n) (hy : y ≠ n) :
    (g.splice n).Leads x y ↔ g.Leads x y :=
  ⟨leads_of_splice hg, fun h => (splice_leads hg hx h).1 hy⟩

end FlowGraph

namespace Method

def HasNode (m : Method) (n : Node) : Prop := n = .entry ∨ n = .exit ∨ n ∈ m.body

variable {m : Method} {a b n : Node}

theorem HasNode.of_remove (h : (m.remove n).HasNode a) : m.HasNode a :=
  h.imp_right (.imp_right fun ha => (mem_body_remove.1 ha).1)

theorem HasNode.of_removeAll {removed : List Node}
    (h : (removed.foldl Method.remove m).HasNode a) : m.HasNode a := by
  induction removed generalizing m with
  | nil => exact h
  | cons n rest ih => exact (ih h).of_remove

theorem HasNode.ne_of_remove (hn : n ∈ m.body)
    (h : (m.remove n).HasNode a) : a ≠ n := by
  rcases h with rfl | rfl | ha
  · exact (Method.ne_entry_of_mem hn).symm
  · exact (Method.ne_exit_of_mem hn).symm
  · exact (mem_body_remove.1 ha).2

theorem leads_remove (hm : m.WellFormed) (ha : (m.remove n).HasNode a)
    (hb : (m.remove n).HasNode b) : (m.remove n).flow.Leads a b ↔ m.flow.Leads a b := by
  by_cases hn : n ∈ m.body
  · rw [flow_remove hn]
    exact FlowGraph.leads_splice_iff hm.mirrored (ha.ne_of_remove hn) (hb.ne_of_remove hn)
  · rw [remove_of_not_mem hn]

theorem leads_removeAll (hm : m.WellFormed) {removed : List Node}
    (ha : (removed.foldl Method.remove m).HasNode a)
    (hb : (removed.foldl Method.remove m).HasNode b) :
    (removed.foldl Method.remove m).flow.Leads a b ↔ m.flow.Leads a b := by
  induction removed generalizing m with
  | nil => rfl
  | cons n rest ih =>
    have hrest := ih (hm.remove n) ha hb
    exact hrest.trans (leads_remove hm (HasNode.of_removeAll ha) (HasNode.of_removeAll hb))

theorem WellFormed.isolated (hm : m.WellFormed) (hn : ¬ m.HasNode n) (x : Node) :
    ¬ m.flow.Edge n x ∧ ¬ m.flow.Edge x n := by
  refine ⟨fun h => hn ?_, fun h => hn ?_⟩
  · exact (hm.edge_source n x h).imp_right .inr
  · exact .inr (hm.edge_target x n h)

theorem remove_eq_self_iff : m.remove n = m ↔ m.contains n = false := by
  constructor
  · intro h
    have hbody : n ∉ (m.remove n).body := fun hn => (mem_body_remove.1 hn).2 rfl
    rw [h] at hbody
    rw [contains_eq, decide_eq_false hbody]
  · intro h
    rw [contains_eq, decide_eq_false_iff_not] at h
    exact remove_of_not_mem h

theorem removal_keeps_order {signature : Signature} {entries : List Entry}
    (hbuild : build signature entries = .ok m) (removed : List Node) :
    let m' := removed.foldl Method.remove m
    (∀ n, ((m'.removeInstruction n).1 = true ↔ n ∈ m.body ∧ n ∉ removed) ∧
      (m'.contains n = true ↔ n ∈ m.body ∧ n ∉ removed) ∧
      (m'.remove n = m' ↔ m'.contains n = false)) ∧
    m'.body = m.body.filter (· ∉ removed) ∧
    (∀ n ∈ m.body, n ∈ removed → ∀ x,
      n ∉ m'.flow.successors x ∧ n ∉ m'.flow.predecessors x ∧
        x ∉ m'.flow.successors n ∧ x ∉ m'.flow.predecessors n) ∧
    (∀ e ∈ m'.labels, e.2 = .exit ∨ e.2 ∈ m'.body) ∧
    (∀ a b, m'.HasNode a → m'.HasNode b → (m'.flow.Leads a b ↔ m.flow.Leads a b)) ∧
    ∃ m'', m'.rebuildFlow = .ok m'' := by
  have hm := (build_spec hbuild).1
  have hm' := hm.removeAll removed
  have hbody := Pipeline.body_foldl_remove removed m
  have hcontains (n : Node) :
      (removed.foldl Method.remove m).contains n = true ↔ n ∈ m.body ∧ n ∉ removed := by
    rw [contains_iff, hbody]
    simp
  refine ⟨fun n => ⟨?_, hcontains n, remove_eq_self_iff⟩, hbody, fun n hn hgone x => ?_,
    hm'.label_target, fun a b ha hb => leads_removeAll hm ha hb, ?_⟩
  · rw [removeInstruction_fst, hcontains]
  · have hnot : ¬ (removed.foldl Method.remove m).HasNode n := by
      rintro (rfl | rfl | hleft)
      · exact Method.ne_entry_of_mem hn rfl
      · exact Method.ne_exit_of_mem hn rfl
      · rw [hbody] at hleft
        simp [hgone] at hleft
    obtain ⟨hout, hin⟩ := hm'.isolated hnot x
    have hmirror := hm'.mirrored.mirror
    exact ⟨hin, fun h => hout ((hmirror n x).2 h), hout, fun h => hin ((hmirror x n).2 h)⟩
  · obtain ⟨g, hg⟩ := exists_bodyFlow hm'.jumps_declared
    exact ⟨_, by rw [rebuildFlow, hg]; rfl⟩

theorem removal_keeps_order_countdown :
    let m' := [⟨5⟩, ⟨5⟩, .entry, ⟨2⟩, ⟨99⟩].foldl Method.remove countdown
    build countdownSignature countdownEntries = .ok countdown ∧
      (m'.removeInstruction ⟨3⟩).1 = true ∧ (m'.removeInstruction ⟨5⟩).1 = false ∧
      m'.body = [⟨3⟩, ⟨4⟩, ⟨6⟩] ∧ ("again", ⟨3⟩) ∈ m'.labels ∧ m'.flow.Leads ⟨3⟩ ⟨3⟩ ∧
      ∃ m'', m'.rebuildFlow = .ok m'' := by
  obtain ⟨hremoves, hbody, -, -, hleads, hflow⟩ :=
    removal_keeps_order build_countdown [⟨5⟩, ⟨5⟩, .entry, ⟨2⟩, ⟨99⟩]
  have hbefore : countdown.flow.Leads ⟨3⟩ ⟨3⟩ :=
    .tail (.tail (.tail (.single (show countdown.flow.Edge ⟨3⟩ ⟨4⟩ by decide))
      (show countdown.flow.Edge ⟨4⟩ ⟨5⟩ by decide)) (show countdown.flow.Edge ⟨5⟩ ⟨2⟩ by decide))
      (by decide)
  have hthree : ([⟨5⟩, ⟨5⟩, .entry, ⟨2⟩, ⟨99⟩].foldl Method.remove countdown).HasNode ⟨3⟩ :=
    .inr (.inr (by decide))
  exact ⟨build_countdown, (hremoves ⟨3⟩).1.2 (by decide),
    Bool.eq_false_iff.2 (mt (hremoves ⟨5⟩).1.1 (by decide)), hbody.trans (by decide), by decide,
    (hleads ⟨3⟩ ⟨3⟩ hthree hthree).2 hbefore, hflow⟩

end Method

end ClassLowering
