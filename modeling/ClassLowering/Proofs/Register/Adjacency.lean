import ClassLowering.Proofs.Register.Drawing

namespace ClassLowering

namespace InterferenceGraph

variable {m : Method}

theorem mem_order_of_writesHas (hm : m.WellFormed) {n : Node} {a : String}
    (h : (Liveness.compute m).writesHas n a = true) : n ∈ (Liveness.start m).order := by
  by_contra hn
  obtain ⟨k, -, hk⟩ := Liveness.writesHas_iff.1 h
  rw [Liveness.writes_compute hm, Liveness.factsAt_start_of_not_mem hn] at hk
  simp [Facts.empty, IndexSet.contains_empty] at hk

theorem mem_conflicts_iff (hm : m.WellFormed) {a b : String} :
    (a, b) ∈ conflicts (.compute m) ↔ ∃ n, m.flow.Reachable n ∧
      (Liveness.compute m).writesHas n a = true ∧ (Liveness.compute m).liveOutHas n b = true := by
  rw [mem_conflicts hm]
  refine exists_congr fun n => ?_
  rw [Liveness.liveOutHas_iff]
  constructor
  · rintro ⟨hn, hwritten, hlive⟩
    exact ⟨((Liveness.mem_order hm).1 hn).1,
      Liveness.writesHas_iff.2 ((Liveness.has_writes_compute hm hn).2 hwritten), hlive⟩
  · rintro ⟨-, hwrites, hlive⟩
    have hn := mem_order_of_writesHas hm hwrites
    exact ⟨hn, (Liveness.has_writes_compute hm hn).1 (Liveness.writesHas_iff.1 hwrites), hlive⟩

theorem interferes_compute_iff (hm : m.WellFormed) {a b : String}
    (ha : a ∈ localNames m) (hb : b ∈ localNames m) (hne : a ≠ b) :
    (ofMethod m (.compute m)).interferes a b = true ↔ ∃ n, m.flow.Reachable n ∧
      ((Liveness.compute m).writesHas n a = true ∧ (Liveness.compute m).liveOutHas n b = true ∨
        (Liveness.compute m).writesHas n b = true ∧
          (Liveness.compute m).liveOutHas n a = true) := by
  rw [interferes_ofMethod_iff, mem_conflicts_iff hm, mem_conflicts_iff hm, ← exists_or]
  simp only [ha, hb, hne, ne_eq, not_false_iff, and_true, true_and, and_or_left]

theorem adjacency_specified {signature : Signature} {entries : List Entry}
    (hbuild : Method.build signature entries = .ok m) :
    let l := Liveness.compute m
    let g := ofMethod m l
    g.names = m.table.names.filter (fun a => a ≠ "this" && !m.isParameter a) ∧
    (∀ a ∈ g.names, ∀ b ∈ g.names, a ≠ b →
      (g.interferes a b = true ↔ ∃ n, m.flow.Reachable n ∧
        (l.writesHas n a = true ∧ l.liveOutHas n b = true ∨
          l.writesHas n b = true ∧ l.liveOutHas n a = true))) ∧
    g.Drawn ∧
    ∀ h : InterferenceGraph, h.Drawn →
      h.names.Nodup ∧
      (∀ v w, w ∈ h.neighbours v ↔ v ∈ h.neighbours w) ∧
      (∀ v, v ∉ h.neighbours v ∧ (h.neighbours v).Nodup ∧
        ∀ w ∈ h.neighbours v, w < h.locals.size) ∧
      (∀ a v, h.index? a = some v ↔ h.names[v]? = some a) ∧
      (∀ a, (h.addLocal a).index? a = some (h.enterLocal a).1) ∧
      ∀ a b, h.interferes a b = true ↔
        ∃ v w, h.index? a = some v ∧ h.index? b = some w ∧ w ∈ h.neighbours v := by
  have hm := (Method.build_spec hbuild).1
  have hlocals := (ofMethod_spec m (.compute m)).2.2.1
  refine ⟨hlocals, fun a ha b hb hne => ?_, .ofMethod m _, fun h hdrawn => ?_⟩
  · rw [hlocals] at ha hb
    exact interferes_compute_iff hm ha hb hne
  · have hs := hdrawn.blank.sound
    refine ⟨hs.names_nodup, fun v w => ⟨hs.symmetric v w, hs.symmetric w v⟩, fun v => ?_,
      fun a v => index?_eq_some_iff hs.names_nodup, index?_addLocal h, fun a b => ?_⟩
    · exact ⟨hs.irreflexive v, hs.neighbours_nodup v, hs.neighbours_lt v⟩
    · simp only [index?_eq_some_iff hs.names_nodup]
      exact interferes_iff hs

theorem adjacency_specified_ring :
    Method.build Method.ringSignature Method.ringEntries = .ok Method.ring ∧
      (ofMethod Method.ring (.compute Method.ring)).names = ["a", "b", "c", "d"] ∧
      (∃ n, Method.ring.flow.Reachable n ∧
        ((Liveness.compute Method.ring).writesHas n "a" = true ∧
            (Liveness.compute Method.ring).liveOutHas n "b" = true ∨
          (Liveness.compute Method.ring).writesHas n "b" = true ∧
            (Liveness.compute Method.ring).liveOutHas n "a" = true)) ∧
      (∀ n, Method.ring.flow.Reachable n → (Liveness.compute Method.ring).writesHas n "a" = true →
        (Liveness.compute Method.ring).liveOutHas n "c" = false) ∧
      sketch.index? "z" = some 2 ∧ 2 ∈ sketch.neighbours 1 := by
  have hbuild : Method.build Method.ringSignature Method.ringEntries = .ok Method.ring := by
    decide +kernel
  obtain ⟨hlocals, hadjacent, -, hdrawn⟩ := adjacency_specified hbuild
  have hnames : (ofMethod Method.ring (.compute Method.ring)).names = ["a", "b", "c", "d"] :=
    hlocals.trans (by decide)
  rw [hnames] at hadjacent
  have hab := hadjacent "a" (by decide) "b" (by decide) (by decide)
  have hac := hadjacent "a" (by decide) "c" (by decide) (by decide)
  obtain ⟨-, hsymmetric, -, hindex, -⟩ := hdrawn sketch drawn_sketch
  refine ⟨hbuild, hnames, hab.1 (by decide +kernel), fun n hn hwrites => ?_,
    (hindex "z" 2).2 (by decide +kernel), (hsymmetric 1 2).2 (by decide +kernel)⟩
  by_contra hlive
  have hjoined := hac.2 ⟨n, hn, .inl ⟨hwrites, by simpa using hlive⟩⟩
  exact absurd hjoined (by decide +kernel)

end InterferenceGraph

end ClassLowering
