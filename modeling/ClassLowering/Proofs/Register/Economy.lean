import ClassLowering.Proofs.Execution.DeadStores
import ClassLowering.Proofs.Liveness.Coincidence
import ClassLowering.Proofs.Register.Budget
import ClassLowering.Proofs.Register.Compact
import ClassLowering.Proofs.Register.Density

namespace ClassLowering

namespace Method

open InterferenceGraph

variable {m m' m'' : Method} {before after : Node → String → Prop}

theorem Covers.removeAll {nodes : List Node} (hc : m.Covers before after) (hm : m.WellFormed)
    (hdead : ∀ n ∈ nodes, n ∉ m.body ∨ m.Unneeded after n) :
    (nodes.foldl Method.remove m).Covers before after := by
  induction nodes generalizing m with
  | nil => exact hc
  | cons n rest ih =>
    obtain ⟨hn, hrest⟩ := List.forall_mem_cons.1 hdead
    rw [List.foldl_cons]
    rcases hn with hn | hd
    · rw [remove_of_not_mem hn]
      exact ih hc hm hrest
    · refine ih (hc.remove hm hd) (hm.remove n) fun k hk => ?_
      rw [mem_body_remove]
      by_cases hkn : k = n
      · exact .inl fun hb => hb.2 hkn
      · exact (hrest k hk).imp (fun hb hb' => hb hb'.1) fun hd => hd.remove hkn

theorem mem_body_of_edge (hm : m.WellFormed) {a b c : Node} (ha : m.flow.Edge a b)
    (hb : m.flow.Edge b c) : b ∈ m.body := by
  rcases hm.edge_target a b ha with rfl | h
  · exact absurd hb (hm.not_edge_exit c)
  · exact h

theorem Covers.after_of_liveOut (hc : m.Covers before after) (hm : m.WellFormed) {n : Node}
    {v : String} (hn : m.flow.Reachable n) (hb : n ∈ m.body)
    (h : (Liveness.compute m).LiveOut n v) : after n v := by
  obtain ⟨path, last, hp, hr, ha⟩ := (Liveness.liveOut_iff_path hm hn hb v).1 h
  clear h
  induction path generalizing n with
  | nil =>
    have he := (List.isChain_cons_cons.1 hp).1
    exact hc.edge n last v hn hb he (hc.reads last v (hn.tail he) hr)
  | cons s rest ih =>
    obtain ⟨he, hp⟩ := List.isChain_cons_cons.1 hp
    obtain ⟨hs, hrest⟩ := List.forall_mem_cons.1 ha
    have hsb : s ∈ m.body := by
      cases rest with
      | nil => exact mem_body_of_edge hm he (List.isChain_cons_cons.1 hp).1
      | cons t later => exact mem_body_of_edge hm he (List.isChain_cons_cons.1 hp).1
    have hafter := ih (hn.tail he) hsb hp hrest
    exact hc.edge n s v hn hb he (hc.through s v (hn.tail he) hsb hafter hs)

structure Shrunk (m m' : Method) : Prop where
  well_formed : m'.WellFormed
  instruction : ∀ n i, m'.instruction? n = some i → m.instruction? n = some i
  reachable : ∀ n, m'.flow.Reachable n → m.flow.Reachable n
  liveOut : ∀ n ∈ m'.body, m'.flow.Reachable n → ∀ v,
    (Liveness.compute m').LiveOut n v → (Liveness.compute m).LiveOut n v

theorem Shrunk.refl (hm : m.WellFormed) : m.Shrunk m :=
  ⟨hm, fun _ _ => id, fun _ => id, fun _ _ _ _ => id⟩

theorem Shrunk.mem_body (h : m.Shrunk m') {n : Node} (hn : n ∈ m'.body) : n ∈ m.body := by
  obtain ⟨i, hi⟩ := Method.exists_instruction? hn
  exact (instruction?_eq_some.1 (h.instruction n i hi)).1

theorem Shrunk.trans (h : m.Shrunk m') (h' : m'.Shrunk m'') : m.Shrunk m'' :=
  ⟨h'.well_formed, fun n i hi => h.instruction n i (h'.instruction n i hi),
    fun n hn => h.reachable n (h'.reachable n hn), fun n hb hn v hv =>
      h.liveOut n (h'.mem_body hb) (h'.reachable n hn) v (h'.liveOut n hb hn v hv)⟩

theorem Shrunk.of_coincides (h : m.Coincides m') (hm : m.WellFormed) (hm' : m'.WellFormed) :
    m.Shrunk m' := by
  refine ⟨hm', fun n i hi => (h.instruction?_eq n).symm.trans hi,
    fun n hn => (h.reachable_iff n).1 hn, fun n hb hn v hv => ?_⟩
  have horder : n ∈ (Liveness.start m).order :=
    (h.mem_order_iff hm hm' n).1 ((Liveness.mem_order hm').2 ⟨hn, hb⟩)
  exact (h.liveOut_iff hm hm' horder v).1 hv

theorem instruction?_of_removeAll {nodes : List Node} {n : Node} {i : Instruction}
    (h : (nodes.foldl Method.remove m).instruction? n = some i) : m.instruction? n = some i := by
  induction nodes generalizing m with
  | nil => exact h
  | cons k rest ih => exact (instruction?_remove.1 (ih h)).1

theorem shrunk_removeDeadStores (hm : m.WellFormed) : m.Shrunk (Pass.removeDeadStores m).1 := by
  rw [Pipeline.removeDeadStores_method]
  generalize hnodes : (m.deadStores (.compute m)).map Prod.fst = nodes
  have hdead : ∀ n ∈ nodes, n ∉ m.body ∨ m.Unneeded (Liveness.compute m).LiveOut n := by
    intro n hn
    rw [← hnodes] at hn
    obtain ⟨⟨k, name⟩, hd, rfl⟩ := List.mem_map.1 hn
    exact .inr (unneeded_of_dead hd)
  have hcovers := (covers_compute hm).removeAll hm hdead
  have hwell := hm.removeAll nodes
  exact ⟨hwell, fun n i => instruction?_of_removeAll, fun n => reachable_of_removeAll hm,
    fun n hb hn v => hcovers.after_of_liveOut hwell hn hb⟩

theorem shrunk_optimize (hm : m.WellFormed) (passes : List Pass) :
    m.Shrunk (Pipeline.optimize passes m).method := by
  refine Pipeline.optimize_induction (P := m.Shrunk) (fun m' h => ?_) (fun m' h => ?_) passes
    (.refl hm)
  · exact h.trans (shrunk_removeDeadStores h.well_formed)
  · exact h.trans (.of_coincides ⟨rfl, rfl, fun _ _ => .rfl⟩ h.well_formed h.well_formed.renumber)

theorem Shrunk.conflicts_subset (h : m.Shrunk m') (hm : m.WellFormed) {c : String × String}
    (hc : c ∈ conflicts (.compute m')) : c ∈ conflicts (.compute m) := by
  obtain ⟨a, b⟩ := c
  rw [mem_conflicts h.well_formed] at hc
  rw [mem_conflicts hm]
  obtain ⟨n, hn, ⟨i, hi, ha⟩, hb⟩ := hc
  obtain ⟨hreach, hbody⟩ := (Liveness.mem_order h.well_formed).1 hn
  exact ⟨n, (Liveness.mem_order hm).2 ⟨h.reachable n hreach, h.mem_body hbody⟩,
    ⟨i, h.instruction n i hi, ha⟩, h.liveOut n hbody hreach b hb⟩

theorem Shrunk.graph_within (h : m.Shrunk m') (hm : m.WellFormed)
    (hlocals : ∀ v ∈ localNames m', v ∈ localNames m) :
    (ofMethod m' (.compute m')).Within (ofMethod m (.compute m)) := by
  refine ⟨fun a ha => ?_, fun a b hab => ?_⟩
  · rw [(ofMethod_spec m' _).2.2.1] at ha
    rw [(ofMethod_spec m _).2.2.1]
    exact hlocals a ha
  · rw [interferes_ofMethod_iff] at hab
    rw [interferes_ofMethod_iff]
    obtain ⟨⟨hne, ha, hb⟩, hc⟩ := hab
    exact ⟨⟨hne, hlocals a ha, hlocals b hb⟩,
      hc.imp (h.conflicts_subset hm) (h.conflicts_subset hm)⟩

theorem localNames_optimize {signature : Signature} {entries : List Entry}
    (hbuild : build signature entries = .ok m) (passes : List Pass) {v : String}
    (hv : v ∈ localNames (Pipeline.optimize passes m).method) : v ∈ localNames m := by
  have hreduct := (Reduct.of_build hbuild).optimize passes
  have hmention := hreduct.mentions_subset v ((compact_optimize hbuild passes).2 v hv)
  rw [mem_localNames, hreduct.signature_eq] at hv
  exact mem_localNames.2 ⟨(tabled_of_build hbuild).1.mention_mem v hmention, hv.2⟩

theorem allocate_isOk_iff {l : Liveness} {ceiling? : Option Nat} {k : Nat} :
    (∃ m', m.allocate l ceiling? = .ok (m', k)) ↔
      k = (ofMethod m l).simplify.budget ∧ (∀ ceiling ∈ ceiling?, k ≤ ceiling) ∧
        m.firstLocal + k ≤ maxRegister := by
  obtain ⟨hs, hu, -, hp, -⟩ := ofMethod_spec m l
  have hcolor : ((ofMethod m l).color m.name ceiling?).2 = .ok k ↔ _ := color_isOk_iff hs hu
  rw [← length_parameters_vertices, ← hp, ← hcolor, allocate]
  generalize (ofMethod m l).color m.name ceiling? = colored
  obtain ⟨g, outcome⟩ := colored
  cases outcome with
  | error fault => simp [Except.map]
  | ok budget =>
    constructor
    · rintro ⟨m', h⟩
      cases h
      rfl
    · rintro h
      cases h
      exact ⟨_, rfl⟩

theorem allocate_optimize {signature : Signature} {entries : List Entry}
    (hbuild : build signature entries = .ok m) (passes : List Pass) {ceiling? : Option Nat}
    {k : Nat} (h : m.allocate (.compute m) ceiling? = .ok (m', k)) :
    ∃ m'' k', (Pipeline.optimize passes m).method.allocate
        (.compute (Pipeline.optimize passes m).method) ceiling? = .ok (m'', k') ∧ k' ≤ k := by
  have hm := (build_spec hbuild).1
  have hsignature := ((Reduct.of_build hbuild).optimize passes).signature_eq
  obtain ⟨hs, hu, -⟩ := ofMethod_spec m (.compute m)
  obtain ⟨hs', hu', -⟩ := ofMethod_spec _ (.compute (Pipeline.optimize passes m).method)
  have hwithin := (shrunk_optimize hm passes).graph_within hm
    fun v => localNames_optimize hbuild passes
  have hbudget := budget_le_of_within hwithin hs hs' hu.isVisible_eq hu'.isVisible_eq
  obtain ⟨rfl, hceiling, hrange⟩ := allocate_isOk_iff.1 ⟨m', h⟩
  have hfirst : (Pipeline.optimize passes m).method.firstLocal = m.firstLocal := by
    rw [hsignature]
  obtain ⟨m'', h'⟩ := allocate_isOk_iff.2 ⟨rfl,
    fun ceiling hc => hbudget.trans (hceiling ceiling hc), by omega⟩
  exact ⟨m'', _, h', hbudget⟩

end Method

namespace Pipeline

variable {m : Method} {s : Summary}

theorem allocate_of_run {pipeline : Pipeline} (henabled : pipeline.allocation.isEnabled = true)
    (h : (run pipeline m).outcome = .ok s) :
    ∃ m' k, (optimize pipeline.passes m).method.allocate
      (.compute (optimize pipeline.passes m).method) pipeline.allocation.ceiling? = .ok (m', k) ∧
        s.registers = some k := by
  cases ha : (optimize pipeline.passes m).method.allocate
    (.compute (optimize pipeline.passes m).method) pipeline.allocation.ceiling? with
  | error fault =>
    rw [outcome_of_allocate_error pipeline henabled ha] at h
    cases h
  | ok result =>
    obtain ⟨m', k⟩ := result
    rw [(run_of_allocate pipeline henabled ha).2] at h
    cases h
    exact ⟨m', k, rfl, rfl⟩

theorem registers_le_of_run {signature : Signature} {entries : List Entry}
    (hbuild : Method.build signature entries = .ok m) (passes : List Pass) {a : Allocation}
    (ha : a.isEnabled = true) (h : (run { allocation := a } m).outcome = .ok s) :
    ∃ k, s.registers = some k ∧ ∃ s' k', (run { passes, allocation := a } m).outcome = .ok s' ∧
      s'.registers = some k' ∧ k' ≤ k := by
  obtain ⟨m', k, halloc, hk⟩ := allocate_of_run ha h
  rw [optimize_nil] at halloc
  obtain ⟨m'', k', halloc', hle⟩ := Method.allocate_optimize hbuild passes halloc
  exact ⟨k, hk, _, k', (run_of_allocate { passes, allocation := a } ha halloc').2, rfl, hle⟩

theorem optimized_registers_le {signature : Signature} {entries : List Entry}
    (hbuild : Method.build signature entries = .ok m) (passes : List Pass) :
    (∀ s, (run { allocation := .minimal } m).outcome = .ok s →
      ∃ k, s.registers = some k ∧ ∃ s' k',
        (run { passes, allocation := .minimal } m).outcome = .ok s' ∧
          s'.registers = some k' ∧ k' ≤ k) ∧
    ∀ n s, (run { allocation := .atMost n } m).outcome = .ok s →
      ∃ s', (run { passes, allocation := .atMost n } m).outcome = .ok s' := by
  refine ⟨fun s h => registers_le_of_run hbuild passes rfl h, fun n s h => ?_⟩
  obtain ⟨k, -, s', k', h', -⟩ := registers_le_of_run hbuild passes rfl h
  exact ⟨s', h'⟩

def spareEntries : List Entry :=
  [.instruction (.assign (.var "x" .int) (.single (.literal 1 .int))),
    .instruction (.assign (.var "d" .int) (.single (.var "x" .int))),
    .instruction (.ret (some (.var "x" .int)))]

def spareSignature : Signature := { name := "spare", isStatic := true, result := .int }

def spare : Method :=
  { spareSignature with
    code := (Method.codeOf spareEntries).toArray
    body := [⟨2⟩, ⟨3⟩, ⟨4⟩]
    table := { entries := [("x", ⟨.int, some 0⟩), ("d", ⟨.int, some 1⟩)] }
    flow := ⟨#[⟨[⟨2⟩], []⟩, ⟨[], [⟨4⟩]⟩, ⟨[⟨3⟩], [⟨0⟩]⟩, ⟨[⟨4⟩], [⟨2⟩]⟩, ⟨[⟨1⟩], [⟨3⟩]⟩]⟩ }

theorem optimized_registers_spare :
    Method.build spareSignature spareEntries = .ok spare ∧
      (run { allocation := .minimal } spare).outcome = .ok { registers := some 2 } ∧
      (run { passes := [.deadStoreElimination], allocation := .atMost 1 } spare).outcome =
        .ok { rounds := 1, removed := 1, registers := some 1 } ∧
      ∃ s' k', (run { passes := [.deadStoreElimination], allocation := .minimal }
        spare).outcome = .ok s' ∧ s'.registers = some k' ∧ k' ≤ 2 := by
  have hbuild : Method.build spareSignature spareEntries = .ok spare := by decide +kernel
  have hrun : (run { allocation := .minimal } spare).outcome = .ok { registers := some 2 } := by
    decide +kernel
  obtain ⟨k, hk, hoptimized⟩ :=
    (optimized_registers_le hbuild [.deadStoreElimination]).1 _ hrun
  cases hk
  exact ⟨hbuild, hrun, by decide +kernel, hoptimized⟩

end Pipeline

end ClassLowering
