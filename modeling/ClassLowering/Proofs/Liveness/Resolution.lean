import ClassLowering.Proofs.Liveness.Iteration
import Mathlib.Order.Filter.AtTopBot.Basic
import Mathlib.Order.Filter.Finite

namespace ClassLowering

namespace Liveness

variable {g : FlowGraph} {l : Liveness} {i d e k : Nat} {n s t c : Node}

structure Carrier (l : Liveness) (i : Nat) (n : Node) : Prop where
  ordered : n ∈ l.order
  not_reads : ¬ l.Reads n i
  not_writes : ¬ l.Writes n i

inductive Carried (g : FlowGraph) (l : Liveness) (i : Nat) : Nat → Node → Node → Prop where
  | refl (n : Node) : Carried g l i 0 n n
  | early {d : Nat} {n s t : Node} : l.Carrier i n → g.Edge n s → l.Early s n →
      Carried g l i d s t → Carried g l i d n t
  | late {d : Nat} {n s t : Node} : l.Carrier i n → g.Edge n s → ¬ l.Early s n →
      Carried g l i d s t → Carried g l i (d + 1) n t

theorem Carried.trans (h : Carried g l i d n s) (h' : Carried g l i e s t) :
    Carried g l i (d + e) n t := by
  induction h with
  | refl n => exact (Nat.zero_add e).symm ▸ h'
  | early hc he hs _ ih => exact .early hc he hs (ih h')
  | late hc he hs _ ih => exact (Nat.succ_add _ e).symm ▸ .late hc he hs (ih h')

theorem Carried.carrier (h : Carried g l i d n t) (hd : 0 < d) : l.Carrier i n := by
  cases h with
  | refl => exact absurd hd (Nat.lt_irrefl 0)
  | early hc => exact hc
  | late hc => exact hc

theorem Carried.turns (h : Carried g l i e c c) (q : Nat) : Carried g l i (q * e) c c := by
  induction q with
  | zero => exact (Nat.zero_mul e).symm ▸ .refl c
  | succ q ih => exact (Nat.succ_mul q e).symm ▸ ih.trans h

theorem Carried.any_turns (h : Carried g l i e c c) (h' : Carried g l i (e + 1) c c) {a : Nat}
    (ha : e * e ≤ a) : Carried g l i a c c := by
  have hsplit : (a / e - a % e) * e + a % e * (e + 1) = a := by
    obtain rfl | hpos := Nat.eq_zero_or_pos e
    · simp
    · have hle : a % e ≤ a / e :=
        (Nat.mod_lt a hpos).le.trans ((Nat.le_div_iff_mul_le hpos).2 ha)
      have hmul := Nat.mul_le_mul_right e hle
      have hdiv := Nat.div_add_mod' a e
      rw [Nat.sub_mul, Nat.mul_succ]
      omega
  exact hsplit ▸ (h.turns _).trans (h'.turns _)

theorem in_passed_of_not_mem (hl : l.Regular) (hF : l.Fits l.facts) (hn : n ∉ l.order) (k : Nat) :
    l.In (passed g l k) n i ↔ l.In l.facts n i := by
  induction k with
  | zero => exact Iff.rfl
  | succ k ih =>
    rw [← ih, passed_succ, In, In, factsIn_pass_of_not_mem hl (fits_passed hl hF g k) hn]

theorem in_passed_succ (hl : l.Regular) (hF : l.Fits l.facts) (hn : n ∈ l.order) (k : Nat) :
    l.In (passed g l (k + 1)) n i ↔
      l.Reads n i ∨ (∃ s, g.Edge n s ∧
        if l.Early s n then l.In (passed g l (k + 1)) s i else l.In (passed g l k) s i) ∧
          ¬ l.Writes n i := by
  rw [passed_succ]
  exact (pass_at hl (fits_passed hl hF g k) hn i).1

theorem Carried.live (hl : l.Regular) (hF : l.Fits l.facts) (h : Carried g l i d n t) (hk : 0 < k)
    (ht : l.In (passed g l k) t i) : l.In (passed g l (k + d)) n i := by
  induction h with
  | refl n => exact ht
  | @early d n s t hc he hs _ ih =>
    obtain ⟨p, hp⟩ := Nat.exists_eq_add_one.2 (Nat.lt_of_lt_of_le hk (Nat.le_add_right k d))
    have hlive := ih ht
    rw [hp] at hlive ⊢
    exact (in_passed_succ hl hF hc.ordered p).2 (.inr ⟨⟨s, he, by rwa [if_pos hs]⟩, hc.not_writes⟩)
  | @late d n s t hc he hs _ ih =>
    exact (in_passed_succ hl hF hc.ordered (k + d)).2
      (.inr ⟨⟨s, he, by rw [if_neg hs]; exact ih ht⟩, hc.not_writes⟩)

def Sure (l : Liveness) (i : Nat) (n : Node) : Prop :=
  n ∈ l.order ∧ l.Reads n i ∨ n ∉ l.order ∧ l.In l.facts n i

def Grounded (g : FlowGraph) (l : Liveness) (i : Nat) (n : Node) : Prop :=
  ∃ d t, Carried g l i d n t ∧ Sure l i t

theorem Grounded.of_carried (hs : Grounded g l i s) (h : Carried g l i d n s) :
    Grounded g l i n := by
  obtain ⟨e, t, ht, hsure⟩ := hs
  exact ⟨d + e, t, h.trans ht, hsure⟩

theorem Sure.live (hl : l.Regular) (hF : l.Fits l.facts) (h : Sure l i n) (hk : 0 < k) :
    l.In (passed g l k) n i := by
  obtain ⟨hn, hr⟩ | ⟨hn, hin⟩ := h
  · obtain ⟨p, rfl⟩ := Nat.exists_eq_add_one.2 hk
    exact (in_passed_succ hl hF hn p).2 (.inl hr)
  · exact (in_passed_of_not_mem hl hF hn k).2 hin

theorem Grounded.live (hl : l.Regular) (hF : l.Fits l.facts) (h : Grounded g l i n) :
    ∃ K, ∀ k ≥ K, l.In (passed g l k) n i := by
  obtain ⟨d, t, ht, hsure⟩ := h
  refine ⟨d + 1, fun k hk => ?_⟩
  have hpos : 0 < k - d := Nat.sub_pos_of_lt hk
  have hlive := ht.live hl hF hpos (hsure.live hl hF hpos)
  rwa [Nat.sub_add_cancel (Nat.le_of_succ_le hk)] at hlive

theorem mem_order_of_live (hl : l.Regular) (hF : l.Fits l.facts) (h : l.In (passed g l k) n i)
    (hn : ¬ Grounded g l i n) : n ∈ l.order := by
  by_contra ho
  exact hn ⟨0, n, .refl n, .inr ⟨ho, (in_passed_of_not_mem hl hF ho k).1 h⟩⟩

theorem exists_carried_one (hl : l.Regular) (hF : l.Fits l.facts)
    (h : l.In (passed g l (k + 1)) n i) (hn : ¬ Grounded g l i n) :
    ∃ t, Carried g l i 1 n t ∧ l.In (passed g l k) t i := by
  induction hp : l.order.idxOf n using Nat.strong_induction_on generalizing n with
  | _ p ih =>
    have ho := mem_order_of_live hl hF h hn
    obtain hr | ⟨⟨s, he, hs⟩, hw⟩ := (in_passed_succ hl hF ho k).1 h
    · exact absurd ⟨0, n, .refl n, .inl ⟨ho, hr⟩⟩ hn
    · have hc : l.Carrier i n := ⟨ho, fun hr => hn ⟨0, n, .refl n, .inl ⟨ho, hr⟩⟩, hw⟩
      by_cases hearly : l.Early s n
      · rw [if_pos hearly] at hs
        have hs' : ¬ Grounded g l i s := fun hg => hn (hg.of_carried (.early hc he hearly (.refl s)))
        obtain ⟨t, ht, hlive⟩ := ih _ (hp ▸ hearly) hs hs' rfl
        exact ⟨t, .early hc he hearly ht, hlive⟩
      · rw [if_neg hearly] at hs
        exact ⟨s, .late hc he hearly (.refl s), hs⟩

theorem exists_loop (hl : l.Regular) (hF : l.Fits l.facts) {seen : List Node} (hnodup : seen.Nodup)
    (hseen : ∀ c ∈ seen, c ∈ l.order ∧ ∃ p, 0 < p ∧ Carried g l i p c n)
    (h : l.In (passed g l (k + d)) n i) (hn : ¬ Grounded g l i n)
    (hlong : l.order.length < seen.length + d + 1) :
    ∃ c j a p, k ≤ j ∧ l.In (passed g l j) c i ∧ Carried g l i a n c ∧ 0 < p ∧
      Carried g l i p c c := by
  induction d generalizing n seen with
  | zero =>
    by_cases hmem : n ∈ seen
    · obtain ⟨-, p, hp, hloop⟩ := hseen n hmem
      exact ⟨n, k, 0, p, Nat.le_refl k, h, .refl n, hp, hloop⟩
    · have hall : n :: seen ⊆ l.order :=
        List.cons_subset.2 ⟨mem_order_of_live hl hF h hn, fun c hc => (hseen c hc).1⟩
      have hle := ((List.nodup_cons.2 ⟨hmem, hnodup⟩).subperm hall).length_le
      exact absurd hle (Nat.not_le.2 hlong)
  | succ d ih =>
    by_cases hmem : n ∈ seen
    · obtain ⟨-, p, hp, hloop⟩ := hseen n hmem
      exact ⟨n, k + (d + 1), 0, p, Nat.le_add_right _ _, h, .refl n, hp, hloop⟩
    · obtain ⟨t, ht, hlive⟩ := exists_carried_one hl hF h hn
      obtain ⟨c, j, a, p, hj, hc, hwalk, hp, hloop⟩ :=
        ih (List.nodup_cons.2 ⟨hmem, hnodup⟩)
          (List.forall_mem_cons.2 ⟨⟨mem_order_of_live hl hF h hn, 1, Nat.one_pos, ht⟩, fun c hc => by
            obtain ⟨ho, p, hp, hwalk⟩ := hseen c hc
            exact ⟨ho, p + 1, Nat.succ_pos p, hwalk.trans ht⟩⟩)
          hlive (fun hg => hn (hg.of_carried ht)) (by rw [List.length_cons]; omega)
      exact ⟨c, j, 1 + a, p, hj, hc, ht.trans hwalk, hp, hloop⟩

def Mixing (g : FlowGraph) (l : Liveness) : Prop :=
  ∀ i < l.bound, ∀ c d, 0 < d → Carried g l i d c c →
    ∃ e, Carried g l i e c c ∧ Carried g l i (e + 1) c c

theorem eventually_steady (hl : l.Regular) (hF : l.Fits l.facts) (hmix : Mixing g l)
    (hi : i < l.bound) (n : Node) :
    ∀ᶠ k in Filter.atTop, (l.In (passed g l (k + 1)) n i ↔ l.In (passed g l k) n i) := by
  rw [Filter.eventually_atTop]
  by_cases hn : Grounded g l i n
  · obtain ⟨K, hK⟩ := hn.live hl hF
    exact ⟨K, fun k hk => iff_of_true (hK _ (Nat.le_succ_of_le hk)) (hK k hk)⟩
  · by_cases hsome : ∃ k, l.In (passed g l (1 + (l.order.length + k))) n i
    · obtain ⟨k, hk⟩ := hsome
      obtain ⟨c, j, a, p, hj, hc, hwalk, hp, hloop⟩ :=
        exists_loop hl hF List.nodup_nil nofun hk hn (by rw [List.length_nil]; omega)
      obtain ⟨e, he, he'⟩ := hmix i hi c p hp hloop
      -- From `c` it takes `a` passes to the node, after any number of passes around `c`.
      have hlive (k' : Nat) (hk' : j + e * e + a ≤ k') : l.In (passed g l k') n i := by
        have hturns := he.any_turns he' (a := k' - a - j) (by omega)
        have hat := (hwalk.trans hturns).live hl hF hj hc
        rwa [show j + (a + (k' - a - j)) = k' by omega] at hat
      exact ⟨j + e * e + a, fun k hk => iff_of_true (hlive _ (Nat.le_succ_of_le hk)) (hlive k hk)⟩
    · have hdead (k' : Nat) (hk' : 1 + l.order.length ≤ k') : ¬ l.In (passed g l k') n i := by
        obtain ⟨k, rfl⟩ := Nat.exists_eq_add_of_le hk'
        exact fun h => hsome ⟨k, by rwa [← Nat.add_assoc]⟩
      exact ⟨1 + l.order.length, fun k hk =>
        iff_of_false (hdead _ (Nat.le_succ_of_le hk)) (hdead k hk)⟩

theorem exists_settled_of_eventually (hl : l.Regular) (hF : l.Fits l.facts)
    (h : ∀ i < l.bound, ∀ n,
      ∀ᶠ k in Filter.atTop, (l.In (passed g l (k + 1)) n i ↔ l.In (passed g l k) n i)) :
    ∃ k, passed g l (k + 1) = passed g l k := by
  have hplaces : ∀ᶠ k in Filter.atTop, ∀ q ∈ l.places,
      (l.In (passed g l (k + 1)) q.1 q.2.2 ↔ l.In (passed g l k) q.1 q.2.2) := by
    refine (Filter.eventually_all_finset l.places).2 fun q hq => h q.2.2 ?_ q.1
    exact Finset.mem_range.1 (Finset.mem_product.1 (Finset.mem_product.1 hq).2).2
  obtain ⟨K, hK⟩ := Filter.eventually_atTop.1 hplaces
  have hin (k : Nat) (hk : K ≤ k) (n : Node) (i : Nat) :
      l.In (passed g l (k + 1)) n i ↔ l.In (passed g l k) n i := by
    by_cases hn : n ∈ l.order
    · by_cases hi : i < l.bound
      · exact hK k hk (n, true, i) (by simp [places, hn, hi])
      · exact iff_of_false (fun h => hi (((fits_passed hl hF g (k + 1)).liveIn_within n).lt h))
          fun h => hi (((fits_passed hl hF g k).liveIn_within n).lt h)
    · rw [in_passed_of_not_mem hl hF hn, in_passed_of_not_mem hl hF hn]
  have hat (k : Nat) (hk : K ≤ k) (n s : Node) (i : Nat) :
      InAt g l (passed g l k) n s i ↔ l.In (passed g l k) s i := by
    unfold InAt
    split
    · rw [← passed_succ, hin k hk]
    · exact Iff.rfl
  refine ⟨K + 1, (fits_passed hl hF g (K + 2)).ext (fits_passed hl hF g (K + 1))
    (fun n _ i => hin (K + 1) (Nat.le_succ K) n i) fun n hn i => ?_⟩
  rw [passed_succ g l (K + 1), (pass_at hl (fits_passed hl hF g (K + 1)) hn i).2,
    passed_succ g l K, (pass_at hl (fits_passed hl hF g K) hn i).2]
  refine exists_congr fun s => and_congr_right fun _ => ?_
  rw [← passed_succ, hat (K + 1) (Nat.le_succ K), hat K (Nat.le_refl K), hin K (Nat.le_refl K)]

theorem solve?_of_mixing (hl : l.Regular) (hF : l.Fits l.facts) (hmix : Mixing g l) :
    (solve? g l).isSome = true := by
  obtain ⟨k, hk⟩ := exists_settled_of_eventually hl hF fun i hi n => eventually_steady hl hF hmix hi n
  exact solve?_isSome hl hF hk

section Computed

variable {F : Array Facts} {passes : Nat} {m : Method}

theorem Regular.withFacts (hl : l.Regular) (hF : l.Fits F) :
    Regular { l with facts := F, passes := passes } := by
  refine ⟨hl.order_nodup, fun n hn => hF.size_eq.symm ▸ hl.order_lt n hn, fun n => ?_, fun n => ?_⟩
  · exact hF.reads_eq n ▸ hl.reads_within n
  · exact hF.writes_eq n ▸ hl.writes_within n

theorem Fits.withFacts (hF : l.Fits F) : Fits { l with facts := F, passes := passes } F :=
  ⟨rfl, hF.liveIn_within, hF.liveOut_within, fun _ => rfl, fun _ => rfl, fun _ _ => rfl⟩

theorem Solves.withFacts (hF : l.Fits F) (hs : Solves g l F) :
    Solves g { l with facts := F, passes := passes } F := by
  refine ⟨hs.out_iff, fun n hn i => (hs.in_iff n hn i).trans ?_⟩
  rw [Reads, Writes, ← hF.reads_eq, ← hF.writes_eq]
  exact Iff.rfl

theorem compute_solves (hm : m.WellFormed) :
    (compute m).Regular ∧ (compute m).Fits (compute m).facts ∧
      Solves m.flow (compute m) (compute m).facts := by
  obtain ⟨F, passes, hc, -, hF, hs, -⟩ := compute_spec hm
  rw [hc]
  exact ⟨(start_regular hm).withFacts hF, hF.withFacts, hs.withFacts hF⟩

theorem Solves.reasoned {h : FlowGraph} (hs : Solves h l F)
    (hsub : ∀ n ∈ l.order, ∀ s, h.Edge n s → g.Edge n s) : Reasoned g l F := by
  have hout (n : Node) (hn : n ∈ l.order) (i : Nat) (ho : l.Out F n i) :
      ∃ s, g.Edge n s ∧ l.In F s i := by
    obtain ⟨s, he, hin⟩ := (hs.out_iff n hn i).1 ho
    exact ⟨s, hsub n hn s he, hin⟩
  refine ⟨hout, fun n hn i h => ?_⟩
  exact ((hs.in_iff n hn i).1 h).imp_right fun h => ⟨hout n hn i h.1, h.2⟩

theorem Solves.saturated {h : FlowGraph} (hs : Solves h l F)
    (hsub : ∀ n ∈ l.order, ∀ s, g.Edge n s → h.Edge n s) : Saturated g l F := by
  have hout (n : Node) (hn : n ∈ l.order) (i : Nat) (h : ∃ s, g.Edge n s ∧ l.In F s i) :
      l.Out F n i := by
    obtain ⟨s, he, hin⟩ := h
    exact (hs.out_iff n hn i).2 ⟨s, hsub n hn s he, hin⟩
  refine ⟨hout, fun n hn i h => (hs.in_iff n hn i).2 ?_⟩
  exact h.imp_right fun h => ⟨hout n hn i h.1, h.2⟩

theorem resolution_settles {signature : Signature} {entries : List Entry}
    (hbuild : Method.build signature entries = .ok m) (g : FlowGraph) :
    let l := compute m
    (solve? g l = none ↔ ∀ k, passed g l (k + 1) ≠ passed g l k) ∧
      (∀ solved, solve? g l = some solved →
        solved.order = l.order ∧ Solves g l solved.facts) ∧
      (Mixing g l → (solve? g l).isSome = true) ∧
      ((∀ n ∈ l.order, ∀ s, m.flow.Edge n s → g.Edge n s) ∨
        (∀ n ∈ l.order, ∀ s, g.Edge n s → m.flow.Edge n s) → (solve? g l).isSome = true) := by
  obtain ⟨hl, hF, hs⟩ := compute_solves (Method.build_spec hbuild).1
  refine ⟨solve?_eq_none_iff hl hF, fun solved => solves_of_solve? hl hF,
    solve?_of_mixing hl hF, ?_⟩
  rintro (hmore | hfewer)
  · exact solve?_of_reasoned hl hF (hs.reasoned hmore)
  · exact solve?_of_saturated hl hF (hs.saturated hfewer)

def spinEntries : List Entry :=
  [.instruction (.assign (.var "k" .int) (.single (.literal 0 .int))), .label "a",
    .instruction (.goto "a")]

def spinSignature : Signature := { name := "spin", isStatic := true }

def spin : Method :=
  { spinSignature with
    code := (Method.codeOf spinEntries).toArray
    body := [⟨2⟩, ⟨3⟩]
    labels := [("a", ⟨3⟩)]
    table := { entries := [("k", ⟨.int, some 0⟩)] }
    flow := ⟨#[⟨[⟨2⟩], []⟩, ⟨[], []⟩, ⟨[⟨3⟩], [⟨0⟩]⟩, ⟨[⟨3⟩], [⟨2⟩, ⟨3⟩]⟩]⟩ }

def turnedFlow : FlowGraph := (spin.flow.removeEdge ⟨2⟩ ⟨3⟩).addEdge ⟨3⟩ ⟨2⟩

theorem order_spin : (compute spin).order = [⟨3⟩, ⟨2⟩] := by decide +kernel

theorem mixing_turnedFlow : Mixing turnedFlow (compute spin) := by
  intro i hi c d hd hloop
  have hbound : (compute spin).bound = 1 := by decide +kernel
  have hwrites : (compute spin).Writes ⟨2⟩ 0 := by
    change ((compute spin).factsAt ⟨2⟩).writes.contains 0 = true
    decide +kernel
  obtain rfl : i = 0 := Nat.lt_one_iff.1 (hbound ▸ hi)
  have hc := hloop.carrier hd
  have hmem := hc.ordered
  rw [order_spin] at hmem
  obtain rfl | hmem := List.mem_cons.1 hmem
  · have hedge : turnedFlow.Edge ⟨3⟩ ⟨3⟩ := by
      change (⟨3⟩ : Node) ∈ turnedFlow.successors ⟨3⟩
      decide
    exact ⟨0, .refl _, .late hc hedge (Nat.lt_irrefl _) (.refl _)⟩
  · obtain rfl := List.mem_singleton.1 hmem
    exact absurd hwrites hc.not_writes

theorem resolution_settles_spin :
    Method.build spinSignature spinEntries = .ok spin ∧
      (∃ solved, solve? turnedFlow (compute spin) = some solved ∧ solved.order = [⟨3⟩, ⟨2⟩] ∧
        Solves turnedFlow (compute spin) solved.facts) ∧
      (solve? (spin.flow.removeEdge ⟨3⟩ ⟨3⟩) (compute spin)).isSome = true := by
  have hbuild : Method.build spinSignature spinEntries = .ok spin := by decide +kernel
  obtain ⟨-, hsolves, hmixing, -⟩ := resolution_settles hbuild turnedFlow
  obtain ⟨-, -, -, hone⟩ := resolution_settles hbuild (spin.flow.removeEdge ⟨3⟩ ⟨3⟩)
  refine ⟨hbuild, ?_, hone (.inr ?_)⟩
  · obtain ⟨solved, hsolved⟩ := Option.isSome_iff_exists.1 (hmixing mixing_turnedFlow)
    obtain ⟨horder, hsolution⟩ := hsolves solved hsolved
    exact ⟨solved, hsolved, horder.trans order_spin, hsolution⟩
  · rw [order_spin]
    change ∀ n ∈ [⟨3⟩, ⟨2⟩], ∀ s ∈ (spin.flow.removeEdge ⟨3⟩ ⟨3⟩).successors n,
      s ∈ spin.flow.successors n
    decide

def swingEntries : List Entry :=
  [.instruction (.goto "c"),
    .label "a", .instruction (.single (.literal 0 .int)), .instruction (.ret none),
    .label "b", .instruction (.single (.literal 0 .int)), .instruction (.single (.var "v" .int)),
    .instruction (.goto "a"),
    .label "c", .instruction (.branch (.single (.var "w" .int)) "a"),
    .instruction (.assign (.var "v" .int) (.single (.literal 1 .int))),
    .instruction (.goto "b")]

def swingSignature : Signature :=
  { name := "swing", isStatic := true, parameters := [⟨"w", .int⟩] }

def swing : Method :=
  { swingSignature with
    code := (Method.codeOf swingEntries).toArray
    body := [⟨2⟩, ⟨3⟩, ⟨4⟩, ⟨5⟩, ⟨6⟩, ⟨7⟩, ⟨8⟩, ⟨9⟩, ⟨10⟩]
    labels := [("a", ⟨3⟩), ("b", ⟨5⟩), ("c", ⟨8⟩)]
    table := { entries := [("w", ⟨.int, some 0⟩), ("v", ⟨.int, some 1⟩)] }
    flow := ⟨#[⟨[⟨2⟩], []⟩, ⟨[], [⟨4⟩]⟩, ⟨[⟨8⟩], [⟨0⟩]⟩, ⟨[⟨4⟩], [⟨7⟩, ⟨8⟩]⟩, ⟨[⟨1⟩], [⟨3⟩]⟩,
      ⟨[⟨6⟩], [⟨10⟩]⟩, ⟨[⟨7⟩], [⟨5⟩]⟩, ⟨[⟨3⟩], [⟨6⟩]⟩, ⟨[⟨9⟩, ⟨3⟩], [⟨2⟩]⟩, ⟨[⟨10⟩], [⟨8⟩]⟩,
      ⟨[⟨5⟩], [⟨9⟩]⟩]⟩ }

def swingFlow : FlowGraph :=
  ⟨#[⟨[⟨2⟩], []⟩, ⟨[], [⟨8⟩]⟩, ⟨[⟨8⟩], [⟨0⟩]⟩, ⟨[⟨5⟩], [⟨8⟩]⟩, ⟨[], []⟩, ⟨[⟨8⟩], [⟨3⟩]⟩, ⟨[], []⟩,
    ⟨[], []⟩, ⟨[⟨1⟩, ⟨3⟩], [⟨2⟩, ⟨5⟩]⟩, ⟨[], []⟩, ⟨[], []⟩]⟩

theorem swing_never_settles :
    Method.build swingSignature swingEntries = .ok swing ∧
      ([⟨4⟩, ⟨6⟩, ⟨7⟩, ⟨9⟩, ⟨10⟩].foldl Method.remove swing).bodyFlow = .ok swingFlow ∧
      solve? swingFlow (compute swing) = none ∧
      ∀ k, passed swingFlow (compute swing) (k + 1) ≠ passed swingFlow (compute swing) k := by
  have hbuild : Method.build swingSignature swingEntries = .ok swing := by decide +kernel
  obtain ⟨hl, hF, -⟩ := compute_solves (Method.build_spec hbuild).1
  have hrepeat : passed swingFlow (compute swing) 2 = passed swingFlow (compute swing) 4 := by
    decide +kernel
  have hswings : passed swingFlow (compute swing) 3 ≠ passed swingFlow (compute swing) 2 := by
    decide +kernel
  have hnever (k : Nat) :
      passed swingFlow (compute swing) (k + 1) ≠ passed swingFlow (compute swing) k :=
    fun h => hswings (settled_of_repeat (by decide) hrepeat h)
  exact ⟨hbuild, by decide +kernel, (solve?_eq_none_iff hl hF).2 hnever, hnever⟩

end Computed

end Liveness

end ClassLowering
