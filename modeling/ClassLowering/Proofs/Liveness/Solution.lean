import ClassLowering.Proofs.Flow.Edges
import ClassLowering.Proofs.Liveness.Membership
import Mathlib.Data.Finset.Card
import Mathlib.Data.Finset.Prod
import Mathlib.Data.Fintype.Basic

namespace ClassLowering

theorem settle_of_measure {α : Type} [DecidableEq α] {step : α → α} {Inv : α → Prop}
    {μ : α → Nat} {most : Nat}
    (hstep : ∀ x, Inv x → Inv (step x) ∧ (step x ≠ x → μ x < μ (step x)))
    (hmost : ∀ x, Inv x → μ x ≤ most) {value : α} (h : Inv value) (done bound : Nat)
    (hb : most < μ value + bound) :
    ∃ result count, settle step value done bound = some (result, count) ∧ Inv result ∧
      done < count ∧ count ≤ done + (most - μ value) + 1 := by
  induction bound generalizing value done with
  | zero => exact absurd (hmost value h) (by omega)
  | succ bound ih =>
    simp only [settle]
    obtain ⟨hi, hlt⟩ := hstep value h
    split
    · exact ⟨value, done + 1, rfl, h, by omega, by omega⟩
    · next changed =>
      have hlt := hlt changed
      have hle := hmost _ hi
      obtain ⟨r, count, hs, hr, hlow, hhigh⟩ := ih hi (done + 1) (by omega)
      exact ⟨r, count, hs, hr, by omega, by omega⟩

namespace Liveness

def factsIn (l : Liveness) (F : Array Facts) (n : Node) : Facts :=
  (F[n.index]?).getD (.empty l.bound)

structure Regular (l : Liveness) : Prop where
  order_nodup : l.order.Nodup
  order_lt : ∀ n ∈ l.order, n.index < l.facts.size
  reads_within : ∀ n, (l.factsAt n).reads.Within l.bound
  writes_within : ∀ n, (l.factsAt n).writes.Within l.bound

structure Fits (l : Liveness) (F : Array Facts) : Prop where
  size_eq : F.size = l.facts.size
  liveIn_within : ∀ n, (l.factsIn F n).liveIn.Within l.bound
  liveOut_within : ∀ n, (l.factsIn F n).liveOut.Within l.bound
  reads_eq : ∀ n, (l.factsIn F n).reads = (l.factsAt n).reads
  writes_eq : ∀ n, (l.factsIn F n).writes = (l.factsAt n).writes
  outside : ∀ n, n ∉ l.order → l.factsIn F n = l.factsAt n

def In (l : Liveness) (F : Array Facts) (n : Node) (i : Nat) : Prop :=
  (l.factsIn F n).liveIn.contains i = true

def Out (l : Liveness) (F : Array Facts) (n : Node) (i : Nat) : Prop :=
  (l.factsIn F n).liveOut.contains i = true

def Reads (l : Liveness) (n : Node) (i : Nat) : Prop := (l.factsAt n).reads.contains i = true

def Writes (l : Liveness) (n : Node) (i : Nat) : Prop := (l.factsAt n).writes.contains i = true

structure Solves (g : FlowGraph) (l : Liveness) (F : Array Facts) : Prop where
  out_iff : ∀ n ∈ l.order, ∀ i, l.Out F n i ↔ ∃ s, g.Edge n s ∧ l.In F s i
  in_iff : ∀ n ∈ l.order, ∀ i, l.In F n i ↔ l.Reads n i ∨ l.Out F n i ∧ ¬ l.Writes n i

variable {g : FlowGraph} {l : Liveness} {F : Array Facts}

theorem liveBefore_spec (hF : l.Fits F) (after : List Node) :
    (liveBefore l.bound F after).Within l.bound ∧
      ∀ i, (liveBefore l.bound F after).contains i = true ↔ ∃ s ∈ after, l.In F s i := by
  have hin (n : Node) (f : Facts) (h : F[n.index]? = some f) : l.factsIn F n = f := by
    simp [factsIn, h]
  have hl : ∀ t ∈ after.filterMap fun n => (F[n.index]?).map Facts.liveIn, t.Within l.bound := by
    intro t ht
    obtain ⟨n, -, hn⟩ := List.mem_filterMap.1 ht
    obtain ⟨f, hf, rfl⟩ := Option.map_eq_some_iff.1 hn
    exact hin n f hf ▸ hF.liveIn_within n
  obtain ⟨hw, hc⟩ := IndexSet.foldl_union_spec _ hl (IndexSet.within_empty l.bound)
  refine ⟨hw, fun i => (hc i).trans ?_⟩
  rw [IndexSet.contains_empty]
  simp only [Bool.false_eq_true, false_or, List.mem_filterMap, Option.map_eq_some_iff]
  constructor
  · rintro ⟨t, ⟨n, hn, f, hf, rfl⟩, hi⟩
    exact ⟨n, hn, by rw [In, hin n f hf]; exact hi⟩
  · rintro ⟨n, hn, hi⟩
    cases hf : F[n.index]? with
    | none => simp [In, factsIn, hf, Facts.empty, IndexSet.contains_empty] at hi
    | some f =>
      rw [In, hin n f hf] at hi
      exact ⟨f.liveIn, ⟨n, hn, f, hf, rfl⟩, hi⟩

theorem factsIn_update (g : FlowGraph) {n : Node} (hn : n.index < F.size) (k : Node) :
    l.factsIn (update g l.bound F n) k =
      if k = n then
        { l.factsIn F n with
          liveOut := liveBefore l.bound F (g.successors n)
          liveIn := ((liveBefore l.bound F (g.successors n)).diff (l.factsIn F n).writes).union
            (l.factsIn F n).reads }
      else l.factsIn F k := by
  unfold factsIn update
  rw [Array.getElem?_modify]
  by_cases h : k = n
  · subst h
    simp [hn]
  · have hi : n.index ≠ k.index := by
      intro e
      cases k
      cases n
      exact h (by simpa using e.symm)
    simp [h, hi]

theorem size_update (g : FlowGraph) (bound : Nat) (F : Array Facts) (n : Node) :
    (update g bound F n).size = F.size := by
  simp [update]

theorem Fits.update (hl : l.Regular) (hF : l.Fits F) (g : FlowGraph) {n : Node}
    (hn : n ∈ l.order) : l.Fits (update g l.bound F n) := by
  have hlt : n.index < F.size := hF.size_eq ▸ hl.order_lt n hn
  have hout := (liveBefore_spec hF (g.successors n)).1
  have hu := factsIn_update (l := l) g hlt
  refine ⟨?_, fun k => ?_, fun k => ?_, fun k => ?_, fun k => ?_, fun k hk => ?_⟩
  · rw [size_update, hF.size_eq]
  · rw [hu]
    split
    · exact (hout.diff _).union (hF.reads_eq n ▸ hl.reads_within n)
    · exact hF.liveIn_within k
  · rw [hu]
    split
    · exact hout
    · exact hF.liveOut_within k
  · rw [hu]
    split
    · next h => exact h ▸ hF.reads_eq n
    · exact hF.reads_eq k
  · rw [hu]
    split
    · next h => exact h ▸ hF.writes_eq n
    · exact hF.writes_eq k
  · have h : k ≠ n := fun e => hk (e ▸ hn)
    rw [hu, if_neg h]
    exact hF.outside k hk

theorem out_update (hl : l.Regular) (hF : l.Fits F) (g : FlowGraph) {n : Node} (hn : n ∈ l.order)
    (k : Node) (i : Nat) :
    l.Out (update g l.bound F n) k i ↔
      if k = n then ∃ s, g.Edge n s ∧ l.In F s i else l.Out F k i := by
  have hlt : n.index < F.size := hF.size_eq ▸ hl.order_lt n hn
  unfold Out
  rw [factsIn_update g hlt]
  split
  · exact (liveBefore_spec hF (g.successors n)).2 i
  · rfl

theorem in_update (hl : l.Regular) (hF : l.Fits F) (g : FlowGraph) {n : Node} (hn : n ∈ l.order)
    (k : Node) (i : Nat) :
    l.In (update g l.bound F n) k i ↔
      if k = n then l.Reads n i ∨ (∃ s, g.Edge n s ∧ l.In F s i) ∧ ¬ l.Writes n i
      else l.In F k i := by
  have hlt : n.index < F.size := hF.size_eq ▸ hl.order_lt n hn
  obtain ⟨hw, hc⟩ := liveBefore_spec hF (g.successors n)
  rw [In, factsIn_update g hlt]
  split
  · simp only [hF.reads_eq, hF.writes_eq]
    rw [IndexSet.contains_union (hw.diff _) (hl.reads_within n),
      IndexSet.contains_diff hw (hl.writes_within n), hc, or_comm]
    rfl
  · rfl

theorem Fits.ext {G : Array Facts} (hF : l.Fits F) (hG : l.Fits G)
    (hin : ∀ n ∈ l.order, ∀ i, l.In F n i ↔ l.In G n i)
    (hout : ∀ n ∈ l.order, ∀ i, l.Out F n i ↔ l.Out G n i) : F = G := by
  have hsame (n : Node) : l.factsIn F n = l.factsIn G n := by
    by_cases hn : n ∈ l.order
    · have h₁ := (hF.reads_eq n).trans (hG.reads_eq n).symm
      have h₂ := (hF.writes_eq n).trans (hG.writes_eq n).symm
      have h₃ := (hF.liveIn_within n).ext (hG.liveIn_within n) (hin n hn)
      have h₄ := (hF.liveOut_within n).ext (hG.liveOut_within n) (hout n hn)
      cases hf : l.factsIn F n
      cases hg : l.factsIn G n
      simp_all
    · rw [hF.outside n hn, hG.outside n hn]
  refine Array.ext (hF.size_eq.trans hG.size_eq.symm) fun i hi hi' => ?_
  have h := hsame ⟨i⟩
  simpa [factsIn, hi, hi'] using h

theorem factsIn_foldl_update (hl : l.Regular) (g : FlowGraph) {nodes : List Node} {k : Node}
    (hsub : ∀ n ∈ nodes, n ∈ l.order) (hk : k ∉ nodes) (hF : l.Fits F) :
    l.Fits (nodes.foldl (update g l.bound) F) ∧
      l.factsIn (nodes.foldl (update g l.bound) F) k = l.factsIn F k := by
  induction nodes generalizing F with
  | nil => exact ⟨hF, rfl⟩
  | cons n nodes ih =>
    have hn : n ∈ l.order := hsub n (by simp)
    have hlt : n.index < F.size := hF.size_eq ▸ hl.order_lt n hn
    obtain ⟨hfit, heq⟩ := ih (fun x hx => hsub x (by simp [hx])) (fun h => hk (by simp [h]))
      (hF.update hl g hn)
    refine ⟨hfit, heq.trans ?_⟩
    rw [factsIn_update g hlt, if_neg fun e => hk (by simp [e])]

theorem update_eq_of_foldl_eq (hl : l.Regular) {nodes : List Node}
    (hsub : ∀ n ∈ nodes, n ∈ l.order) (hnd : nodes.Nodup) (hF : l.Fits F)
    (h : nodes.foldl (update g l.bound) F = F) : ∀ n ∈ nodes, update g l.bound F n = F := by
  induction nodes with
  | nil => simp
  | cons n nodes ih =>
    obtain ⟨hn, hr⟩ := List.nodup_cons.1 hnd
    have ho : n ∈ l.order := hsub n (by simp)
    have hsub' : ∀ x ∈ nodes, x ∈ l.order := fun x hx => hsub x (by simp [hx])
    have hlt : n.index < F.size := hF.size_eq ▸ hl.order_lt n ho
    have hfit := hF.update hl g ho
    have hat : l.factsIn (update g l.bound F n) n = l.factsIn F n := by
      rw [← (factsIn_foldl_update hl g hsub' hn hfit).2, ← List.foldl_cons, h]
    have hfacts (k : Node) : l.factsIn (update g l.bound F n) k = l.factsIn F k := by
      by_cases hk : k = n
      · exact hk ▸ hat
      · rw [factsIn_update g hlt, if_neg hk]
    have hsame : update g l.bound F n = F :=
      hfit.ext hF (fun k _ i => by rw [In, In, hfacts]) fun k _ i => by rw [Out, Out, hfacts]
    intro k hk
    rcases List.mem_cons.1 hk with rfl | hk
    · exact hsame
    · rw [List.foldl_cons, hsame] at h
      exact ih hsub' hr h k hk

theorem solves_of_pass_eq (hl : l.Regular) (hF : l.Fits F) (h : pass g l F = F) :
    Solves g l F := by
  have hu := update_eq_of_foldl_eq hl (fun _ hn => hn) hl.order_nodup hF h
  have hout (n : Node) (hn : n ∈ l.order) (i : Nat) :
      l.Out F n i ↔ ∃ s, g.Edge n s ∧ l.In F s i := by
    have := out_update hl hF g hn n i
    rwa [hu n hn, if_pos rfl] at this
  refine ⟨hout, fun n hn i => ?_⟩
  have := in_update hl hF g hn n i
  rw [hu n hn, if_pos rfl] at this
  rw [this, hout n hn i]

structure Reasoned (g : FlowGraph) (l : Liveness) (F : Array Facts) : Prop where
  out : ∀ n ∈ l.order, ∀ i, l.Out F n i → ∃ s, g.Edge n s ∧ l.In F s i
  into : ∀ n ∈ l.order, ∀ i, l.In F n i →
    l.Reads n i ∨ (∃ s, g.Edge n s ∧ l.In F s i) ∧ ¬ l.Writes n i

def Below (l : Liveness) (F G : Array Facts) : Prop :=
  ∀ n i, (l.In F n i → l.In G n i) ∧ (l.Out F n i → l.Out G n i)

theorem Reasoned.update (hl : l.Regular) (hF : l.Fits F) (hr : Reasoned g l F) {n : Node}
    (hn : n ∈ l.order) :
    Reasoned g l (update g l.bound F n) ∧ l.Below F (Liveness.update g l.bound F n) := by
  have hin (k : Node) (i : Nat) (h : l.In F k i) : l.In (Liveness.update g l.bound F n) k i := by
    rw [in_update hl hF g hn]
    split
    · next e => exact hr.into n hn i (e ▸ h)
    · exact h
  have hsome (k : Node) (i : Nat) : (∃ s, g.Edge k s ∧ l.In F s i) →
      ∃ s, g.Edge k s ∧ l.In (Liveness.update g l.bound F n) s i :=
    fun ⟨s, hs, h⟩ => ⟨s, hs, hin s i h⟩
  refine ⟨⟨fun k hk i h => ?_, fun k hk i h => ?_⟩, fun k i => ⟨hin k i, fun h => ?_⟩⟩
  · rw [out_update hl hF g hn] at h
    split at h
    · next e => exact hsome k i (e ▸ h)
    · exact hsome k i (hr.out k hk i h)
  · rw [in_update hl hF g hn] at h
    split at h
    · next e =>
      subst e
      exact h.imp_right fun h => ⟨hsome k i h.1, h.2⟩
    · exact (hr.into k hk i h).imp_right fun h => ⟨hsome k i h.1, h.2⟩
  · rw [out_update hl hF g hn]
    split
    · next e => exact hr.out n hn i (e ▸ h)
    · exact h

theorem pass_preserves {P : Array Facts → Prop}
    (hstep : ∀ F n, n ∈ l.order → P F → P (update g l.bound F n)) (hF : P F) :
    P (pass g l F) := by
  have hfold (nodes : List Node) (hsub : ∀ n ∈ nodes, n ∈ l.order) {F : Array Facts} (hF : P F) :
      P (nodes.foldl (update g l.bound) F) := by
    induction nodes generalizing F with
    | nil => exact hF
    | cons n nodes ih =>
      exact ih (fun x hx => hsub x (by simp [hx])) (hstep F n (hsub n (by simp)) hF)
  exact hfold l.order (fun _ h => h) hF

inductive Needed (g : FlowGraph) (l : Liveness) (i : Nat) : Node → Prop
  | here {n s : Node} : g.Edge n s → l.Reads s i → Needed g l i n
  | later {n s : Node} : g.Edge n s → ¬ l.Writes s i → Needed g l i s → Needed g l i n

structure Founded (g : FlowGraph) (l : Liveness) (F : Array Facts) : Prop where
  out : ∀ n i, l.Out F n i → Needed g l i n
  into : ∀ n i, l.In F n i → l.Reads n i ∨ Needed g l i n ∧ ¬ l.Writes n i

theorem Founded.update (hl : l.Regular) (hF : l.Fits F) (hf : Founded g l F) {n : Node}
    (hn : n ∈ l.order) : Founded g l (update g l.bound F n) := by
  have hneed (i : Nat) : (∃ s, g.Edge n s ∧ l.In F s i) → Needed g l i n := by
    rintro ⟨s, hs, h⟩
    rcases hf.into s i h with h | ⟨h, hw⟩
    · exact .here hs h
    · exact .later hs hw h
  refine ⟨fun k i h => ?_, fun k i h => ?_⟩
  · rw [out_update hl hF g hn] at h
    split at h
    · next e => exact e ▸ hneed i h
    · exact hf.out k i h
  · rw [in_update hl hF g hn] at h
    split at h
    · next e =>
      subst e
      exact h.imp_right fun h => ⟨hneed i h.1, h.2⟩
    · exact hf.into k i h

instance (l : Liveness) (F : Array Facts) (n : Node) (i : Nat) : Decidable (l.In F n i) :=
  inferInstanceAs (Decidable (_ = true))

instance (l : Liveness) (F : Array Facts) (n : Node) (i : Nat) : Decidable (l.Out F n i) :=
  inferInstanceAs (Decidable (_ = true))

def places (l : Liveness) : Finset (Node × Bool × Nat) :=
  l.order.toFinset ×ˢ Finset.univ ×ˢ Finset.range l.bound

def alive (l : Liveness) (F : Array Facts) : Finset (Node × Bool × Nat) :=
  l.places.filter fun p => if p.2.1 then l.In F p.1 p.2.2 else l.Out F p.1 p.2.2

theorem card_places_le (l : Liveness) : l.places.card ≤ 2 * l.order.length * l.bound := by
  have h := List.toFinset_card_le l.order
  calc l.places.card = l.order.toFinset.card * (2 * l.bound) := by simp [places]
    _ ≤ l.order.length * (2 * l.bound) := Nat.mul_le_mul_right _ h
    _ = 2 * l.order.length * l.bound := by rw [← Nat.mul_assoc, Nat.mul_comm _ 2]

theorem card_places_lt (l : Liveness) : l.places.card < l.stateCount := by
  rw [stateCount, Nat.one_shiftLeft]
  exact l.card_places_le.trans_lt Nat.lt_two_pow_self

theorem card_alive_le (l : Liveness) (F : Array Facts) : (l.alive F).card ≤ l.places.card :=
  Finset.card_le_card (Finset.filter_subset _ _)

theorem mem_alive_in (hF : l.Fits F) {n : Node} (hn : n ∈ l.order) (i : Nat) :
    (n, true, i) ∈ l.alive F ↔ l.In F n i := by
  simp only [alive, places, Finset.mem_filter, Finset.mem_product, List.mem_toFinset,
    Finset.mem_univ, Finset.mem_range, if_true]
  exact ⟨And.right, fun h => ⟨⟨hn, trivial, (hF.liveIn_within n).lt h⟩, h⟩⟩

theorem mem_alive_out (hF : l.Fits F) {n : Node} (hn : n ∈ l.order) (i : Nat) :
    (n, false, i) ∈ l.alive F ↔ l.Out F n i := by
  simp only [alive, places, Finset.mem_filter, Finset.mem_product, List.mem_toFinset,
    Finset.mem_univ, Finset.mem_range, Bool.false_eq_true, if_false]
  exact ⟨And.right, fun h => ⟨⟨hn, trivial, (hF.liveOut_within n).lt h⟩, h⟩⟩

theorem alive_ssubset {G : Array Facts} (hF : l.Fits F) (hG : l.Fits G) (hb : l.Below F G)
    (hne : G ≠ F) : l.alive F ⊂ l.alive G := by
  have hsub : l.alive F ⊆ l.alive G := by
    intro p hp
    simp only [alive, Finset.mem_filter] at hp ⊢
    refine ⟨hp.1, ?_⟩
    have h := hp.2
    split
    · next e => rw [if_pos e] at h; exact (hb _ _).1 h
    · next e => rw [if_neg e] at h; exact (hb _ _).2 h
  refine ⟨hsub, fun hback => hne (hG.ext hF (fun n hn i => ?_) fun n hn i => ?_)⟩
  · refine ⟨fun h => ?_, (hb n i).1⟩
    exact (mem_alive_in hF hn i).1 (hback ((mem_alive_in hG hn i).2 h))
  · refine ⟨fun h => ?_, (hb n i).2⟩
    exact (mem_alive_out hF hn i).1 (hback ((mem_alive_out hG hn i).2 h))

theorem solve?_spec (hl : l.Regular) (hfit : l.Fits l.facts)
    (hin : ∀ n i, ¬ l.In l.facts n i) (hout : ∀ n i, ¬ l.Out l.facts n i) (g : FlowGraph) :
    ∃ F passes, solve? g l = some { l with facts := F, passes := passes } ∧ l.Fits F ∧
      Solves g l F ∧ Founded g l F ∧ 0 < passes ∧ passes ≤ 1 + 2 * l.order.length * l.bound := by
  let Inv (F : Array Facts) : Prop := l.Fits F ∧ Reasoned g l F ∧ Founded g l F
  have hmost (F : Array Facts) (_ : Inv F) : (l.alive F).card ≤ l.places.card := l.card_alive_le F
  -- Nothing is ever taken out of a set, so a pass that changes the sets adds a member.
  have hstep (F : Array Facts) (h : Inv F) :
      Inv (pass g l F) ∧ (pass g l F ≠ F → (l.alive F).card < (l.alive (pass g l F)).card) := by
    obtain ⟨hF, hr, hf⟩ := h
    have hp : Inv (pass g l F) ∧ l.Below F (pass g l F) := by
      refine pass_preserves (P := fun G => Inv G ∧ l.Below F G) ?_ ⟨⟨hF, hr, hf⟩, fun _ _ => ⟨id, id⟩⟩
      rintro G n hn ⟨⟨hG, hr, hf⟩, hb⟩
      obtain ⟨hr', hb'⟩ := hr.update hl hG hn
      refine ⟨⟨hG.update hl g hn, hr', hf.update hl hG hn⟩, fun k i => ?_⟩
      exact ⟨(hb' k i).1 ∘ (hb k i).1, (hb' k i).2 ∘ (hb k i).2⟩
    exact ⟨hp.1, fun hne => Finset.card_lt_card (alive_ssubset hF hp.1.1 hp.2 hne)⟩
  have hstart : Inv l.facts :=
    ⟨hfit, ⟨fun n _ i h => absurd h (hout n i), fun n _ i h => absurd h (hin n i)⟩,
      ⟨fun n i h => absurd h (hout n i), fun n i h => absurd h (hin n i)⟩⟩
  have hplaces := l.card_places_le
  have hcount := l.card_places_lt
  obtain ⟨F, passes, hs, ⟨hF, -, hf⟩, hlow, hhigh⟩ :=
    settle_of_measure hstep hmost hstart 0 (l.stateCount + 1) (by omega)
  refine ⟨F, passes, by rw [solve?, hs]; rfl, hF, ?_, hf, hlow, by omega⟩
  exact solves_of_pass_eq hl hF (step_of_settle hs)

end Liveness

end ClassLowering
