import ClassLowering.Proofs.Method.Thinning
import ClassLowering.Proofs.Register.Economy
import Mathlib.Data.List.Basic
import Mathlib.Logic.Relation

namespace ClassLowering

namespace Method

open Relation

def deadNodes (m : Method) : List Node := (m.deadStores (.compute m)).map Prod.fst

def DropsStore (m p : Method) : Prop := ∃ n ∈ m.deadNodes, p = m.remove n

variable {m p q : Method} {n k : Node} {b c d : List Node} {passes : List Pass}

theorem removableStore?_of_assign {name : String} {ty : Ty} {e : Instruction}
    (hcall : ∀ c, e ≠ .call c) :
    (Instruction.assign (.var name ty) e).removableStore? = some name := by
  cases e with
  | call c => exact absurd rfl (hcall c)
  | _ => rfl

theorem mem_deadNodes (hm : m.WellFormed) :
    n ∈ m.deadNodes ↔ m.flow.Reachable n ∧ ∃ name ty e,
      m.instruction? n = some (.assign (.var name ty) e) ∧ (∀ c, e ≠ .call c) ∧
        ¬ (Liveness.compute m).LiveOut n name := by
  rw [deadNodes, List.mem_map]
  constructor
  · rintro ⟨⟨n, name⟩, hd, rfl⟩
    obtain ⟨ty, e, hi, hcall, horder, hout⟩ := assign_of_dead hd
    rw [Liveness.order_compute hm] at horder
    exact ⟨((Liveness.mem_order hm).1 horder).1, name, ty, e, hi, hcall, hout⟩
  · rintro ⟨hreach, name, ty, e, hi, hcall, hout⟩
    have horder := (Liveness.mem_order hm).2 ⟨hreach, (instruction?_eq_some.1 hi).1⟩
    have hwrites : name ∈ Liveness.written (.assign (.var name ty) e) :=
      Liveness.mem_written.2 (.inl ⟨ty, rfl⟩)
    refine ⟨(n, name), mem_deadStores.2 ⟨_, mem_instructions.2 hi, removableStore?_of_assign hcall,
      ?_, ?_, ?_⟩, rfl⟩
    · rwa [Liveness.order_compute hm]
    · exact Liveness.writesHas_iff.2 ((Liveness.has_writes_compute hm horder).2 ⟨_, hi, hwrites⟩)
    · rw [← Bool.not_eq_true, Liveness.liveOutHas_iff]
      exact hout

theorem deadNodes_sublist (m : Method) : m.deadNodes.Sublist m.body := by
  rw [← map_fst_instructions m]
  unfold deadNodes deadStores
  induction m.instructions with
  | nil => exact .slnil
  | cons e rest ih =>
    rw [List.filterMap_cons]
    split
    · exact ih.cons e.1
    · next d hd =>
      have hnode : d.1 = e.1 := by grind
      rw [List.map_cons, List.map_cons, hnode]
      exact ih.cons_cons e.1

theorem deadNodes_nodup (hm : m.WellFormed) : m.deadNodes.Nodup :=
  hm.body_nodup.sublist (deadNodes_sublist m)

theorem FallsThrough.reachable_remove (hf : m.FallsThrough n) (hm : m.WellFormed) (hn : n ∈ m.body)
    {a : Node} (h : m.flow.Reachable a) : (m.remove n).flow.Reachable (m.past n a) := by
  induction h with
  | refl =>
    rw [past_of_ne (Method.ne_entry_of_mem hn).symm]
    exact .refl
  | @tail a b _ he ih =>
    by_cases ha : a = n
    · -- The step from the removed node is the one that `past` has made already.
      subst ha
      obtain rfl := (hf b).1 he
      rw [past_self] at ih
      rwa [past_of_ne (hm.following_ne hn)]
    · rw [past_of_ne ha] at ih
      refine ih.tail ((edge_remove hm.mirrored hn _ _).2 ⟨ha, hm.past_ne hn b, ?_⟩)
      by_cases hb : b = n
      · subst hb
        rw [past_self]
        exact .inr ⟨he, (hf _).2 rfl⟩
      · rw [past_of_ne hb]
        exact .inl he

theorem mem_deadNodes_remove (hm : m.Linked) (hn : n ∈ m.deadNodes) (hk : k ∈ m.deadNodes)
    (hne : k ≠ n) : k ∈ (m.remove n).deadNodes := by
  have hw := hm.toWellFormed
  obtain ⟨-, x, s, a, hx, -, hxout⟩ := (mem_deadNodes hw).1 hn
  obtain ⟨hreach, y, t, e, hy, hcall, hyout⟩ := (mem_deadNodes hw).1 hk
  have hbody := (instruction?_eq_some.1 hx).1
  have hafter := (hm.fallsThrough_of_assign hx).reachable_remove hw hbody hreach
  rw [past_of_ne hne] at hafter
  have hy' := instruction?_remove.2 ⟨hy, hne⟩
  refine (mem_deadNodes (hw.remove n)).2 ⟨hafter, y, t, e, hy', hcall, fun hlive => hyout ?_⟩
  have hcovers := (covers_compute hw).remove hw ⟨x, s, a, hx, hxout⟩
  exact hcovers.after_of_liveOut (hw.remove n) hafter (instruction?_eq_some.1 hy').1 hlive

structure Stripped (m p : Method) : Prop extends Thinned m p where
  reachable : ∀ n, p.flow.Reachable n → m.flow.Reachable n

theorem Stripped.refl (hm : m.Linked) : Stripped m m := ⟨.refl hm, fun _ => id⟩

theorem Stripped.remove (h : Stripped m p) (hn : n ∈ p.deadNodes) : Stripped m (p.remove n) := by
  have hw := h.linked.toWellFormed
  obtain ⟨hreach, name, ty, e, hi, hcall, -⟩ := (mem_deadNodes hw).1 hn
  obtain ⟨hbody, hcode⟩ := instruction?_eq_some.1 hi
  rw [h.codeAt?_eq] at hcode
  exact ⟨h.toThinned.remove hbody (h.reachable n hreach) hcode hcall,
    fun k hk => h.reachable k (reachable_of_remove hw hbody hk)⟩

theorem Stripped.renumber (h : Stripped m p) : Stripped m p.renumber :=
  ⟨⟨⟨h.linked.renumber, h.order, h.body_eq, h.target⟩, h.signature_eq, h.code_eq, h.labels_eq,
    h.removed⟩, h.reachable⟩

theorem Stripped.labels_congr (hp : Stripped m p) (hq : Stripped m q) (hb : p.body = q.body) :
    p.labels = q.labels := by
  rw [hp.labels_eq, hq.labels_eq]
  unfold survivor
  rw [contains_congr hb]

theorem Stripped.coincides (hp : Stripped m p) (hq : Stripped m q) (hb : p.body = q.body) :
    p.Coincides q := by
  have hcode : q.code = p.code := hq.code_eq.trans hp.code_eq.symm
  have hlabels : q.labels = p.labels := (hp.labels_congr hq hb).symm
  refine ⟨hcode, hb.symm, fun x y => ?_⟩
  rw [hq.linked.edge_iff, hp.linked.edge_iff]
  unfold BodyEdge instructions codeAt? Leads following start target?
  rw [hcode, hlabels, hb]

theorem Stripped.deadNodes_congr (hp : Stripped m p) (hq : Stripped m q) (hb : p.body = q.body) :
    q.deadNodes = p.deadNodes := by
  unfold deadNodes
  rw [(hp.coincides hq hb).deadStores_eq hp.linked.toWellFormed hq.linked.toWellFormed]

def Sheds (m : Method) (b c : List Node) : Prop :=
  ∃ p, Stripped m p ∧ p.body = b ∧ ∃ n ∈ p.deadNodes, c = (p.remove n).body

theorem Sheds.diamond (hc : m.Sheds b c) (hd : m.Sheds b d) :
    ∃ e, ReflGen m.Sheds c e ∧ ReflTransGen m.Sheds d e := by
  obtain ⟨p, hp, rfl, n, hn, rfl⟩ := hc
  obtain ⟨q, hq, hb, k, hk, rfl⟩ := hd
  have hk' : k ∈ p.deadNodes := by rwa [← hp.deadNodes_congr hq hb.symm]
  have hn' : n ∈ q.deadNodes := by rwa [hp.deadNodes_congr hq hb.symm]
  by_cases hkn : k = n
  · subst hkn
    refine ⟨_, .refl, ?_⟩
    rw [body_remove, body_remove, hb]
  · refine ⟨((p.remove n).remove k).body,
      .single ⟨_, hp.remove hn, rfl, k, mem_deadNodes_remove hp.linked hn hk' hkn, rfl⟩,
      .single ⟨_, hq.remove hk, rfl, n, mem_deadNodes_remove hq.linked hk hn' (Ne.symm hkn), ?_⟩⟩
    simp only [body_remove, hb]
    exact List.filter_comm ..

theorem Stripped.not_sheds (h : Stripped m p) (hdone : p.deadNodes = []) : ¬ m.Sheds p.body c := by
  rintro ⟨q, hq, hb, n, hn, -⟩
  rw [hq.deadNodes_congr h hb] at hdone
  rw [hdone] at hn
  cases hn

theorem Stripped.body_unique (hp : Stripped m p) (hpdone : p.deadNodes = [])
    (hpath : ReflTransGen m.Sheds b p.body) (hq : Stripped m q) (hqdone : q.deadNodes = [])
    (hqpath : ReflTransGen m.Sheds b q.body) : p.body = q.body := by
  obtain ⟨e, hpe, hqe⟩ := church_rosser (fun _ _ _ => Sheds.diamond) hpath hqpath
  have hend {r : Method} (hr : Stripped m r) (hdone : r.deadNodes = [])
      (hpath : ReflTransGen m.Sheds r.body e) : r.body = e := by
    rcases ReflTransGen.cases_head hpath with h | ⟨c, hc, -⟩
    · exact h
    · exact absurd hc (hr.not_sheds hdone)
  exact (hend hp hpdone hpe).trans (hend hq hqdone hqe).symm

structure Leaves (m p : Method) : Prop extends Stripped m p where
  path : ReflTransGen m.Sheds m.body p.body

theorem Leaves.refl (hm : m.Linked) : Leaves m m := ⟨.refl hm, .refl⟩

theorem Leaves.remove (h : Leaves m p) (hn : n ∈ p.deadNodes) : Leaves m (p.remove n) :=
  ⟨h.toStripped.remove hn, h.path.tail ⟨p, h.toStripped, rfl, n, hn, rfl⟩⟩

theorem Leaves.of_steps (hm : m.Linked) (h : ReflTransGen DropsStore m p) : Leaves m p := by
  induction h with
  | refl => exact .refl hm
  | tail _ hstep ih =>
    obtain ⟨n, hn, rfl⟩ := hstep
    exact ih.remove hn

theorem Leaves.removeAll {nodes : List Node} (hnodup : nodes.Nodup)
    (hdead : ∀ n ∈ nodes, n ∈ p.deadNodes) (h : Leaves m p) :
    Leaves m (nodes.foldl Method.remove p) := by
  induction nodes generalizing p with
  | nil => exact h
  | cons n rest ih =>
    obtain ⟨hn, hrest⟩ := List.forall_mem_cons.1 hdead
    obtain ⟨hnew, hnodup⟩ := List.nodup_cons.1 hnodup
    refine ih hnodup (fun k hk => ?_) (h.remove hn)
    exact mem_deadNodes_remove h.linked hn (hrest k hk) fun e => hnew (e ▸ hk)

theorem Leaves.optimize (hm : m.Linked) (passes : List Pass) :
    Leaves m (Pipeline.optimize passes m).method := by
  refine Pipeline.optimize_induction (P := Leaves m) (fun p h => ?_) (fun p h => ?_) passes
    (.refl hm)
  · rw [Pipeline.removeDeadStores_method]
    exact h.removeAll (deadNodes_nodup h.linked.toWellFormed) fun _ => id
  · exact ⟨h.toStripped.renumber, h.path⟩

theorem exists_drained (hm : m.WellFormed) :
    ∃ p, ReflTransGen DropsStore m p ∧ p.deadNodes = [] := by
  induction h : m.body.length using Nat.strong_induction_on generalizing m with
  | _ size ih =>
    subst h
    cases hdead : m.deadNodes with
    | nil => exact ⟨m, .refl, hdead⟩
    | cons n rest =>
      have hn : n ∈ m.deadNodes := by rw [hdead]; exact List.mem_cons_self
      have hshorter : (m.remove n).body.length < m.body.length := by
        rw [body_remove]
        have hbody := (deadNodes_sublist m).subset hn
        exact List.length_filter_lt_length_iff_exists.2 ⟨n, hbody, by simp⟩
      obtain ⟨p, hsteps, hdone⟩ := ih _ hshorter (hm.remove n) rfl
      exact ⟨p, .head ⟨n, hn, rfl⟩ hsteps, hdone⟩

theorem deadNodes_optimize (hp : passes ≠ []) (m : Method) :
    (Pipeline.optimize passes m).method.deadNodes = [] := by
  have hquiet := Pipeline.runPasses_optimize passes m
  cases passes with
  | nil => exact absurd rfl hp
  | cons pass rest =>
    cases pass
    have hpass : (Pass.removeDeadStores (Pipeline.optimize _ m).method).2.2 = false :=
      (Bool.or_eq_false_iff.1 hquiet).1
    simpa [Pass.removeDeadStores, deadNodes] using hpass

theorem elimination_order_irrelevant {signature : Signature} {entries : List Entry}
    (hbuild : build signature entries = .ok m) (hsteps : ReflTransGen DropsStore m p)
    {pipeline : Pipeline} (hpasses : pipeline.passes ≠ []) :
    (p.deadStores (.compute p) = [] →
      p.body = (pipeline.run m).method.body ∧ p.labels = (pipeline.run m).method.labels) ∧
    ∃ p', ReflTransGen DropsStore p p' ∧ p'.deadStores (.compute p') = [] := by
  have hm := Linked.of_build hbuild
  have hleft := Leaves.of_steps hm hsteps
  have hoptimized := Leaves.optimize hm pipeline.passes
  obtain ⟨table, hrun⟩ := Pipeline.run_retable pipeline m
  obtain ⟨p', hmore, hdone⟩ := exists_drained hleft.linked.toWellFormed
  refine ⟨fun hdone => ?_, p', hmore, List.map_eq_nil_iff.1 hdone⟩
  have hbody := hleft.body_unique (List.map_eq_nil_iff.2 hdone) hleft.path hoptimized.toStripped
    (deadNodes_optimize hpasses m) hoptimized.path
  have hlabels := hleft.labels_congr hoptimized.toStripped hbody
  rw [hrun]
  exact ⟨hbody, hlabels⟩

def drainedDetour : Method := (((detour.remove ⟨8⟩).remove ⟨3⟩).remove ⟨7⟩).remove ⟨2⟩

theorem elimination_order_irrelevant_detour :
    let q := (Pipeline.run { passes := [.deadStoreElimination] } detour).method
    build countdownSignature detourEntries = .ok detour ∧
      ReflTransGen DropsStore detour drainedDetour ∧
      drainedDetour.deadStores (.compute drainedDetour) = [] ∧ detour.deadNodes = [⟨3⟩, ⟨7⟩, ⟨8⟩] ∧
      q.body = [⟨4⟩, ⟨5⟩, ⟨6⟩] ∧ q.labels = [("after", .exit), ("again", ⟨4⟩)] := by
  have hbuild : build countdownSignature detourEntries = .ok detour := by decide +kernel
  have hsteps : ReflTransGen DropsStore detour drainedDetour :=
    .head ⟨⟨8⟩, by decide +kernel, rfl⟩ <| .head ⟨⟨3⟩, by decide +kernel, rfl⟩ <|
      .head ⟨⟨7⟩, by decide +kernel, rfl⟩ <| .single ⟨⟨2⟩, by decide +kernel, rfl⟩
  have hdone : drainedDetour.deadStores (.compute drainedDetour) = [] := by decide +kernel
  have hsame : drainedDetour.body =
        (Pipeline.run { passes := [.deadStoreElimination] } detour).method.body ∧
      drainedDetour.labels =
        (Pipeline.run { passes := [.deadStoreElimination] } detour).method.labels :=
    (elimination_order_irrelevant hbuild hsteps (List.cons_ne_nil _ _)).1 hdone
  refine ⟨hbuild, hsteps, hdone, by decide +kernel, ?_, ?_⟩
  · rw [← hsame.1]
    decide +kernel
  · rw [← hsame.2]
    decide +kernel

end Method

end ClassLowering
