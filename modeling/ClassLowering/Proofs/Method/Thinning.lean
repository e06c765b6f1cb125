import ClassLowering.Proofs.Execution.DeadStores
import ClassLowering.Proofs.Method.Construction
import ClassLowering.Proofs.Method.Rehoming
import ClassLowering.Proofs.Register.Compact

namespace ClassLowering

namespace Method

variable {m p : Method} {n t : Node}

theorem labels_remove (hn : n ∈ m.body) (h : m.heir n = m.following n) :
    (m.remove n).labels = m.labels.map fun e => (e.1, m.past n e.2) := by
  rw [remove_of_mem hn, without, h]
  rfl

structure Thinned (m p : Method) : Prop extends Rehomed m p where
  signature_eq : p.toSignature = m.toSignature
  code_eq : p.code = m.code
  labels_eq : p.labels = m.labels.map fun e => (e.1, survivor m p e.2)
  removed : ∀ n ∈ m.body, n ∉ p.body → m.flow.Reachable n ∧
    ∃ name ty e, m.codeAt? n = some (.assign (.var name ty) e) ∧ ∀ c, e ≠ .call c

theorem Thinned.codeAt?_eq (h : Thinned m p) (n : Node) : p.codeAt? n = m.codeAt? n := by
  rw [codeAt?, codeAt?, h.code_eq]

theorem Thinned.refl (hm : m.Linked) : Thinned m m := by
  refine ⟨.refl hm, rfl, rfl, ?_, fun n hn hgone => absurd hn hgone⟩
  have hsame : m.labels.map (fun e => (e.1, survivor m m e.2)) = m.labels.map id :=
    List.map_congr_left fun e he =>
      Prod.ext rfl (survivor_self hm.toWellFormed (hm.label_target e he))
  rw [hsame, List.map_id]

theorem Thinned.remove (h : Thinned m p) (hn : n ∈ p.body) (hreach : m.flow.Reachable n)
    {name : String} {ty : Ty} {e : Instruction} (hcode : m.codeAt? n = some (.assign (.var name ty) e))
    (hcall : ∀ c, e ≠ .call c) : Thinned m (p.remove n) := by
  have hi : p.instruction? n = some (.assign (.var name ty) e) :=
    instruction?_eq_some.2 ⟨hn, (h.codeAt?_eq n).trans hcode⟩
  have hf := h.linked.fallsThrough_of_assign hi
  refine ⟨h.toRehomed.remove hn hf, (p.toSignature_remove n).trans h.signature_eq,
    (p.code_remove n).trans h.code_eq, ?_, fun k hk hgone => ?_⟩
  · rw [labels_remove hn (hf.heir_eq h.linked.toWellFormed hn), h.labels_eq, List.map_map]
    exact List.map_congr_left fun e _ => Prod.ext rfl (h.survivor_remove hn e.2).symm
  · by_cases hkn : k = n
    · subst hkn
      exact ⟨hreach, name, ty, e, hcode, hcall⟩
    · exact h.removed k hk fun hkp => hgone (mem_body_remove.2 ⟨hkp, hkn⟩)

theorem Thinned.removeAll {nodes : List Node}
    (hstores : ∀ n ∈ nodes, m.flow.Reachable n ∧
      ∃ name ty e, m.codeAt? n = some (.assign (.var name ty) e) ∧ ∀ c, e ≠ .call c)
    (h : Thinned m p) : Thinned m (nodes.foldl Method.remove p) := by
  induction nodes generalizing p with
  | nil => exact h
  | cons n rest ih =>
    obtain ⟨⟨hreach, name, ty, e, hcode, hcall⟩, hrest⟩ := List.forall_mem_cons.1 hstores
    rw [List.foldl_cons]
    by_cases hn : n ∈ p.body
    · exact ih hrest (h.remove hn hreach hcode hcall)
    · rw [remove_of_not_mem hn]
      exact ih hrest h

theorem thinned_optimize (hm : m.Linked) (passes : List Pass) :
    Thinned m (Pipeline.optimize passes m).method := by
  suffices h : Thinned m (Pipeline.optimize passes m).method ∧
      ∀ n, (Pipeline.optimize passes m).method.flow.Reachable n → m.flow.Reachable n from h.1
  refine Pipeline.optimize_induction (P := fun p => Thinned m p ∧
    ∀ n, p.flow.Reachable n → m.flow.Reachable n) (fun p ⟨h, hreach⟩ => ?_) (fun p ⟨h, hreach⟩ => ?_)
    passes ⟨.refl hm, fun _ => id⟩
  · have hw := h.linked.toWellFormed
    rw [Pipeline.removeDeadStores_method]
    refine ⟨h.removeAll fun n hn => ?_, fun n hn => hreach n (reachable_of_removeAll hw hn)⟩
    obtain ⟨⟨k, name⟩, hd, rfl⟩ := List.mem_map.1 hn
    obtain ⟨ty, e, hi, hcall, horder, -⟩ := assign_of_dead hd
    rw [Liveness.order_compute hw] at horder
    have hcode := (instruction?_eq_some.1 hi).2
    rw [h.codeAt?_eq] at hcode
    exact ⟨hreach k ((Liveness.mem_order hw).1 horder).1, name, ty, e, hcode, hcall⟩
  · exact ⟨⟨⟨h.linked.renumber, h.order, h.body_eq, h.target⟩, h.signature_eq, h.code_eq, h.labels_eq,
      h.removed⟩, hreach⟩

theorem Thinned.instructions_eq (h : Thinned m p) :
    p.instructions = m.instructions.filter fun e => p.contains e.1 := by
  have hcode : (fun n => (p.codeAt? n).map fun i => (n, i)) =
      fun n => (m.codeAt? n).map fun i => (n, i) := funext fun n => by rw [h.codeAt?_eq]
  unfold instructions
  rw [hcode, h.body_eq, List.filterMap_filter, List.filter_filterMap]
  refine List.filterMap_congr fun n _ => ?_
  cases m.codeAt? n with
  | none => simp
  | some i => simp [Option.filter]

structure Cut (m p : Method) (before gone rest : List Node) : Prop where
  body_eq : m.body = before ++ (gone ++ rest)
  gone : ∀ n ∈ gone, n ∉ p.body
  kept : ∀ last ∈ before.getLast?, last ∈ p.body

variable {before gone rest : List Node}

theorem cut_start (m p : Method) : Cut m p [] [] m.body := ⟨rfl, nofun, nofun⟩

theorem Cut.keep (h : Cut m p before gone (n :: rest)) (hn : n ∈ p.body) :
    Cut m p (before ++ gone ++ [n]) [] rest := by
  refine ⟨by rw [h.body_eq]; simp, nofun, fun last hlast => ?_⟩
  rw [List.getLast?_concat] at hlast
  exact Option.some.inj hlast ▸ hn

theorem Cut.drop (h : Cut m p before gone (n :: rest)) (hn : n ∉ p.body) :
    Cut m p before (gone ++ [n]) rest := by
  refine ⟨by rw [h.body_eq]; simp, fun k hk => ?_, h.kept⟩
  rcases List.mem_append.1 hk with hk | hk
  · exact h.gone k hk
  · exact List.mem_singleton.1 hk ▸ hn

def headOf (nodes : List Node) : Node := nodes.head?.getD .exit

theorem survivor_exit (m p : Method) : survivor m p .exit = .exit := by
  have hall : ∀ x ∈ m.body, decide (x ≠ Node.exit) = true := fun x hx =>
    decide_eq_true (Method.ne_exit_of_mem hx)
  rw [survivor, List.dropWhile_eq_nil_iff.2 hall]
  rfl

theorem survivor_of_split (hm : m.body.Nodup) (h : m.body = before ++ t :: rest) :
    survivor m p t = ((t :: rest).find? p.contains).getD .exit := by
  rw [h, List.nodup_append] at hm
  have hbefore : ∀ x ∈ before, decide (x ≠ t) = true := fun x hx =>
    decide_eq_true (hm.2.2 x hx t List.mem_cons_self)
  have hdrop : m.body.dropWhile (· ≠ t) = t :: rest := by
    rw [h, List.dropWhile_append_of_pos hbefore]
    simp
  rw [survivor, hdrop]

theorem find?_headOf (hrest : ∀ n ∈ rest.head?, n ∈ p.body) :
    (rest.find? p.contains).getD .exit = headOf rest := by
  cases rest with
  | nil => rfl
  | cons x rest =>
    have hx : p.contains x = true := contains_iff.2 (hrest x rfl)
    rw [List.find?_cons_of_pos hx]
    rfl

theorem Cut.survivor_mem (h : Cut m p before gone rest) (hm : m.body.Nodup) (ht : t ∈ before) :
    survivor m p t ∈ before := by
  obtain ⟨front, back, rfl⟩ := List.append_of_mem ht
  have hsplit : m.body = front ++ t :: (back ++ (gone ++ rest)) := by simp [h.body_eq]
  have hlast : (t :: back).getLast (List.cons_ne_nil _ _) ∈ p.body := by
    refine h.kept _ ?_
    rw [List.getLast?_append_of_ne_nil _ (List.cons_ne_nil _ _),
      List.getLast?_eq_getLast_of_ne_nil (List.cons_ne_nil _ _)]
    rfl
  have hfound : ((t :: back).find? p.contains).isSome := by
    rw [List.find?_isSome]
    exact ⟨_, List.getLast_mem (List.cons_ne_nil t back), contains_iff.2 hlast⟩
  obtain ⟨x, hx⟩ := Option.isSome_iff_exists.1 hfound
  rw [survivor_of_split hm hsplit, ← List.cons_append, List.find?_append, hx]
  exact List.mem_append_right _ (List.mem_of_find?_eq_some hx)

theorem Cut.survivor_of_gone (h : Cut m p before gone rest) (hm : m.body.Nodup)
    (hrest : ∀ n ∈ rest.head?, n ∈ p.body) (ht : t ∈ gone) : survivor m p t = headOf rest := by
  obtain ⟨front, back, rfl⟩ := List.append_of_mem ht
  have hsplit : m.body = (before ++ front) ++ t :: (back ++ rest) := by simp [h.body_eq]
  have hnone : (t :: back).find? p.contains = none := List.find?_eq_none.2 fun x hx => by
    simpa [contains_eq] using h.gone x (List.mem_append_right _ hx)
  rw [survivor_of_split hm hsplit, ← List.cons_append, List.find?_append, hnone, Option.none_or]
  exact find?_headOf hrest

theorem Cut.survivor_of_rest (h : Cut m p before gone rest) (hm : m.WellFormed)
    (hrest : ∀ n ∈ rest.head?, n ∈ p.body) (ht : t ∈ rest) :
    survivor m p t = headOf rest ↔ t = headOf rest := by
  obtain ⟨front, back, rfl⟩ := List.append_of_mem ht
  have hsplit : m.body = (before ++ gone ++ front) ++ t :: back := by simp [h.body_eq]
  rw [survivor_of_split hm.body_nodup hsplit]
  cases front with
  | nil => exact iff_of_true (find?_headOf hrest) rfl
  | cons x front =>
    have hapart : ∀ y ∈ t :: back, y ≠ x := by
      have hnodup := hm.body_nodup
      rw [hsplit, List.nodup_append] at hnodup
      exact fun y hy he => hnodup.2.2 x (by simp) y hy he.symm
    refine iff_of_false ?_ (hapart t List.mem_cons_self)
    cases hfind : (t :: back).find? p.contains with
    | none =>
      have hx : x ∈ m.body := by simp [h.body_eq]
      exact (Method.ne_exit_of_mem hx).symm
    | some y => exact hapart y (List.mem_of_find?_eq_some hfind)

theorem Cut.survivor_eq_iff (h : Cut m p before gone rest) (hm : m.WellFormed)
    (hrest : ∀ n ∈ rest.head?, n ∈ p.body) (ht : t = .exit ∨ t ∈ m.body) :
    survivor m p t = headOf rest ↔ t ∈ gone ∨ t = headOf rest := by
  have hne {x : Node} (hx : x ∈ before ++ (gone ++ rest)) : x ≠ .exit :=
    Method.ne_exit_of_mem (h.body_eq ▸ hx)
  have hnodup := hm.body_nodup
  rw [h.body_eq, List.nodup_append, List.nodup_append] at hnodup
  obtain ⟨-, ⟨-, -, hgone⟩, hbefore⟩ := hnodup
  have hhead : headOf rest = .exit ∨ headOf rest ∈ rest := by
    cases rest with
    | nil => exact .inl rfl
    | cons x rest => exact .inr List.mem_cons_self
  rw [h.body_eq, List.mem_append, List.mem_append] at ht
  rcases ht with rfl | ht | ht | ht
  · rw [survivor_exit m p, or_iff_right fun hg => hne (by simp [hg]) rfl]
  · have hapart {x : Node} (hx : x ∈ before) : x ≠ headOf rest := by
      rcases hhead with he | he
      · exact he ▸ hne (by simp [hx])
      · exact hbefore x hx _ (by simp [he])
    refine iff_of_false (hapart (h.survivor_mem hm.body_nodup ht)) (not_or.2 ⟨?_, hapart ht⟩)
    exact fun hg => hbefore t ht t (by simp [hg]) rfl
  · exact iff_of_true (h.survivor_of_gone hm.body_nodup hrest ht) (.inl ht)
  · rw [h.survivor_of_rest hm hrest ht, or_iff_right fun hg => hgone t hg t ht rfl]

theorem Thinned.names_labels (h : Thinned m p) :
    p.labels.map Prod.fst = m.labels.map Prod.fst := by
  rw [h.labels_eq, List.map_map]
  rfl

theorem Thinned.labelsAt_eq (h : Thinned m p) (t : Node) :
    p.labelsAt t = (m.labels.filter fun e => survivor m p e.2 = t).map Prod.fst := by
  unfold labelsAt
  rw [h.labels_eq, List.filter_map, List.map_map]
  rfl

theorem nodup_labelsAt (hm : (m.labels.map Prod.fst).Nodup) (t : Node) : (m.labelsAt t).Nodup :=
  hm.sublist (List.filter_sublist.map _)

theorem Thinned.mem_labelsAt (h : Thinned m p) (hm : m.WellFormed) (hc : Cut m p before gone rest)
    (hrest : ∀ n ∈ rest.head?, n ∈ p.body) {name : String} :
    name ∈ p.labelsAt (headOf rest) ↔
      name ∈ gone.flatMap m.labelsAt ++ m.labelsAt (headOf rest) := by
  have hmem {t : Node} : name ∈ m.labelsAt t ↔ (name, t) ∈ m.labels := by
    simp [labelsAt]
  have hiff (t : Node) (ht : (name, t) ∈ m.labels) :
      survivor m p t = headOf rest ↔ t ∈ gone ∨ t = headOf rest :=
    hc.survivor_eq_iff hm hrest (hm.label_target _ ht)
  rw [h.labelsAt_eq, List.mem_append, List.mem_flatMap, hmem]
  simp only [hmem, List.mem_map, List.mem_filter, decide_eq_true_eq]
  constructor
  · rintro ⟨⟨_, t⟩, ⟨he, ht⟩, rfl⟩
    rcases (hiff t he).1 ht with ht | rfl
    · exact .inl ⟨t, ht, he⟩
    · exact .inr he
  · rintro (⟨t, ht, he⟩ | he)
    · exact ⟨(name, t), ⟨he, (hiff t he).2 (.inl ht)⟩, rfl⟩
    · exact ⟨(name, _), ⟨he, (hiff _ he).2 (.inr rfl)⟩, rfl⟩

theorem Thinned.labelsAt_of_bare (h : Thinned m p) (hm : m.WellFormed)
    (hc : Cut m p before gone rest) (hrest : ∀ n ∈ rest.head?, n ∈ p.body)
    (hbare : gone.flatMap m.labelsAt = []) :
    p.labelsAt (headOf rest) = m.labelsAt (headOf rest) := by
  rw [h.labelsAt_eq, labelsAt]
  refine congrArg (List.map Prod.fst) (List.filter_congr fun e he => ?_)
  have hgone : e.2 ∉ gone := by
    intro hg
    have hname : e.1 ∈ m.labelsAt e.2 :=
      List.mem_map_of_mem (List.mem_filter.2 ⟨he, decide_eq_true rfl⟩)
    have hmem := List.mem_flatMap_of_mem hg hname
    rw [hbare] at hmem
    cases hmem
  exact decide_eq_decide.2
    ((hc.survivor_eq_iff hm hrest (hm.label_target e he)).trans (or_iff_right hgone))

end Method

namespace Method

variable {m : Method}

def Held (m : Method) : Prop := ∀ v ∈ m.mentions.map Prod.fst, ∃ r, m.table.register? v = some r

theorem held_renumber (m : Method) : m.renumber.Held := fun v hv =>
  (m.spread_renumber.1 v (m.mem_names_renumber.2 (.inr (.inr hv)))).imp fun _ => And.right

theorem held_optimize (h : m.Held) (passes : List Pass) :
    (Pipeline.optimize passes m).method.Held :=
  Pipeline.optimize_renumbered (P := Held) held_renumber passes h

theorem held_of_build {signature : Signature} {entries : List Entry}
    (h : build signature entries = .ok m) : m.Held := by
  obtain ⟨g, -, rfl⟩ := build_eq_ok h
  exact held_renumber _

end Method

end ClassLowering
