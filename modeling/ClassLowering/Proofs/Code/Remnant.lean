import ClassLowering.Proofs.Code.Trailing

namespace ClassLowering

open Lower (onto_bind_eq_ok onto_bind_of_ok onto_bind_of_error)

namespace Method

def Overtaken (m p : Method) (t : Node) : Prop :=
  ∃ n ∈ m.body, n ∉ p.body ∧ survivor m p n = t ∧ ∃ first other,
    (m.labelsAt n).head? = some first ∧ (p.labelsAt t).head? = some other ∧ other ≠ first

def Missed (m p : Method) (fault : Fault) : Prop :=
  ∃ t label depth, fault = .malformed (.labelDepth label depth 0) ∧ 0 < depth ∧
    label ∈ p.labelsAt t ∧ Overtaken m p t

def Fares (m p : Method) (limit : Nat) : Except Fault (Unit × LabelSupply × Body) → Prop
  | .ok (_, _, b) => b.maxDepth ≤ limit
  | .error fault => Missed m p fault

variable {m p : Method}

theorem Fares.bind {limit : Nat} {fault : Fault} {x : Lower Unit} {f : Unit → Lower Unit}
    {supply : LabelSupply} {b : Body} (h : x.onto supply b = .error fault) (hm : Missed m p fault) :
    Fares m p limit ((x >>= f).onto supply b) := by
  rw [onto_bind_of_error h]
  exact hm

end Method

namespace Scope

open Method

variable {header : ClassHeader} {m p : Method} {before gone rest : List Node}
  {supply supply' next : LabelSupply} {b b' c : Body}

theorem onto_labels_eq_ok {names : List String} {a : Unit} :
    (labels names).onto supply b = .ok (a, next, c) ↔
      b.addAll (names.map .label) = .ok c ∧ supply = next := by
  rw [Lower.onto_eq_ok, labels_eq]
  simp

theorem onto_labels_of_error {names : List String} {defect : Defect}
    (h : b.addAll (names.map .label) = .error defect) (supply : LabelSupply) :
    (labels names).onto supply b = .error (.malformed defect) := by
  unfold Lower.onto
  rw [labels_eq]
  simp only [h]

theorem labelsAt_subset (m : Method) (t : Node) : m.labelsAt t ⊆ m.labels.map Prod.fst :=
  List.map_subset _ (List.filter_sublist.subset)

theorem flatMap_labelsAt_subset (m : Method) (nodes : List Node) :
    nodes.flatMap m.labelsAt ⊆ m.labels.map Prod.fst := by
  intro name hn
  obtain ⟨n, -, hname⟩ := List.mem_flatMap.1 hn
  exact labelsAt_subset m n hname

structure Remains (m p : Method) : Prop where
  linked : m.Linked
  thinned : Thinned m p
  held : p.Held
  labels_nodup : (m.labels.map Prod.fst).Nodup

theorem onto_labels_left (h : Remains m p) (hcut : Cut m p before gone rest)
    (hrest : ∀ n ∈ rest.head?, n ∈ p.body)
    (hb : Behind (m.labels.map Prod.fst) (gone.flatMap m.labelsAt ++ m.labelsAt (headOf rest)) supply
      b supply' b') :
    (∃ c', (labels (p.labelsAt (headOf rest))).onto supply' b' = .ok ((), supply', c') ∧
        Mirrored (itself (m.labels.map Prod.fst)) [] b.reachable supply b supply' c') ∨
      ∃ fault, (labels (p.labelsAt (headOf rest))).onto supply' b' = .error fault ∧
        Missed m p fault := by
  have hw := h.linked.toWellFormed
  have hsubset : gone.flatMap m.labelsAt ++ m.labelsAt (headOf rest) ⊆ m.labels.map Prod.fst :=
    List.append_subset.2 ⟨flatMap_labelsAt_subset m gone, labelsAt_subset m _⟩
  have hnodup := nodup_labelsAt (h.thinned.names_labels.symm ▸ h.labels_nodup) (headOf rest)
  rcases hb.meet hsubset (fun name => h.thinned.mem_labelsAt hw hcut hrest) hnodup with
    ⟨c', hc', hmirror⟩ | ⟨⟨label, hlabel, hc'⟩, hpos, hheads⟩
  · exact .inl ⟨c', onto_labels_eq_ok.2 ⟨hc', rfl⟩, hmirror⟩
  · refine .inr ⟨_, onto_labels_of_error hc' _, headOf rest, label, b.depth, rfl, hpos, hlabel, ?_⟩
    -- Some label moved on, for the labels at a place to which none did are the same as before.
    have hmoved : gone.flatMap m.labelsAt ≠ [] := by
      intro hbare
      rw [hbare, List.nil_append, h.thinned.labelsAt_of_bare hw hcut hrest hbare] at hheads
      exact hheads rfl
    obtain ⟨first, others, hfirst⟩ := List.exists_cons_of_ne_nil hmoved
    have hhead : (gone.flatMap m.labelsAt).head? = some first := by rw [hfirst]; rfl
    rw [List.head?_append, hhead, Option.some_or] at hheads
    rw [List.head?_flatMap] at hhead
    obtain ⟨n, hn, hnfirst⟩ := List.exists_of_findSome?_eq_some hhead
    obtain ⟨other, _, hother⟩ := List.exists_cons_of_ne_nil (List.ne_nil_of_mem hlabel)
    have hother' : (p.labelsAt (headOf rest)).head? = some other := by rw [hother]; rfl
    refine ⟨n, ?_, hcut.gone n hn, hcut.survivor_of_gone hw.body_nodup hrest hn, first, other, hnfirst,
      hother', ?_⟩
    · rw [hcut.body_eq]
      exact List.mem_append_right _ (List.mem_append_left _ hn)
    · rintro rfl
      exact hheads hother'

theorem onto_statement_left (h : Remains m p) {n : Node} {i : Instruction}
    (hi : (n, i) ∈ m.instructions) (hn : n ∈ p.body)
    (hb : Mirrored (itself (m.labels.map Prod.fst)) [] b.reachable supply b supply' b')
    (hc : (statement ⟨header, m⟩ i).onto supply b = .ok ((), next, c)) :
    ∃ next' c', (statement ⟨header, p⟩ i).onto supply' b' = .ok ((), next', c') ∧
      Mirrored (itself (m.labels.map Prod.fst)) [] (b.reachable && i.runsOn) next c next' c' := by
  have hleft : (n, i) ∈ p.instructions := by
    rw [h.thinned.instructions_eq]
    exact List.mem_filter.2 ⟨hi, contains_iff.2 hn⟩
  have hregistered : m.Registered p (p.mentions.map Prod.fst) :=
    ⟨congrArg Signature.isStatic h.thinned.signature_eq, fun v hv _ _ => h.held v hv⟩
  have hmentions : ∀ v ∈ i.mentions.map Prod.fst, v ∈ p.mentions.map Prod.fst := by
    intro v hv
    obtain ⟨w, hw, rfl⟩ := List.mem_map.1 hv
    exact List.mem_map_of_mem (List.mem_flatMap.2 ⟨(n, i), hleft, hw⟩)
  have htarget (label : String) (ht : i.target? = some label) :
      itself (m.labels.map Prod.fst) label label := by
    obtain ⟨t, ht⟩ := h.linked.jumps_declared n i label hi ht
    exact ⟨rfl, List.mem_map_of_mem (Method.mem_labels ht)⟩
  obtain ⟨_, next', c', hc', hend⟩ :=
    mirrors_statement hregistered hmentions htarget supply b supply' b' hb () next c hc
  exact ⟨next', c', hc', hend⟩

def placed (s : Scope) (e : Node × Instruction) : Lower Unit := do
  labels (s.method.labelsAt e.1)
  s.statement e.2

theorem statements_cons_bind (s : Scope) (e : Node × Instruction) (l : List (Node × Instruction))
    (last : Lower Unit) :
    (do s.statements (e :: l); last) = (do s.placed e; s.statements l; last) := by
  simp only [statements, placed, bind_assoc]

section Placed

variable {n : Node} {i : Instruction}

theorem onto_placed_left (h : Remains m p) (hi : (n, i) ∈ m.instructions)
    (hcut : Cut m p before gone (n :: rest)) (hn : n ∈ p.body)
    (hb : Behind (m.labels.map Prod.fst) (gone.flatMap m.labelsAt) supply b supply' b')
    (hlive : m.flow.Reachable n → b.reachable = true ∨ m.labelsAt n ≠ [])
    (hc : (placed ⟨header, m⟩ (n, i)).onto supply b = .ok ((), next, c)) :
    (∃ next' c', (placed ⟨header, p⟩ (n, i)).onto supply' b' = .ok ((), next', c') ∧
        Behind (m.labels.map Prod.fst) [] next c next' c' ∧
        (m.flow.Reachable n → i.runsOn = true → c.reachable = true)) ∨
      ∃ fault, (placed ⟨header, p⟩ (n, i)).onto supply' b' = .error fault ∧ Missed m p fault := by
  obtain ⟨_, mid, b₁, hlabels, hstatement⟩ := onto_bind_eq_ok hc
  obtain ⟨hall, rfl⟩ := onto_labels_eq_ok.1 hlabels
  have hhere := hb.labels (labelsAt_subset m n) hall
  have hhead : ∀ k ∈ (n :: rest).head?, k ∈ p.body := by
    rintro k ⟨⟩
    exact hn
  rcases onto_labels_left h hcut hhead hhere with ⟨c', hc', hmirror⟩ | ⟨fault, hfault, hmissed⟩
  · obtain ⟨next', d', hd', hend⟩ := onto_statement_left h hi hn hmirror hstatement
    have hbounded := (Body.addAll_spec (Lower.onto_eq_ok.1 hstatement).1).2.1 hhere.bounded
    refine .inl ⟨next', d', (onto_bind_of_ok hc').trans hd', ?_, fun hr hrun => hend.reached ?_⟩
    · exact hend.behind hbounded fun name hn => hend.used name name ⟨rfl, hn⟩
    · rw [Body.reachable_of_labels hall (hlive hr), hrun]
      rfl
  · exact .inr ⟨fault, onto_bind_of_error hfault, hmissed⟩

theorem behind_placed (h : Remains m p) (hi : (n, i) ∈ m.instructions) (hn : n ∉ p.body)
    (hb : Behind (m.labels.map Prod.fst) (gone.flatMap m.labelsAt) supply b supply' b')
    (hlive : m.flow.Reachable n → b.reachable = true ∨ m.labelsAt n ≠ [])
    (hc : (placed ⟨header, m⟩ (n, i)).onto supply b = .ok ((), next, c)) :
    c.reachable = true ∧
      Behind (m.labels.map Prod.fst) ((gone ++ [n]).flatMap m.labelsAt) next c supply' b' := by
  have hinstruction := instruction?_eq_some.1 (mem_instructions.1 hi)
  obtain ⟨hr, name, ty, value, hcode, hcall⟩ := h.thinned.removed n hinstruction.1 hn
  obtain rfl : i = .assign (.var name ty) value :=
    Option.some.inj (hinstruction.2.symm.trans hcode)
  obtain ⟨_, mid, b₁, hlabels, hstatement⟩ := onto_bind_eq_ok hc
  obtain ⟨hall, rfl⟩ := onto_labels_eq_ok.1 hlabels
  have hhere := hb.labels (labelsAt_subset m n) hall
  have hreach := Body.reachable_of_labels hall (hlive hr)
  have hsubset : gone.flatMap m.labelsAt ++ m.labelsAt n ⊆ m.labels.map Prod.fst :=
    List.append_subset.2 ⟨flatMap_labelsAt_subset m gone, labelsAt_subset m n⟩
  have hflat : (gone ++ [n]).flatMap m.labelsAt = gone.flatMap m.labelsAt ++ m.labelsAt n := by
    simp
  exact ⟨(level_of_store hhere.known hhere.bounded hreach hcall hstatement).1,
    hflat ▸ hhere.store hsubset hreach hcall hstatement⟩

end Placed

theorem fares_statements (h : Remains m p) {l : List (Node × Instruction)}
    (hl : ∀ e ∈ l, e ∈ m.instructions) (hcut : Cut m p before gone (l.map Prod.fst))
    (hb : Behind (m.labels.map Prod.fst) (gone.flatMap m.labelsAt) supply b supply' b')
    (hlive : ∀ e ∈ l.head?, m.flow.Reachable e.1 → b.reachable = true ∨ m.labelsAt e.1 ≠ [])
    {a : Unit}
    (hc : (do statements ⟨header, m⟩ l; labels (m.labelsAt .exit)).onto supply b =
      .ok (a, next, c)) :
    Fares m p c.maxDepth ((do
      statements ⟨header, p⟩ (l.filter fun e => p.contains e.1)
      labels (p.labelsAt .exit)).onto supply' b') := by
  induction l generalizing before gone supply b supply' b' with
  | nil =>
    rw [List.map_nil] at hcut
    obtain ⟨hall, -⟩ := onto_labels_eq_ok.1 hc
    have hexit := hb.labels (labelsAt_subset m .exit) hall
    change Fares m p c.maxDepth ((labels (p.labelsAt (headOf []))).onto supply' b')
    rcases onto_labels_left h hcut nofun hexit with ⟨c', hc', hmirror⟩ | ⟨fault, hfault, hmissed⟩
    · rw [hc']
      exact hmirror.maxDepth_le
    · rw [hfault]
      exact hmissed
  | cons e rest ih =>
    obtain ⟨n, i⟩ := e
    obtain ⟨hi, hrest⟩ := List.forall_mem_cons.1 hl
    rw [statements_cons_bind] at hc
    obtain ⟨_, mid, b₁, hplaced, hlater⟩ := onto_bind_eq_ok hc
    by_cases hn : n ∈ p.body
    · have hkept : p.contains n = true := contains_iff.2 hn
      rw [List.filter_cons_of_pos (by exact hkept), statements_cons_bind]
      rcases onto_placed_left h hi hcut hn hb (hlive _ rfl) hplaced with
        ⟨mid', b₁', hplaced', hnext, hruns⟩ | ⟨fault, hfault, hmissed⟩
      · rw [onto_bind_of_ok hplaced']
        refine ih hrest (hcut.keep hn) hnext ?_ hlater
        rintro ⟨n', i'⟩ hmem hr
        obtain ⟨after, rfl⟩ := List.head?_eq_some_iff.1 hmem
        have hbody : m.body = (before ++ gone) ++ n :: n' :: after.map Prod.fst := by
          rw [hcut.body_eq, List.append_assoc]
          rfl
        rcases h.linked.reached_by hbody hi hr with ⟨hr, hrun⟩ | hnames
        · exact .inl (hruns hr hrun)
        · exact .inr (by simpa using hnames)
      · exact Fares.bind hfault hmissed
    · have hskip : ¬ p.contains n = true := mt contains_iff.1 hn
      rw [List.filter_cons_of_neg (by exact hskip)]
      obtain ⟨hreach, hnext⟩ := behind_placed h hi hn hb (hlive _ rfl) hplaced
      exact ih hrest (hcut.drop hn) hnext (fun _ _ _ => .inl hreach) hlater

theorem behind_start (header : ClassHeader) (h : Remains m p) :
    Behind (m.labels.map Prod.fst) [] { used := m.labels.map Prod.fst } (emptyBody ⟨header, m⟩)
      { used := p.labels.map Prod.fst } (emptyBody ⟨header, p⟩) := by
  have hbounded := (emptyBody_spec ⟨header, m⟩).1
  obtain ⟨registers, hempty⟩ := exists_emptyBody ⟨header, m⟩
  obtain ⟨registers', hempty'⟩ := exists_emptyBody ⟨header, p⟩
  rw [hempty] at hbounded
  rw [hempty, hempty', h.thinned.names_labels]
  exact ⟨⟨nofun, nofun⟩, ⟨nofun, nofun⟩, hbounded, fun _ hn => ⟨hn, hn⟩, Nat.le_refl 0,
    fun _ _ _ => rfl, nofun, absurd rfl, fun _ => ⟨rfl, rfl⟩, nofun⟩

theorem assemble_left (h : Remains m p) {body : Body} (hbody : assemble ⟨header, m⟩ = .ok body) :
    (∃ body', assemble ⟨header, p⟩ = .ok body' ∧ body'.maxDepth ≤ body.maxDepth) ∨
      ∃ fault, assemble ⟨header, p⟩ = .error fault ∧ Missed m p fault := by
  rw [assemble_eq_onto] at hbody ⊢
  cases hc : (Scope.body ⟨header, m⟩).onto { used := m.labels.map Prod.fst }
      (emptyBody ⟨header, m⟩) with
  | error fault =>
    rw [hc] at hbody
    cases hbody
  | ok r =>
    rw [hc] at hbody
    cases hbody
    have hcut : Cut m p [] [] (m.instructions.map Prod.fst) := by
      rw [map_fst_instructions m]
      exact cut_start m p
    have hreached := (emptyBody_spec ⟨header, m⟩).2.2.1
    have hfares := fares_statements h (fun _ => id) hcut (behind_start header h)
      (fun _ _ _ => .inl hreached) hc
    rw [← h.thinned.instructions_eq] at hfares
    change Fares m p r.2.2.maxDepth ((Scope.body ⟨header, p⟩).onto
      { used := p.labels.map Prod.fst } (emptyBody ⟨header, p⟩)) at hfares
    generalize (Scope.body ⟨header, p⟩).onto _ _ = right at hfares ⊢
    cases right with
    | error fault => exact .inr ⟨fault, rfl, hfares⟩
    | ok r' => exact .inl ⟨r'.2.2, rfl, hfares⟩

end Scope

end ClassLowering
