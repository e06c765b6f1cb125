import ClassLowering.Proofs.Liveness.Paths
import ClassLowering.Register.Interference

namespace ClassLowering

namespace InterferenceGraph

structure Sound (g : InterferenceGraph) : Prop where
  names_nodup : g.names.Nodup
  symmetric : ∀ v w, w ∈ g.neighbours v → v ∈ g.neighbours w
  irreflexive : ∀ v, v ∉ g.neighbours v
  neighbours_lt : ∀ v w, w ∈ g.neighbours v → w < g.locals.size
  neighbours_nodup : ∀ v, (g.neighbours v).Nodup

variable {g g' : InterferenceGraph}

theorem size_locals_of_names (h : g'.names = g.names) : g'.locals.size = g.locals.size := by
  have hlength := congrArg List.length h
  simpa [names] using hlength

theorem Sound.congr (hg : g.Sound) (hnames : g'.names = g.names)
    (hneighbours : ∀ v, g'.neighbours v = g.neighbours v) : g'.Sound := by
  refine ⟨?_, ?_, ?_, ?_, ?_⟩
  · rw [hnames]
    exact hg.names_nodup
  · intro v w
    rw [hneighbours, hneighbours]
    exact hg.symmetric v w
  · intro v
    rw [hneighbours]
    exact hg.irreflexive v
  · intro v w
    rw [hneighbours, size_locals_of_names hnames]
    exact hg.neighbours_lt v w
  · intro v
    rw [hneighbours]
    exact hg.neighbours_nodup v

theorem index?_eq_idxOf? (g : InterferenceGraph) (a : String) :
    g.index? a = g.names.idxOf? a := by
  rw [index?, g.index_eq, NameIndex.place?_ofNames]
  rfl

theorem index?_eq_some_iff (hg : g.names.Nodup) {a : String} {v : Nat} :
    g.index? a = some v ↔ g.names[v]? = some a := by
  rw [index?_eq_idxOf?]
  exact ⟨getElem?_of_idxOf?, idxOf?_of_getElem? hg⟩

theorem index?_lt {a : String} {v : Nat} (h : g.index? a = some v) : v < g.locals.size := by
  rw [index?_eq_idxOf?] at h
  simpa [names] using idxOf?_lt h

section Modify

variable {f : Vertex → Vertex} (hf : ∀ x, (f x).name = x.name)

theorem getElem?_modify (g : InterferenceGraph) (v w : Nat) :
    (g.modify v f hf).locals[w]? = if v = w then (g.locals[w]?).map f else g.locals[w]? := by
  simp [modify, Array.getElem?_modify]

theorem size_locals_modify (g : InterferenceGraph) (v : Nat) :
    (g.modify v f hf).locals.size = g.locals.size := by
  simp [modify]

theorem names_modify (g : InterferenceGraph) (v : Nat) : (g.modify v f hf).names = g.names :=
  map_name_modify hf g.locals v

theorem neighbours_modify (hn : ∀ x, (f x).neighbours = x.neighbours)
    (g : InterferenceGraph) (v w : Nat) : (g.modify v f hf).neighbours w = g.neighbours w := by
  unfold neighbours
  rw [getElem?_modify]
  split
  · cases g.locals[w]? with
    | none => rfl
    | some x => simp [hn]
  · rfl

end Modify

theorem neighbours_append {v : Nat} (hv : v < g.locals.size) (y w : Nat) :
    (g.modify v fun x => { x with neighbours := x.neighbours ++ [y] }).neighbours w =
      if v = w then g.neighbours w ++ [y] else g.neighbours w := by
  unfold neighbours
  rw [getElem?_modify]
  split
  · next h =>
    subst h
    simp [hv]
  · rfl

theorem addEdge_eq_self {v w : Nat}
    (h : v = w ∨ g.locals.size ≤ v ∨ g.locals.size ≤ w ∨ w ∈ g.neighbours v) :
    g.addEdge v w = g := if_pos h

theorem neighbours_addEdge {v w : Nat} (hne : v ≠ w) (hv : v < g.locals.size)
    (hw : w < g.locals.size) (hnew : w ∉ g.neighbours v) (x : Nat) :
    (g.addEdge v w).neighbours x =
      if v = x then g.neighbours x ++ [w]
      else if w = x then g.neighbours x ++ [v] else g.neighbours x := by
  have hcond : ¬ (v = w ∨ g.locals.size ≤ v ∨ g.locals.size ≤ w ∨ w ∈ g.neighbours v) := by
    simp [hne, hnew, hv, hw]
  rw [addEdge, if_neg hcond, neighbours_append (by rwa [size_locals_modify]),
    neighbours_append hv]
  by_cases h : w = x
  · subst h
    simp [hne]
  · simp [h]

theorem mem_neighbours_addEdge (hg : g.Sound) (v w x y : Nat) :
    y ∈ (g.addEdge v w).neighbours x ↔
      y ∈ g.neighbours x ∨ (v ≠ w ∧ v < g.locals.size ∧ w < g.locals.size) ∧
        (x = v ∧ y = w ∨ x = w ∧ y = v) := by
  by_cases h : v = w ∨ g.locals.size ≤ v ∨ g.locals.size ≤ w ∨ w ∈ g.neighbours v
  · rw [addEdge_eq_self h]
    refine ⟨.inl, ?_⟩
    rintro (hy | ⟨⟨hne, hv, hw⟩, hxy⟩)
    · exact hy
    · have hmem : w ∈ g.neighbours v := by
        rcases h with h | h | h | h
        · exact absurd h hne
        · omega
        · omega
        · exact h
      rcases hxy with ⟨rfl, rfl⟩ | ⟨rfl, rfl⟩
      · exact hmem
      · exact hg.symmetric _ _ hmem
  · simp only [not_or, Nat.not_le] at h
    obtain ⟨hne, hv, hw, hnew⟩ := h
    rw [neighbours_addEdge hne hv hw hnew]
    by_cases hx : v = x
    · subst hx
      simp [hne, hv, hw]
    · by_cases hx' : w = x
      · subst hx'
        have hwv : w ≠ v := fun e => hne e.symm
        simp [hne, hwv, hv, hw]
      · simp [hx, hx', Ne.symm hx, Ne.symm hx']

theorem names_addEdge (g : InterferenceGraph) (v w : Nat) : (g.addEdge v w).names = g.names := by
  unfold addEdge
  split
  · rfl
  · rw [names_modify, names_modify]

theorem size_locals_addEdge (g : InterferenceGraph) (v w : Nat) :
    (g.addEdge v w).locals.size = g.locals.size := size_locals_of_names (names_addEdge g v w)

theorem Sound.addEdge (hg : g.Sound) (v w : Nat) : (g.addEdge v w).Sound := by
  have hm := mem_neighbours_addEdge hg v w
  refine ⟨?_, fun x y hy => ?_, fun x hx => ?_, fun x y hy => ?_, fun x => ?_⟩
  · rw [names_addEdge]
    exact hg.names_nodup
  · rw [hm] at hy ⊢
    rcases hy with hy | ⟨hv, hxy⟩
    · exact .inl (hg.symmetric x y hy)
    · exact .inr ⟨hv, by tauto⟩
  · rw [hm] at hx
    rcases hx with hx | ⟨⟨hne, -⟩, ⟨rfl, hw⟩ | ⟨rfl, hv⟩⟩
    · exact hg.irreflexive x hx
    · exact hne hw
    · exact hne hv.symm
  · rw [hm] at hy
    rw [size_locals_addEdge]
    rcases hy with hy | ⟨⟨-, hv, hw⟩, ⟨-, rfl⟩ | ⟨-, rfl⟩⟩
    · exact hg.neighbours_lt x y hy
    · exact hw
    · exact hv
  · by_cases h : v = w ∨ g.locals.size ≤ v ∨ g.locals.size ≤ w ∨ w ∈ g.neighbours v
    · rw [addEdge_eq_self h]
      exact hg.neighbours_nodup x
    · simp only [not_or, Nat.not_le] at h
      obtain ⟨hne, hv, hw, hnew⟩ := h
      have hnew' : v ∉ g.neighbours w := fun h => hnew (hg.symmetric w v h)
      rw [neighbours_addEdge hne hv hw hnew]
      split
      · next e =>
        subst e
        rw [← List.concat_eq_append]
        exact (hg.neighbours_nodup v).concat hnew
      · split
        · next e =>
          subst e
          rw [← List.concat_eq_append]
          exact (hg.neighbours_nodup w).concat hnew'
        · exact hg.neighbours_nodup x

theorem addLocal_eq (g : InterferenceGraph) (a : String) :
    g.addLocal a = if a ∈ g.names then g else g.pushLocal a := by
  unfold addLocal enterLocal
  cases ha : g.index? a with
  | some v =>
    rw [index?_eq_idxOf?] at ha
    rw [if_pos (List.mem_of_getElem? (getElem?_of_idxOf? ha))]
  | none =>
    rw [index?_eq_idxOf?, List.idxOf?_eq_none_iff] at ha
    rw [if_neg ha]

theorem names_addLocal (g : InterferenceGraph) (a : String) :
    (g.addLocal a).names = if a ∈ g.names then g.names else g.names ++ [a] := by
  rw [addLocal_eq]
  split
  · rfl
  · simp [pushLocal, names]

theorem index?_addLocal (g : InterferenceGraph) (a : String) :
    (g.addLocal a).index? a = some (g.enterLocal a).1 := by
  unfold addLocal enterLocal
  cases ha : g.index? a with
  | some v => exact ha
  | none => exact NameIndex.place?_enter_of_eq_none ha g.locals.size

theorem names_foldl_addLocal (l : List String) (g : InterferenceGraph)
    (h : (g.names ++ l).Nodup) : (l.foldl addLocal g).names = g.names ++ l := by
  induction l generalizing g with
  | nil => simp
  | cons a l ih =>
    have ha : a ∉ g.names := fun hm => by
      have := (List.nodup_append.1 h).2.2 a hm a (by simp)
      exact this rfl
    have hn : (g.addLocal a).names = g.names ++ [a] := by rw [names_addLocal, if_neg ha]
    rw [List.foldl_cons, ih]
    · rw [hn, List.append_assoc]
      rfl
    · rw [hn, List.append_assoc]
      exact h

structure Untouched (g : InterferenceGraph) : Prop where
  register?_eq : ∀ v, g.register? v = none
  isVisible_eq : ∀ v, v < g.locals.size → g.isVisible v = true

theorem Untouched.addLocal (hg : g.Untouched) (a : String) : (g.addLocal a).Untouched := by
  rw [addLocal_eq]
  split
  · exact hg
  · have hr := hg.register?_eq
    have hv := hg.isVisible_eq
    unfold register? at hr
    unfold isVisible at hv
    refine ⟨fun v => ?_, fun v h => ?_⟩
    · simp only [register?, pushLocal, Array.getElem?_push]
      split
      · rfl
      · exact hr v
    · simp only [isVisible, pushLocal, Array.getElem?_push, Array.size_push] at h ⊢
      split
      · rfl
      · exact hv v (by omega)

theorem neighbours_addLocal (g : InterferenceGraph) (a : String) (v : Nat) :
    (g.addLocal a).neighbours v = g.neighbours v := by
  rw [addLocal_eq]
  split
  · rfl
  · unfold neighbours pushLocal
    rw [Array.getElem?_push]
    split
    · next h =>
      subst h
      rw [Array.getElem?_eq_none (Nat.le_refl _)]
      rfl
    · rfl

theorem Sound.addLocal (hg : g.Sound) (a : String) : (g.addLocal a).Sound := by
  have hsize : g.locals.size ≤ (g.addLocal a).locals.size := by
    rw [addLocal_eq]
    split
    · exact Nat.le_refl _
    · simp [pushLocal]
  refine ⟨?_, fun v w => ?_, fun v => ?_, fun v w hw => ?_, fun v => ?_⟩
  · rw [names_addLocal]
    split
    · exact hg.names_nodup
    · next hnew =>
      rw [← List.concat_eq_append]
      exact hg.names_nodup.concat hnew
  · rw [neighbours_addLocal, neighbours_addLocal]
    exact hg.symmetric v w
  · rw [neighbours_addLocal]
    exact hg.irreflexive v
  · rw [neighbours_addLocal] at hw
    exact (hg.neighbours_lt v w hw).trans_le hsize
  · rw [neighbours_addLocal]
    exact hg.neighbours_nodup v

theorem parameters_foldl_addLocal (l : List String) (g : InterferenceGraph) :
    (l.foldl addLocal g).parameters = g.parameters := by
  induction l generalizing g with
  | nil => rfl
  | cons a l ih =>
    rw [List.foldl_cons, ih, addLocal_eq]
    split <;> rfl

def localNames (m : Method) : List String :=
  m.table.names.filter fun name => name ≠ "this" && !m.isParameter name

theorem localNames_nodup (m : Method) : (localNames m).Nodup := m.table.names_nodup.filter _

theorem names_vertices (m : Method) : (vertices m).names = localNames m := by
  have hn (p : List Vertex) : (({ parameters := p } : InterferenceGraph).names ++ localNames m).Nodup :=
    localNames_nodup m
  exact names_foldl_addLocal (localNames m) _ (hn _)

theorem vertices_spec (m : Method) :
    (vertices m).Sound ∧ (vertices m).Untouched ∧ ∀ v, (vertices m).neighbours v = [] := by
  have hfold (l : List String) {g : InterferenceGraph} (hg : g.Untouched)
      (hn : ∀ v, g.neighbours v = []) :
      (l.foldl addLocal g).Untouched ∧ ∀ v, (l.foldl addLocal g).neighbours v = [] := by
    induction l generalizing g with
    | nil => exact ⟨hg, hn⟩
    | cons a l ih =>
      exact ih (hg.addLocal a) fun v => (neighbours_addLocal _ a v).trans (hn v)
  obtain ⟨hu, hb⟩ : (vertices m).Untouched ∧ ∀ v, (vertices m).neighbours v = [] :=
    hfold _ ⟨fun v => rfl, fun v hv => absurd hv (Nat.not_lt_zero v)⟩ fun v => rfl
  refine ⟨⟨?_, fun v w hw => ?_, fun v hv => ?_, fun v w hw => ?_, fun v => ?_⟩, hu, hb⟩
  · rw [names_vertices]
    exact localNames_nodup m
  · simp [hb v] at hw
  · simp [hb v] at hv
  · simp [hb v] at hw
  · simp [hb v]

theorem Untouched.addEdge (hg : g.Untouched) (v w : Nat) : (g.addEdge v w).Untouched := by
  have hmodify {g : InterferenceGraph} (hg : g.Untouched) (v : Nat) (y : Nat) :
      (g.modify v fun x => { x with neighbours := x.neighbours ++ [y] }).Untouched := by
    have hr := hg.register?_eq
    have hv := hg.isVisible_eq
    unfold register? at hr
    unfold isVisible at hv
    refine ⟨fun u => ?_, fun u hu => ?_⟩
    · have h := hr u
      simp only [register?, getElem?_modify]
      split
      · cases hx : g.locals[u]? with
        | none => rfl
        | some x => simpa [hx] using h
      · exact h
    · rw [size_locals_modify] at hu
      have h := hv u hu
      simp only [isVisible, getElem?_modify]
      split
      · cases hx : g.locals[u]? with
        | none => simp [hx] at h
        | some x => simpa [hx] using h
      · exact h
  unfold InterferenceGraph.addEdge
  split
  · exact hg
  · exact hmodify (hmodify hg v w) w v

def Joins (g : InterferenceGraph) (c : String × String) (x y : Nat) : Prop :=
  g.index? c.1 = some x ∧ g.index? c.2 = some y ∨ g.index? c.1 = some y ∧ g.index? c.2 = some x

theorem addInterference_spec (hg : g.Sound) (hu : g.Untouched) (a b : String) :
    (g.addInterference a b).Sound ∧ (g.addInterference a b).Untouched ∧
      (g.addInterference a b).names = g.names ∧
      (g.addInterference a b).parameters = g.parameters ∧
      ∀ x y, y ∈ (g.addInterference a b).neighbours x ↔
        y ∈ g.neighbours x ∨ x ≠ y ∧ g.Joins (a, b) x y := by
  unfold addInterference
  split
  · next v w hv hw =>
    refine ⟨hg.addEdge v w, hu.addEdge v w, names_addEdge g v w, ?_, fun x y => ?_⟩
    · unfold addEdge
      split <;> rfl
    · have hlv := index?_lt hv
      have hlw := index?_lt hw
      rw [mem_neighbours_addEdge hg, Joins, hv, hw]
      simp only [Option.some.injEq, hlv, hlw, and_true]
      refine or_congr_right ?_
      constructor
      · rintro ⟨hne, ⟨rfl, rfl⟩ | ⟨rfl, rfl⟩⟩
        · exact ⟨hne, .inl ⟨rfl, rfl⟩⟩
        · exact ⟨fun e => hne e.symm, .inr ⟨rfl, rfl⟩⟩
      · rintro ⟨hne, ⟨rfl, rfl⟩ | ⟨rfl, rfl⟩⟩
        · exact ⟨hne, .inl ⟨rfl, rfl⟩⟩
        · exact ⟨fun e => hne e.symm, .inr ⟨rfl, rfl⟩⟩
  · next hnone =>
    refine ⟨hg, hu, rfl, rfl, fun x y => ⟨.inl, ?_⟩⟩
    rintro (h | ⟨-, ⟨ha, hb⟩ | ⟨ha, hb⟩⟩)
    · exact h
    · exact absurd hb (hnone x y ha)
    · exact absurd hb (hnone y x ha)

theorem foldl_addInterference_spec (l : List (String × String)) (hg : g.Sound)
    (hu : g.Untouched) :
    let g' := l.foldl (fun g (a, b) => g.addInterference a b) g
    g'.Sound ∧ g'.Untouched ∧ g'.names = g.names ∧ g'.parameters = g.parameters ∧
      ∀ x y, y ∈ g'.neighbours x ↔ y ∈ g.neighbours x ∨ x ≠ y ∧ ∃ c ∈ l, g.Joins c x y := by
  induction l generalizing g with
  | nil => exact ⟨hg, hu, rfl, rfl, by simp⟩
  | cons c l ih =>
    obtain ⟨a, b⟩ := c
    obtain ⟨hs, hu', hn, hp, he⟩ := addInterference_spec hg hu a b
    obtain ⟨hs', hu'', hn', hp', he'⟩ := ih hs hu'
    have hj (c : String × String) (x y : Nat) :
        (g.addInterference a b).Joins c x y ↔ g.Joins c x y := by
      simp only [Joins, index?_eq_idxOf?, hn]
    refine ⟨hs', hu'', hn'.trans hn, hp'.trans hp, fun x y => ?_⟩
    rw [List.foldl_cons, he', he]
    simp only [hj]
    rw [or_assoc, ← and_or_left, List.exists_mem_cons_iff]

theorem ofMethod_spec (m : Method) (l : Liveness) :
    (ofMethod m l).Sound ∧ (ofMethod m l).Untouched ∧ (ofMethod m l).names = localNames m ∧
      (ofMethod m l).parameters = (vertices m).parameters ∧
      ∀ x y, y ∈ (ofMethod m l).neighbours x ↔
        x ≠ y ∧ ∃ c ∈ conflicts l, (ofMethod m l).Joins c x y := by
  obtain ⟨hs, hu, hb⟩ := vertices_spec m
  obtain ⟨hs', hu', hn, hp, he⟩ := foldl_addInterference_spec (conflicts l) hs hu
  have hj (c : String × String) (x y : Nat) :
      (vertices m).Joins c x y ↔ (ofMethod m l).Joins c x y := by
    simp only [Joins, index?_eq_idxOf?]
    rw [show (ofMethod m l).names = (vertices m).names from hn]
  refine ⟨hs', hu', hn.trans (names_vertices m), hp, fun x y => ?_⟩
  refine (he x y).trans ?_
  simp only [hb, hj, List.not_mem_nil, false_or]

theorem interferes_iff (hg : g.Sound) {a b : String} :
    g.interferes a b = true ↔
      ∃ v w, g.names[v]? = some a ∧ g.names[w]? = some b ∧ w ∈ g.neighbours v := by
  simp only [← index?_eq_some_iff hg.names_nodup, InterferenceGraph.interferes]
  cases g.index? a with
  | none => simp
  | some v =>
    cases g.index? b with
    | none => simp
    | some w => simp

theorem interferes_ofMethod_iff {m : Method} {l : Liveness} {a b : String} :
    (ofMethod m l).interferes a b = true ↔
      (a ≠ b ∧ a ∈ localNames m ∧ b ∈ localNames m) ∧
        ((a, b) ∈ conflicts l ∨ (b, a) ∈ conflicts l) := by
  obtain ⟨hs, -, hnames, -, he⟩ := ofMethod_spec m l
  have hjoins (c : String × String) (x y : Nat) : (ofMethod m l).Joins c x y ↔
      (localNames m)[x]? = some c.1 ∧ (localNames m)[y]? = some c.2 ∨
        (localNames m)[y]? = some c.1 ∧ (localNames m)[x]? = some c.2 := by
    simp only [Joins, index?_eq_some_iff hs.names_nodup, hnames]
  rw [interferes_iff hs, hnames]
  constructor
  · rintro ⟨x, y, hx, hy, hmem⟩
    obtain ⟨hne, c, hc, hj⟩ := (he x y).1 hmem
    refine ⟨⟨?_, List.mem_of_getElem? hx, List.mem_of_getElem? hy⟩, ?_⟩
    · rintro rfl
      rw [← hnames, ← index?_eq_some_iff hs.names_nodup] at hx hy
      exact hne (Option.some.inj (hx.symm.trans hy))
    · rw [hjoins, hx, hy] at hj
      rcases hj with ⟨h1, h2⟩ | ⟨h1, h2⟩
      · cases h1
        cases h2
        exact .inl hc
      · cases h1
        cases h2
        exact .inr hc
  · rintro ⟨⟨hne, ha, hb⟩, hc⟩
    obtain ⟨x, hx⟩ := List.getElem?_of_mem ha
    obtain ⟨y, hy⟩ := List.getElem?_of_mem hb
    have hxy : x ≠ y := by
      rintro rfl
      exact hne (Option.some.inj (hx.symm.trans hy))
    refine ⟨x, y, hx, hy, (he x y).2 ⟨hxy, ?_⟩⟩
    rcases hc with hc | hc
    · exact ⟨_, hc, (hjoins _ x y).2 (.inl ⟨hx, hy⟩)⟩
    · exact ⟨_, hc, (hjoins _ x y).2 (.inr ⟨hy, hx⟩)⟩

theorem mem_conflicts {m : Method} (hm : m.WellFormed) {a b : String} :
    (a, b) ∈ conflicts (.compute m) ↔ ∃ n ∈ (Liveness.start m).order,
      (∃ i, m.instruction? n = some i ∧ a ∈ Liveness.written i) ∧
        (Liveness.compute m).LiveOut n b := by
  obtain ⟨F, passes, hc, -, hF, -⟩ := Liveness.compute_spec hm
  have hout (n : Node) : ((Liveness.compute m).factsAt n).liveOut.Within
      (Liveness.compute m).bound := by
    rw [hc]
    exact hF.liveOut_within n
  have hwithin (n : Node) : ((Liveness.compute m).factsAt n).writes.Within
      (Liveness.compute m).bound := by
    rw [Liveness.writes_compute hm]
    rw [hc]
    exact (Liveness.start_regular hm).writes_within n
  have hnodup : (Liveness.compute m).tracked.Nodup := by
    rw [hc]
    exact Liveness.tracked_nodup m
  simp only [conflicts, List.mem_flatMap, List.mem_map, Prod.mk.injEq, Liveness.order_compute hm]
  refine exists_congr fun n => and_congr_right fun hn => ?_
  rw [← Liveness.has_writes_compute hm hn]
  constructor
  · rintro ⟨x, hx, y, hy, rfl, rfl⟩
    exact ⟨(Liveness.mem_names hnodup (hwithin n)).1 hx, (Liveness.mem_names hnodup (hout n)).1 hy⟩
  · rintro ⟨hx, hy⟩
    exact ⟨a, (Liveness.mem_names hnodup (hwithin n)).2 hx, b,
      (Liveness.mem_names hnodup (hout n)).2 hy, rfl, rfl⟩

end InterferenceGraph

end ClassLowering
