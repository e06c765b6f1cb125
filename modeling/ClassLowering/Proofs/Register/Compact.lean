import ClassLowering.Proofs.Code.Registers
import ClassLowering.Proofs.Register.Allocation
import ClassLowering.Proofs.Rounds

namespace ClassLowering

namespace VariableTable

theorem register?_of_assign {vertices : List Vertex} {t : VariableTable} {a : String} {r : Nat}
    (ha : a ∈ t.names) (h : (t.assign vertices).register? a = some r) :
    (∃ x ∈ vertices, x.name = a ∧ x.register = some r) ∨
      t.register? a = some r ∧ ∀ x ∈ vertices, x.name = a → x.register = none := by
  induction vertices generalizing t with
  | nil => exact .inr ⟨h, nofun⟩
  | cons x rest ih =>
    rw [assign_cons] at h
    cases hx : x.register with
    | none =>
      rw [hx] at h
      obtain ⟨y, hy, hya⟩ | ⟨hr, hrest⟩ := ih ha h
      · exact .inl ⟨y, List.mem_cons_of_mem _ hy, hya⟩
      · exact .inr ⟨hr, List.forall_mem_cons.2 ⟨fun _ => hx, hrest⟩⟩
    | some s =>
      rw [hx, Option.elim_some] at h
      obtain ⟨y, hy, hya⟩ | ⟨hr, hrest⟩ := ih (by simpa using ha) h
      · exact .inl ⟨y, List.mem_cons_of_mem _ hy, hya⟩
      · rw [register?_setRegister] at hr
        split at hr
        · next hsame => exact .inl ⟨x, List.mem_cons_self, hsame.1.symm, hx.trans hr⟩
        · next hother =>
          have hne : x.name ≠ a := fun e => hother ⟨e.symm, ha⟩
          exact .inr ⟨hr, List.forall_mem_cons.2 ⟨fun e => absurd e hne, hrest⟩⟩

end VariableTable

namespace InterferenceGraph

variable {g g' : InterferenceGraph} {method : String}

def Filled (base : Nat) (g : InterferenceGraph) : Prop :=
  ∀ v r, g.register? v = some r → ∀ lower < r, base ≤ lower → ∃ w, g.register? w = some lower

theorem exists_name_of_register? {v r : Nat} (h : g.register? v = some r) :
    ∃ a, g.names[v]? = some a := by
  obtain ⟨x, hx, -⟩ := Option.bind_eq_some_iff.1 h
  exact ⟨x.name, by rw [names, List.getElem?_map, Array.getElem?_toList, hx]; rfl⟩

theorem exists_holder_of_lt_lowestFree {v base lower : Nat} (hbase : base ≤ lower)
    (h : lower < g.lowestFree v base) : ∃ w, g.register? w = some lower := by
  have htaken := @test_eq_false_of_lt_firstFrom (fun r => r ∉ g.takenAround v) _ _ _ hbase h
  have hmem : lower ∈ g.takenAround v := by simpa using htaken
  obtain ⟨w, -, hw⟩ := List.mem_filterMap.1 hmem
  exact ⟨w, hw⟩

theorem Filled.setRegister {base v : Nat} (hf : Filled base g) (hv : v < g.locals.size)
    (hnone : g.register? v = none) : Filled base (g.setRegister v (g.lowestFree v base)) := by
  -- The holders stay, since the local that gets a register had none before.
  have hkeep {w r : Nat} (hw : g.register? w = some r) :
      (g.setRegister v (g.lowestFree v base)).register? w = some r := by
    rw [register?_setRegister hv, if_neg, hw]
    rintro rfl
    rw [hnone] at hw
    cases hw
  intro w r hr lower hlower hbase
  rw [register?_setRegister hv] at hr
  split at hr
  · cases hr
    obtain ⟨x, hx⟩ := exists_holder_of_lt_lowestFree hbase hlower
    exact ⟨x, hkeep hx⟩
  · obtain ⟨x, hx⟩ := hf w r hr lower hlower hbase
    exact ⟨x, hkeep hx⟩

theorem filled_of_select {base limit : Nat} {order : List Nat}
    (ho : ∀ v ∈ order, v < g.locals.size ∧ g.register? v = none) (hn : order.Nodup)
    (hf : Filled base g) (h : select method base limit order g = (g', .ok ())) :
    Filled base g' := by
  induction order generalizing g with
  | nil =>
    cases h
    exact hf
  | cons v rest ih =>
    obtain ⟨⟨hv, hnone⟩, hrest⟩ := List.forall_mem_cons.1 ho
    obtain ⟨hnew, hnodup⟩ := List.nodup_cons.1 hn
    unfold select at h
    dsimp only at h
    split at h
    · cases h
    · refine ih (fun w hw => ?_) hnodup (hf.setRegister hv hnone) h
      have hne : v ≠ w := fun e => hnew (e ▸ hw)
      rw [register?_setRegister hv, if_neg hne, setRegister, size_locals_modify]
      exact hrest w hw

theorem filled_of_color {ceiling? : Option Nat} {k : Nat} (hs : g.Sound) (hu : g.Untouched)
    (h : g.color method ceiling? = (g', .ok k)) : Filled g.parameters.length g' := by
  have hshape := (simplify_of hu.isVisible_eq).shape
  have hnone (v : Nat) : g.simplify.graph.pinParameters.register? v = none :=
    (hshape.register?_eq v).trans (hu.register?_eq v)
  refine filled_of_select (fun v hv => ⟨?_, hnone v⟩) ?_ (fun v r hr => ?_) (color_eq_ok h).2
  · have hlt := (mem_hidden_simplify hs hu.isVisible_eq).1 (List.mem_reverse.1 hv)
    exact hshape.size_eq.symm ▸ hlt
  · exact List.nodup_reverse.2 (simplify_of hu.isVisible_eq).hidden_nodup
  · rw [hnone] at hr
    cases hr

end InterferenceGraph

namespace Method

open InterferenceGraph

variable {m m' : Method} {l : Liveness}

def Compact (m : Method) : Prop :=
  ∀ v ∈ m.mentions.map Prod.fst, ∀ r, m.table.register? v = some r → ∀ lower < r,
    lower < m.firstLocal ∨ ∃ w ∈ m.mentions.map Prod.fst, m.table.register? w = some lower

theorem compact_renumber (m : Method) : m.renumber.Compact := by
  intro v hv r hr lower hlower
  obtain ⟨s, hs, hsr⟩ := m.spread_renumber.1 v (m.mem_names_renumber.2 (.inr (.inr hv)))
  have hlt : lower < m.firstLocal + m.locals.length :=
    Nat.lt_trans (Option.some.inj (hr.symm.trans hsr) ▸ hlower) hs
  refine (Nat.lt_or_ge lower m.firstLocal).imp_right fun hge => ?_
  obtain ⟨k, rfl⟩ := Nat.exists_eq_add_of_le hge
  have hk := List.getElem?_eq_getElem (Nat.lt_of_add_lt_add_left hlt)
  exact ⟨_, mem_mentions_of_mem_locals (List.mem_of_getElem? hk), register?_renumber_local hk⟩

theorem localNames_renumber {v : String} (h : v ∈ localNames m.renumber) :
    v ∈ m.renumber.mentions.map Prod.fst := by
  obtain ⟨hv, hthis, hparameter⟩ := mem_localNames.1 h
  rcases m.mem_names_renumber.1 hv with ⟨-, rfl⟩ | hv | hv
  · exact absurd rfl hthis
  · obtain ⟨p, hp, rfl⟩ := List.mem_map.1 hv
    exact absurd rfl (hparameter p hp)
  · exact hv

theorem register?_lt_of_not_local {g : InterferenceGraph} (hg : g.names = localNames m)
    (hp : g.parameters = pinned (vertices m).parameters) {v : String}
    (hv : v ∈ m.table.names) (hlocal : v ∉ localNames m) {r : Nat}
    (hr : (m.assignRegisters g).table.register? v = some r) : r = 0 ∨ r < m.firstLocal := by
  have hpinned : ∀ x ∈ g.parameters, ∃ i < m.firstLocal, x.register = some i := by
    intro x hx
    rw [hp, pinned] at hx
    obtain ⟨i, hi, rfl⟩ := List.mem_mapIdx.1 hx
    exact ⟨i, length_parameters_vertices m ▸ hi, rfl⟩
  by_cases hthis : v = "this"
  · subst hthis
    rw [register?_assignRegisters_this g hv] at hr
    exact .inl (Option.some.inj hr).symm
  · right
    unfold assignRegisters at hr
    rw [VariableTable.register?_setRegister, if_neg fun e => hthis e.1] at hr
    obtain ⟨x, hx, rfl, hxr⟩ | ⟨-, hnone⟩ := VariableTable.register?_of_assign hv hr
    · rcases List.mem_append.1 hx with hx | hx
      · obtain ⟨i, hi, hxi⟩ := hpinned x hx
        exact Option.some.inj (hxr.symm.trans hxi) ▸ hi
      · exact absurd (hg ▸ List.mem_map_of_mem hx) hlocal
    · -- A variable of the table that is neither a local nor the receiver is a parameter.
      have hparameter : ∃ p ∈ m.parameters, p.name = v := by
        by_contra hno
        exact hlocal (mem_localNames.2 ⟨hv, hthis, fun p hp e => hno ⟨p, hp, e⟩⟩)
      obtain ⟨p, hp', rfl⟩ := hparameter
      have hmem : p.name ∈ g.parameters.map Vertex.name := by
        rw [hp, names_pinned, names_parameters_vertices]
        exact List.mem_append_right _ (List.mem_map_of_mem hp')
      obtain ⟨x, hx, hxp⟩ := List.mem_map.1 hmem
      obtain ⟨i, -, hxi⟩ := hpinned x hx
      rw [hnone x (List.mem_append_left _ hx) hxp] at hxi
      cases hxi

theorem compact_allocate (hm : m.Tabled)
    (hlocals : ∀ v ∈ localNames m, v ∈ m.mentions.map Prod.fst) {ceiling? : Option Nat} {k : Nat}
    (h : m.allocate l ceiling? = .ok (m', k)) : m'.Compact := by
  obtain ⟨hs, hu, hn, hpar, -⟩ := ofMethod_spec m l
  obtain ⟨g, hc, rfl⟩ := allocate_eq_ok h
  obtain ⟨-, hgn, hgp, -, hall⟩ := color_spec hs hu hc
  have hfilled := filled_of_color hs hu hc
  rw [hpar, length_parameters_vertices] at hfilled
  rw [← size_locals_of_names hgn] at hall
  have hnames := hgn.trans hn
  have hparameters : g.parameters = pinned (vertices m).parameters := by rw [hgp, hpar]
  intro v hv r hr lower hlower
  by_cases hfirst : lower < m.firstLocal
  · exact .inl hfirst
  by_cases hlocal : v ∈ localNames m
  · obtain ⟨x, r', -, hx, hreg⟩ := register?_local hnames hall hlocal
    obtain rfl : r = r' := Option.some.inj (hr.symm.trans hreg)
    obtain ⟨y, hy⟩ := hfilled x r hx lower hlower (Nat.not_lt.1 hfirst)
    obtain ⟨w, hw⟩ := exists_name_of_register? hy
    refine .inr ⟨w, hlocals w ?_, register?_place hnames hw hy⟩
    exact hnames ▸ List.mem_of_getElem? hw
  · rcases register?_lt_of_not_local hnames hparameters (hm.mention_mem v hv) hlocal hr with h | h
    · omega
    · exact absurd (Nat.lt_trans hlower h) hfirst

theorem gapless_of_compact {s : Scope} {body : Body} (hm : s.method.Compact)
    (hc : ∀ e ∈ s.method.instructions, ∀ c ∈ e.2.calls, c.BareLength)
    (h : s.assemble = .ok body) : Gapless body.registers := by
  obtain ⟨-, hmem⟩ := Scope.registers_of_assemble h
  have hnames := Scope.names_of_assemble h hc
  have hheld {v : String} {r : Nat} (hv : v ∈ s.method.mentions.map Prod.fst)
      (hr : s.method.table.register? v = some r) : r ∈ body.registers := by
    obtain ⟨r', hr', hreg⟩ := hnames.held v hv
    obtain rfl : r = r' := Option.some.inj (hr.symm.trans hreg)
    exact (hmem r).2 (.inr hr')
  intro r hr lower hlower
  have howned : r < s.method.firstLocal ∨
      ∃ v ∈ s.method.mentions.map Prod.fst, s.method.table.register? v = some r :=
    ((hmem r).1 hr).elim .inl (hnames.owned r)
  obtain hfirst | ⟨v, hv, hreg⟩ := howned
  · exact (hmem lower).2 (.inl (Nat.lt_trans hlower hfirst))
  · obtain hfirst | ⟨w, hw, hwreg⟩ := hm v hv r hreg lower hlower
    · exact (hmem lower).2 (.inl hfirst)
    · exact hheld hw hwreg

theorem mem_code_of_instructions {e : Node × Instruction} (h : e ∈ m.instructions) :
    e.2 ∈ m.code.toList := by
  obtain ⟨n, i⟩ := e
  have hcode : m.codeAt? n = some i := (instruction?_eq_some.1 (mem_instructions.1 h)).2
  obtain ⟨slot, -, hi⟩ := Option.bind_eq_some_iff.1 hcode
  exact List.mem_of_getElem? (i := slot) (by rw [Array.getElem?_toList]; exact hi)

theorem code_optimize (passes : List Pass) (m : Method) :
    (Pipeline.optimize passes m).method.code = m.code := by
  refine Pipeline.optimize_induction (P := fun m' => m'.code = m.code) (fun m' h => ?_)
    (fun _ => id) passes rfl
  exact Pipeline.removeDeadStores_induction (fun m' n h => (m'.code_remove n).trans h) h

theorem code_of_build {signature : Signature} {entries : List Entry}
    (h : build signature entries = .ok m) : m.code = (codeOf entries).toArray := by
  obtain ⟨g, -, rfl⟩ := build_eq_ok h
  rfl

theorem compact_optimize {signature : Signature} {entries : List Entry}
    (h : build signature entries = .ok m) (passes : List Pass) :
    (Pipeline.optimize passes m).method.Compact ∧
      ∀ v ∈ localNames (Pipeline.optimize passes m).method,
        v ∈ (Pipeline.optimize passes m).method.mentions.map Prod.fst := by
  have hnumbered (m : Method) : m.renumber.Compact ∧
      ∀ v ∈ localNames m.renumber, v ∈ m.renumber.mentions.map Prod.fst :=
    ⟨m.compact_renumber, fun v => localNames_renumber⟩
  obtain ⟨g, -, rfl⟩ := build_eq_ok h
  exact Pipeline.optimize_renumbered (P := fun m => m.Compact ∧ ∀ v ∈ localNames m,
    v ∈ m.mentions.map Prod.fst) hnumbered passes (hnumbered _)

theorem compact_run {signature : Signature} {entries : List Entry}
    (hbuild : build signature entries = .ok m) {pipeline : Pipeline} {summary : Summary}
    (hrun : (pipeline.run m).outcome = .ok summary) :
    (pipeline.run m).method.Compact ∧ (pipeline.run m).method.code = m.code := by
  obtain ⟨hcompact, hlocals⟩ := compact_optimize hbuild pipeline.passes
  obtain hsame | ⟨k, ha⟩ := Pipeline.method_of_run hrun
  · rw [hsame]
    exact ⟨hcompact, code_optimize _ m⟩
  · have htabled := ((Reduct.of_build hbuild).optimize pipeline.passes).tabled
    refine ⟨compact_allocate htabled hlocals ha, ?_⟩
    obtain ⟨g, -, hg⟩ := allocate_eq_ok ha
    rw [hg]
    exact code_optimize _ m

theorem localsLimit_covers {signature : Signature} {entries : List Entry}
    (hbuild : build signature entries = .ok m)
    (hc : ∀ i ∈ codeOf entries, ∀ c ∈ i.calls, c.BareLength) {pipeline : Pipeline}
    {summary : Summary} (hrun : (pipeline.run m).outcome = .ok summary) {header : ClassHeader}
    {body : Body} (h : Scope.assemble ⟨header, (pipeline.run m).method⟩ = .ok body) :
    ∀ l ∈ body.lines.toList, ∀ r, l.register? = some r → r < body.localsLimit := by
  obtain ⟨hcompact, hcode⟩ := compact_run hbuild hrun
  have hbare : ∀ e ∈ (pipeline.run m).method.instructions, ∀ c ∈ e.2.calls, c.BareLength := by
    intro e he
    have hmem := mem_code_of_instructions he
    rw [hcode, code_of_build hbuild] at hmem
    exact hc e.2 hmem
  have hgapless : Gapless body.registers :=
    gapless_of_compact (s := ⟨header, (pipeline.run m).method⟩) hcompact hbare h
  have hlimit := (Scope.lt_localsLimit_iff h).2 hgapless
  intro l hl r hr
  exact hlimit r (List.mem_filterMap.2 ⟨l, hl, hr⟩)

def measureEntries : List Entry :=
  [.instruction (.assign (.var "unused" .int) (.single (.literal 1 .int))),
    .instruction (.assign (.var "n" .int)
      (.call ⟨.length (.var "a" (.array .int)), [], .int⟩)),
    .instruction (.assign (.var "n" .int) (.binary .add (.var "n" .int) (.literal 1 .int))),
    .instruction (.ret (some (.var "n" .int)))]

def measureSignature : Signature :=
  { name := "measure", isStatic := true, parameters := [⟨"a", .array .int⟩], result := .int }

def measure : Method :=
  { measureSignature with
    code := (codeOf measureEntries).toArray
    body := [⟨2⟩, ⟨3⟩, ⟨4⟩, ⟨5⟩]
    table := { entries := [("a", ⟨.array .int, some 0⟩), ("unused", ⟨.int, some 1⟩), ("n", ⟨.int, some 2⟩)] }
    flow := ⟨#[⟨[⟨2⟩], []⟩, ⟨[], [⟨5⟩]⟩, ⟨[⟨3⟩], [⟨0⟩]⟩, ⟨[⟨4⟩], [⟨2⟩]⟩, ⟨[⟨5⟩], [⟨3⟩]⟩,
      ⟨[⟨1⟩], [⟨4⟩]⟩]⟩ }

def measureBody : Body where
  lines := #[.op (.load .reference 0), .op .arrayLength, .op (.store .int 1),
    .op (.increment 1 1), .op (.load .int 1), .exit (.value .int)]
  maxDepth := 1
  reachable := false
  registers := [1, 0]

theorem localsLimit_covers_measure :
    build measureSignature measureEntries = .ok measure ∧
      Scope.assemble ⟨{ name := "Arrays" }, (Pipeline.run
        { passes := [.deadStoreElimination], allocation := .minimal } measure).method⟩ =
        .ok measureBody ∧
      ∀ l ∈ measureBody.lines.toList, ∀ r, l.register? = some r → r < 2 := by
  have hbuild : build measureSignature measureEntries = .ok measure := by decide +kernel
  have hbare : ∀ i ∈ codeOf measureEntries, ∀ c ∈ i.calls, c.BareLength := by
    have harguments : ∀ i ∈ codeOf measureEntries, ∀ c ∈ i.calls, c.arguments = [] := by
      decide +kernel
    exact fun i hi c hc array _ => harguments i hi c hc
  have hrun : (Pipeline.run { passes := [.deadStoreElimination], allocation := .minimal }
      measure).outcome = .ok { rounds := 1, removed := 1, registers := some 1 } := by
    decide +kernel
  have hbody : Scope.assemble ⟨{ name := "Arrays" }, (Pipeline.run
      { passes := [.deadStoreElimination], allocation := .minimal } measure).method⟩ =
      .ok measureBody := by decide +kernel
  exact ⟨hbuild, hbody, localsLimit_covers hbuild hbare hrun hbody⟩

end Method

end ClassLowering
