import ClassLowering.Proofs.Execution.Semantics
import ClassLowering.Proofs.Register.Allocation
import ClassLowering.Proofs.Rounds

namespace ClassLowering

variable {Value Memory : Type}

namespace Signature

def initialStore (s : Signature) (arguments : Nat → Value) (initial : Value) (name : String) :
    Value :=
  ((s.parameters.map Parameter.name).idxOf? name).elim initial arguments

def initialRegisters (s : Signature) (receiver : Value) (arguments : Nat → Value)
    (initial : Value) : Option Nat → Value
  | none => initial
  | some r =>
    if r < (!s.isStatic).toNat then receiver
    else if r < s.firstLocal then arguments (r - (!s.isStatic).toNat) else initial

end Signature

namespace Method

variable {m : Method} {l : Liveness} {t : VariableTable}

theorem parameter_or_local {v : String} (hv : v ∈ m.table.names) (hthis : v ≠ "this") :
    (∃ (i : Nat) (p : Parameter), m.parameters[i]? = some p ∧ p.name = v) ∨
      v ∈ InterferenceGraph.localNames m ∧ ∀ p ∈ m.parameters, p.name ≠ v := by
  by_cases h : ∃ p ∈ m.parameters, p.name = v
  · obtain ⟨p, hp, hn⟩ := h
    obtain ⟨i, hi⟩ := List.getElem?_of_mem hp
    exact .inl ⟨i, p, hi, hn⟩
  · have hn : ∀ p ∈ m.parameters, p.name ≠ v := fun p hp e => h ⟨p, hp, e⟩
    exact .inr ⟨mem_localNames.2 ⟨hv, hthis, hn⟩, hn⟩

theorem index_lt_firstLocal {i : Nat} {p : Parameter} (h : m.parameters[i]? = some p) :
    (!m.isStatic).toNat + i < m.firstLocal := by
  have hi := (List.getElem?_eq_some_iff.1 h).1
  unfold Signature.firstLocal
  omega

theorem Allocated.exists_register (ha : m.Allocated l t) {v : String} (hv : v ∈ m.table.names)
    (hthis : v ≠ "this") : ∃ r, t.register? v = some r ∧ (!m.isStatic).toNat ≤ r := by
  rcases parameter_or_local hv hthis with ⟨i, p, hi, rfl⟩ | ⟨hl, -⟩
  · exact ⟨_, ha.parameter i p hi, Nat.le_add_right _ _⟩
  · obtain ⟨r, hr, hle⟩ := ha.of_local v hl
    refine ⟨r, hr, ?_⟩
    unfold Signature.firstLocal at hle
    omega

theorem Allocated.register?_ne (ha : m.Allocated l t) {a b : String} (hne : a ≠ b)
    (hma : a ∈ m.table.names) (hta : a ≠ "this") (hmb : b ∈ m.table.names) (htb : b ≠ "this")
    (hc : (a, b) ∈ InterferenceGraph.conflicts l) : t.register? a ≠ t.register? b := by
  rcases parameter_or_local hma hta with ⟨i, p, hi, rfl⟩ | ⟨hla, -⟩
  · rw [ha.parameter i p hi]
    have hip := index_lt_firstLocal hi
    rcases parameter_or_local hmb htb with ⟨j, q, hj, rfl⟩ | ⟨hlb, -⟩
    · rw [ha.parameter j q hj]
      intro h
      have hij : i = j := by
        have hsum := Option.some.inj h
        omega
      subst hij
      rw [hi] at hj
      exact hne (congrArg Parameter.name (Option.some.inj hj))
    · obtain ⟨r, hr, hle⟩ := ha.of_local b hlb
      rw [hr]
      intro h
      have hsum := Option.some.inj h
      omega
  · rcases parameter_or_local hmb htb with ⟨j, q, hj, rfl⟩ | ⟨hlb, -⟩
    · obtain ⟨r, hr, hle⟩ := ha.of_local a hla
      have hjq := index_lt_firstLocal hj
      rw [ha.parameter j q hj, hr]
      intro h
      have hsum := Option.some.inj h
      omega
    · exact ha.differ (a, b) hc hla hlb hne

theorem Allocated.initial_agree (ha : m.Allocated l t)
    (hp : (m.parameters.map Parameter.name).Nodup) {v : String} (hv : v ∈ m.table.names)
    (hthis : v ≠ "this") (receiver : Value) (arguments : Nat → Value) (initial : Value) :
    ∃ r, t.register? v = some r ∧
      m.initialRegisters receiver arguments initial (some r) =
        m.initialStore arguments initial v := by
  rcases parameter_or_local hv hthis with ⟨i, p, hi, rfl⟩ | ⟨hl, hn⟩
  · refine ⟨_, ha.parameter i p hi, ?_⟩
    have hlt := index_lt_firstLocal hi
    have hidx : (m.parameters.map Parameter.name).idxOf? p.name = some i :=
      idxOf?_of_getElem? hp (by simp [hi])
    rw [Signature.initialStore, hidx, Signature.initialRegisters, if_neg (by omega), if_pos hlt,
      Nat.add_sub_cancel_left]
    rfl
  · obtain ⟨r, hr, hle⟩ := ha.of_local v hl
    refine ⟨r, hr, ?_⟩
    have hidx : (m.parameters.map Parameter.name).idxOf? v = none := by
      rw [List.idxOf?_eq_none_iff, List.mem_map]
      rintro ⟨p, hpm, hpv⟩
      exact hn p hpm hpv
    have hfirst : (!m.isStatic).toNat ≤ m.firstLocal := Nat.le_add_right _ _
    rw [Signature.initialStore, hidx, Signature.initialRegisters, if_neg (by omega),
      if_neg (by omega)]
    rfl

structure Simulates (m : Method) (live : String → Prop) (receiver : Value)
    (own : Machine String Value Memory) (registers : Machine (Option Nat) Value Memory) : Prop where
  agree : ∀ v, live v →
    ∃ r, m.table.register? v = some r ∧ registers.cells (some r) = own.cells v
  receiver_eq : m.isStatic = false → registers.cells (some 0) = receiver
  memory_eq : registers.memory = own.memory
  actions_eq : registers.actions = own.actions

variable {sem : Semantics Value Memory} {live live' : String → Prop} {receiver : Value}
  {own : Machine String Value Memory} {registers : Machine (Option Nat) Value Memory}

theorem Simulates.mono (h : m.Simulates live receiver own registers)
    (hl : ∀ v, live' v → live v) : m.Simulates live' receiver own registers :=
  ⟨fun v hv => h.agree v (hl v hv), h.receiver_eq, h.memory_eq, h.actions_eq⟩

theorem Simulates.execute_eq (h : m.Simulates live receiver own registers) {i : Instruction}
    (hi : ∀ v, i.ReadsVar v → live v) :
    i.execute sem ((Layout.registers m receiver).frame registers.cells) registers.memory =
      i.execute sem ((Layout.own receiver).frame own.cells) own.memory := by
  rw [h.memory_eq]
  refine Instruction.execute_congr ?_ fun v hv => ?_
  · change (if m.isStatic then receiver else registers.cells (some 0)) = receiver
    split
    · rfl
    · next hs => exact h.receiver_eq (by simpa using hs)
  · obtain ⟨r, hr, he⟩ := h.agree v (hi v hv)
    change registers.cells (m.table.register? v) = own.cells v
    rw [hr, he]

theorem Simulates.apply (h : m.Simulates live receiver own registers) (e : Effect Value Memory)
    (hkeep : ∀ v, live' v → (∀ x, e.write ≠ some (v, x)) → live v)
    (hwrite : ∀ x y, e.write = some (x, y) → ∃ r, m.table.register? x = some r ∧
      (m.isStatic = false → r ≠ 0) ∧ ∀ v, live' v → v ≠ x → m.table.register? v ≠ some r) :
    m.Simulates live' receiver (own.apply (.own receiver) e)
      (registers.apply (.registers m receiver) e) := by
  have hactions : registers.actions ++ e.actions = own.actions ++ e.actions := by
    rw [h.actions_eq]
  cases hw : e.write with
  | none =>
    have hl : ∀ v, live' v → live v := fun v hv => hkeep v hv fun x => by simp [hw]
    refine ⟨fun v hv => ?_, fun hs => ?_, rfl, hactions⟩
    · obtain ⟨r, hr, he⟩ := h.agree v (hl v hv)
      refine ⟨r, hr, ?_⟩
      rw [Machine.cells_apply_of_none hw, Machine.cells_apply_of_none hw]
      exact he
    · rw [Machine.cells_apply_of_none hw]
      exact h.receiver_eq hs
  | some written =>
    obtain ⟨x, y⟩ := written
    obtain ⟨r, hr, hzero, hfree⟩ := hwrite x y hw
    have hregisters (c : Option Nat) : (registers.apply (.registers m receiver) e).cells c =
        if c = some r then y else registers.cells c := by
      rw [Machine.cells_apply_of_some hw, ← hr]
      rfl
    have hown (v : String) : (own.apply (.own receiver) e).cells v =
        if v = x then y else own.cells v := Machine.cells_apply_of_some hw own _ v
    refine ⟨fun v hv => ?_, fun hs => ?_, rfl, hactions⟩
    · rw [hown]
      by_cases hvx : v = x
      · subst hvx
        exact ⟨r, hr, by rw [hregisters, if_pos rfl, if_pos rfl]⟩
      · obtain ⟨s, hs, he⟩ := h.agree v (hkeep v hv fun z hz => by
          rw [hw] at hz
          cases hz
          exact hvx rfl)
        have hsr : s ≠ r := fun e => hfree v hv hvx (e ▸ hs)
        refine ⟨s, hs, ?_⟩
        rw [hregisters, if_neg fun e => hsr (Option.some.inj e), if_neg hvx]
        exact he
    · rw [hregisters, if_neg fun e => hzero hs (Option.some.inj e).symm]
      exact h.receiver_eq hs

structure Placement (m₀ m m' : Method) : Prop where
  reduct : Reduct m₀ m
  parameters_nodup : (m.parameters.map Parameter.name).Nodup
  not_this : ∀ v ∈ m.mentions.map Prod.fst, v ≠ "this"
  table_eq : m' = { m with table := m'.table }
  allocated : m.Allocated (.compute m) m'.table

variable {m₀ m' : Method}

theorem mention_of_live (hm : m.WellFormed) {s : IndexSet} {v : String}
    (h : (Liveness.compute m).Has s v) : v ∈ m.mentions.map Prod.fst := by
  obtain ⟨F, passes, hc, -⟩ := Liveness.compute_spec hm
  obtain ⟨k, hk, -⟩ := h
  rw [hc] at hk
  exact List.mem_eraseDups.1 (List.mem_of_getElem? (getElem?_of_idxOf? hk))

theorem Placement.exists_free (ha : Placement m₀ m m') {n : Node}
    (hn : n ∈ (Liveness.start m).order) {i : Instruction} (hi : m.instruction? n = some i)
    {x : String} (hx : i.Assigns x) :
    ∃ r, m'.table.register? x = some r ∧ (m'.isStatic = false → r ≠ 0) ∧
      ∀ v, (Liveness.compute m).LiveOut n v → v ≠ x → m'.table.register? v ≠ some r := by
  have hm := ha.reduct.well_formed
  have hnames {v : String} (hv : v ∈ m.mentions.map Prod.fst) :
      v ∈ m.table.names ∧ v ≠ "this" :=
    ⟨ha.reduct.tabled.mention_mem v hv, ha.not_this v hv⟩
  obtain ⟨hxn, hxthis⟩ := hnames (Method.mem_mentions.2 ⟨n, .inr ⟨i, hi, hx⟩⟩)
  obtain ⟨r, hr, hle⟩ := ha.allocated.exists_register hxn hxthis
  refine ⟨r, hr, fun hs => ?_, fun v hv hvx => ?_⟩
  · have hs' : m.isStatic = false := by
      rw [ha.table_eq] at hs
      exact hs
    rw [hs'] at hle
    exact Nat.ne_of_gt hle
  · obtain ⟨hvn, hvthis⟩ := hnames (mention_of_live hm hv)
    -- Every write conflicts with all that is live after it, whether or not `x` itself is.
    have hc : (x, v) ∈ InterferenceGraph.conflicts (.compute m) :=
      (InterferenceGraph.mem_conflicts hm).2
        ⟨n, hn, ⟨i, hi, Liveness.mem_written.2 (.inl hx)⟩, hv⟩
    have hne := ha.allocated.register?_ne (Ne.symm hvx) hxn hxthis hvn hvthis hc
    exact fun e => hne (hr.trans e.symm)

theorem Simulates.visit (ha : Placement m₀ m m') {n : Node}
    (hn : n ∈ (Liveness.start m).order)
    (h : m'.Simulates ((Liveness.compute m).LiveIn n) receiver own registers) :
    m'.Simulates ((Liveness.compute m).LiveOut n) receiver
      (m'.visit sem (.own receiver) own n) (m'.visit sem (.registers m' receiver) registers n) := by
  have hm := ha.reduct.well_formed
  obtain ⟨i, hi⟩ := Method.exists_instruction? ((Liveness.mem_order hm).1 hn).2
  have hi' : m'.instruction? n = some i := by
    rw [ha.table_eq]
    exact hi
  have hin := Liveness.liveIn_iff hm hn
  have hread : ∀ v, i.ReadsVar v → (Liveness.compute m).LiveIn n v := fun v hv =>
    (hin v).2 (.inl ⟨i, hi, hv⟩)
  unfold Method.visit
  rw [hi', Option.elim_some, Option.elim_some, h.execute_eq hread]
  refine h.apply _ (fun v hv hw => ?_) fun x y hxy => ?_
  · exact (hin v).2 (.inr ⟨hv, not_assignsAt hi hw⟩)
  · exact ha.exists_free hn hi (Instruction.assigns_iff_write.2 ⟨y, hxy⟩)

theorem Simulates.along (ha : Placement m₀ m m') {path : List Node} {n : Node} :
    ∀ {first : Node} {own : Machine String Value Memory}
      {registers : Machine (Option Nat) Value Memory},
      (path ++ [n]).head? = some first → m.flow.Reachable first →
      (first = .exit ∨ first ∈ m.body) → List.IsChain m.flow.Edge (path ++ [n]) →
      m'.Simulates ((Liveness.compute m).LiveIn first) receiver own registers →
      m'.Simulates ((Liveness.compute m).LiveIn n) receiver
        (m'.along sem (.own receiver) own path)
        (m'.along sem (.registers m' receiver) registers path) := by
  have hm := ha.reduct.well_formed
  induction path with
  | nil =>
    intro first own registers hfirst _ _ _ h
    cases hfirst
    exact h
  | cons a rest ih =>
    intro first own registers hfirst hreach hbody hchain h
    cases hfirst
    obtain ⟨b, hb⟩ : ∃ b, (rest ++ [n]).head? = some b := by
      cases rest <;> exact ⟨_, rfl⟩
    obtain ⟨tail, htail⟩ : ∃ tail, rest ++ [n] = b :: tail := List.head?_eq_some_iff.1 hb
    rw [List.cons_append, htail, List.isChain_cons_cons] at hchain
    have hmem : a ∈ m.body := by
      rcases hbody with rfl | hbody
      · exact absurd hchain.1 (hm.not_edge_exit b)
      · exact hbody
    have horder : a ∈ (Liveness.start m).order := (Liveness.mem_order hm).2 ⟨hreach, hmem⟩
    refine ih hb (hreach.tail hchain.1) (hm.edge_target a b hchain.1) (htail ▸ hchain.2) ?_
    refine (Simulates.visit ha horder h).mono fun v hv => ?_
    exact (Liveness.liveOut_iff hm horder v).2 ⟨b, hchain.1, hv⟩

theorem Placement.of_allocate {signature : Signature} {entries : List Entry}
    (hbuild : build signature entries = .ok m₀)
    (hnodup : (signature.parameters.map Parameter.name).Nodup)
    (hthis : "this" ∉ signature.parameters.map Parameter.name)
    (hmentions : "this" ∉ m₀.mentions.map Prod.fst) (hred : Reduct m₀ m) {ceiling? : Option Nat}
    {k : Nat} (hallocate : m.allocate (.compute m) ceiling? = .ok (m', k)) :
    Placement m₀ m m' := by
  have hsig : m.toSignature = signature := hred.signature_eq.trans (tabled_of_build hbuild).2
  obtain ⟨t, rfl, hassigned⟩ := allocate_spec hred.tabled (hsig ▸ hnodup) (hsig ▸ hthis) hallocate
  exact ⟨hred, hsig ▸ hnodup, fun v hv e => hmentions (e ▸ hred.mentions_subset v hv), rfl,
    hassigned⟩

theorem simulates_start (ha : Placement m₀ m m') (first : Node) (receiver : Value)
    (arguments : Nat → Value) (initial : Value) (memory : Memory) :
    m'.Simulates ((Liveness.compute m).LiveIn first) receiver
      (⟨m'.initialStore arguments initial, memory, []⟩ : Machine String Value Memory)
      ⟨m'.initialRegisters receiver arguments initial, memory, []⟩ := by
  have hsig : m'.toSignature = m.toSignature := by rw [ha.table_eq]
  rw [hsig]
  refine ⟨fun v hv => ?_, fun hs => ?_, rfl, rfl⟩
  · have hv := mention_of_live ha.reduct.well_formed hv
    exact ha.allocated.initial_agree ha.parameters_nodup (ha.reduct.tabled.mention_mem v hv)
      (ha.not_this v hv) receiver arguments initial
  · rw [hsig] at hs
    simp [Signature.initialRegisters, hs]

theorem allocation_preserves_execution {signature : Signature} {entries : List Entry}
    {m₀ m' : Method} (hbuild : build signature entries = .ok m₀)
    (hnodup : (signature.parameters.map Parameter.name).Nodup)
    (hthis : "this" ∉ signature.parameters.map Parameter.name)
    (hmentions : "this" ∉ m₀.mentions.map Prod.fst) (passes : List Pass) {ceiling? : Option Nat}
    {k : Nat} (hallocate : (Pipeline.optimize passes m₀).method.allocate
      (.compute (Pipeline.optimize passes m₀).method) ceiling? = .ok (m', k))
    (sem : Semantics Value Memory) (receiver : Value) (arguments : Nat → Value) (initial : Value)
    (memory : Memory) (path : List Node) (n : Node)
    (hpath : List.IsChain m'.flow.Edge (.entry :: (path ++ [n]))) :
    let own := m'.along sem (.own receiver)
      ⟨m'.initialStore arguments initial, memory, []⟩ path
    let registers := m'.along sem (.registers m' receiver)
      ⟨m'.initialRegisters receiver arguments initial, memory, []⟩ path
    registers.memory = own.memory ∧ registers.actions = own.actions ∧
      (m'.isStatic = false → registers.cells (some 0) = receiver) ∧
      (∀ v, m'.ReadsAt n v →
        ∃ r, m'.table.register? v = some r ∧ registers.cells (some r) = own.cells v) ∧
      ∀ i, m'.instruction? n = some i →
        i.execute sem ((Layout.registers m' receiver).frame registers.cells) registers.memory =
          i.execute sem ((Layout.own receiver).frame own.cells) own.memory := by
  intro own registers
  have hred : Reduct m₀ (Pipeline.optimize passes m₀).method := (Reduct.of_build hbuild).optimize _
  generalize (Pipeline.optimize passes m₀).method = m at hallocate hred
  have ha : Placement m₀ m m' := .of_allocate hbuild hnodup hthis hmentions hred hallocate
  have hm := hred.well_formed
  have hflow : m'.flow = m.flow := by rw [ha.table_eq]
  have hinstruction (n : Node) : m'.instruction? n = m.instruction? n := by
    rw [ha.table_eq]
    rfl
  rw [hflow] at hpath
  obtain ⟨first, hfirst⟩ : ∃ first, (path ++ [n]).head? = some first := by
    cases path <;> exact ⟨_, rfl⟩
  obtain ⟨tail, htail⟩ := List.head?_eq_some_iff.1 hfirst
  have hreachn : m.flow.Reachable n :=
    List.relationReflTransGen_of_exists_isChain_cons _ hpath (by simp)
  rw [htail, List.isChain_cons_cons] at hpath
  have hstart := simulates_start ha first receiver arguments initial memory
  have hsim : m'.Simulates ((Liveness.compute m).LiveIn n) receiver own registers :=
    Simulates.along ha hfirst (Relation.ReflTransGen.single hpath.1) (hm.edge_target _ _ hpath.1)
      (htail ▸ hpath.2) hstart
  have hread : ∀ i, m'.instruction? n = some i → ∀ v, i.ReadsVar v →
      (Liveness.compute m).LiveIn n v := by
    intro i hi v hv
    rw [hinstruction] at hi
    have ho := (Liveness.mem_order hm).2 ⟨hreachn, (instruction?_eq_some.1 hi).1⟩
    exact (Liveness.liveIn_iff hm ho v).2 (.inl ⟨i, hi, hv⟩)
  refine ⟨hsim.memory_eq, hsim.actions_eq, hsim.receiver_eq, ?_, fun i hi => ?_⟩
  · rintro v ⟨i, hi, hv⟩
    exact hsim.agree v (hread i hi v hv)
  · exact hsim.execute_eq (hread i hi)

def countdownColored : Method :=
  { countdown with
    table := { entries := [("this", ⟨.self, some 0⟩), ("n", ⟨.int, some 1⟩), ("x", ⟨.int, some 2⟩),
      ("y", ⟨.int, some 2⟩)] } }

theorem allocation_preserves_countdown :
    let m := (Pipeline.optimize [.deadStoreElimination] countdown).method
    m.allocate (.compute m) none = .ok (countdownColored, 1) ∧
      ∃ r, countdownColored.table.register? "x" = some r ∧
        (countdownColored.along .integers (.registers countdownColored 0)
          ⟨countdownColored.initialRegisters 0 (fun _ => 3) 0, (), []⟩
          [⟨2⟩, ⟨3⟩, ⟨4⟩, ⟨5⟩, ⟨2⟩]).cells (some r) = 3 := by
  have hallocate : (Pipeline.optimize [.deadStoreElimination] countdown).method.allocate
      (.compute (Pipeline.optimize [.deadStoreElimination] countdown).method) none =
        .ok (countdownColored, 1) := by decide +kernel
  have hpath : List.IsChain countdownColored.flow.Edge
      (.entry :: ([⟨2⟩, ⟨3⟩, ⟨4⟩, ⟨5⟩, ⟨2⟩] ++ [⟨3⟩])) := by decide
  have hread : countdownColored.ReadsAt ⟨3⟩ "x" :=
    ⟨_, rfl, .inl ⟨.var "x" .int, by decide, .var "x" .int⟩⟩
  obtain ⟨-, -, -, hcells, -⟩ := allocation_preserves_execution build_countdown
    (by decide) (by decide) (by decide) [.deadStoreElimination] hallocate .integers 0
    (fun _ => 3) 0 () [⟨2⟩, ⟨3⟩, ⟨4⟩, ⟨5⟩, ⟨2⟩] ⟨3⟩ hpath
  obtain ⟨r, hr, he⟩ := hcells "x" hread
  exact ⟨hallocate, r, hr, he⟩

end Method

end ClassLowering
