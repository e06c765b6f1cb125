import ClassLowering.Method.Basic
import ClassLowering.Proofs.Flow.Edges

namespace ClassLowering

def nextIn (n : Node) : List Node → Node
  | [] => .exit
  | x :: rest => if x = n then rest.head?.getD .exit else nextIn n rest

theorem nextIn_mem (n : Node) (l : List Node) : nextIn n l = .exit ∨ nextIn n l ∈ l := by
  induction l with
  | nil => exact .inl rfl
  | cons x rest ih =>
    unfold nextIn
    split
    · cases rest with
      | nil => exact .inl rfl
      | cons y rest => exact .inr (by simp)
    · rcases ih with h | h
      · exact .inl h
      · exact .inr (List.mem_cons_of_mem x h)

theorem nextIn_append {n : Node} {l : List Node} (hn : n ∉ l) (l' : List Node) :
    nextIn n (l ++ l') = nextIn n l' := by
  induction l with
  | nil => rfl
  | cons x rest ih =>
    rw [List.mem_cons, not_or] at hn
    rw [List.cons_append, nextIn, if_neg (Ne.symm hn.1)]
    exact ih hn.2

theorem nextIn_ne {n : Node} {l : List Node} (hl : l.Nodup) (hn : n ∈ l) (he : n ≠ .exit) :
    nextIn n l ≠ n := by
  induction l with
  | nil => simp at hn
  | cons x rest ih =>
    obtain ⟨hx, hr⟩ := List.nodup_cons.1 hl
    unfold nextIn
    split
    · next h =>
      subst h
      cases rest with
      | nil => exact fun e => he e.symm
      | cons y rest => exact fun e => hx (by simpa using .inl e.symm)
    · next h => exact ih hr ((List.mem_cons.1 hn).resolve_left fun e => h e.symm)

theorem filter_ne_of_not_mem {n : Node} {l : List Node} (h : n ∉ l) : l.filter (· ≠ n) = l := by
  refine List.filter_eq_self.2 fun x hx => ?_
  have hn : x ≠ n := fun e => h (e ▸ hx)
  simpa using hn

theorem head_filter_ne (n : Node) {l : List Node} (hl : l.Nodup) :
    (l.filter (· ≠ n)).head?.getD .exit =
      if l.head?.getD .exit = n then nextIn n l else l.head?.getD .exit := by
  cases l with
  | nil => exact (ite_self _).symm
  | cons x rest =>
    obtain ⟨hx, -⟩ := List.nodup_cons.1 hl
    by_cases h : x = n
    · subst h
      rw [List.filter_cons_of_neg (by simp), filter_ne_of_not_mem hx]
      simp [nextIn]
    · rw [List.filter_cons_of_pos (by simpa using h)]
      simp [h]

theorem nextIn_filter {n x : Node} {l : List Node} (hl : l.Nodup) (hx : x ≠ n)
    (he : n ≠ .exit) :
    nextIn x (l.filter (· ≠ n)) = if nextIn x l = n then nextIn n l else nextIn x l := by
  induction l with
  | nil => simp [nextIn, he.symm]
  | cons y rest ih =>
    obtain ⟨hy, hr⟩ := List.nodup_cons.1 hl
    by_cases hn : y = n
    · subst hn
      have hne : nextIn x rest ≠ y := by
        rcases nextIn_mem x rest with h | h
        · rw [h]; exact he.symm
        · exact fun e => hy (e ▸ h)
      rw [List.filter_cons_of_neg (by simp), filter_ne_of_not_mem hy]
      simp [nextIn, hx.symm, hne]
    · rw [List.filter_cons_of_pos (by simpa using hn)]
      have hrest : nextIn n (y :: rest) = nextIn n rest := by simp [nextIn, hn]
      by_cases hyx : y = x
      · subst hyx
        rw [nextIn, if_pos rfl, head_filter_ne n hr, hrest]
        simp [nextIn]
      · have hnext : nextIn x (y :: rest) = nextIn x rest := by simp [nextIn, hyx]
        rw [nextIn, if_neg hyx, hrest, hnext]
        exact ih hr

namespace Method

def Leads (m : Method) (i : Instruction) (next y : Node) : Prop :=
  match i with
  | .goto label => m.target? label = some y
  | .branch _ label => y = next ∨ m.target? label = some y
  | .ret _ => y = .exit
  | _ => y = next

def following (m : Method) (n : Node) : Node := nextIn n m.body

def start (m : Method) : Node := m.body.head?.getD .exit

def BodyEdge (m : Method) (x y : Node) : Prop :=
  (x = .entry ∧ y = m.start) ∨ ∃ i, (x, i) ∈ m.instructions ∧ m.Leads i (m.following x) y

def JumpsDeclared (m : Method) : Prop :=
  ∀ n i label, (n, i) ∈ m.instructions → i.target? = some label → ∃ t, m.target? label = some t

theorem instruction?_eq_some {m : Method} {n : Node} {i : Instruction} :
    m.instruction? n = some i ↔ n ∈ m.body ∧ m.codeAt? n = some i := by
  rw [instruction?, contains_eq]
  by_cases hn : n ∈ m.body <;> simp [hn]

theorem mem_instructions {m : Method} {n : Node} {i : Instruction} :
    (n, i) ∈ m.instructions ↔ m.instruction? n = some i := by
  rw [instruction?_eq_some]
  simp only [instructions, List.mem_filterMap, Option.map_eq_some_iff, Prod.mk.injEq]
  constructor
  · rintro ⟨k, hk, j, hj, rfl, rfl⟩
    exact ⟨hk, hj⟩
  · rintro ⟨hn, hi⟩
    exact ⟨n, hn, i, hi, rfl, rfl⟩

theorem exists_codeAt? {m : Method} {n : Node} (h : n ∈ m.body) : ∃ i, m.codeAt? n = some i := by
  obtain ⟨slot, hlt, rfl⟩ := m.body_code n h
  exact ⟨m.code[slot], by simp [codeAt?, hlt]⟩

theorem exists_instruction? {m : Method} {n : Node} (h : n ∈ m.body) :
    ∃ i, m.instruction? n = some i :=
  (exists_codeAt? h).imp fun _ hi => instruction?_eq_some.2 ⟨h, hi⟩

theorem map_fst_instructions (m : Method) : m.instructions.map Prod.fst = m.body := by
  unfold instructions
  have h (n) (hn : n ∈ m.body) : ∃ i, m.codeAt? n = some i := exists_codeAt? hn
  generalize m.body = l at h
  induction l with
  | nil => rfl
  | cons n rest ih =>
    obtain ⟨i, hi⟩ := h n (by simp)
    have hr := ih fun k hk => h k (by simp [hk])
    simp [hi, hr]

theorem addFlow_spec {m : Method} {g g' : FlowGraph} {n next : Node} {i : Instruction}
    (h : m.addFlow g n i next = .ok g') :
    (∀ x y, g'.Edge x y ↔ g.Edge x y ∨ x = n ∧ m.Leads i next y) ∧
      (g.Mirrored → g'.Mirrored) ∧
      ∀ label, i.target? = some label → ∃ t, m.target? label = some t := by
  cases i with
  | goto label =>
    simp only [addFlow] at h
    split at h
    · next target ht =>
      obtain rfl := Except.ok.inj h
      refine ⟨fun x y => ?_, fun hg => hg.addEdge _ _, fun l hl => ?_⟩
      · rw [FlowGraph.edge_addEdge]
        simp [Leads, ht, eq_comm]
      · obtain rfl := Option.some.inj hl
        exact ⟨target, ht⟩
    · cases h
  | branch condition label =>
    simp only [addFlow] at h
    split at h
    · next target ht =>
      obtain rfl := Except.ok.inj h
      refine ⟨fun x y => ?_, fun hg => (hg.addEdge _ _).addEdge _ _, fun l hl => ?_⟩
      · rw [FlowGraph.edge_addEdge, FlowGraph.edge_addEdge]
        simp only [Leads, ht, Option.some.injEq, eq_comm (a := target)]
        tauto
      · obtain rfl := Option.some.inj hl
        exact ⟨target, ht⟩
    · cases h
  | _ =>
    obtain rfl := Except.ok.inj h
    refine ⟨fun x y => ?_, fun hg => hg.addEdge _ _, fun l hl => by cases hl⟩
    exact FlowGraph.edge_addEdge _ _ _ _ _

theorem addFlows_cons {m : Method} {n : Node} {i : Instruction} (hi : m.instruction? n = some i)
    (g : FlowGraph) (rest : List Node) :
    m.addFlows g (n :: rest) =
      (m.addFlow g n i (rest.head?.getD .exit)).bind fun g => m.addFlows g rest := by
  rw [addFlows, hi]
  rfl

theorem addFlows_spec {m : Method} {l : List Node} {g g' : FlowGraph} (hl : l.Nodup)
    (h : m.addFlows g l = .ok g') :
    (∀ x y, g'.Edge x y ↔
      g.Edge x y ∨ x ∈ l ∧ ∃ i, m.instruction? x = some i ∧ m.Leads i (nextIn x l) y) ∧
      (g.Mirrored → g'.Mirrored) ∧
      ∀ n ∈ l, ∀ i label, m.instruction? n = some i → i.target? = some label →
        ∃ t, m.target? label = some t := by
  induction l generalizing g with
  | nil =>
    obtain rfl := Except.ok.inj h
    exact ⟨by simp, id, by simp⟩
  | cons n rest ih =>
    obtain ⟨hn, hr⟩ := List.nodup_cons.1 hl
    cases hi : m.instruction? n with
    | none =>
      rw [addFlows, hi] at h
      cases h
    | some i =>
      rw [addFlows_cons hi] at h
      cases hf : m.addFlow g n i (rest.head?.getD .exit) with
      | error defect => rw [hf] at h; cases h
      | ok g₁ =>
        rw [hf] at h
        obtain ⟨he, hm, ht⟩ := addFlow_spec hf
        obtain ⟨he', hm', ht'⟩ := ih hr h
        have hfirst : nextIn n (n :: rest) = rest.head?.getD .exit := if_pos rfl
        have hlater {x : Node} (hx : x ∈ rest) : nextIn x (n :: rest) = nextIn x rest :=
          if_neg fun (e : n = x) => hn (e ▸ hx)
        refine ⟨fun x y => ?_, hm' ∘ hm, fun x hx j label hj hlabel => ?_⟩
        · rw [he', he, or_assoc]
          refine or_congr_right ?_
          constructor
          · rintro (⟨rfl, hy⟩ | ⟨hx, j, hj, hy⟩)
            · exact ⟨List.mem_cons_self, i, hi, hfirst ▸ hy⟩
            · exact ⟨List.mem_cons_of_mem n hx, j, hj, hlater hx ▸ hy⟩
          · rintro ⟨hx, j, hj, hy⟩
            rcases List.mem_cons.1 hx with rfl | hx
            · obtain rfl : i = j := Option.some.inj (hi.symm.trans hj)
              exact .inl ⟨rfl, hfirst ▸ hy⟩
            · exact .inr ⟨hx, j, hj, hlater hx ▸ hy⟩
        · rcases List.mem_cons.1 hx with rfl | hx
          · obtain rfl : i = j := Option.some.inj (hi.symm.trans hj)
            exact ht label hlabel
          · exact ht' x hx j label hj hlabel

theorem exists_addFlow {m : Method} {g : FlowGraph} {n : Node} {i : Instruction} {next : Node}
    (ht : ∀ label, i.target? = some label → ∃ t, m.target? label = some t) :
    ∃ g', m.addFlow g n i next = .ok g' := by
  cases i with
  | goto label =>
    obtain ⟨t, ht⟩ := ht label rfl
    exact ⟨_, by rw [addFlow, ht]⟩
  | branch condition label =>
    obtain ⟨t, ht⟩ := ht label rfl
    exact ⟨_, by rw [addFlow, ht]⟩
  | _ => exact ⟨_, rfl⟩

theorem exists_addFlows {m : Method} (ht : m.JumpsDeclared) {l : List Node}
    (hl : ∀ n ∈ l, n ∈ m.body) (g : FlowGraph) : ∃ g', m.addFlows g l = .ok g' := by
  induction l generalizing g with
  | nil => exact ⟨g, rfl⟩
  | cons n rest ih =>
    obtain ⟨i, hi⟩ := exists_instruction? (hl n List.mem_cons_self)
    obtain ⟨g₁, h₁⟩ := @exists_addFlow m g n i (rest.head?.getD .exit)
      fun label => ht n i label (mem_instructions.2 hi)
    obtain ⟨g', h'⟩ := ih (fun k hk => hl k (List.mem_cons_of_mem n hk)) g₁
    exact ⟨g', by rw [addFlows_cons hi, h₁]; exact h'⟩

theorem exists_bodyFlow {m : Method} (ht : m.JumpsDeclared) : ∃ g, m.bodyFlow = .ok g :=
  exists_addFlows ht (fun _ => id) _

theorem bodyFlow_spec {m : Method} {g : FlowGraph} (hb : m.body.Nodup) (h : m.bodyFlow = .ok g) :
    (∀ x y, g.Edge x y ↔ m.BodyEdge x y) ∧ g.Mirrored ∧ m.JumpsDeclared := by
  obtain ⟨he, hm, ht⟩ := addFlows_spec hb h
  refine ⟨fun x y => ?_, hm (.addEdge (.empty _) _ _), fun n i label hi => ?_⟩
  · rw [he, FlowGraph.edge_addEdge, BodyEdge]
    simp only [FlowGraph.not_edge_empty, false_or, mem_instructions]
    refine or_congr_right ⟨fun ⟨_, h⟩ => h, fun ⟨i, hi, hy⟩ => ⟨?_, i, hi, hy⟩⟩
    exact (instruction?_eq_some.1 hi).1
  · have hi := mem_instructions.1 hi
    exact ht n (instruction?_eq_some.1 hi).1 i label hi

end Method

end ClassLowering
