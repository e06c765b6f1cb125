import ClassLowering.Proofs.Method.Structure

namespace ClassLowering

namespace Method

structure Linked (m : Method) : Prop extends m.WellFormed where
  edge_iff : ∀ x y, m.flow.Edge x y ↔ m.BodyEdge x y

def past (m : Method) (n a : Node) : Node := if a = n then m.following n else a

def FallsThrough (m : Method) (n : Node) : Prop := ∀ y, m.flow.Edge n y ↔ y = m.following n

variable {m : Method} {n : Node}

theorem past_self : m.past n n = m.following n := if_pos rfl

theorem past_of_ne {a : Node} (h : a ≠ n) : m.past n a = a := if_neg h

theorem following_mem (m : Method) (n : Node) : m.following n = .exit ∨ m.following n ∈ m.body :=
  nextIn_mem n m.body

theorem WellFormed.following_ne (hm : m.WellFormed) (hn : n ∈ m.body) : m.following n ≠ n :=
  nextIn_ne hm.body_nodup hn (Method.ne_exit_of_mem hn)

theorem WellFormed.past_ne (hm : m.WellFormed) (hn : n ∈ m.body) (a : Node) : m.past n a ≠ n := by
  unfold past
  split
  · exact hm.following_ne hn
  · assumption

theorem FallsThrough.heir_eq (hf : m.FallsThrough n) (hm : m.WellFormed) (hn : n ∈ m.body) :
    m.heir n = m.following n := by
  have hne := hm.following_ne hn
  have hmem : m.following n ∈ m.flow.successors n := (hf _).2 rfl
  unfold heir
  cases h : (m.flow.successors n).find? (· ≠ n) with
  | none =>
    have hall := List.find?_eq_none.1 h _ hmem
    exact absurd hne (by simpa using hall)
  | some s => exact (hf s).1 (List.mem_of_find?_eq_some h)

theorem following_remove (hm : m.WellFormed) (hn : n ∈ m.body) {x : Node} (hx : x ≠ n) :
    (m.remove n).following x = m.past n (m.following x) := by
  unfold following past
  rw [body_remove]
  exact nextIn_filter hm.body_nodup hx (Method.ne_exit_of_mem hn)

theorem start_remove (hm : m.WellFormed) (n : Node) :
    (m.remove n).start = m.past n m.start := by
  unfold start past
  rw [body_remove]
  exact head_filter_ne n hm.body_nodup

theorem FallsThrough.target?_remove (hf : m.FallsThrough n) (hm : m.WellFormed) (hn : n ∈ m.body)
    (label : String) : (m.remove n).target? label = (m.target? label).map (m.past n) := by
  rw [Method.target?_remove hn, hf.heir_eq hm hn]
  rfl

theorem FallsThrough.leads_remove (hf : m.FallsThrough n) (hm : m.WellFormed) (hn : n ∈ m.body)
    (i : Instruction) (next y : Node) :
    (m.remove n).Leads i (m.past n next) y ↔ ∃ z, m.Leads i next z ∧ y = m.past n z := by
  have hjump (label : String) : (m.remove n).target? label = some y ↔
      ∃ z, m.target? label = some z ∧ y = m.past n z := by
    rw [hf.target?_remove hm hn, Option.map_eq_some_iff]
    simp only [eq_comm]
  have hexit : m.past n .exit = .exit := past_of_ne (Method.ne_exit_of_mem hn).symm
  cases i with
  | goto label => exact hjump label
  | branch condition label =>
    simp only [Leads, hjump, or_and_right, exists_or, exists_eq_left]
  | ret value => simp [Leads, hexit]
  | _ => simp [Leads]

theorem Linked.remove (hm : m.Linked) (hn : n ∈ m.body) (hf : m.FallsThrough n) :
    (m.remove n).Linked := by
  have hw := hm.toWellFormed
  refine ⟨hw.remove n, fun x y => ?_⟩
  -- The graph sends on to `past` what the body, by its order and its labels, sends there too.
  have hedge : (m.remove n).flow.Edge x y ↔ x ≠ n ∧ ∃ z, m.BodyEdge x z ∧ y = m.past n z := by
    rw [edge_remove hw.mirrored hn]
    refine and_congr_right fun hx => ?_
    constructor
    · rintro ⟨hy, h | ⟨hxn, hny⟩⟩
      · exact ⟨y, (hm.edge_iff x y).1 h, (past_of_ne hy).symm⟩
      · exact ⟨n, (hm.edge_iff x n).1 hxn, by rw [past_self]; exact (hf y).1 hny⟩
    · rintro ⟨z, hz, rfl⟩
      refine ⟨hw.past_ne hn z, ?_⟩
      by_cases h : z = n
      · subst h
        rw [past_self]
        exact .inr ⟨(hm.edge_iff x z).2 hz, (hf _).2 rfl⟩
      · rw [past_of_ne h]
        exact .inl ((hm.edge_iff x z).2 hz)
  rw [hedge]
  unfold BodyEdge
  constructor
  · rintro ⟨hx, z, ⟨rfl, rfl⟩ | ⟨i, hi, hl⟩, rfl⟩
    · exact .inl ⟨rfl, (start_remove hw n).symm⟩
    · refine .inr ⟨i, ?_, ?_⟩
      · rw [mem_instructions, instruction?_remove]
        exact ⟨mem_instructions.1 hi, hx⟩
      · rw [following_remove hw hn hx, hf.leads_remove hw hn]
        exact ⟨z, hl, rfl⟩
  · rintro (⟨rfl, rfl⟩ | ⟨i, hi, hl⟩)
    · exact ⟨(Method.ne_entry_of_mem hn).symm, _, .inl ⟨rfl, rfl⟩, start_remove hw n⟩
    · rw [mem_instructions, instruction?_remove] at hi
      rw [following_remove hw hn hi.2, hf.leads_remove hw hn] at hl
      obtain ⟨z, hz, rfl⟩ := hl
      exact ⟨hi.2, z, .inr ⟨i, mem_instructions.2 hi.1, hz⟩, rfl⟩

theorem Linked.retable (hm : m.Linked) (table : VariableTable) :
    ({ m with table } : Method).Linked := ⟨hm.toWellFormed.retable table, hm.edge_iff⟩

theorem Linked.renumber (hm : m.Linked) : m.renumber.Linked := hm.retable _

theorem Linked.fallsThrough_of_assign (hm : m.Linked) {place : Operand} {e : Instruction}
    (hi : m.instruction? n = some (.assign place e)) : m.FallsThrough n := by
  intro y
  rw [hm.edge_iff]
  constructor
  · rintro (⟨rfl, -⟩ | ⟨j, hj, hl⟩)
    · exact absurd rfl (Method.ne_entry_of_mem (instruction?_eq_some.1 hi).1)
    · rw [mem_instructions, hi] at hj
      cases hj
      exact hl
  · rintro rfl
    exact .inr ⟨_, mem_instructions.2 hi, rfl⟩

theorem Linked.of_build {signature : Signature} {entries : List Entry}
    (h : build signature entries = .ok m) : m.Linked :=
  ⟨(build_spec h).1, (build_spec h).2⟩

end Method

end ClassLowering
