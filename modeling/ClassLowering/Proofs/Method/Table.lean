import ClassLowering.Proofs.Method.Numbering
import ClassLowering.Proofs.Reading

namespace ClassLowering

namespace VariableTable

theorem entries_setRegister (t : VariableTable) (name : String) (register : Nat) :
    (t.setRegister name register).entries = t.entries.map fun e =>
      if e.1 = name then (e.1, { e.2 with register }) else e := by
  unfold setRegister changeRegister
  split
  · next place h => exact entries_modifyAt h _
  · next h =>
    have hnone (e) (he : e ∈ t.entries) : e.1 ≠ name := fun hname =>
      not_mem_names h (hname ▸ List.mem_map_of_mem he)
    exact (List.map_id _).symm.trans
      (List.map_congr_left fun e he => (if_neg (hnone e he)).symm)

theorem find?_setRegister (t : VariableTable) (name : String) (register : Nat) (a : String) :
    (t.setRegister name register).find? a =
      if a = name then (t.find? a).map fun d => { d with register } else t.find? a := by
  rw [find?_eq_lookup, find?_eq_lookup, entries_setRegister]
  exact lookup_mapName t.entries name (fun d => { d with register }) a

theorem register?_setRegister (t : VariableTable) (name : String) (r : Nat) (a : String) :
    (t.setRegister name r).register? a =
      if a = name ∧ a ∈ t.names then some r else t.register? a := by
  rw [register?, register?, find?_setRegister]
  by_cases h : a = name
  · subst h
    cases ht : t.find? a with
    | none => simp [find?_eq_none_iff.1 ht]
    | some d =>
      have hm : a ∈ t.names := by
        by_contra hm
        rw [find?_eq_none_iff.2 hm] at ht
        cases ht
      simp [hm]
  · simp [h]

end VariableTable

namespace Method

variable {m : Method}

structure Tabled (m : Method) : Prop where
  receiver_mem : m.isStatic = false → "this" ∈ m.table.names
  parameter_mem : ∀ p ∈ m.parameters, p.name ∈ m.table.names
  mention_mem : ∀ v ∈ m.mentions.map Prod.fst, v ∈ m.table.names

theorem tabled_renumber (m : Method) : m.renumber.Tabled :=
  ⟨fun h => m.mem_names_renumber.2 (.inl ⟨h, rfl⟩),
    fun _ hp => m.mem_names_renumber.2 (.inr (.inl (List.mem_map_of_mem hp))),
    fun _ hv => m.mem_names_renumber.2 (.inr (.inr hv))⟩

theorem table_remove (m : Method) (n : Node) : (m.remove n).table = m.table := by
  rw [remove_eq]
  split <;> rfl

theorem toSignature_remove (m : Method) (n : Node) :
    (m.remove n).toSignature = m.toSignature := by
  rw [remove_eq]
  split <;> rfl

theorem mentions_remove_subset (m : Method) (n : Node) {v : String}
    (h : v ∈ (m.remove n).mentions.map Prod.fst) : v ∈ m.mentions.map Prod.fst := by
  rw [mem_mentions] at h ⊢
  obtain ⟨k, ⟨i, hi, hv⟩ | ⟨i, hi, hv⟩⟩ := h
  · exact ⟨k, .inl ⟨i, (instruction?_remove.1 hi).1, hv⟩⟩
  · exact ⟨k, .inr ⟨i, (instruction?_remove.1 hi).1, hv⟩⟩

theorem Tabled.remove (hm : m.Tabled) (n : Node) : (m.remove n).Tabled := by
  have ht := m.table_remove n
  have hs := m.toSignature_remove n
  refine ⟨fun h => ?_, fun p hp => ?_, fun v hv => ?_⟩
  · rw [ht]
    exact hm.receiver_mem (by rw [← h, hs])
  · rw [ht]
    exact hm.parameter_mem p (by rw [← hs]; exact hp)
  · rw [ht]
    exact hm.mention_mem v (m.mentions_remove_subset n hv)

theorem tabled_of_build {signature : Signature} {entries : List Entry}
    (h : build signature entries = .ok m) : m.Tabled ∧ m.toSignature = signature := by
  obtain ⟨g, -, rfl⟩ := build_eq_ok h
  exact ⟨tabled_renumber _, rfl⟩

end Method

end ClassLowering
