import ClassLowering.Proofs.Method.Structure

namespace ClassLowering

theorem removeAll_concat (l known : List String) (name : String) :
    l.removeAll (known ++ [name]) = (l.removeAll known).filter (fun other => !other == name) := by
  induction l with
  | nil => rfl
  | cons other rest ih =>
    by_cases h : other ∈ known
    · simp [List.cons_removeAll, h, ih]
    · by_cases he : other = name
      · subst he
        simp [List.cons_removeAll, h, ih]
      · simp [List.cons_removeAll, h, he, ih]

namespace VariableTable

theorem lookup_eq_getElem? {α : Type} (l : List (String × α)) (name : String) :
    ((l.map Prod.fst).idxOf? name).bind (fun place => (l[place]?).map Prod.snd) =
      l.lookup name := by
  induction l with
  | nil => rfl
  | cons e rest ih =>
    rw [List.map_cons, List.idxOf?_cons, List.lookup_cons, ← ih]
    by_cases h : e.1 = name
    · simp [h]
    · have hne : (name == e.1) = false := by simpa using Ne.symm h
      rw [if_neg (by simpa using h), hne, Option.bind_map]
      rfl

theorem find?_eq_lookup (t : VariableTable) (name : String) :
    t.find? name = t.entries.lookup name := by
  rw [find?, place?_eq]
  exact lookup_eq_getElem? t.entries name

theorem find?_eq_some_iff_mem {t : VariableTable} {a : String} {d : Descriptor} :
    t.find? a = some d ↔ (a, d) ∈ t.entries := by
  rw [find?_eq_lookup]
  exact lookup_eq_some_iff_mem t.names_nodup

theorem eq_of_entries {t t' : VariableTable} (h : t.entries = t'.entries) : t = t' := by
  cases t
  cases t'
  simp_all

theorem find?_eq_none_iff {t : VariableTable} {a : String} : t.find? a = none ↔ a ∉ t.names := by
  rw [← contains_iff, contains, find?, t.index_eq]
  cases h : (NameIndex.ofNames (t.entries.map Prod.fst)).place? a with
  | none => simp
  | some place =>
    have hname := NameIndex.getElem?_of_place? h
    rw [List.getElem?_map, Option.map_eq_some_iff] at hname
    obtain ⟨e, he, -⟩ := hname
    simp [he]

theorem lookup_mapName {α : Type} (l : List (String × α)) (name : String) (f : α → α) (a : String) :
    (l.map fun e => if e.1 = name then (e.1, f e.2) else e).lookup a =
      if a = name then (l.lookup a).map f else l.lookup a := by
  induction l with
  | nil => simp
  | cons e rest ih =>
    have hkey : (if e.1 = name then (e.1, f e.2) else e).1 = e.1 := by split <;> rfl
    rw [List.map_cons, List.lookup_cons, List.lookup_cons, ih, hkey]
    by_cases hae : a = e.1
    · subst hae
      rw [beq_self_eq_true]
      by_cases ha : e.1 = name <;> simp [ha]
    · have hne : (a == e.1) = false := by simpa using hae
      rw [hne]

section ModifyAt

variable {t : VariableTable} {name : String} {place : Nat} (h : t.index.place? name = some place)
  (f : Descriptor → Descriptor)
include h

theorem entries_modifyAt : (t.modifyAt place f).entries =
    t.entries.map fun e => if e.1 = name then (e.1, f e.2) else e := by
  have hplace : t.names[place]? = some name := NameIndex.getElem?_of_place? (t.index_eq ▸ h)
  refine List.ext_getElem? fun k => ?_
  rw [modifyAt, List.getElem?_modify, List.getElem?_map]
  refine Option.map_congr fun e he => ?_
  have hk : t.names[k]? = some e.1 := by rw [names, List.getElem?_map, he, Option.map_some]
  by_cases hkp : place = k
  · subst hkp
    have hname : e.1 = name := Option.some.inj (hk.symm.trans hplace)
    rw [if_pos rfl, if_pos hname]
  · have hname : e.1 ≠ name := by
      rintro rfl
      obtain ⟨hlt, -⟩ := List.getElem?_eq_some_iff.1 hplace
      exact hkp ((List.getElem?_inj hlt t.names_nodup).1 (hplace.trans hk.symm))
    rw [if_neg hkp, if_neg hname]

theorem find?_modifyAt (a : String) :
    (t.modifyAt place f).find? a = if a = name then (t.find? a).map f else t.find? a := by
  rw [find?_eq_lookup, find?_eq_lookup, entries_modifyAt h, lookup_mapName]

end ModifyAt

theorem find?_insert (t : VariableTable) (name : String) (d : Descriptor) (a : String) :
    (t.insert name d).find? a = if a = name then some d else t.find? a := by
  unfold insert
  split
  · next place h =>
    rw [find?_modifyAt h]
    split
    · next ha =>
      subst ha
      have hsome : (t.find? a).isSome := by
        rw [Option.isSome_iff_ne_none, ne_eq, find?_eq_none_iff, not_not, ← contains_iff, contains, h]
        rfl
      obtain ⟨old, hold⟩ := Option.isSome_iff_exists.1 hsome
      rw [hold, Option.map_some]
    · rfl
  · next h =>
    rw [find?_eq_lookup, find?_eq_lookup, append, List.lookup_append]
    split
    · next ha =>
      subst ha
      have hnone : t.entries.lookup a = none := by
        rw [← find?_eq_lookup, find?_eq_none_iff]
        exact not_mem_names h
      rw [hnone, List.lookup_cons, beq_self_eq_true]
      rfl
    · next ha =>
      have hne : (a == name) = false := by simpa using ha
      simp [List.lookup_cons, hne]

def firstMentions (known : List String) : List (String × Ty) → List (String × Ty)
  | [] => []
  | v :: rest =>
    if v.1 ∈ known then firstMentions known rest
    else v :: firstMentions (known ++ [v.1]) rest

theorem map_fst_firstMentions (known : List String) (mentions : List (String × Ty)) :
    (firstMentions known mentions).map Prod.fst =
      ((mentions.map Prod.fst).removeAll known).eraseDups := by
  induction mentions generalizing known with
  | nil => rfl
  | cons v rest ih =>
    by_cases h : v.1 ∈ known
    · simp [firstMentions, h, List.cons_removeAll, ih]
    · simp [firstMentions, h, List.cons_removeAll, List.eraseDups_cons, ih, removeAll_concat]

theorem lookup_of_mem_firstMentions {known : List String} {mentions : List (String × Ty)}
    {v : String × Ty} (h : v ∈ firstMentions known mentions) :
    v.1 ∉ known ∧ mentions.lookup v.1 = some v.2 := by
  induction mentions generalizing known with
  | nil => cases h
  | cons first rest ih =>
    by_cases hf : first.1 ∈ known
    · rw [firstMentions, if_pos hf] at h
      obtain ⟨hnew, hlookup⟩ := ih h
      have hne : (v.1 == first.1) = false := beq_eq_false_iff_ne.2 fun e => hnew (e ▸ hf)
      exact ⟨hnew, by rw [List.lookup_cons, hne, hlookup]⟩
    · rw [firstMentions, if_neg hf, List.mem_cons] at h
      rcases h with rfl | h
      · exact ⟨hf, by rw [List.lookup_cons, beq_self_eq_true]⟩
      · obtain ⟨hnew, hlookup⟩ := ih h
        simp only [List.mem_append, List.mem_singleton, not_or] at hnew
        have hne : (v.1 == first.1) = false := beq_eq_false_iff_ne.2 hnew.2
        exact ⟨hnew.1, by rw [List.lookup_cons, hne, hlookup]⟩

namespace Numbering

variable {n : Numbering}

theorem names_add (n : Numbering) (name : String) (ty : Ty) :
    (n.add name ty).table.names =
      if name ∈ n.table.names then n.table.names else n.table.names ++ [name] :=
  names_insert n.table name _

theorem find?_add (n : Numbering) (name : String) (ty : Ty) (a : String) :
    (n.add name ty).table.find? a =
      if a = name then some ⟨ty, some n.next⟩ else n.table.find? a :=
  find?_insert _ _ _ _

theorem entries_add {name : String} (h : name ∉ n.table.names) (ty : Ty) :
    (n.add name ty).table.entries = n.table.entries ++ [(name, ⟨ty, some n.next⟩)] := by
  rw [add, insert]
  split
  · next place hplace => exact absurd (contains_iff.1 (by simp [contains, hplace])) h
  · rfl

theorem mention_of_mem {previous : VariableTable} {v : String × Ty} (h : v.1 ∈ n.table.names) :
    n.mention previous v = n := by
  rw [mention, if_pos (contains_iff.2 h)]

theorem mention_of_not_mem {previous : VariableTable} {v : String × Ty}
    (h : v.1 ∉ n.table.names) :
    n.mention previous v = n.add v.1 (((previous.find? v.1).map Descriptor.ty).getD v.2) := by
  rw [mention, if_neg (mt contains_iff.1 h)]

theorem next_mentions (n : Numbering) (previous : VariableTable) (mentions : List (String × Ty)) :
    (mentions.foldl (mention previous) n).next =
      n.next + (firstMentions n.table.names mentions).length := by
  induction mentions generalizing n with
  | nil => rfl
  | cons v rest ih =>
    rw [List.foldl_cons, ih]
    by_cases h : v.1 ∈ n.table.names
    · rw [mention_of_mem h, firstMentions, if_pos h]
    · rw [mention_of_not_mem h, names_add, if_neg h, firstMentions, if_neg h, List.length_cons]
      exact Nat.add_right_comm _ _ _

theorem entries_mentions (n : Numbering) (previous : VariableTable)
    (mentions : List (String × Ty)) :
    (mentions.foldl (mention previous) n).table.entries = n.table.entries ++
      (firstMentions n.table.names mentions).mapIdx fun k v =>
        (v.1, ⟨((previous.find? v.1).map Descriptor.ty).getD v.2, some (n.next + k)⟩) := by
  induction mentions generalizing n with
  | nil => simp [firstMentions]
  | cons v rest ih =>
    rw [List.foldl_cons, ih]
    by_cases h : v.1 ∈ n.table.names
    · rw [mention_of_mem h, firstMentions, if_pos h]
    · have hnext (name : String) (ty : Ty) : (n.add name ty).next = n.next + 1 := rfl
      rw [mention_of_not_mem h, entries_add h, names_add, if_neg h, firstMentions, if_neg h, hnext]
      simp [List.mapIdx_cons, Nat.add_assoc, Nat.add_comm 1]

structure Spread (n : Numbering) : Prop where
  below : ∀ v ∈ n.table.names, ∃ r < n.next, n.table.register? v = some r
  injective : ∀ v ∈ n.table.names, ∀ w ∈ n.table.names,
    n.table.register? v = n.table.register? w → v = w

theorem Spread.empty : Spread {} := by
  constructor <;> simp

theorem register?_add (n : Numbering) (name : String) (ty : Ty) (a : String) :
    (n.add name ty).table.register? a = if a = name then some n.next else n.table.register? a := by
  rw [register?, find?_add]
  split <;> rfl

theorem Spread.add (h : n.Spread) (name : String) (ty : Ty) : (n.add name ty).Spread := by
  have hold {v : String} (hv : v ∈ (n.add name ty).table.names) (hne : v ≠ name) :
      v ∈ n.table.names := by
    rw [names_add] at hv
    split at hv
    · exact hv
    · simpa [hne] using hv
  -- The new register is above all that other variables have.
  have hother {v : String} (hv : v ∈ (n.add name ty).table.names) (hne : v ≠ name) :
      n.table.register? v ≠ some n.next := by
    obtain ⟨r, hr, hreg⟩ := h.below v (hold hv hne)
    simp [hreg, Nat.ne_of_lt hr]
  constructor
  · intro v hv
    rw [register?_add]
    by_cases hne : v = name
    · exact ⟨n.next, Nat.lt_succ_self _, if_pos hne⟩
    · obtain ⟨r, hr, hreg⟩ := h.below v (hold hv hne)
      exact ⟨r, Nat.lt_succ_of_lt hr, by rw [if_neg hne, hreg]⟩
  · intro v hv w hw hsame
    rw [register?_add, register?_add] at hsame
    by_cases hvn : v = name <;> by_cases hwn : w = name
    · rw [hvn, hwn]
    · rw [if_pos hvn, if_neg hwn] at hsame
      exact absurd hsame.symm (hother hw hwn)
    · rw [if_neg hvn, if_pos hwn] at hsame
      exact absurd hsame (hother hv hvn)
    · rw [if_neg hvn, if_neg hwn] at hsame
      exact h.injective v (hold hv hvn) w (hold hw hwn) hsame

theorem Spread.mention (h : n.Spread) (previous : VariableTable) (v : String × Ty) :
    (n.mention previous v).Spread := by
  by_cases hv : v.1 ∈ n.table.names
  · rwa [mention_of_mem hv]
  · rw [mention_of_not_mem hv]
    exact h.add _ _

def declare (n : Numbering) (l : List Parameter) : Numbering :=
  l.foldl (fun n p => n.add p.name p.ty) n

@[simp] theorem declare_nil (n : Numbering) : n.declare [] = n := rfl

@[simp] theorem declare_cons (n : Numbering) (p : Parameter) (l : List Parameter) :
    n.declare (p :: l) = (n.add p.name p.ty).declare l := rfl

theorem Spread.declare (h : n.Spread) (l : List Parameter) : (n.declare l).Spread :=
  List.foldlRecOn l _ h fun _ hn p _ => Spread.add hn p.name p.ty

theorem Spread.mentions (h : n.Spread) (previous : VariableTable) (l : List (String × Ty)) :
    (l.foldl (Numbering.mention previous) n).Spread :=
  List.foldlRecOn l _ h fun _ hn v _ => Spread.mention hn previous v

theorem next_declare (n : Numbering) (l : List Parameter) :
    (n.declare l).next = n.next + l.length := by
  induction l generalizing n with
  | nil => rfl
  | cons p rest ih =>
    rw [declare_cons, ih, List.length_cons]
    exact Nat.add_right_comm _ _ _

theorem names_declare (n : Numbering) (l : List Parameter) :
    (n.declare l).table.names =
      n.table.names ++ ((l.map Parameter.name).removeAll n.table.names).eraseDups := by
  induction l generalizing n with
  | nil => simp
  | cons p rest ih =>
    rw [declare_cons, ih, names_add]
    by_cases h : p.name ∈ n.table.names
    · simp [h, List.cons_removeAll]
    · simp [h, List.cons_removeAll, List.eraseDups_cons, removeAll_concat]

end Numbering

end VariableTable

def Signature.fixed (s : Signature) : List Parameter :=
  (if s.isStatic then [] else [⟨"this", .self⟩]) ++ s.parameters

theorem Signature.length_fixed (s : Signature) : s.fixed.length = s.firstLocal := by
  unfold fixed firstLocal
  cases s.isStatic <;> simp [Nat.add_comm]

namespace Method

open VariableTable

def locals (m : Method) : List String :=
  ((m.mentions.map Prod.fst).removeAll (m.fixed.map Parameter.name)).eraseDups

theorem mem_mentions_of_mem_locals {m : Method} {v : String} (h : v ∈ m.locals) :
    v ∈ m.mentions.map Prod.fst :=
  (List.mem_filter.1 (List.mem_eraseDups.1 h)).1

def fixedNumbering (m : Method) : Numbering := Numbering.declare {} m.fixed

theorem table_renumber (m : Method) :
    m.renumber.table = (m.mentions.foldl (Numbering.mention m.table) m.fixedNumbering).table := by
  rw [renumber, number, fixedNumbering, Signature.fixed]
  cases m.isStatic <;> rfl

theorem names_fixedNumbering (m : Method) :
    m.fixedNumbering.table.names = (m.fixed.map Parameter.name).eraseDups := by
  rw [fixedNumbering, Numbering.names_declare]
  simp

theorem next_fixedNumbering (m : Method) : m.fixedNumbering.next = m.firstLocal := by
  rw [fixedNumbering, Numbering.next_declare, Signature.length_fixed]
  exact Nat.zero_add _

theorem spread_fixedNumbering (m : Method) : m.fixedNumbering.Spread :=
  Numbering.Spread.empty.declare m.fixed

def localMentions (m : Method) : List (String × Ty) :=
  firstMentions m.fixedNumbering.table.names m.mentions

theorem map_fst_localMentions (m : Method) : m.localMentions.map Prod.fst = m.locals := by
  rw [localMentions, map_fst_firstMentions, names_fixedNumbering, locals]
  congr 1
  exact List.filter_congr fun v _ => by simp

theorem entries_renumber (m : Method) :
    m.renumber.table.entries = m.fixedNumbering.table.entries ++ m.localMentions.mapIdx fun k v =>
      (v.1, ⟨((m.table.find? v.1).map Descriptor.ty).getD v.2, some (m.firstLocal + k)⟩) := by
  rw [table_renumber, Numbering.entries_mentions, next_fixedNumbering, localMentions]

theorem names_renumber (m : Method) :
    m.renumber.table.names = (m.fixed.map Parameter.name).eraseDups ++ m.locals := by
  rw [names, entries_renumber, List.map_append, ← names_fixedNumbering, ← map_fst_localMentions, names]
  exact congrArg _ (List.ext_getElem? fun k => by simp [Function.comp_def])

theorem mem_names_renumber (m : Method) {v : String} : v ∈ m.renumber.table.names ↔
    m.isStatic = false ∧ v = "this" ∨ v ∈ m.parameters.map Parameter.name ∨
      v ∈ m.mentions.map Prod.fst := by
  rw [names_renumber, locals, ← List.eraseDups_append, List.mem_eraseDups, List.mem_append,
    Signature.fixed, List.map_append, List.mem_append, or_assoc]
  cases m.isStatic <;> simp

theorem find?_renumber_localMention (m : Method) {k : Nat} {v : String × Ty}
    (h : m.localMentions[k]? = some v) : m.renumber.table.find? v.1 =
      some ⟨((m.table.find? v.1).map Descriptor.ty).getD v.2, some (m.firstLocal + k)⟩ := by
  rw [find?_eq_some_iff_mem, entries_renumber]
  refine List.mem_append_right _ (List.mem_of_getElem? (i := k) ?_)
  rw [List.getElem?_mapIdx, h, Option.map_some]

theorem find?_renumber_local (m : Method) {k : Nat} {v : String} (h : m.locals[k]? = some v) :
    ∃ ty, m.mentions.lookup v = some ty ∧ m.renumber.table.find? v =
      some ⟨((m.table.find? v).map Descriptor.ty).getD ty, some (m.firstLocal + k)⟩ := by
  rw [← map_fst_localMentions, List.getElem?_map, Option.map_eq_some_iff] at h
  obtain ⟨w, hw, rfl⟩ := h
  exact ⟨w.2, (lookup_of_mem_firstMentions (List.mem_of_getElem? hw)).2,
    m.find?_renumber_localMention hw⟩

theorem register?_renumber_local {m : Method} {k : Nat} {v : String} (h : m.locals[k]? = some v) :
    m.renumber.table.register? v = some (m.firstLocal + k) := by
  obtain ⟨ty, -, hv⟩ := m.find?_renumber_local h
  rw [register?, hv, Option.bind_some]

theorem spread_renumber (m : Method) :
    (∀ v ∈ m.renumber.table.names, ∃ r < m.firstLocal + m.locals.length,
      m.renumber.table.register? v = some r) ∧
    ∀ v ∈ m.renumber.table.names, ∀ w ∈ m.renumber.table.names,
      m.renumber.table.register? v = m.renumber.table.register? w → v = w := by
  have h := m.spread_fixedNumbering.mentions m.table m.mentions
  have hnext := Numbering.next_mentions m.fixedNumbering m.table m.mentions
  rw [← localMentions, next_fixedNumbering, ← List.length_map (f := Prod.fst), map_fst_localMentions]
    at hnext
  rw [table_renumber, ← hnext]
  exact ⟨h.below, h.injective⟩

end Method

end ClassLowering
