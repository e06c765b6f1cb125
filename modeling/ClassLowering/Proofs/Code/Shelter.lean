import Mathlib.Data.List.Basic
import ClassLowering.Proofs.Code.Balance
import ClassLowering.Proofs.Code.StackLimit
import ClassLowering.Proofs.Flow.Reachability
import ClassLowering.Proofs.Method.FallThrough

namespace ClassLowering

namespace Scope

open Body (At)
open Lower (Level)

variable (s : Scope) {live : Bool} {own : List String}

def Sheltered (m : Method) : Bool → List (Node × Instruction) → Prop
  | _, [] => True
  | live, (n, i) :: rest =>
    (i.storesTest = true → (live || !(m.labelsAt n).isEmpty) = true) ∧
      Sheltered m ((live || !(m.labelsAt n).isEmpty) && i.runsOn) rest

theorem level_statements {l : List (Node × Instruction)} (hshelter : Sheltered s.method live l)
    (hlabels : ∀ n, ∀ name ∈ s.method.labelsAt n, name ∈ own)
    (hc : ∀ e ∈ l, ∀ c ∈ e.2.calls, c.Neutral)
    (htarget : ∀ e ∈ l, ∀ label, e.2.target? = some label → label ∈ own) :
    Level (Clear own live) (s.statements l) fun _ => Clear own false := by
  induction l generalizing live with
  | nil => exact .pure fun _ _ ⟨here, _, hb⟩ => ⟨here, nofun, hb⟩
  | cons e rest ih =>
    obtain ⟨hstore, hrest⟩ := hshelter
    obtain ⟨hc, hcrest⟩ := List.forall_mem_cons.1 hc
    obtain ⟨htarget, htrest⟩ := List.forall_mem_cons.1 htarget
    refine .bind (level_labels (hlabels e.1)) fun _ => ?_
    refine .bind (Q := fun _ => Clear own ((live || !(s.method.labelsAt e.1).isEmpty) && e.2.runsOn))
      (level_clear fun here hhere => ?_) fun _ => ih hrest hcrest htrest
    refine (s.level_statement hc (fun h => hhere (hstore h)) htarget).mono ?_
    rintro _ supply b ⟨there, hthere, hb⟩
    refine ⟨there, fun h => hthere ?_, hb⟩
    rw [Bool.and_eq_true] at h ⊢
    exact ⟨hhere h.1, h.2⟩

theorem level_body (hshelter : Sheltered s.method true s.method.instructions)
    (hc : ∀ e ∈ s.method.instructions, ∀ c ∈ e.2.calls, c.Neutral)
    (hjumps : s.method.JumpsDeclared) :
    Level (Clear (s.method.labels.map Prod.fst) true) s.body fun _ =>
      Clear (s.method.labels.map Prod.fst) false := by
  have hlabels : ∀ n, ∀ name ∈ s.method.labelsAt n, name ∈ s.method.labels.map Prod.fst := by
    intro n name hname
    obtain ⟨e, he, rfl⟩ := List.mem_map.1 hname
    exact List.mem_map_of_mem (List.mem_filter.1 he).1
  refine .bind (s.level_statements hshelter hlabels hc fun e he label hlabel => ?_) fun _ => ?_
  · obtain ⟨t, ht⟩ := hjumps e.1 e.2 label he hlabel
    obtain ⟨before, after, hsplit, -⟩ := List.lookup_eq_some_iff.1 ht
    rw [hsplit]
    simp
  · refine (level_labels (hlabels .exit)).mono ?_
    rintro _ supply b ⟨here, -, hb⟩
    exact ⟨here, nofun, hb⟩

theorem assemble_eq_onto (s : Scope) :
    s.assemble = (s.body.onto { used := s.method.labels.map Prod.fst } s.emptyBody).map
      fun r => r.2.2 := by
  unfold assemble lower Lower.onto
  dsimp only
  cases s.emptyBody.addAll (s.body { used := s.method.labels.map Prod.fst }).lines with
  | error d => rfl
  | ok b => cases (s.body { used := s.method.labels.map Prod.fst }).outcome <;> rfl

theorem clear_emptyBody (s : Scope) : Clear (s.method.labels.map Prod.fst) true
    { used := s.method.labels.map Prod.fst } s.emptyBody := by
  obtain ⟨registers, he⟩ := s.exists_emptyBody
  rw [he]
  exact ⟨true, id, rfl, rfl, nofun, fun _ => id, nofun, nofun, nofun⟩

end Scope

namespace Method

variable {m : Method}

theorem nextIn_split {x y : Node} {l : List Node} (h : nextIn x l = y) (hy : y ≠ .exit) :
    ∃ before after, l = before ++ x :: y :: after := by
  induction l with
  | nil => exact absurd h.symm hy
  | cons z rest ih =>
    rw [nextIn] at h
    split at h
    · next he =>
      cases rest with
      | nil => exact absurd h.symm hy
      | cons w rest =>
        obtain rfl : w = y := h
        exact ⟨[], rest, by rw [he]; rfl⟩
    · obtain ⟨before, after, hsplit⟩ := ih h
      exact ⟨z :: before, after, by rw [hsplit]; rfl⟩

theorem Linked.eq_of_following (hm : m.Linked) {x n n' : Node} {before after : List Node}
    (hbody : m.body = before ++ n :: n' :: after) (h : m.following x = n') : x = n := by
  have hmem : n' ∈ m.body := by simp [hbody]
  obtain ⟨front, back, hsplit⟩ := nextIn_split h (Method.ne_exit_of_mem hmem)
  have hnodup := hm.body_nodup
  have hsplit' : m.body = (front ++ [x]) ++ n' :: back := by simp [hsplit]
  have hbody' : m.body = (before ++ [n]) ++ n' :: after := by simp [hbody]
  rw [hsplit', List.nodup_append, List.nodup_cons] at hnodup
  have hfront : n' ∉ front ++ [x] := fun hn => hnodup.2.2 n' hn n' List.mem_cons_self rfl
  have heq := (List.append_cons_inj_of_notMem hfront hnodup.2.1.1).1 (hsplit'.symm.trans hbody')
  exact (List.append_inj' heq.1 rfl).2 |> List.singleton_inj.1

theorem Linked.reached_by (hm : m.Linked) {n n' : Node} {i : Instruction}
    {before after : List Node} (hbody : m.body = before ++ n :: n' :: after)
    (hi : (n, i) ∈ m.instructions) (hreach : m.flow.Reachable n') :
    m.flow.Reachable n ∧ i.runsOn = true ∨ (m.labelsAt n').isEmpty = false := by
  have hmem : n' ∈ m.body := by simp [hbody]
  have hlabel {label : String} (h : m.target? label = some n') :
      (m.labelsAt n').isEmpty = false := by
    obtain ⟨front, back, hsplit, -⟩ := List.lookup_eq_some_iff.1 h
    unfold labelsAt
    rw [hsplit]
    simp
  obtain he | ⟨x, hx, hedge⟩ := Relation.ReflTransGen.cases_tail hreach
  · exact absurd he (Method.ne_entry_of_mem hmem)
  · obtain ⟨-, hstart⟩ | ⟨j, hj, hlead⟩ := (hm.edge_iff x n').1 hedge
    · have hnodup := hm.body_nodup
      rw [start, hbody] at hstart
      rw [hbody] at hnodup
      cases before with
      | nil =>
        obtain rfl : n' = n := hstart
        simp at hnodup
      | cons y before =>
        obtain rfl : n' = y := hstart
        simp at hnodup
    · have hnext (hrun : j.runsOn = true) (h : n' = m.following x) :
          m.flow.Reachable n ∧ i.runsOn = true := by
        obtain rfl := hm.eq_of_following hbody h.symm
        rw [mem_instructions] at hi hj
        obtain rfl : j = i := Option.some.inj (hj.symm.trans hi)
        exact ⟨hx, hrun⟩
      cases j with
      | goto label => exact .inr (hlabel hlead)
      | branch condition label => exact hlead.imp (hnext rfl) hlabel
      | ret value => exact absurd hlead (Method.ne_exit_of_mem hmem)
      | _ => exact .inl (hnext rfl hlead)

theorem Linked.sheltered_suffix (hm : m.Linked)
    (hstores : ∀ e ∈ m.instructions, e.2.storesTest = true → m.flow.Reachable e.1)
    {l : List (Node × Instruction)} {before : List Node} {live : Bool}
    (hbody : m.body = before ++ l.map Prod.fst) (hl : ∀ e ∈ l, e ∈ m.instructions)
    (hhead : ∀ e ∈ l.head?, m.flow.Reachable e.1 →
      (live || !(m.labelsAt e.1).isEmpty) = true) : Scope.Sheltered m live l := by
  induction l generalizing before live with
  | nil => exact trivial
  | cons e rest ih =>
    obtain ⟨n, i⟩ := e
    obtain ⟨hi, hrest⟩ := List.forall_mem_cons.1 hl
    have hbody' : m.body = (before ++ [n]) ++ rest.map Prod.fst := by
      rw [hbody, List.append_assoc]
      rfl
    refine ⟨fun h => hhead _ rfl (hstores _ hi h), ih hbody' hrest ?_⟩
    · rintro ⟨n', i'⟩ hnext hreach
      obtain ⟨after, rfl⟩ := List.head?_eq_some_iff.1 hnext
      obtain ⟨hn, hrun⟩ | hlabels := hm.reached_by hbody hi hreach
      · rw [hhead _ rfl hn, hrun]
        rfl
      · rw [hlabels, Bool.not_false, Bool.or_true]

theorem Linked.sheltered (hm : m.Linked)
    (hstores : ∀ e ∈ m.instructions, e.2.storesTest = true → m.flow.Reachable e.1) :
    Scope.Sheltered m true m.instructions :=
  have hbody : m.body = [] ++ m.instructions.map Prod.fst :=
    (map_fst_instructions m).symm
  hm.sheltered_suffix hstores hbody (fun _ => id) fun _ _ _ => Bool.true_or _

end Method

namespace Scope

def storeSignature : Signature :=
  { name := "store", isStatic := true, parameters := [⟨"a", .array .bool⟩, ⟨"x", .int⟩] }

def storeTable : VariableTable :=
  { entries := [("a", ⟨.array .bool, some 0⟩), ("x", ⟨.int, some 1⟩)] }

def storeOfTest : Instruction :=
  .assign (.element "a" (.literal 0 .int) .bool) (.binary .lt (.var "x" .int) (.literal 5 .int))

def skippedTestEntries : List Entry :=
  [.instruction (.goto "store"),
    .instruction (.assign (.var "x" .int) (.binary .lt (.var "x" .int) (.literal 5 .int))),
    .label "store",
    .instruction storeOfTest]

def skippedTest : Method :=
  { storeSignature with
    code := (Method.codeOf skippedTestEntries).toArray
    body := [⟨2⟩, ⟨3⟩, ⟨4⟩]
    labels := [("store", ⟨4⟩)]
    table := storeTable
    flow := ⟨#[⟨[⟨2⟩], []⟩, ⟨[], [⟨4⟩]⟩, ⟨[⟨4⟩], [⟨0⟩]⟩, ⟨[⟨4⟩], []⟩, ⟨[⟨1⟩], [⟨2⟩, ⟨3⟩]⟩]⟩ }

def abandonedStoreEntries : List Entry := [.instruction (.ret none), .instruction storeOfTest]

def abandonedStore : Method :=
  { storeSignature with
    code := (Method.codeOf abandonedStoreEntries).toArray
    body := [⟨2⟩, ⟨3⟩]
    table := storeTable
    flow := ⟨#[⟨[⟨2⟩], []⟩, ⟨[], [⟨2⟩, ⟨3⟩]⟩, ⟨[⟨1⟩], [⟨0⟩]⟩, ⟨[⟨1⟩], []⟩]⟩ }

theorem balanced_spares {signature : Signature} {entries : List Entry} {m : Method}
    (hbuild : Method.build signature entries = .ok m)
    (hneutral : ∀ e ∈ m.instructions, ∀ c ∈ e.2.calls, c.Neutral)
    (hstores : ∀ e ∈ m.instructions, e.2.storesTest = true → m.flow.Reachable e.1)
    (header : ClassHeader) (table : VariableTable) (fault : Fault)
    (h : assemble ⟨header, { m with table }⟩ = .error fault) : ¬ fault.IsDepth := by
  have hm := (Method.Linked.of_build hbuild).retable table
  let s : Scope := ⟨header, { m with table }⟩
  have hbody := s.level_body (hm.sheltered hstores) hneutral hm.jumps_declared
  have hspares := hbody _ _ s.clear_emptyBody
  rw [assemble_eq_onto] at h
  generalize Lower.onto _ _ _ = result at h hspares
  cases result with
  | error other =>
    cases h
    exact hspares
  | ok r => cases h

theorem balanced_spares_skippedTest :
    Method.build storeSignature skippedTestEntries = .ok skippedTest ∧
      ¬ skippedTest.flow.Reachable ⟨3⟩ ∧
      ∀ table fault, assemble ⟨{ name := "Store" }, { skippedTest with table }⟩ = .error fault →
        ¬ fault.IsDepth := by
  have hbuild : Method.build storeSignature skippedTestEntries = .ok skippedTest := by decide +kernel
  have hstore : skippedTest.flow.Reachable ⟨4⟩ :=
    .tail (.single (show skippedTest.flow.Edge .entry ⟨2⟩ by decide)) (by decide)
  have hcalls : ∀ e ∈ skippedTest.instructions, e.2.calls = [] := by decide
  have hstores : ∀ e ∈ skippedTest.instructions, e.2.storesTest = true → e.1 = ⟨4⟩ := by decide
  have hskipped : ¬ skippedTest.flow.Reachable ⟨3⟩ := by
    intro h
    obtain he | ⟨x, -, hx⟩ := Relation.ReflTransGen.cases_tail h
    · cases he
    · have hpred := ((Method.Linked.of_build hbuild).mirrored.mirror x ⟨3⟩).1 hx
      cases hpred
  refine ⟨hbuild, hskipped, fun table fault => balanced_spares hbuild ?_ ?_ _ table fault⟩
  · intro e he c hc
    rw [hcalls e he] at hc
    cases hc
  · intro e he ht
    rw [hstores e he ht]
    exact hstore

theorem abandonedStore_refused :
    Method.build storeSignature abandonedStoreEntries = .ok abandonedStore ∧
      (∀ e ∈ abandonedStore.instructions, e.2.calls = []) ∧
      assemble ⟨{ name := "Store" }, abandonedStore⟩ = .error (.malformed (.stackUnderflow (-2) 3 0)) := by
  decide +kernel

end Scope

end ClassLowering
