import ClassLowering.Proofs.Code.Registers
import ClassLowering.Proofs.Compilation.Preparation

namespace ClassLowering

namespace Method

theorem prepared_of_kept {s : Settings} (hs : s.allocation = .disabled) {m : Method}
    (hm : m.isConstructor = false) (h : (Compiler.prepareRecorded s m).outcome = .ok ())
    (hkept : (Compiler.prepareRecorded s m).method.body = m.body) :
    ∃ g, (Compiler.prepareRecorded s m).method = { m with flow := g } := by
  obtain ⟨g, hg⟩ := Compiler.exists_rebuildFlow hm h
  have hrebuild : m.rebuildFlow = .ok { m with flow := g } := by
    rw [rebuildFlow, hg]
    rfl
  have hmethod := (Compiler.prepareRecorded_spec (s := s) hm hrebuild).1
  have hdisabled : (Pipeline.ofSettings s).allocation = .disabled := hs
  rw [(Pipeline.run_of_disabled hdisabled _).1] at hmethod
  rw [hmethod] at hkept
  exact ⟨g, hmethod.trans (Pipeline.optimize_of_length_body (congrArg List.length hkept))⟩

theorem lt_localsLimit_iff_no_gap {header : ClassHeader} {m : Method} {body : Body}
    (h : Scope.assemble ⟨header, m⟩ = .ok body) :
    (∀ l ∈ body.lines.toList, ∀ r, l.register? = some r → r < body.localsLimit) ↔
      ∀ r ∈ registersOf body.lines.toList, ∀ lower < r,
        lower < m.firstLocal ∨ lower ∈ registersOf body.lines.toList := by
  have hlines : (∀ l ∈ body.lines.toList, ∀ r, l.register? = some r → r < body.localsLimit) ↔
      ∀ r ∈ registersOf body.lines.toList, r < body.localsLimit := by
    simp only [registersOf, List.mem_filterMap]
    constructor
    · rintro h r ⟨l, hl, hr⟩
      exact h l hl r hr
    · exact fun h l hl r hr => h r ⟨l, hl, hr⟩
  have hmem : ∀ r, r ∈ body.registers ↔ r < m.firstLocal ∨ r ∈ registersOf body.lines.toList :=
    (Scope.registers_of_assemble h).2
  rw [hlines, Scope.lt_localsLimit_iff h]
  constructor
  · intro hgapless r hr lower hlower
    exact (hmem lower).1 (hgapless r ((hmem r).2 (.inr hr)) lower hlower)
  · intro hgap r hr lower hlower
    rcases (hmem r).1 hr with hfirst | hline
    · exact (hmem lower).2 (.inl (Nat.lt_trans hlower hfirst))
    · exact (hmem lower).2 (hgap r hline lower hlower)

theorem kept_registers_covered_iff {c : Compiler} (hc : c.settings.allocation = .disabled)
    {u : ClassUnit} {text : String} (h : (c.compile u).outcome = .ok text) {m : Method}
    (hm : m ∈ u.compiled)
    (hkept : (Compiler.prepareRecorded c.settings m).method.body = m.body) :
    let m' := (Compiler.prepareRecorded c.settings m).method
    m' ∈ (c.compile u).unit.compiled ∧ m'.table = m.table ∧
      ∃ front body rest, Scope.assemble ⟨u.toClassHeader, m'⟩ = .ok body ∧
        text = front ++ s!"    .limit locals {body.localsLimit}\n" ++ body.text ++ rest ∧
        ((∀ l ∈ body.lines.toList, ∀ r, l.register? = some r → r < body.localsLimit) ↔
          ∀ r ∈ registersOf body.lines.toList, ∀ lower < r,
            lower < m.firstLocal ∨ lower ∈ registersOf body.lines.toList) := by
  obtain ⟨hprepared, hlisting⟩ := Compiler.compile_eq_ok h
  obtain ⟨hmu, hconstructor⟩ := List.mem_filter.1 hm
  have hplain : m.isConstructor = false := by simpa using hconstructor
  obtain ⟨g, hg⟩ := prepared_of_kept hc hplain (hprepared m hmu) hkept
  have hmem : (Compiler.prepareRecorded c.settings m).method ∈ (c.compile u).unit.compiled := by
    rw [ClassUnit.compiled, Compiler.unit_compile]
    refine List.mem_filter.2 ⟨List.mem_map_of_mem hmu, ?_⟩
    rw [hg]
    exact hconstructor
  obtain ⟨before, listing, after, hl, htext⟩ := ClassUnit.exists_listing hlisting hmem
  rw [Compiler.unit_compile] at hl
  obtain ⟨front, body, hbody, hlines⟩ := Method.listing_eq_ok hl
  refine ⟨hmem, by rw [hg], before ++ front, body, ".end method\n" ++ after, hbody, ?_, ?_⟩
  · rw [htext, hlines]
    simp only [String.append_assoc]
  · have hiff := lt_localsLimit_iff_no_gap hbody
    rw [hg] at hiff
    exact hiff

def keptEntries : List Entry :=
  [.instruction (.assign (.var "x" .int) (.single (.literal 5 .int))),
    .instruction (.assign (.var "y" .int) (.single (.var "x" .int))),
    .instruction (.ret (some (.var "y" .int)))]

def keptSignature : Signature := { name := "five", isStatic := true, result := .int }

def kept : Method :=
  { keptSignature with
    code := (codeOf keptEntries).toArray
    body := [⟨2⟩, ⟨3⟩, ⟨4⟩]
    table := { entries := [("x", ⟨.int, some 0⟩), ("y", ⟨.int, some 1⟩)] }
    flow := ⟨#[⟨[⟨2⟩], []⟩, ⟨[], [⟨4⟩]⟩, ⟨[⟨3⟩], [⟨0⟩]⟩, ⟨[⟨4⟩], [⟨2⟩]⟩, ⟨[⟨1⟩], [⟨3⟩]⟩]⟩ }

def keptUnit (x y : Nat) : ClassUnit where
  name := "Five"
  methods := [{ kept with table := (kept.table.setRegister "x" x).setRegister "y" y }]

def swappedBody : Body where
  lines := #[.op (.const 5), .op (.store .int 1), .op (.load .int 1), .op (.store .int 0),
    .op (.load .int 0), .exit (.value .int)]
  maxDepth := 1
  reachable := false
  registers := [0, 1]

theorem kept_registers_covered_swapped :
    build keptSignature keptEntries = .ok kept ∧
      ∃ front rest, (({} : Compiler).compile (keptUnit 1 0)).outcome =
        .ok (front ++ "    .limit locals 2\n" ++ swappedBody.text ++ rest) ∧
        ∀ l ∈ swappedBody.lines.toList, ∀ r, l.register? = some r → r < 2 := by
  have hbuild : build keptSignature keptEntries = .ok kept := by decide +kernel
  have hok : (({} : Compiler).compile (keptUnit 1 0)).outcome.isOk = true := by decide +kernel
  have hkept : ∀ m ∈ (keptUnit 1 0).compiled,
      (Compiler.prepareRecorded {} m).method.body = m.body := by decide +kernel
  have hswapped : ∀ m ∈ (keptUnit 1 0).compiled,
      Scope.assemble ⟨(keptUnit 1 0).toClassHeader, (Compiler.prepareRecorded {} m).method⟩ =
        .ok swappedBody := by decide +kernel
  cases htext : (({} : Compiler).compile (keptUnit 1 0)).outcome with
  | error fault =>
    rw [htext] at hok
    cases hok
  | ok text =>
    have hm : (keptUnit 1 0).methods.head (by decide) ∈ (keptUnit 1 0).compiled := by decide +kernel
    obtain ⟨-, -, front, body, rest, hbody, rfl, hiff⟩ :=
      kept_registers_covered_iff (c := {}) rfl htext hm (hkept _ hm)
    rw [hswapped _ hm] at hbody
    cases hbody
    exact ⟨hbuild, front, rest, rfl, hiff.2 (by decide +kernel)⟩

theorem kept_registers_uncovered :
    build keptSignature keptEntries = .ok kept ∧
      (({} : Compiler).compile (keptUnit 7 0)).outcome = .ok
        (".class public Five\n.super java/lang/Object\n\n" ++
        ".method public <init>()V\n    aload_0\n    invokespecial java/lang/Object/<init>()V\n" ++
        "    return\n.end method\n\n" ++
        ".method public static five()I\n    .limit stack 1\n    .limit locals 2\n" ++
        "    iconst_5\n    istore 7\n    iload 7\n    istore_0\n    iload_0\n    ireturn\n" ++
        ".end method\n") := by
  decide +kernel

end Method

end ClassLowering
