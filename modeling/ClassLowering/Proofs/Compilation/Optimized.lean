import ClassLowering.Proofs.Code.Remnant
import ClassLowering.Proofs.Compilation.Failures

namespace ClassLowering

namespace Method

open Scope (Remains)

variable {header : ClassHeader} {m m' : Method} {s s' : Settings}

def Limited (header : ClassHeader) (m : Method) (limit : Nat) (listing : String) : Prop :=
  ∃ descriptor rest,
    header.methodDescriptor (m.parameters.map Parameter.ty) m.result = .ok descriptor ∧
      listing = s!".method{modifiers m.access m.isStatic m.isFinal} {m.name}{descriptor}\n" ++
        s!"    .limit stack {limit}\n" ++ rest

theorem Limited.congr {limit : Nat} {listing : String} (h : m.Limited header limit listing)
    (hs : m'.toSignature = m.toSignature) : m'.Limited header limit listing := by
  unfold Limited
  rw [hs]
  exact h

def stackLimit (header : ClassHeader) (m : Method) : Nat :=
  match Scope.assemble ⟨header, m⟩ with
  | .ok body => body.maxDepth
  | .error _ => 0

theorem stackLimit_eq {body : Body} (h : Scope.assemble ⟨header, m⟩ = .ok body) :
    m.stackLimit header = body.maxDepth := by
  rw [stackLimit, h]

theorem limited_of_listing {listing : String} (h : m.listing header = .ok listing) :
    (∃ body, Scope.assemble ⟨header, m⟩ = .ok body) ∧
      m.Limited header (m.stackLimit header) listing := by
  unfold Method.listing at h
  cases hd : header.methodDescriptor (m.parameters.map Parameter.ty) m.result with
  | error fault =>
    rw [hd] at h
    cases h
  | ok descriptor =>
    rw [hd] at h
    cases hb : Scope.assemble ⟨header, m⟩ with
    | error fault =>
      simp only [hb] at h
      cases h
    | ok body =>
      simp only [hb] at h
      cases h
      refine ⟨⟨body, rfl⟩, descriptor, s!"    .limit locals {body.localsLimit}\n" ++ body.text ++
        ".end method\n", hd, ?_⟩
      rw [stackLimit_eq hb]
      simp only [String.append_assoc]

theorem fault_of_listing {descriptor : String} {fault : Fault}
    (hd : header.methodDescriptor (m.parameters.map Parameter.ty) m.result = .ok descriptor)
    (h : m.listing header = .error fault) : Scope.assemble ⟨header, m⟩ = .error fault := by
  unfold listing at h
  rw [hd] at h
  cases hb : Scope.assemble ⟨header, m⟩ with
  | error other =>
    simp only [hb] at h
    cases h
    rfl
  | ok body =>
    simp only [hb] at h
    cases h

theorem prepared_of_build {signature : Signature} {entries : List Entry}
    (hbuild : build signature entries = .ok m) (hplain : m.isConstructor = false)
    (hs : s.optimize = false ∧ s.allocation = .disabled) (hs' : s'.allocation = .disabled) :
    ∃ g, (Compiler.prepareRecorded s m).method = { m with flow := g } ∧
      (Compiler.prepareRecorded s' m).outcome = .ok () ∧
      Remains { m with flow := g } (Compiler.prepareRecorded s' m).method := by
  obtain ⟨g, hg, hlinked⟩ := (Linked.of_build hbuild).exists_rebuildFlow
  have hpasses : (Pipeline.ofSettings s).passes = [] := by simp [Pipeline.ofSettings, hs.1]
  have hoff : (Pipeline.ofSettings s).allocation = .disabled := hs.2
  have hoff' : (Pipeline.ofSettings s').allocation = .disabled := hs'
  obtain ⟨hmethod, -⟩ := Compiler.prepareRecorded_spec (s := s) hplain hg
  obtain ⟨hmethod', houtcome'⟩ := Compiler.prepareRecorded_spec (s := s') hplain hg
  have hheld := held_of_build hbuild
  have hnodup := labels_nodup_of_build hbuild
  obtain ⟨hrun, hok⟩ := Pipeline.run_of_disabled hoff' { m with flow := g }
  refine ⟨g, ?_, ?_, ?_⟩
  · rw [hmethod, (Pipeline.run_of_disabled hoff _).1, hpasses, Pipeline.optimize_nil]
  · rw [houtcome', hok]
    rfl
  · rw [hmethod', hrun]
    exact ⟨hlinked, thinned_optimize hlinked _, held_optimize (m := { m with flow := g }) hheld _,
      hnodup⟩

theorem left_of_build {signature : Signature} {entries : List Entry}
    (hbuild : build signature entries = .ok m) (hplain : m.isConstructor = false)
    (hs : s.optimize = false ∧ s.allocation = .disabled) (hs' : s'.allocation = .disabled)
    {body : Body}
    (hbody : Scope.assemble ⟨header, (Compiler.prepareRecorded s m).method⟩ = .ok body) :
    (∃ body', Scope.assemble ⟨header, (Compiler.prepareRecorded s' m).method⟩ = .ok body' ∧
        body'.maxDepth ≤ body.maxDepth) ∨
      ∃ fault, Scope.assemble ⟨header, (Compiler.prepareRecorded s' m).method⟩ = .error fault ∧
        Missed m (Compiler.prepareRecorded s' m).method fault := by
  obtain ⟨g, hflow, -, hremains⟩ := prepared_of_build hbuild hplain hs hs'
  rw [hflow] at hbody
  exact Scope.assemble_left hremains hbody

end Method

namespace ClassUnit

inductive Listed (header : ClassHeader) (limit : Method → Nat) : List Method → String → Prop
  | nil : Listed header limit [] ""
  | cons {m : Method} {rest : List Method} {listing others : String}
      (hm : m.Limited header (limit m) listing) (hrest : Listed header limit rest others) :
      Listed header limit (m :: rest) ("\n" ++ listing ++ others)

def NoDeeper (u : ClassUnit) (text text' : String) : Prop :=
  ∃ front listings listings' limit limit', u.prologue = .ok front ∧ text = front ++ listings ∧
    text' = front ++ listings' ∧ Listed u.toClassHeader limit u.compiled listings ∧
    Listed u.toClassHeader limit' u.compiled listings' ∧ ∀ m ∈ u.compiled, limit' m ≤ limit m

theorem listed_of_methodListings {header : ClassHeader} {f : Method → Method}
    (hf : ∀ m, (f m).toSignature = m.toSignature) {l : List Method} {text : String}
    (h : (methodListings header (l.map f)).2 = .ok text) :
    Listed header (fun m => (f m).stackLimit header) l text := by
  induction l generalizing text with
  | nil =>
    cases h
    exact .nil
  | cons m rest ih =>
    rw [List.map_cons, methodListings] at h
    cases hm : (f m).listing header with
    | error fault =>
      rw [hm] at h
      cases h
    | ok listing =>
      rw [hm] at h
      cases hrest : (methodListings header (rest.map f)).2 with
      | error fault =>
        simp only [hrest] at h
        cases h
      | ok others =>
        simp only [hrest] at h
        cases h
        exact .cons ((Method.limited_of_listing hm).2.congr (hf m).symm) (ih hrest)

end ClassUnit

namespace Compiler

open ClassUnit

variable {c plain optimizing : Compiler} {u : ClassUnit} {text : String}

theorem listed_of_compile (h : (c.compile u).outcome = .ok text) :
    ∃ front listings, u.prologue = .ok front ∧ text = front ++ listings ∧
      Listed u.toClassHeader
        (fun m => (prepareRecorded c.settings m).method.stackLimit u.toClassHeader) u.compiled
        listings := by
  obtain ⟨-, hlisting⟩ := compile_eq_ok h
  rw [ClassUnit.listing, compile_prologue] at hlisting
  cases hp : u.prologue with
  | error fault =>
    rw [hp] at hlisting
    cases hlisting
  | ok front =>
    rw [hp, compiled_compile, toClassHeader_compile] at hlisting
    cases hall : (methodListings u.toClassHeader
        (u.compiled.map fun m => (prepareRecorded c.settings m).method)).2 with
    | error fault =>
      simp only [hall] at hlisting
      cases hlisting
    | ok listings =>
      simp only [hall] at hlisting
      cases hlisting
      exact ⟨front, listings, rfl, rfl,
        listed_of_methodListings (toSignature_prepareRecorded c.settings) hall⟩

theorem assembled_of_compile (h : (c.compile u).outcome = .ok text) {m : Method}
    (hm : m ∈ u.compiled) :
    (∃ body, Scope.assemble ⟨u.toClassHeader, (prepareRecorded c.settings m).method⟩ = .ok body) ∧
      ∃ descriptor, u.toClassHeader.methodDescriptor (m.parameters.map Parameter.ty) m.result =
        .ok descriptor := by
  obtain ⟨-, hlisting⟩ := compile_eq_ok h
  have hmem : (prepareRecorded c.settings m).method ∈ (c.compile u).unit.compiled := by
    rw [compiled_compile]
    exact List.mem_map_of_mem hm
  obtain ⟨_, listing, _, hlist, -⟩ := exists_listing hlisting hmem
  rw [toClassHeader_compile] at hlist
  obtain ⟨hbody, descriptor, _, hd, -⟩ := Method.limited_of_listing hlist
  rw [toSignature_prepareRecorded] at hd
  exact ⟨hbody, descriptor, hd⟩

theorem outcome_of_methods {front : String} (hfront : u.prologue = .ok front)
    (hprepared : ∀ m ∈ u.compiled, (prepareRecorded c.settings m).outcome = .ok ())
    (hheader : ∀ m ∈ u.compiled, ∃ descriptor,
      u.toClassHeader.methodDescriptor (m.parameters.map Parameter.ty) m.result = .ok descriptor) :
    (∃ text, (c.compile u).outcome = .ok text) ∨
      ∃ m ∈ u.compiled, ∃ fault, (c.compile u).outcome = .error fault ∧
        Scope.assemble ⟨u.toClassHeader, (prepareRecorded c.settings m).method⟩ = .error fault := by
  rw [outcome_of_prepared hprepared,
    listing_of_prologue ((compile_prologue c u).trans hfront), compiled_compile,
    toClassHeader_compile]
  rcases methodListings_spec u.toClassHeader
      (u.compiled.map fun m => (prepareRecorded c.settings m).method) with
    ⟨⟨others, hothers⟩, -⟩ | ⟨before, p, after, fault, hsplit, -, hp, hfault, -⟩
  · exact .inl ⟨front ++ others, by rw [hothers]; rfl⟩
  · have hmem : p ∈ u.compiled.map fun m => (prepareRecorded c.settings m).method :=
      hsplit ▸ List.mem_append_right before List.mem_cons_self
    obtain ⟨m, hm, rfl⟩ := List.mem_map.1 hmem
    obtain ⟨descriptor, hd⟩ := hheader m hm
    rw [← toSignature_prepareRecorded c.settings m] at hd
    exact .inr ⟨m, hm, fault, by rw [hfault]; rfl, Method.fault_of_listing hd hp⟩

theorem optimized_compiles
    (hbuilt : ∀ m ∈ u.methods, ∃ signature entries, Method.build signature entries = .ok m)
    (hplain : plain.settings.optimize = false ∧ plain.settings.allocation = .disabled)
    (hoptimizing : optimizing.settings.allocation = .disabled)
    (h : (plain.compile u).outcome = .ok text) :
    (∃ text', (optimizing.compile u).outcome = .ok text' ∧ u.NoDeeper text text') ∨
      ∃ m ∈ u.compiled, ∃ fault, (optimizing.compile u).outcome = .error fault ∧
        Method.Missed m (prepareRecorded optimizing.settings m).method fault := by
  have hbuild {m : Method} (hm : m ∈ u.compiled) :
      m.isConstructor = false ∧ ∃ signature entries, Method.build signature entries = .ok m := by
    obtain ⟨hmu, hcompiled⟩ := mem_compiled.1 hm
    exact ⟨hcompiled, hbuilt m hmu⟩
  have hprepared : ∀ m ∈ u.compiled, (prepareRecorded optimizing.settings m).outcome = .ok () := by
    intro m hm
    obtain ⟨hcompiled, _, _, hm⟩ := hbuild hm
    obtain ⟨_, -, hok, -⟩ := Method.prepared_of_build hm hcompiled hplain hoptimizing
    exact hok
  obtain ⟨front, listings, hfront, htext, hlisted⟩ := listed_of_compile h
  rcases outcome_of_methods hfront hprepared fun m hm => (assembled_of_compile h hm).2 with
    ⟨text', htext'⟩ | ⟨m, hm, fault, hfault, hassemble⟩
  · obtain ⟨front', listings', hfront', hlistings', hlisted'⟩ := listed_of_compile htext'
    obtain rfl : front = front' := Except.ok.inj (hfront.symm.trans hfront')
    refine .inl ⟨text', htext', front, listings, listings', _, _, hfront, htext, hlistings', hlisted,
      hlisted', fun m hm => ?_⟩
    obtain ⟨hcompiled, _, _, hm'⟩ := hbuild hm
    obtain ⟨body, hbody⟩ := (assembled_of_compile h hm).1
    obtain ⟨body', hbody'⟩ := (assembled_of_compile htext' hm).1
    rcases Method.left_of_build hm' hcompiled hplain hoptimizing hbody with
      ⟨other, hother, hle⟩ | ⟨fault, hfault, -⟩
    · rw [Method.stackLimit_eq hbody, Method.stackLimit_eq hother]
      exact hle
    · rw [hbody'] at hfault
      cases hfault
  · obtain ⟨hcompiled, _, _, hm'⟩ := hbuild hm
    obtain ⟨body, hbody⟩ := (assembled_of_compile h hm).1
    rcases Method.left_of_build hm' hcompiled hplain hoptimizing hbody with
      ⟨other, hother, -⟩ | ⟨other, hother, hmissed⟩
    · rw [hassemble] at hother
      cases hother
    · obtain rfl : fault = other := Except.error.inj (hassemble.symm.trans hother)
      exact .inr ⟨m, hm, fault, hfault, hmissed⟩

def detourUnit : ClassUnit := { name := "Detour", methods := [Method.detour] }

def eliminating : Compiler := { settings := { optimize := true } }

theorem optimized_compiles_detour :
    ∃ text text', (({} : Compiler).compile detourUnit).outcome = .ok text ∧
      (eliminating.compile detourUnit).outcome = .ok text' ∧ detourUnit.NoDeeper text text' := by
  have hbuilt : ∀ m ∈ detourUnit.methods,
      ∃ signature entries, Method.build signature entries = .ok m :=
    List.forall_mem_singleton.2 ⟨Method.countdownSignature, Method.detourEntries, by decide +kernel⟩
  have hok : (({} : Compiler).compile detourUnit).outcome.isOk = true := by decide +kernel
  have hok' : (eliminating.compile detourUnit).outcome.isOk = true := by decide +kernel
  cases htext : (({} : Compiler).compile detourUnit).outcome with
  | error fault =>
    rw [htext] at hok
    cases hok
  | ok text =>
    have hdisabled : eliminating.settings.allocation = .disabled := rfl
    rcases optimized_compiles hbuilt ⟨rfl, rfl⟩ hdisabled htext with
      ⟨text', htext', hlimits⟩ | ⟨_, _, fault, hfault, _⟩
    · exact ⟨text, text', rfl, htext', hlimits⟩
    · rw [hfault] at hok'
      cases hok'

def lateEntries : List Entry :=
  [.instruction (.assign (.var "x" (.object "C")) (.call ⟨.new, [], .object "C"⟩)),
    .instruction (.goto "b"),
    .label "b",
    .instruction (.assign (.var "d" .int) (.single (.literal 5 .int))),
    .label "a",
    .instruction (.call ⟨.special (.var "x" (.object "C")) "<init>", [], .void⟩)]

def lateSignature : Signature := { name := "late", isStatic := true }

def late : Method :=
  { lateSignature with
    code := (Method.codeOf lateEntries).toArray
    body := [⟨2⟩, ⟨3⟩, ⟨4⟩, ⟨5⟩]
    labels := [("a", ⟨5⟩), ("b", ⟨4⟩)]
    table := { entries := [("x", ⟨.object "C", some 0⟩), ("d", ⟨.int, some 1⟩)] }
    flow := ⟨#[⟨[⟨2⟩], []⟩, ⟨[], [⟨5⟩]⟩, ⟨[⟨3⟩], [⟨0⟩]⟩, ⟨[⟨4⟩], [⟨2⟩]⟩, ⟨[⟨5⟩], [⟨3⟩]⟩,
      ⟨[⟨1⟩], [⟨4⟩]⟩]⟩ }

def lateUnit : ClassUnit := { name := "C", methods := [late] }

theorem optimized_refused :
    Method.build lateSignature lateEntries = .ok late ∧
      (({} : Compiler).compile lateUnit).outcome.isOk = true ∧
      (eliminating.compile lateUnit).outcome = .error (.malformed (.labelDepth "b" 1 0)) := by
  decide +kernel

end Compiler

end ClassLowering
