import ClassLowering.Proofs.Code.Independence
import ClassLowering.Proofs.Compilation.Preparation
import ClassLowering.Proofs.Method.Rehoming
import ClassLowering.Proofs.Register.Budget
import ClassLowering.Proofs.Register.Reassignment

namespace ClassLowering

namespace Pipeline

variable {m m' : Method}

theorem sameVariables_finish {a : Allocation} {g : FlowGraph}
    (hedge : ∀ x y, g.Edge x y ↔ m.flow.Edge x y) :
    m.SameVariables { (finish a m).1 with flow := g } := by
  obtain ⟨table, hfinish, hnames⟩ := finish_retable a m
  rw [hfinish]
  exact ⟨⟨rfl, rfl, hedge⟩, rfl, hnames⟩

theorem finish_finish {a : Allocation} {g : FlowGraph} (hm : m.WellFormed)
    (hm' : ({ (finish a m).1 with flow := g } : Method).WellFormed)
    (hedge : ∀ x y, g.Edge x y ↔ m.flow.Edge x y) :
    finish a { (finish a m).1 with flow := g } =
      ({ (finish a m).1 with flow := g }, (finish a m).2) := by
  have hsame := (sameVariables_finish hedge).allocate_eq hm hm' a.ceiling?
  generalize hagain : ({ (finish a m).1 with flow := g } : Method) = m' at hsame ⊢
  cases henabled : a.isEnabled with
  | false => simp only [finish, henabled, Bool.not_false, if_true]
  | true =>
    obtain ⟨fault, hfirst, hsecond⟩ | ⟨h, k, hfirst, hsecond⟩ := hsame
    · simp [finish, henabled, hfirst, hsecond]
    · have hassigned : m'.assignRegisters h = m' := by
        rw [← hagain]
        simp only [finish, henabled, hfirst, Bool.not_true, Bool.false_eq_true, if_false]
        calc Method.assignRegisters { m.assignRegisters h with flow := g } h
            = { (m.assignRegisters h).assignRegisters h with flow := g } := rfl
          _ = { m.assignRegisters h with flow := g } := by
            rw [Method.assignRegisters_assignRegisters]
      simp [finish, henabled, hfirst, hsecond, hassigned]

theorem runPasses_unchanged_of_coincides (h : m.Coincides m') (hm : m.WellFormed)
    (hm' : m'.WellFormed) {passes : List Pass} (hp : (runPasses passes m).2.2 = false) :
    (runPasses passes m').2.2 = false := by
  induction passes with
  | nil => rfl
  | cons p rest ih =>
    cases p
    have hrun (m : Method) : (runPasses (.deadStoreElimination :: rest) m).2.2 =
        ((Pass.removeDeadStores m).2.2 || (runPasses rest (Pass.removeDeadStores m).1).2.2) := rfl
    rw [hrun, Bool.or_eq_false_iff] at hp ⊢
    obtain ⟨hpass, hrest⟩ := hp
    rw [removeDeadStores_of_unchanged hpass] at hrest
    have hpass' : (Pass.removeDeadStores m').2.2 = false := by
      unfold Pass.removeDeadStores at hpass ⊢
      rw [h.deadStores_eq hm hm']
      exact hpass
    rw [removeDeadStores_of_unchanged hpass']
    exact ⟨hpass', ih hrest⟩

theorem linked_optimize (hm : m.Linked) (passes : List Pass) :
    (optimize passes m).method.Linked := by
  have hpass (m : Method) (hm : m.Linked) : (Pass.removeDeadStores m).1.Linked :=
    (Method.Rehomed.refl hm).removeDeadStores.linked
  exact optimize_induction hpass (fun _ => Method.Linked.renumber) passes hm

theorem toSignature_optimize (passes : List Pass) (m : Method) :
    (optimize passes m).method.toSignature = m.toSignature := by
  refine optimize_induction (P := fun m' => m'.toSignature = m.toSignature)
    (fun m' hm' => ?_) (fun _ => id) passes rfl
  exact removeDeadStores_induction (P := fun m' => m'.toSignature = m.toSignature)
    (fun m' n h => (m'.toSignature_remove n).trans h) hm'

theorem linked_run (hm : m.Linked) (pipeline : Pipeline) : (pipeline.run m).method.Linked := by
  obtain ⟨table, hrun⟩ := run_retable pipeline m
  rw [hrun]
  exact (linked_optimize hm pipeline.passes).retable table

theorem toSignature_run (pipeline : Pipeline) (m : Method) :
    (pipeline.run m).method.toSignature = m.toSignature := by
  obtain ⟨table, hrun⟩ := run_retable pipeline m
  rw [hrun]
  exact toSignature_optimize pipeline.passes m

theorem run_run {pipeline : Pipeline} {g : FlowGraph} (hm : m.Linked)
    (hg : ({ (pipeline.run m).method with flow := g } : Method).Linked) :
    let m' : Method := { (pipeline.run m).method with flow := g }
    (pipeline.run m').method = m' ∧
      ((pipeline.run m').outcome.map fun _ => ()) = (pipeline.run m).outcome.map fun _ => () := by
  have hp := linked_optimize hm pipeline.passes
  have hsettled := runPasses_optimize pipeline.passes m
  obtain ⟨hmethod, houtcome⟩ := run_eq_finish pipeline m
  rw [houtcome]
  rw [hmethod] at hg ⊢
  generalize (optimize pipeline.passes m).method = p at hp hsettled hg ⊢
  have hedge (x y : Node) : g.Edge x y ↔ p.flow.Edge x y := by
    obtain ⟨table, hfinish, -⟩ := finish_retable pipeline.allocation p
    rw [hfinish] at hg
    exact (hg.edge_iff x y).trans (hp.edge_iff x y).symm
  have hsame : p.Coincides { (finish pipeline.allocation p).1 with flow := g } :=
    (sameVariables_finish hedge).toCoincides
  have hunchanged := runPasses_unchanged_of_coincides hsame hp.toWellFormed hg.toWellFormed hsettled
  have hoptimize : (optimize pipeline.passes
      { (finish pipeline.allocation p).1 with flow := g }).method =
      { (finish pipeline.allocation p).1 with flow := g } :=
    (runRounds_of_unchanged (p := { method := _ }) hunchanged).1
  obtain ⟨hmethod', houtcome'⟩ :=
    run_eq_finish pipeline { (finish pipeline.allocation p).1 with flow := g }
  have hagain := finish_finish hp.toWellFormed hg.toWellFormed hedge
  rw [hoptimize, hagain] at hmethod' houtcome'
  exact ⟨hmethod', houtcome'⟩

end Pipeline

theorem Method.Linked.exists_rebuildFlow {m : Method} (hm : m.Linked) :
    ∃ g, m.rebuildFlow = .ok { m with flow := g } ∧ ({ m with flow := g } : Method).Linked := by
  obtain ⟨g, hg, -⟩ := hm.exists_bodyFlow
  obtain ⟨hedge, hmirrored, -⟩ := bodyFlow_spec hm.body_nodup hg
  refine ⟨g, ?_, ⟨hm.body_nodup, hmirrored, fun x y h => ((hedge x y).1 h).source,
    fun x y h => ((hedge x y).1 h).target hm.label_target, hm.label_target, hm.jumps_declared⟩,
    hedge⟩
  rw [rebuildFlow, hg]
  rfl

namespace Compiler

variable {c c' : Compiler} {u : ClassUnit} {m : Method}

def Settles (s : Settings) (m : Method) : Prop :=
  (prepareRecorded s (prepareRecorded s m).method).method.withoutFlow =
      (prepareRecorded s m).method.withoutFlow ∧
    (prepareRecorded s (prepareRecorded s m).method).outcome = (prepareRecorded s m).outcome

theorem settles_of_linked (s : Settings) (hm : m.Linked) : Settles s m := by
  unfold Settles
  cases hplain : m.isConstructor with
  | true =>
    have hkept := prepareRecorded_constructor (s := s) hplain
    simp only [hkept, and_self]
  | false =>
    obtain ⟨g, hrebuild, hlinked⟩ := hm.exists_rebuildFlow
    obtain ⟨hmethod, houtcome⟩ := prepareRecorded_spec (s := s) hplain hrebuild
    obtain ⟨g', hrebuild', hlinked'⟩ :=
      (Pipeline.linked_run hlinked (.ofSettings s)).exists_rebuildFlow
    obtain ⟨hsame, hagain⟩ := Pipeline.run_run hlinked hlinked'
    have hsignature := Pipeline.toSignature_run (.ofSettings s) { m with flow := g }
    have hplain' : (prepareRecorded s m).method.isConstructor = false := by
      rw [hmethod]
      exact (congrArg Signature.isConstructor hsignature).trans hplain
    rw [← hmethod] at hrebuild'
    obtain ⟨hmethod', houtcome'⟩ := prepareRecorded_spec (s := s) hplain' hrebuild'
    rw [hmethod', houtcome', houtcome, hmethod, hsame, hagain]
    exact ⟨rfl, rfl⟩

theorem withoutFlow_of_settles (hs : c'.settings = c.settings)
    (hu : ∀ m ∈ u.methods, Settles c.settings m) :
    (c'.compile (c.compile u).unit).unit.withoutFlow = (c.compile u).unit.withoutFlow := by
  have hmethods : (u.methods.map fun m =>
        (prepareRecorded c.settings (prepareRecorded c.settings m).method).method.withoutFlow) =
      u.methods.map fun m => (prepareRecorded c.settings m).method.withoutFlow :=
    List.map_congr_left fun m hm => (hu m hm).1
  rw [unit_compile c', unit_compile c, hs]
  simp only [ClassUnit.withoutFlow, List.map_map, Function.comp_def, hmethods]

theorem findSome?_of_settles {l : List Method} {s : Settings} (hl : ∀ m ∈ l, Settles s m) :
    (l.findSome? fun m => fault? (prepareRecorded s (prepareRecorded s m).method)) =
      l.findSome? fun m => fault? (prepareRecorded s m) := by
  have hfault : ∀ m ∈ l, fault? (prepareRecorded s (prepareRecorded s m).method) =
      fault? (prepareRecorded s m) := fun m hm => by rw [fault?, fault?, (hl m hm).2]
  rw [← List.head?_filterMap, ← List.head?_filterMap, List.filterMap_congr hfault]

theorem compile_compile (hs : c'.settings = c.settings)
    (hu : ∀ m ∈ u.methods, ∃ signature entries m₀ table,
      Method.build signature entries = .ok m₀ ∧ m = { m₀ with table }) :
    let first := c.compile u
    let second := c'.compile first.unit
    second.outcome = first.outcome ∧ second.unit.withoutFlow = first.unit.withoutFlow := by
  have hsettles : ∀ m ∈ u.methods, Settles c.settings m := by
    intro m hm
    obtain ⟨signature, entries, m₀, table, hbuild, rfl⟩ := hu m hm
    exact settles_of_linked c.settings ((Method.Linked.of_build hbuild).retable table)
  have hunit := withoutFlow_of_settles hs hsettles
  have hfaults : ((c.compile u).unit.methods.findSome? fun m =>
        fault? (prepareRecorded c'.settings m)) =
      u.methods.findSome? fun m => fault? (prepareRecorded c.settings m) := by
    rw [unit_compile, List.findSome?_map, hs]
    exact findSome?_of_settles hsettles
  refine ⟨?_, hunit⟩
  rw [outcome_compile c', hfaults, ClassUnit.listing_of_withoutFlow hunit, ← outcome_compile]

def swerveEntries : List Entry :=
  [.instruction (.branch (.binary .lt (.var "n" .int) (.literal 0 .int)) "negative"),
    .instruction (.assign (.var "w" .int) (.single (.var "n" .int))),
    .instruction (.assign (.var "z" .int) (.single (.literal 7 .int))),
    .instruction (.ret (some (.var "z" .int))),
    .label "negative",
    .instruction (.ret (some (.var "n" .int)))]

def swerveSignature : Signature :=
  { name := "swerve", isStatic := true, parameters := [⟨"n", .int⟩], result := .int }

def swerve : Method :=
  { swerveSignature with
    code := (Method.codeOf swerveEntries).toArray
    body := [⟨2⟩, ⟨3⟩, ⟨4⟩, ⟨5⟩, ⟨6⟩]
    labels := [("negative", ⟨6⟩)]
    table := { entries := [("n", ⟨.int, some 0⟩), ("w", ⟨.int, some 1⟩), ("z", ⟨.int, some 2⟩)] }
    flow := ⟨#[⟨[⟨2⟩], []⟩, ⟨[], [⟨5⟩, ⟨6⟩]⟩, ⟨[⟨3⟩, ⟨6⟩], [⟨0⟩]⟩, ⟨[⟨4⟩], [⟨2⟩]⟩,
      ⟨[⟨5⟩], [⟨3⟩]⟩, ⟨[⟨1⟩], [⟨4⟩]⟩, ⟨[⟨1⟩], [⟨2⟩]⟩]⟩ }

def swerveUnit : ClassUnit where
  name := "Turns"
  methods := [{ swerve with table := (swerve.table.setRegister "z" 9).setRegister "n" 4 }]

def thrifty : Compiler := { settings := { optimize := true, allocation := .minimal } }

def waysOut (u : ClassUnit) : List (List Node) :=
  u.methods.map fun m => m.flow.successors ⟨2⟩

theorem compile_compile_swerve :
    Method.build swerveSignature swerveEntries = .ok swerve ∧
      let first := thrifty.compile swerveUnit
      let second := first.compiler.compile first.unit
      first.outcome.isOk = true ∧ second.outcome = first.outcome ∧
        second.unit.withoutFlow = first.unit.withoutFlow ∧
        waysOut first.unit = [[⟨6⟩, ⟨4⟩]] ∧ waysOut second.unit = [[⟨4⟩, ⟨6⟩]] := by
  have hbuild : Method.build swerveSignature swerveEntries = .ok swerve := by decide +kernel
  have hu : ∀ m ∈ swerveUnit.methods, ∃ signature entries m₀ table,
      Method.build signature entries = .ok m₀ ∧ m = { m₀ with table } :=
    List.forall_mem_singleton.2 ⟨swerveSignature, swerveEntries, swerve,
      (swerve.table.setRegister "z" 9).setRegister "n" 4, hbuild, rfl⟩
  obtain ⟨houtcome, hunit⟩ := compile_compile (thrifty.settings_compile swerveUnit) hu
  exact ⟨hbuild, by decide +kernel, houtcome, hunit, by decide +kernel, by decide +kernel⟩

end Compiler

end ClassLowering
