import PugContracts.Proofs.Check.Scan
import PugContracts.Proofs.Disk.Write
import PugContracts.Proofs.Resolution.Own
import PugContracts.Proofs.Resolution.Replay

/-!
# What a scan finds

What a scan finds does not depend on what the checker has done before: the result that it records
for a template is `result`, and it leaves exactly the edges of `Records` for the template
(`scanFile_spec`). Both are functions of the settings, the shared locals and the disk. Of the disk,
only the template matters, the files that its directives lead to, and which of its modules are
missing (`result_congr`).

The engine is taken to be a function of the program (`Checks`).
-/

namespace PugContracts

namespace Checker

open Resolution

variable {checker : Checker} {verdict : Program → List TemplateError} {d d' : Disk}
  {template p q : Path} {source : String}

/-! ### Results -/

/-- The verdict of the engine is a function of the program, and it leaves the disk alone. -/
def Checks (engine : Engine) (verdict : Program → List TemplateError) : Prop :=
  ∀ d program, typeErrors engine d program = (d, verdict program)

/-- The contract of a template; absent if it cannot be read. -/
def contract? (checker : Checker) (d : Disk) (template : Path) : Option Contract :=
  (d.readText template).toOption.map fun source =>
    (Contract.extract source template checker.config.viewsRoot).1

/-- What comes of following the directives of a template, and the edges along which they lead. -/
def follow (checker : Checker) (d : Disk) (template : Path) : Resolution × DependencyGraph :=
  ofTemplate d .empty checker.config.viewsRoot template none

/-- The errors of a template, with an engine that is a function of the program. -/
def findings (checker : Checker) (verdict : Program → List TemplateError) (d : Disk)
    (template : Path) : List TemplateError :=
  match d.readText template with
  | .error e => [.ofFile .missingFile template ("cannot read template: " ++ e.message)]
  | .ok source =>
    let extracted := Contract.extract source template checker.config.viewsRoot
    let missing := (recordImports d .empty template extracted.1.imports).2
    let resolution := (checker.follow d template).1
    let program := resolution.tree.map fun tree =>
      Program.generate tree extracted.1 checker.shared
    extracted.2 ++ missing ++ resolution.errors ++ (program.map verdict).getD []

/-- The result that is recorded for a template. -/
def result (checker : Checker) (verdict : Program → List TemplateError) (d : Disk)
    (template : Path) : CacheEntry :=
  ⟨checker.findings verdict d template, checker.contract? d template, d.inputTime template,
    checker.engine.name, false⟩

/-- A scan of the template records an edge. -/
inductive Records (checker : Checker) (d : Disk) (template : Path) : Path → Path → Prop
  /-- It leads along a directive of the template or of a file that directives lead to. -/
  | directive {p q : Path} (hedge : (checker.follow d template).2.Edge p q) :
      Records checker d template p q
  /-- It leads from the template to a module that it imports. -/
  | module {contract : Contract} {record : Contract.Import} {file : Path}
      (hcontract : checker.contract? d template = some contract)
      (hrecord : record ∈ contract.imports) (hpath : record.isPath = true)
      (hfile : d.moduleFile? record.modulePath = some file) :
      Records checker d template template file.normalize
  /-- It leads from the template to the declaration of the shared locals. -/
  | shared {contract : Contract} {shared : SharedLocals}
      (hcontract : checker.contract? d template = some contract)
      (hshared : checker.shared = some shared) :
      Records checker d template template shared.importPath.normalize

theorem contract?_of_readText (hread : d.readText template = .ok source) :
    checker.contract? d template =
      some (Contract.extract source template checker.config.viewsRoot).1 := by
  rw [contract?, hread]
  rfl

/-- A template that cannot be read has no directives. -/
theorem not_edge_follow {e : DiskError} (htemplate : template.normalize = template)
    (hread : d.readText template = .error e) : ¬ (checker.follow d template).2.Edge p q := by
  have htext : textOf? d template.normalize none template.normalize = none := by
    rw [textOf?, if_pos rfl, htemplate, hread]
    rfl
  obtain ⟨error, -, hthrow, -⟩ := exists_throw_of_no_text checker.config.viewsRoot.normalize htext
  rw [follow, ofTemplate_eq, conclude_graph, hthrow]
  exact List.not_mem_nil

/-- The text of a template may as well be read from the disk. -/
theorem ofTemplate_of_readText {g : DependencyGraph} {viewsRoot : Path}
    (htemplate : template.normalize = template) (hread : d.readText template = .ok source) :
    ofTemplate d g viewsRoot template (some source) = ofTemplate d g viewsRoot template none := by
  rw [ofTemplate, ofTemplate, resolveRoot, resolveRoot, htemplate, hread]

theorem not_records (htemplate : template.normalize = template) {e : DiskError}
    (hread : d.readText template = .error e) : ¬ Records checker d template p q := by
  have hnone : ∀ contract, checker.contract? d template ≠ some contract := by
    intro contract h
    rw [contract?, hread] at h
    cases h
  intro h
  cases h with
  | directive hedge => exact not_edge_follow htemplate hread hedge
  | module hcontract => exact hnone _ hcontract
  | shared hcontract => exact hnone _ hcontract

theorem records_iff {contract : Contract}
    (hcontract : checker.contract? d template = some contract) :
    Records checker d template p q ↔
      p = template ∧ ((∃ record ∈ contract.imports, record.isPath = true ∧
          ∃ file, d.moduleFile? record.modulePath = some file ∧ q = file.normalize) ∨
        ∃ shared, checker.shared = some shared ∧ q = shared.importPath.normalize) ∨
          (checker.follow d template).2.Edge p q := by
  constructor
  · rintro (hedge | ⟨hsome, hrecord, hpath, hfile⟩ | ⟨-, hshared⟩)
    · exact Or.inr hedge
    · rw [hcontract] at hsome
      cases hsome
      exact Or.inl ⟨rfl, Or.inl ⟨_, hrecord, hpath, _, hfile, rfl⟩⟩
    · exact Or.inl ⟨rfl, Or.inr ⟨_, hshared, rfl⟩⟩
  · rintro (⟨rfl, ⟨record, hrecord, hpath, file, hfile, rfl⟩ | ⟨shared, hshared, rfl⟩⟩ | hedge)
    · exact .module hcontract hrecord hpath hfile
    · exact .shared hcontract hshared
    · exact .directive hedge

/-! ### Scans -/

/-- The graph before the directives of the template are followed. -/
def namedGraph (checker : Checker) (d : Disk) (template : Path) (contract : Contract) :
    DependencyGraph :=
  let graph := (recordImports d (checker.graph.clear template) template contract.imports).1
  match checker.shared with
  | some shared => graph.add template shared.importPath
  | none => graph

theorem edge_namedGraph {contract : Contract} (htemplate : template.normalize = template) :
    (checker.namedGraph d template contract).Edge p q ↔
      p ≠ template ∧ checker.graph.Edge p q ∨
        p = template ∧ ((∃ record ∈ contract.imports, record.isPath = true ∧
          ∃ file, d.moduleFile? record.modulePath = some file ∧ q = file.normalize) ∨
            ∃ shared, checker.shared = some shared ∧ q = shared.importPath.normalize) := by
  have himports : (recordImports d (checker.graph.clear template) template contract.imports).1.Edge
      p q ↔ p ≠ template ∧ checker.graph.Edge p q ∨ p = template ∧
        ∃ record ∈ contract.imports, record.isPath = true ∧
          ∃ file, d.moduleFile? record.modulePath = some file ∧ q = file.normalize := by
    rw [edge_recordImports_iff, DependencyGraph.edge_clear, htemplate]
  rw [namedGraph, and_or_left, ← or_assoc, ← himports]
  cases checker.shared with
  | none => simp
  | some shared =>
    simp only [Option.some.injEq, exists_eq_left']
    rw [DependencyGraph.edge_add, Prod.mk.injEq, htemplate, or_comm]

/-- Building a readable template comes to its contract and to what its directives come to, whatever
edges there are. -/
theorem build_spec (checker : Checker) (htemplate : template.normalize = template)
    (hread : d.readText template = .ok source) :
    let extracted := Contract.extract source template checker.config.viewsRoot
    ∃ graph, checker.build d template source =
        (⟨extracted.1, (checker.follow d template).1.tree,
          extracted.2 ++ (recordImports d .empty template extracted.1.imports).2 ++
            (checker.follow d template).1.errors⟩, { checker with graph := graph }) ∧
      ∀ p q, graph.Edge p q ↔
        (checker.namedGraph d template extracted.1).Edge p q ∨
          (checker.follow d template).2.Edge p q := by
  intro extracted
  have hbase : ∀ p q, (checker.namedGraph d template extracted.1).Edge p q ↔
      (checker.namedGraph d template extracted.1).Edge p q ∨ DependencyGraph.empty.Edge p q :=
    fun p q => (or_iff_left List.not_mem_nil).symm
  have hsame : Agrees d d
      (ofTemplate d .empty checker.config.viewsRoot template (some source)).2 := fun _ _ _ => rfl
  obtain ⟨hresolution, hedge⟩ := ofTemplate_replay template source hbase hsame
  have hmissing : (recordImports d (checker.graph.clear template) template
      extracted.1.imports).2 = (recordImports d .empty template extracted.1.imports).2 :=
    recordImports_congr fun _ _ _ => rfl
  have hnone : ofTemplate d .empty checker.config.viewsRoot template (some source) =
      checker.follow d template := ofTemplate_of_readText htemplate hread
  rw [hnone] at hresolution hedge
  refine ⟨_, ?_, hedge⟩
  rw [← hresolution, ← hmissing]
  rfl

theorem askEngine_of_checks
    (hengine : ∀ program, typeErrors checker.engine d program = (d, verdict program))
    (program : Option Program) :
    ∃ asked, checker.askEngine d program =
      (d, { checker with asked := asked }, (program.map verdict).getD []) := by
  cases program with
  | none => exact ⟨checker.asked, rfl⟩
  | some program =>
    refine ⟨program.template :: checker.asked, ?_⟩
    rw [askEngine, hengine program]
    rfl

/-- **What a scan does.** It records the result for the template, and the edges that lead from it
are replaced. -/
theorem scanFile_spec
    (hengine : ∀ program, typeErrors checker.engine d program = (d, verdict program))
    (htemplate : template.normalize = template) :
    ∃ graph asked, checker.scanFile d template =
        (d, { checker with
          graph := graph
          cache := (checker.cache.track d (graph.get template)).insert template
            (checker.result verdict d template)
          asked := asked }, checker.findings verdict d template) ∧
      ∀ p q, graph.Edge p q ↔
        p ≠ template ∧ checker.graph.Edge p q ∨ Records checker d template p q := by
  delta scanFile
  dsimp only
  rw [htemplate, result, findings]
  cases hread : d.readText template with
  | error e =>
    have hcontract : checker.contract? d template = none := by
      rw [contract?, hread]
      rfl
    refine ⟨checker.graph.clear template, checker.asked, ?_, fun p q => ?_⟩
    · dsimp only
      rw [DependencyGraph.get_clear, hcontract]
      rfl
    · rw [DependencyGraph.edge_clear, htemplate, or_iff_left (not_records htemplate hread)]
  | ok source =>
    obtain ⟨graph, hbuild, hedge⟩ := build_spec checker htemplate hread
    dsimp only
    rw [hbuild, contract?_of_readText hread]
    dsimp only
    have hchecks : ∀ program, typeErrors ({ checker with graph := graph } : Checker).engine d
        program = (d, verdict program) := hengine
    obtain ⟨asked, hask⟩ := askEngine_of_checks hchecks
      (Built.program ⟨_, (checker.follow d template).1.tree, _⟩ checker.shared)
    refine ⟨graph, asked, ?_, fun p q => ?_⟩
    · rw [hask]
      dsimp only [Built.program, trackInputs, record, Cache.record]
    · rw [hedge, edge_namedGraph htemplate, records_iff (contract?_of_readText hread), or_assoc]

/-! ### On another disk -/

/-- **What a scan finds on another disk** is the same if the template is the same there, what its
directives lead to, and which of its modules are missing. -/
theorem result_congr (htemplate : template.normalize = template)
    (hisFile : d.isFile template = true) (hfile : d'.file template = d.file template)
    (hagrees : Agrees d d' (checker.follow d template).2)
    (hmodules : ∀ contract, checker.contract? d template = some contract →
      ∀ record ∈ contract.imports, record.isPath = true →
        (d'.moduleFile? record.modulePath).isSome = (d.moduleFile? record.modulePath).isSome) :
    checker.result verdict d' template = checker.result verdict d template ∧
      ∀ p q, (checker.follow d' template).2.Edge p q ↔ (checker.follow d template).2.Edge p q := by
  have hread' : d'.readText template = d.readText template := by
    rw [Disk.readText, Disk.readText, hfile]
  have hcontract : checker.contract? d' template = checker.contract? d template := by
    rw [contract?, contract?, hread']
  have htime : d'.inputTime template = d.inputTime template :=
    Disk.inputTime_congr hisFile hfile
  rw [result, result, hcontract, htime, findings, findings, hread']
  cases hread : d.readText template with
  | error e =>
    refine ⟨rfl, fun p q => ?_⟩
    exact iff_of_false (not_edge_follow htemplate (hread'.trans hread))
      (not_edge_follow htemplate hread)
  | ok source =>
    have hbase : ∀ p q, DependencyGraph.empty.Edge p q ↔ False ∨ DependencyGraph.empty.Edge p q :=
      fun p q => (false_or _).symm.to_iff
    have htext : ofTemplate d .empty checker.config.viewsRoot template (some source) =
        checker.follow d template := ofTemplate_of_readText htemplate hread
    have htext' : ofTemplate d' .empty checker.config.viewsRoot template (some source) =
        checker.follow d' template := ofTemplate_of_readText htemplate (hread'.trans hread)
    have hmissing : (recordImports d' .empty template
        (Contract.extract source template checker.config.viewsRoot).1.imports).2 =
        (recordImports d .empty template
          (Contract.extract source template checker.config.viewsRoot).1.imports).2 :=
      recordImports_congr (hmodules _ (contract?_of_readText hread))
    rw [← htext] at hagrees ⊢
    rw [← htext']
    obtain ⟨hresolution, hedge⟩ := ofTemplate_replay template source hbase hagrees
    refine ⟨?_, fun p q => (hedge p q).trans (false_or _).to_iff⟩
    dsimp only
    rw [hresolution, hmissing]

end Checker

end PugContracts
