import PugContracts.Cache.Document
import PugContracts.Config.Basic
import PugContracts.Engine.Basic
import PugContracts.Program.Generate
import PugContracts.Resolution.Basic

/-!
# Checking templates

A `Checker` owns what one run needs: the settings, the dependency graph, the cache and an engine. A
template goes through

```text
contract -> resolved tree -> program -> engine -> errors of the template
```

and what was found on the way is recorded in the cache. A problem of a template never stops a run;
only a project that cannot be checked at all does.
-/

namespace PugContracts

/-- What one run works with. -/
structure Checker where
  /-- The settings. -/
  config : Config
  /-- Which files depend on which. -/
  graph : DependencyGraph
  /-- The results so far. -/
  cache : Cache
  /-- The engine. -/
  engine : Engine
  /-- The shared locals, if the project has any. -/
  shared : Option SharedLocals
  /-- Whether results may be taken from the cache. -/
  reuse : Bool
  /-- The templates whose programs the engine was asked to check, the last one first. -/
  asked : List Path

namespace Checker

/-- The shared locals that the settings name. -/
def loadShared (d : Disk) (config : Config) : Except Failure (Option SharedLocals) :=
  match config.sharedLocals with
  | none => .ok none
  | some shared => (SharedLocals.load d shared.importPath shared.typeName).map some

/-- A checker with an empty cache. -/
def new (d : Disk) (config : Config) (engine : Engine) : Except Failure Checker :=
  (loadShared d config).map fun shared =>
    ⟨config, .empty, .empty, engine, shared, true, []⟩

/-- The checker without use of cached results. -/
def withoutCache (checker : Checker) : Checker :=
  { checker with reuse := false }

/-- Take over the cache that was saved, with stale results flagged. One that cannot be read is
ignored. -/
def loadCache (checker : Checker) (d : Disk) : Checker :=
  if checker.reuse then
    match CacheDocument.load d checker.config.cachePath with
    | .ok (some (cache, graph)) =>
      let (cache, graph, _) := cache.sweep d graph
      { checker with cache := cache, graph := graph }
    | .ok none | .error _ => checker
  else checker

/-- Save the cache. -/
def saveCache (checker : Checker) (d : Disk) : Disk × Except Failure Unit :=
  CacheDocument.save d checker.cache checker.graph checker.config.cachePath

/-! ### Building -/

/-- The error for an import whose module is not there. -/
def missingModule (record : Contract.Import) : TemplateError :=
  .onLine .missingFile record.file record.line
    ("cannot find module `" ++ record.source ++ "` (looked for " ++ record.modulePath.text ++ ")")

/-- Record an edge to the module of each import that is given by a path. -/
def recordImports (d : Disk) (graph : DependencyGraph) (template : Path) :
    List Contract.Import → DependencyGraph × List TemplateError
  | [] => (graph, [])
  | record :: rest =>
    if record.isPath then
      match d.moduleFile? record.modulePath with
      | some file => recordImports d (graph.add template file) template rest
      | none =>
        let (graph, errors) := recordImports d graph template rest
        (graph, missingModule record :: errors)
    else recordImports d graph template rest

/-- A template before its types are checked. -/
structure Built where
  /-- The contract. -/
  contract : Contract
  /-- The resolved tree, if there is one. -/
  tree : Option (List Template.Node)
  /-- What is wrong with the structure. -/
  errors : List TemplateError

/-- Extract the contract of a template and resolve it. The graph then holds what the template
depends on, and nothing of what it depended on before. -/
def build (checker : Checker) (d : Disk) (template : Path) (source : String) : Built × Checker :=
  let viewsRoot := checker.config.viewsRoot
  let (contract, faults) := Contract.extract source template viewsRoot
  let (graph, missing) :=
    recordImports d (checker.graph.clear template) template contract.imports
  let graph :=
    match checker.shared with
    | some shared => graph.add template shared.importPath
    | none => graph
  let (resolution, graph) := Resolution.ofTemplate d graph viewsRoot template (some source)
  (⟨contract, resolution.tree, faults ++ missing ++ resolution.errors⟩,
    { checker with graph := graph })

/-- The program of a template, if it has a resolved tree. -/
def Built.program (built : Built) (shared : Option SharedLocals) : Option Program :=
  built.tree.map fun tree => Program.generate tree built.contract shared

/-! ### Scanning -/

/-- The error for an engine that fails as a whole. -/
def engineFailure (engine : Engine) (template : Path) (failure : Failure) : TemplateError :=
  .ofFile .engine template (engine.name ++ " failed: " ++ failure.message)

/-- Let an engine check a program. -/
def typeErrors (engine : Engine) (d : Disk) (program : Program) : Disk × List TemplateError :=
  match engine.check d program with
  | (d, .ok diagnostics) =>
    (d, EngineDiagnostic.remapAll d diagnostics program (engine.programFile program.template))
  | (d, .error failure) => (d, [engineFailure engine program.template failure])

/-- Check the program of a template, if there is one, and remember that the engine was asked. -/
def askEngine (checker : Checker) (d : Disk) : Option Program →
    Disk × Checker × List TemplateError
  | none => (d, checker, [])
  | some program =>
    let (d, errors) := typeErrors checker.engine d program
    (d, { checker with asked := program.template :: checker.asked }, errors)

/-- Record the result for a template in the cache. -/
def record (checker : Checker) (d : Disk) (template : Path) (errors : List TemplateError)
    (contract : Option Contract) : Checker :=
  { checker with
    cache := checker.cache.record d template checker.engine.name errors contract }

/-- Remember the times of what a template depends on. -/
def trackInputs (checker : Checker) (d : Disk) (template : Path) : Checker :=
  { checker with cache := checker.cache.track d (checker.graph.get template) }

/-- Check one template and record the result. -/
def scanFile (checker : Checker) (d : Disk) (path : Path) :
    Disk × Checker × List TemplateError :=
  let template := path.normalize
  match d.readText template with
  | .error e =>
    let errors := [.ofFile .missingFile template ("cannot read template: " ++ e.message)]
    let checker := { checker with graph := checker.graph.clear template }
    (d, checker.record d template errors none, errors)
  | .ok source =>
    let (built, checker) := checker.build d template source
    let (d, checker, typeErrors) := checker.askEngine d (built.program checker.shared)
    let errors := built.errors ++ typeErrors
    (d, (checker.trackInputs d template).record d template errors (some built.contract), errors)

/-- Scan those of some templates that are not up to date. -/
def scanNeeded (checker : Checker) (d : Disk) : List Path → Disk × Checker × List Path
  | [] => (d, checker, [])
  | template :: rest =>
    if checker.reuse && !checker.cache.needs template checker.engine.name then
      checker.scanNeeded d rest
    else
      let (d, checker, _) := checker.scanFile d template
      let (d, checker, processed) := checker.scanNeeded d rest
      (d, checker, template :: processed)

/-- What came of checking a set of templates. -/
structure Report where
  /-- The errors of each template, in the order of paths. -/
  results : List (Path × List TemplateError)
  /-- The templates that were not taken from the cache. -/
  processed : List Path
  deriving DecidableEq, Repr

namespace Report

/-- The number of templates. -/
def templateCount (report : Report) : Nat :=
  report.results.length

/-- All errors. -/
def errors (report : Report) : List TemplateError :=
  report.results.flatMap Prod.snd

/-- The number of errors. -/
def errorCount (report : Report) : Nat :=
  report.errors.length

/-- The number of templates with errors. -/
def failedCount (report : Report) : Nat :=
  (report.results.filter fun result => !result.2.isEmpty).length

/-- Whether there are errors. -/
def hasErrors (report : Report) : Bool :=
  report.errorCount > 0

end Report

/-- The errors that are recorded for a template. -/
def recorded (checker : Checker) (template : Path) : List TemplateError :=
  match checker.cache.find? template with
  | some entry => entry.errors
  | none => []

/-- Check all templates below the given roots, or below those of the settings if none are given. -/
def scanAll (checker : Checker) (d : Disk) (roots : List Path) :
    Disk × Checker × Except Failure Report :=
  let roots := if roots.isEmpty then checker.config.templatePaths else roots
  match d.findTemplates roots with
  | .error failure => (d, checker, .error failure)
  | .ok [] => (d, checker, .error (.run (.noTemplates (roots.map Path.text))))
  | .ok templates =>
    let (d, checker, processed) := checker.scanNeeded d templates
    let results := templates.map fun template => (template, checker.recorded template)
    (d, checker, .ok ⟨results, processed⟩)

/-! ### Generating -/

/-- A template and its program. -/
structure Generated where
  /-- The resolved tree, if there is one. -/
  tree : Option (List Template.Node)
  /-- The program, if there is a tree. -/
  program : Option Program
  /-- What is wrong with the structure. -/
  errors : List TemplateError

/-- Generate the program of a template. Nothing is checked or recorded in the cache. -/
def generate (checker : Checker) (d : Disk) (path : Path) : Checker × Except Failure Generated :=
  let template := path.normalize
  if !Contract.isTemplatePath template then (checker, .error (.run (.notATemplate template)))
  else
    match d.readText template with
    | .error e =>
      (checker, .error (Disk.failing ("Failed to read template: " ++ template.text) e))
    | .ok source =>
      let (built, checker) := checker.build d template source
      (checker, .ok ⟨built.tree, built.program checker.shared, built.errors⟩)

/-! ### Changes -/

/-- Bring the result for the file that has changed up to date: a template is scanned if it is there,
and evicted if not. -/
def refresh (checker : Checker) (d : Disk) (file : Path) : Disk × Checker × List Path :=
  if !Contract.isTemplatePath file then (d, checker, [])
  else if d.isFile file then
    let (d, checker, _) := checker.scanFile d file
    (d, checker, [file])
  else if (checker.cache.find? file).isSome then
    (d, { checker with
      cache := checker.cache.erase file, graph := checker.graph.clear file }, [])
  else (d, checker, [])

/-- Scan those of some dependents that are there. All of them are stale before. -/
def refreshDependents (checker : Checker) (d : Disk) : List Path → Disk × Checker × List Path
  | [] => (d, checker, [])
  | file :: rest =>
    let checker := { checker with cache := checker.cache.markStale file }
    if d.isFile file then
      let (d, checker, _) := checker.scanFile d file
      let (d, checker, processed) := checker.refreshDependents d rest
      (d, checker, file :: processed)
    else checker.refreshDependents d rest

/-- Bring all results up to date after a file has changed: that of the file, if it is a template,
and those of all that depended on it before. The templates that were scanned are answered. -/
def notifyChanged (checker : Checker) (d : Disk) (path : Path) : Disk × Checker × List Path :=
  let file := path.normalize
  let dependents := checker.graph.dependentsOf file
  let (d, checker, first) := checker.refresh d file
  let (d, checker, more) := checker.refreshDependents d dependents
  (d, checker, first ++ more)

end Checker

end PugContracts
