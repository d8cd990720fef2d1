import PugContracts.Check.Checker
import PugContracts.Command.Arguments
import PugContracts.Diagnostic.Report
import PugContracts.Engine.Compiler
import PugContracts.Graph.Tree
import PugContracts.Template.Outline

/-!
# Running a command

Each command is a function from the disk to the disk and an `Outcome`: what is printed, the code to
exit with, and the failure that stopped the command, if one did. A project with errors is no
failure; the command then exits with code 1 after printing them.
-/

namespace PugContracts.Command

open Json

/-- What came of a command. -/
structure Outcome where
  /-- The code to exit with. -/
  code : Nat
  /-- What is printed. -/
  stdout : String
  /-- What is printed as errors. -/
  stderr : String
  /-- What stopped the command. -/
  failure : Option Failure
  deriving DecidableEq, Repr

namespace Outcome

/-- A command that did what it was asked for. -/
def printed (text : String) : Outcome :=
  ⟨0, text, "", none⟩

/-- A command that was stopped by a failure. -/
def stopped (failure : Failure) : Outcome :=
  ⟨1, "", (FailureReport.ofFailure failure).printed, some failure⟩

/-- A command that may have been stopped. -/
def ofExcept : Except Failure Outcome → Outcome
  | .ok outcome => outcome
  | .error failure => stopped failure

end Outcome

/-- Errors as they are printed, with an empty line after each. -/
def printErrors (d : Disk) (cwd : Path) (errors : List TemplateError) : String :=
  String.join (errors.map fun error => error.report d cwd ++ "\n")

/-! ### Checking -/

/-- A report for a program. -/
def reportValue (report : Checker.Report) : Value :=
  .object [("templates", .count report.templateCount), ("errors", .count report.errorCount),
    ("failed", .count report.failedCount), ("reprocessed", .count report.processed.length),
    ("results", .listOf (fun (template, errors) =>
      .object [("template", CacheDocument.ofPath template),
        ("errors", .listOf CacheDocument.ofError errors)]) report.results)]

/-- A report in a format. -/
def printReport (d : Disk) (cwd : Path) (report : Checker.Report) : Format → String
  | .json => (reportValue report).print ++ "\n"
  | .text =>
    printErrors d cwd report.errors ++
      summary report.templateCount report.errorCount report.failedCount ++ "\n"

/-- The engine of a run. -/
def chooseEngine (d : Disk) (config : Config) (checkTypes : Bool) : Except Failure Engine :=
  if checkTypes then
    (Engine.Compiler.discover d config.projectPath config.tmpDir (config.effectiveTsconfig d)).map
      Engine.ofCompiler
  else .ok .silent

/-- The checker of a run that checks templates. -/
def prepareCheck (d : Disk) (config : Config) (checkTypes useCache : Bool) :
    Except Failure Checker := do
  config.validate d
  let checker ← Checker.new d config (← chooseEngine d config checkTypes)
  return if useCache then checker.loadCache d else checker.withoutCache

/-- Check templates. -/
def check (d : Disk) (config : Config) (cwd : Path) (paths : List Path)
    (checkTypes useCache : Bool) (format : Format) : Disk × Outcome :=
  let config :=
    if paths.isEmpty then config
    else { config with templatePaths := paths.map (·.absolutize cwd) }
  match prepareCheck d config checkTypes useCache with
  | .error failure => (d, .stopped failure)
  | .ok checker =>
    match checker.scanAll d [] with
    | (d, _, .error failure) => (d, .stopped failure)
    | (d, checker, .ok report) =>
      let printed := printReport d cwd report format
      let d := if useCache then (checker.saveCache d).1 else d
      (d, ⟨if report.hasErrors then 1 else 0, printed, "", none⟩)

/-! ### Generating -/

/-- The resolved tree, if it is to be printed. -/
def printTree (generated : Checker.Generated) : String :=
  match generated.tree with
  | some nodes => "Resolved tree:\n" ++ Template.outline nodes ++ "\n"
  | none => ""

/-- Print the program of a template. -/
def generate (d : Disk) (config : Config) (cwd file : Path) (tree raw : Bool) :
    Except Failure Outcome := do
  let checker ← Checker.new d config .silent
  let generated ← (checker.withoutCache.generate d (file.absolutize cwd)).2
  let errors := printErrors d cwd generated.errors
  let code := if generated.errors.isEmpty then 0 else 1
  let outline := if tree then printTree generated else ""
  match generated.program with
  | none =>
    return ⟨code, outline, errors ++ "✗ no program generated for " ++ file.text ++ "\n", none⟩
  | some program =>
    let source :=
      if raw then program.source
      else (if tree then "Program:\n" else "") ++ program.annotated cwd
    return ⟨code, outline ++ source, errors, none⟩

/-! ### Dependencies -/

/-- What a template depends on and what depends on it. -/
structure Neighbourhood where
  /-- The template. -/
  template : Path
  /-- What it depends on. -/
  dependencies : List Path
  /-- What depends on it. -/
  dependents : List Path
  /-- The cycles of the whole project. -/
  cycles : List (List Path)
  deriving DecidableEq, Repr

/-- The neighbourhood for a program. -/
def Neighbourhood.value (n : Neighbourhood) : Value :=
  .object [("template", CacheDocument.ofPath n.template),
    ("dependencies", .listOf CacheDocument.ofPath n.dependencies),
    ("dependents", .listOf CacheDocument.ofPath n.dependents),
    ("cycles", .listOf (.listOf CacheDocument.ofPath) n.cycles)]

/-- The neighbourhood for a reader. -/
def Neighbourhood.text (n : Neighbourhood) (graph : DependencyGraph) (cwd : Path) : String :=
  let dependents := n.dependents.map fun file => "  " ++ file.shownFrom cwd ++ "\n"
  let cycles := n.cycles.map fun members =>
    "\ncycle: " ++ " -> ".intercalate (members.map (·.shownFrom cwd)) ++ "\n"
  graph.toTree n.template cwd ++
    (if dependents.isEmpty then "" else "\nDependents:\n" ++ String.join dependents) ++
    String.join cycles

/-- The graph of a project in which `file` has been scanned too. No types are checked. -/
def projectGraph (d : Disk) (checker : Checker) (file : Path) : DependencyGraph :=
  let (d, checker, _) := checker.scanAll d []
  if (checker.cache.find? file).isSome then checker.graph
  else (checker.scanFile d file).2.1.graph

/-- Show what a template depends on and what depends on it. -/
def deps (d : Disk) (config : Config) (cwd file : Path) (format : Format) :
    Except Failure Outcome :=
  let file := (file.absolutize cwd).normalize
  if !Contract.isTemplatePath file then .error (.run (.notATemplate file))
  else do
    let checker ← Checker.new d config .silent
    let graph := projectGraph d checker.withoutCache file
    let n : Neighbourhood :=
      ⟨file, graph.dependenciesOf file, graph.dependentsOf file, graph.cycles⟩
    return .printed <|
      match format with
      | .json => n.value.print ++ "\n"
      | .text => n.text graph cwd

/-! ### The cache -/

/-- Remove the cache. -/
def clearCache (d : Disk) (config : Config) : Disk × Outcome :=
  let file := config.cachePath
  if d.holds file then
    match d.removeFile file with
    | .ok d => (d, .printed ("✓ Cleared cache at " ++ file.text ++ "\n"))
    | .error e =>
      (d, .stopped (Disk.failing ("Failed to remove cache file: " ++ file.text) e))
  else (d, .printed ("No cache at " ++ file.text ++ "\n"))

/-- Describe the cache. -/
def cacheInfo (d : Disk) (config : Config) : Except Failure Outcome := do
  let file := config.cachePath
  match ← CacheDocument.load d file with
  | none => return .printed ("No cache at " ++ file.text ++ "\n")
  | some (cache, graph) =>
    let (cache, graph, evicted) := cache.sweep d graph
    return .printed
      ("Parse result cache\n" ++
        "  Location:   " ++ file.text ++ "\n" ++
        "  Templates:  " ++ toString cache.size ++ "\n" ++
        "  Stale:      " ++ toString cache.staleFiles.length ++ "\n" ++
        "  Deleted:    " ++ toString evicted.length ++ "\n" ++
        "  Errors:     " ++ toString cache.errorCount ++ "\n" ++
        "  Edges:      " ++ toString graph.edgeCount ++ "\n")

/-! ### Commands -/

/-- Do what a command line asks for, in the directory `cwd`. -/
def runTask (d : Disk) (config : Config) (cwd : Path) : Task → Disk × Outcome
  | .check paths checkTypes useCache format => check d config cwd paths checkTypes useCache format
  | .generate file tree raw => (d, .ofExcept (generate d config cwd file tree raw))
  | .deps file format => (d, .ofExcept (deps d config cwd file format))
  | .clearCache => clearCache d config
  | .cacheInfo => (d, .ofExcept (cacheInfo d config))

/-- Load the settings and do what a command line asks for. -/
def Request.run (request : Request) (d : Disk) (cwd : Path) : Disk × Outcome :=
  match Config.load d request.config cwd with
  | .error failure => (d, .stopped failure)
  | .ok config => runTask d config cwd request.task

end PugContracts.Command
