import PugContracts.Engine.Basic
import PugContracts.Engine.Output
import PugContracts.Json.Value

/-!
# The compiler as an engine

The compiler is run once for each program, in the directory of the project. The program is written
to the directory for temporary files, next to a configuration that extends the one of the project,
so that a template is checked under the same settings as the code around it.
-/

namespace PugContracts.Engine

/-- A compiler and where it works. -/
structure Compiler where
  /-- The program that is run. -/
  executable : Path
  /-- The directory of the project. -/
  project : Path
  /-- The directory for generated programs. -/
  temporary : Path
  /-- The configuration of the project. -/
  configuration : Option Path
  deriving DecidableEq, Repr

namespace Compiler

/-- The name of the compiler. -/
def name : String := "tsc"

/-- A compiler for a project; a configuration that does not exist is left out. -/
def ofProject (d : Disk) (executable project temporary : Path) (configuration : Option Path) :
    Compiler :=
  ⟨executable, project.normalize, temporary.normalize,
    (configuration.filter d.isFile).map Path.normalize⟩

/-- The compiler that is installed in a project. -/
def executableIn (project : Path) : Path :=
  ((project.child "node_modules").child ".bin").child name

/-- The compiler for a project, if one is installed there. -/
def discover (d : Disk) (project temporary : Path) (configuration : Option Path) :
    Except Failure Compiler :=
  let executable := executableIn project
  if d.isFile executable then .ok (ofProject d executable project temporary configuration)
  else .error (.run (.engineNotFound name))

/-! ### Files -/

/-- A character that stays in the name of a program's file. -/
def isFileNameChar (c : Char) : Bool :=
  c.isAlphanum || c == '-' || c == '_' || c == '.'

/-- The file of the program made from a template: its path in the project on one level. -/
def programFile (compiler : Compiler) (template : Path) : Path :=
  let relative := (template.after? compiler.project).getD template
  let flat := relative.text.toList.map fun c => if isFileNameChar c then c else '_'
  compiler.temporary.child (String.ofList (flat.dropWhile (· == '_')) ++ ".ts")

/-- The file of the configuration for a program. -/
def configurationFile (compiler : Compiler) (program : Path) : Path :=
  compiler.temporary.child (program.stem ++ ".tsconfig.json")

/-- The configuration for a program. -/
def configurationFor (compiler : Compiler) (program : Path) : Json.Value :=
  let options := [("noEmit", .truth true), ("noUnusedLocals", .truth false),
    ("noUnusedParameters", .truth false)]
  let files := [("files", .list [.text program.text]), ("include", .list [])]
  match compiler.configuration with
  | some base =>
    .object ([("compilerOptions", .object options), ("extends", .text base.text)] ++ files)
  | none =>
    .object (("compilerOptions", .object (options ++ [("strict", .truth true)])) :: files)

/-! ### Running -/

/-- The arguments of a run. -/
def arguments (configuration : Path) : List String :=
  ["--noEmit", "--pretty", "false", "-p", configuration.text]

/-- Run the compiler with a configuration. The program is run in the directory of the project; it is
the invocation that the disk remembers. -/
def run (compiler : Compiler) (d : Disk) (configuration : Path) : Disk × Except DiskError Output :=
  match d.entry compiler.project with
  | .error e => (d, .error e)
  | .ok (.file _) => (d, .error .notDirectory)
  | .ok .directory =>
    match d.file compiler.executable with
    | .error .isDirectory => (d, .error .permissionDenied)
    | .error e => (d, .error e)
    | .ok file =>
      match file.tool with
      | some output =>
        ({ d with lastInvocation := some ⟨compiler.project, arguments configuration⟩ }, .ok output)
      | none => (d, .error .permissionDenied)

/-- What an output means: its diagnostics, or that the compiler failed without one. -/
def outcome (compiler : Compiler) (output : Output) : Except Failure (List EngineDiagnostic) :=
  let diagnostics := readOutput output.stdout compiler.project
  if output.code ≠ 0 && diagnostics.isEmpty then
    let combined := Text.trim output.stdout.toList ++ Text.trim output.stderr.toList
    .error (.run (.engineFailed (some output.code) (String.ofList combined)))
  else .ok diagnostics

/-- Check a program. -/
def check (compiler : Compiler) (d : Disk) (program : Program) :
    Disk × Except Failure (List EngineDiagnostic) :=
  let file := compiler.programFile program.template
  match d.atomicWrite file program.source with
  | (d, .error failure) =>
    (d, .error (failure.within ("Failed to write generated program for " ++ program.template.text)))
  | (d, .ok ()) =>
    let configuration := compiler.configurationFile file
    match d.atomicWrite configuration (compiler.configurationFor file).print with
    | (d, .error failure) => (d, .error failure)
    | (d, .ok ()) =>
      match compiler.run d configuration with
      | (d, .error e) =>
        (d, .error (Disk.failing ("Failed to execute " ++ compiler.executable.text) e))
      | (d, .ok output) => (d, compiler.outcome output)

end Compiler

/-- The compiler as an engine. -/
def ofCompiler (compiler : Compiler) : Engine :=
  ⟨Compiler.name, compiler.programFile, compiler.check⟩

end PugContracts.Engine
