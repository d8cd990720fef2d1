import PugContracts.Diagnostic.Basic
import PugContracts.Disk.Basic
import PugContracts.Program.LineMap

/-!
# From engine diagnostics to template errors

An engine reports in terms of the program it was given. A diagnostic for that program is moved to
the template line that the generated line stands for; a diagnostic for any other file, such as an
imported module, stays where it is.
-/

namespace PugContracts

/-- How severe a diagnostic is. -/
inductive Severity where
  /-- The program is wrong. -/
  | error
  /-- The program may be wrong. -/
  | warning
  deriving DecidableEq, Repr

/-- What an engine reports. -/
structure EngineDiagnostic where
  /-- The file. -/
  file : Path
  /-- The line in the file, counted from one. -/
  line : Nat
  /-- The column in the line, counted from one. -/
  column : Nat
  /-- The number of the error, if it can be told. -/
  code : Option Nat
  /-- How severe it is. -/
  severity : Severity
  /-- What is wrong. -/
  message : String
  deriving DecidableEq, Repr

namespace EngineDiagnostic

/-- Whether two paths mean the same file. -/
def sameFile (d : Disk) (p q : Path) : Bool :=
  p.same q || d.samePlace p q

/-- The place that a diagnostic points at, and its message there. -/
def target (d : Disk) (diagnostic : EngineDiagnostic) (program : Program) (programFile : Path) :
    Path × Option Nat × String :=
  if !sameFile d diagnostic.file programFile then
    (diagnostic.file, some diagnostic.line, diagnostic.message)
  else
    match program.origin? diagnostic.line with
    | some origin =>
      if origin.isContract then (program.template, none, diagnostic.message)
      else (origin.file, some origin.line, diagnostic.message)
    | none =>
      (program.template, none, "No mapping found for generated line " ++ toString diagnostic.line ++
        ": " ++ diagnostic.message)

/-- The template error for a diagnostic of a program that the engine knows as `programFile`. -/
def remap (d : Disk) (diagnostic : EngineDiagnostic) (program : Program) (programFile : Path) :
    TemplateError :=
  let (file, line, message) := diagnostic.target d program programFile
  ⟨.typeCheck, file, line, message, diagnostic.code⟩

/-- The template errors for all diagnostics that are not mere warnings. -/
def remapAll (d : Disk) (diagnostics : List EngineDiagnostic) (program : Program)
    (programFile : Path) : List TemplateError :=
  (diagnostics.filter (·.severity == .error)).map (·.remap d program programFile)

end EngineDiagnostic

end PugContracts
