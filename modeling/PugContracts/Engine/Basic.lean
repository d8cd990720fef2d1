import PugContracts.Diagnostic.Remap
import PugContracts.Text.Lines

/-!
# Engines

An engine checks the types of a generated program and reports in the coordinates of the program. It
may write to the disk on the way, and it may fail as a whole.

Besides the compiler there is an engine that checks nothing, for runs that only look at structure,
and one that reports what it is told to.
-/

namespace PugContracts

/-- A type checker for generated programs. -/
structure Engine where
  /-- The name by which the cache tells engines apart. -/
  name : String
  /-- The file that the engine's diagnostics give for the program made from a template. -/
  programFile : Path → Path
  /-- Check a program. -/
  check : Disk → Program → Disk × Except Failure (List EngineDiagnostic)

namespace Engine

/-- The file of a program that is not written anywhere. -/
def besideTemplate (template : Path) : Path :=
  template.withExtension "ts"

/-- The engine that checks nothing. -/
def silent : Engine :=
  ⟨"none", besideTemplate, fun d _ => (d, .ok [])⟩

/-! ### Scripted checks -/

/-- What a scripted engine reports on the lines that hold a text. -/
structure Rule where
  /-- The text. -/
  needle : String
  /-- The number of the error. -/
  code : Nat
  /-- The message. -/
  message : String
  deriving DecidableEq, Repr

/-- The diagnostic of a rule for a line of a program. -/
def Rule.find? (rule : Rule) (file : Path) (number : Nat) (line : List Char) :
    Option EngineDiagnostic :=
  (Text.cutAt? rule.needle.toList line).map fun (before, _) =>
    ⟨file, number, Text.byteLength before + 1, some rule.code, .error, rule.message⟩

/-- What rules report on lines of which the first has the given number. -/
def applyRules (rules : List Rule) (file : Path) (number : Nat) :
    List (List Char) → List EngineDiagnostic
  | [] => []
  | line :: rest =>
    rules.filterMap (·.find? file number line) ++ applyRules rules file (number + 1) rest

/-- The engine that reports what its rules say, or always fails. -/
def scripted (rules : List Rule) (failure : Option String) : Engine where
  name := "scripted"
  programFile := besideTemplate
  check d program :=
    match failure with
    | some reason => (d, .error (.plain reason))
    | none =>
      (d, .ok (applyRules rules (besideTemplate program.template) 1
        (Text.lines program.source.toList)))

end Engine

end PugContracts
