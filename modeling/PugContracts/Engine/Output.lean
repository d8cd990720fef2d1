import PugContracts.Diagnostic.Remap
import PugContracts.Text.Decimal
import PugContracts.Text.Lines

/-!
# Compiler output

A compiler prints one line for each diagnostic, `file(line,column): error TScode: message`. An
indented line continues the message before it; any other line is no diagnostic.
-/

namespace PugContracts.Engine

/-- A run of digits at the start of a text, and the text after it. -/
def digits? (cs : List Char) : Option (List Char × List Char) :=
  let digits := cs.takeWhile Text.isDecimalDigit
  if digits.isEmpty then none else some (digits, cs.dropWhile Text.isDecimalDigit)

/-- The word that a diagnostic's severity is printed as, and the text after it. -/
def severity? (cs : List Char) : Option (Severity × List Char) :=
  ((Text.afterPrefix? "error".toList cs).map (Severity.error, ·)).orElse fun _ =>
    (Text.afterPrefix? "warning".toList cs).map (Severity.warning, ·)

/-- What a diagnostic line holds besides the file. -/
structure Finding where
  /-- The digits of the line. -/
  line : List Char
  /-- The digits of the column. -/
  column : List Char
  /-- How severe it is. -/
  severity : Severity
  /-- The digits of the number. -/
  code : List Char
  /-- The message. -/
  message : List Char
  deriving DecidableEq, Repr

/-- Read a diagnostic from its opening bracket on. -/
def Finding.read? (cs : List Char) : Option Finding := do
  let (line, cs) ← digits? (← Text.afterPrefix? ['('] cs)
  let (column, cs) ← digits? (← Text.afterPrefix? [','] cs)
  let (severity, cs) ← severity? (← Text.afterPrefix? "): ".toList cs)
  let (code, cs) ← digits? (← Text.afterPrefix? " TS".toList cs)
  let message ← Text.afterPrefix? ": ".toList cs
  return ⟨line, column, severity, code, message⟩

/-- The file and the rest of a diagnostic line. The file is not empty and ends at the first bracket
from which on the line can be read. -/
def cutFile? : List Char → Option (List Char × Finding)
  | [] => none
  | c :: rest =>
    match Finding.read? rest with
    | some finding => some ([c], finding)
    | none => (cutFile? rest).map fun (file, finding) => (c :: file, finding)

/-- A number too large for a line or a column is unknown, and so is one in digits of another
script. -/
def positionLimit : Nat := 0x10000000000000000

/-- The limit for the numbers of errors. -/
def codeLimit : Nat := 0x100000000

/-- The diagnostic on one line of output. -/
def diagnostic? (base : Path) (line : List Char) : Option EngineDiagnostic :=
  (cutFile? line).map fun (file, finding) =>
    { file := (Path.mk (String.ofList file)).absolutize base
      line := (Text.readBelow? positionLimit finding.line).getD 0
      column := (Text.readBelow? positionLimit finding.column).getD 0
      code := Text.readBelow? codeLimit finding.code
      severity := finding.severity
      message := String.ofList finding.message }

/-- A diagnostic with a further line of its message. -/
def continued (diagnostic : EngineDiagnostic) (line : List Char) : EngineDiagnostic :=
  { diagnostic with
    message := diagnostic.message ++ String.ofList ('\n' :: Text.trimEnd line) }

/-- The diagnostics with one more line of output; the last diagnostic stands first. -/
def addLine (base : Path) (found : List EngineDiagnostic) (line : List Char) :
    List EngineDiagnostic :=
  match diagnostic? base line, found with
  | some diagnostic, _ => diagnostic :: found
  | none, last :: others => if line.head? = some ' ' then continued last line :: others else found
  | none, [] => []

/-- The diagnostics in the output of a compiler that was run in the directory `base`. -/
def readOutput (output : String) (base : Path) : List EngineDiagnostic :=
  ((Text.lines output.toList).foldl (addLine base) []).reverse

end PugContracts.Engine
