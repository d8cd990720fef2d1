import PugContracts.Diagnostic.Basic
import PugContracts.Disk.Basic
import PugContracts.Text.Lines

/-!
# Reports

How template errors are shown to a user: each with the line it points at, if that can be read, and
with a hint for the most common numbers.
-/

namespace PugContracts

/-- What the most common error numbers mean. -/
def describeCode? (code : Nat) : Option String :=
  match code with
  | 2304 => some "a name is used that is not in scope; declare it in the template's expect shape"
  | 2322 => some "a value does not match the declared type"
  | 2339 => some "a property is read that the declared type does not have"
  | 2345 => some "an argument does not match the parameter type"
  | 2551 | 2552 => some "a name or property looks like a typo of an existing one"
  | 2693 => some "a type is used where a value is expected"
  | 7006 => some "a parameter has an implicit any type"
  | 7031 => some "a destructured binding has an implicit any type"
  | 7053 => some "an index expression has an implicit any type"
  | _ => none

namespace TemplateError

/-- A line of a file, without trailing blanks. -/
def sourceLine? (d : Disk) (file : Path) (line : Nat) : Option String :=
  match d.readText file with
  | .error _ => none
  | .ok text =>
    if line = 0 then none
    else (Text.lines text.toList)[line - 1]?.map fun cs => String.ofList (Text.trimEnd cs)

/-- The line that the error points at, if it can be read. -/
def snippet (d : Disk) (error : TemplateError) : String :=
  match error.line with
  | none => ""
  | some line =>
    match sourceLine? d error.file line with
    | none => ""
    | some text => "  " ++ toString line ++ " | " ++ text ++ "\n"

/-- What the number of the error means, if it is known. -/
def hint (error : TemplateError) : String :=
  match error.code.bind describeCode? with
  | none => ""
  | some description => "  hint: " ++ description ++ "\n"

/-- The error as shown in the directory `base`. -/
def report (d : Disk) (error : TemplateError) (base : Path) : String :=
  place (error.file.shownFrom base) error.line ++ " " ++ error.headline ++ " " ++ error.message ++
    "\n" ++ error.snippet d ++ error.hint

end TemplateError

/-- A run on one line. -/
def summary (templates errors failed : Nat) : String :=
  let noun := if templates = 1 then "template" else "templates"
  let checked := "Checked " ++ toString templates ++ " " ++ noun
  if errors = 0 then "✓ " ++ checked ++ ", no errors"
  else
    "✗ " ++ checked ++ ": " ++ toString errors ++ " error(s) in " ++ toString failed ++ " file(s)"

end PugContracts
