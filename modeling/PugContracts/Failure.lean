import PugContracts.Path.Basic

/-!
# Failures of a run

Problems of templates never stop a run; a `Failure` does: a configuration that cannot be used, a
cache that cannot be read, an engine that is missing. It has a cause and the contexts in which the
cause came up. `FailureReport.ofFailure` says how a failure is shown, with a suggestion what to do
about it.
-/

namespace PugContracts

/-- The causes that a run can name. -/
inductive RunError where
  /-- The configuration file is not a configuration. -/
  | configParse (file : Path) (reason : String)
  /-- A path of the configuration does not exist. -/
  | configPathMissing (field : String) (path : Path)
  /-- The declaration of the shared locals does not hold their type. -/
  | sharedLocalsNotFound (typeName : String) (path : Path)
  /-- There is nothing to check. -/
  | noTemplates (paths : List String)
  /-- A path on the command line is no template. -/
  | notATemplate (path : Path)
  /-- The engine's executable cannot be found. -/
  | engineNotFound (name : String)
  /-- The engine stopped without a diagnostic; the exit code is absent if it was killed. -/
  | engineFailed (code : Option Int) (output : String)
  /-- The cache cannot be read. -/
  | cacheRead (path : Path) (reason : String)
  /-- The cache was written in another format. -/
  | cacheVersion (found expected : Nat)
  /-- Anything else. -/
  | other (message : String)
  deriving DecidableEq, Repr

/-- How an exit code is written in a message. -/
def exitCodeText : Option Int → String
  | some code => "Some(" ++ toString code ++ ")"
  | none => "None"

/-- The wording of a cause. -/
def RunError.message : RunError → String
  | configParse file reason => "Invalid configuration in " ++ file.text ++ ": " ++ reason
  | configPathMissing field path => "Configured " ++ field ++ " does not exist: " ++ path.text
  | sharedLocalsNotFound typeName path => "Type `" ++ typeName ++ "` not found in " ++ path.text
  | noTemplates paths => "No templates found under " ++ ", ".intercalate paths
  | notATemplate path => "Not a template file: " ++ path.text
  | engineNotFound name => "Type-checking engine `" ++ name ++ "` not found"
  | engineFailed code output =>
    "Type-checking engine failed (exit code " ++ exitCodeText code ++ "): " ++ output
  | cacheRead path reason => "Failed to read cache " ++ path.text ++ ": " ++ reason
  | cacheVersion found expected =>
    "Cache format version " ++ toString found ++ " is not supported (expected " ++
      toString expected ++ ")"
  | other message => message

/-- Why a run stops. -/
inductive Cause where
  /-- A cause that has a name. -/
  | run (error : RunError)
  /-- A message of the operating system or of a library. -/
  | plain (message : String)
  deriving DecidableEq, Repr

/-- The wording of a cause. -/
def Cause.message : Cause → String
  | run error => error.message
  | plain message => message

/-- A failure: its cause, and what was being done, the outermost activity first. -/
structure Failure where
  /-- What was being done. -/
  contexts : List String
  /-- What went wrong. -/
  cause : Cause
  deriving DecidableEq, Repr

namespace Failure

/-- A failure with a named cause. -/
def run (error : RunError) : Failure :=
  ⟨[], .run error⟩

/-- A failure that a message describes. -/
def plain (message : String) : Failure :=
  ⟨[], .plain message⟩

/-- The failure, seen from the activity `context`. -/
def within (context : String) (failure : Failure) : Failure :=
  { failure with contexts := context :: failure.contexts }

/-- The contexts and the cause, outermost first. -/
def chain (failure : Failure) : List String :=
  failure.contexts ++ [failure.cause.message]

/-- The failure on one line. -/
def message (failure : Failure) : String :=
  ": ".intercalate failure.chain

end Failure

/-! ### Reports -/

/-- A failure as it is shown to a user. -/
structure FailureReport where
  /-- What went wrong. -/
  error : RunError
  /-- What could be done about it. -/
  suggestion : Option String
  /-- What else there is to know. -/
  details : Option String
  deriving DecidableEq, Repr

namespace FailureReport

/-- The report of a named cause. -/
def ofError (error : RunError) : FailureReport :=
  match error with
  | .configParse .. =>
    ⟨error, some "Check the TOML syntax and field names in pugcheck.toml",
      some "Every field is optional; remove unknown keys or fix their types"⟩
  | .configPathMissing field _ =>
    ⟨error,
      some ("Update `" ++ field ++ "` in pugcheck.toml or pass the path on the command line"),
      some "Relative paths are resolved against the directory containing pugcheck.toml"⟩
  | .sharedLocalsNotFound .. =>
    ⟨error,
      some
        "Declare it as `export type Name = \x7b ... \x7d` or `export interface Name \x7b ... \x7d`",
      none⟩
  | .noTemplates _ =>
    ⟨error,
      some "Check `template_paths` in pugcheck.toml or pass a directory to `pugcheck check`", none⟩
  | .notATemplate _ => ⟨error, some "Pass a .pug file", none⟩
  | .engineNotFound _ =>
    ⟨error,
      some ("Install TypeScript with `npm install --save-dev typescript`, " ++
        "or run with --no-typecheck"),
      some "pugcheck looks in node_modules/.bin and then on PATH"⟩
  | .engineFailed .. =>
    ⟨error,
      some "Run with --verbose to see the generated program and the engine invocation", none⟩
  | .cacheRead .. | .cacheVersion .. =>
    ⟨error, some "Run `pugcheck cache clear` or use --no-cache",
      some "The cache is rebuilt from scratch on the next run"⟩
  | .other _ => ⟨error, none, none⟩

/-- The report of a failure. A named cause is shown by itself; any other failure is shown by its
outermost message, with the rest of the chain for details. -/
def ofFailure (failure : Failure) : FailureReport :=
  match failure.cause with
  | .run error => ofError error
  | .plain message =>
    match failure.contexts with
    | [] => ⟨.other message, none, none⟩
    | first :: rest =>
      let details := "\n  caused by: ".intercalate (rest ++ [message])
      ⟨.other first, none, if details.isEmpty then none else some details⟩

/-- The report as one text. -/
def text (report : FailureReport) : String :=
  report.error.message ++
    ((report.details.map ("\nDetails: " ++ ·)).getD "") ++
    ((report.suggestion.map ("\nSuggestion: " ++ ·)).getD "")

/-- The report as it is printed when a command fails. -/
def printed (report : FailureReport) : String :=
  "error: " ++ report.error.message ++ "\n" ++
    ((report.details.map ("details: " ++ · ++ "\n")).getD "") ++
    ((report.suggestion.map ("suggestion: " ++ · ++ "\n")).getD "")

end FailureReport

end PugContracts
