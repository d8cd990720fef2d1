import PugContracts.Path.Basic

/-!
# Errors in template coordinates

Whatever is wrong with a template is recorded as a `TemplateError`: what kind of problem it is, in
which file and on which line, and a message. Such errors are data. They are collected, cached and
printed, and never stop a run.
-/

namespace PugContracts

/-- The category of a template error. -/
inductive ErrorKind where
  /-- A parent, an included file or an imported module does not exist. -/
  | missingFile
  /-- A directive is malformed, repeated or misplaced. -/
  | directiveShape
  /-- A line is not a template line. -/
  | syntaxFault
  /-- A node has no origin. -/
  | invariant
  /-- A directive closes a cycle of files. -/
  | cycle
  /-- The engine found a type error. -/
  | typeCheck
  /-- The engine itself failed. -/
  | engine
  deriving DecidableEq, Repr, Inhabited

namespace ErrorKind

/-- All kinds of errors. -/
def all : List ErrorKind :=
  [missingFile, directiveShape, syntaxFault, invariant, cycle, typeCheck, engine]

/-- The word for a kind in a message. -/
def label : ErrorKind → String
  | missingFile => "missing file"
  | directiveShape => "directive"
  | syntaxFault => "syntax"
  | invariant => "internal"
  | cycle => "cycle"
  | typeCheck => "type"
  | engine => "engine"

/-- The word for a kind in a document. -/
def tag : ErrorKind → String
  | missingFile => "missing-file"
  | directiveShape => "directive-shape"
  | syntaxFault => "syntax"
  | invariant => "invariant"
  | cycle => "cycle"
  | typeCheck => "type-check"
  | engine => "engine"

/-- The kind with a given word in documents. -/
def ofTag? (word : String) : Option ErrorKind :=
  all.find? (·.tag == word)

theorem ofTag?_tag (kind : ErrorKind) : ofTag? kind.tag = some kind := by
  cases kind <;> decide

end ErrorKind

/-- A problem of a template. -/
structure TemplateError where
  /-- The category. -/
  kind : ErrorKind
  /-- The file the error points at. -/
  file : Path
  /-- The line in that file, counted from one, if known. -/
  line : Option Nat
  /-- What is wrong. -/
  message : String
  /-- The number that the engine gives to the error. -/
  code : Option Nat
  deriving DecidableEq, Repr

namespace TemplateError

/-- An error on a line. -/
def onLine (kind : ErrorKind) (file : Path) (line : Nat) (message : String) : TemplateError :=
  ⟨kind, file, some line, message, none⟩

/-- An error of a whole file. -/
def ofFile (kind : ErrorKind) (file : Path) (message : String) : TemplateError :=
  ⟨kind, file, none, message, none⟩

/-- A file as shown, with the line if known. -/
def place (file : String) : Option Nat → String
  | some line => file ++ ":" ++ toString line
  | none => file

/-- Where the error is. -/
def location (error : TemplateError) : String :=
  place error.file.text error.line

/-- What sort of error it is: the engine's number, or else the category. -/
def headline (error : TemplateError) : String :=
  match error.code with
  | some code => "error TS" ++ toString code
  | none => error.kind.label ++ " error"

/-- The error on one line. -/
def display (error : TemplateError) : String :=
  error.location ++ ": " ++ error.headline ++ ": " ++ error.message

end TemplateError

end PugContracts
