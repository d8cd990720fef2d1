import PugContracts.Diagnostic.Basic
import PugContracts.Disk.Basic

/-!
# Structural errors

A structural error stops the resolution of a template: a file that is missing or cannot be read, or
a cycle of files. It is reported once, at the directive that leads to it.
-/

namespace PugContracts.Resolution

/-- Why a file is resolved. -/
inductive ReferenceKind where
  /-- It is the template to be checked. -/
  | root
  /-- Another template extends it. -/
  | parent
  /-- Another template includes it. -/
  | inclusion
  deriving DecidableEq, Repr

/-- The word for a kind of reference. -/
def ReferenceKind.label : ReferenceKind → String
  | root => "template"
  | parent => "extends"
  | inclusion => "include"

/-- A directive that refers to a file. -/
structure Reference where
  /-- What the directive does with the file. -/
  kind : ReferenceKind
  /-- The file that holds the directive. -/
  referrer : Path
  /-- The line of the directive. -/
  line : Nat
  /-- The target as written. -/
  target : String
  deriving DecidableEq, Repr

/-- Why a template has no resolved tree. -/
inductive ResolveError where
  /-- Nothing is at the path of a target. -/
  | missingFile (referrer : Path) (line : Option Nat) (kind : ReferenceKind) (target : String)
    (path : Path)
  /-- A directive leads back to a file that is being resolved. The chain starts and ends with it. -/
  | cycle (file : Path) (line : Nat) (kind : ReferenceKind) (chain : List Path)
  /-- A node was not stamped. -/
  | missingOrigin (file : Path) (line : Nat) (kind : String)
  /-- A file cannot be read. -/
  | unreadable (file : Path) (reference : Option (Path × Nat)) (reason : DiskError)
  deriving DecidableEq, Repr

/-- A chain of files, one on a line, joined by arrows; the last one closes the cycle. -/
def chainText : List Path → String
  | [] => ""
  | [last] => "  " ++ last.text ++ " (circular reference)"
  | file :: rest => "  " ++ file.text ++ "\n  ↓\n" ++ chainText rest

namespace ResolveError

/-- The wording of an error. -/
def message : ResolveError → String
  | missingFile _ _ kind target path =>
    "cannot find " ++ kind.label ++ " target `" ++ target ++ "` (looked for " ++ path.text ++ ")"
  | cycle _ _ kind chain => "circular " ++ kind.label ++ " detected:\n" ++ chainText chain
  | missingOrigin _ line kind =>
    kind ++ " node at line " ++ toString line ++ " has no origin after stamping"
  | unreadable file _ reason => "failed to read " ++ file.text ++ ": " ++ reason.message

/-- The error at the place of the directive that leads to it. -/
def toTemplateError (error : ResolveError) : TemplateError :=
  match error with
  | missingFile referrer line _ _ _ => ⟨.missingFile, referrer, line, error.message, none⟩
  | cycle file line _ _ => .onLine .cycle file line error.message
  | missingOrigin file line _ => .onLine .invariant file line error.message
  | unreadable _ (some (referrer, line)) _ => .onLine .missingFile referrer line error.message
  | unreadable file none _ => .ofFile .missingFile file error.message

end ResolveError

end PugContracts.Resolution
