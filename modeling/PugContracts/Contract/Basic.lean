import PugContracts.Contract.Import
import PugContracts.Contract.Reference
import PugContracts.Contract.Shape
import PugContracts.Diagnostic.Basic
import PugContracts.Template.Parser

/-!
# Contracts

A template declares in directive comments what it expects of its input:

```text
//@ import type { User } from "../types/user"
//@ expect { user: User; title: string }
extends /layouts/base
```

`Directive.readAll` cuts the lines of a template into directives, each of which takes its own line
and, for a shape that is not closed on it, the directive lines that follow. `extract` collects them
in a `Contract`, together with the templates and files that the template refers to.
-/

namespace PugContracts.Contract

/-! ### Directives -/

/-- What follows the keyword of an expectation. -/
inductive ShapeText where
  /-- Nothing. -/
  | missing
  /-- A text that the directive lines do not close. -/
  | unterminated
  /-- A text that closes all it opens. -/
  | complete (text : List Char)
  deriving DecidableEq, Repr

/-- A directive comment. -/
inductive Directive where
  /-- An import statement. -/
  | importing (line : Nat) (statement : List Char)
  /-- The expected shape. -/
  | expecting (line : Nat) (shape : ShapeText)
  /-- Anything else; it has no meaning. -/
  | unknown (line : Nat)
  deriving DecidableEq, Repr

namespace Directive

/-- What starts a directive comment. -/
def marker : String := "//@"

/-- The text of a directive line. -/
def body? (line : List Char) : Option (List Char) :=
  (Text.afterPrefix? marker.toList (Text.trim line)).map Text.trim

/-- Take directive lines as long as the shape is not closed: the closed shape, if there is one, and
the lines that were not taken. -/
def finishShape (shape : List Char) (lines : List (List Char)) : ShapeText × List (List Char) :=
  if Scan.isBalanced true shape then (.complete shape, lines)
  else
    match lines with
    | [] => (.unterminated, [])
    | line :: rest =>
      match body? line with
      | none => (.unterminated, line :: rest)
      | some more => finishShape (shape ++ '\n' :: Scan.withoutLineComment more) rest
termination_by structural lines

theorem length_finishShape (shape : List Char) (lines : List (List Char)) :
    (finishShape shape lines).2.length ≤ lines.length := by
  induction lines generalizing shape with
  | nil =>
    unfold finishShape
    split <;> simp
  | cons line rest ih =>
    unfold finishShape
    split
    · exact Nat.le_refl _
    · dsimp only
      split
      · exact Nat.le_refl _
      · exact Nat.le_succ_of_le (ih _)

/-- Read the shape of an expectation. -/
def readShape (text : List Char) (lines : List (List Char)) : ShapeText × List (List Char) :=
  let shape := Scan.withoutLineComment (Text.trim text)
  if shape.isEmpty then (.missing, lines) else finishShape shape lines

theorem length_readShape (text : List Char) (lines : List (List Char)) :
    (readShape text lines).2.length ≤ lines.length := by
  unfold readShape
  dsimp only
  split
  · exact Nat.le_refl _
  · exact length_finishShape _ _

/-- The directive on the line `number` with the given text, and the lines that it does not take. -/
def read (number : Nat) (rule : List Char) (lines : List (List Char)) :
    Directive × List (List Char) :=
  match Template.afterKeyword? "import" ['{', '*'] rule with
  | some _ => (.importing number rule, lines)
  | none =>
    match Template.afterKeyword? "expect" ['{'] rule with
    | some text =>
      let (shape, rest) := readShape text lines
      (.expecting number shape, rest)
    | none => (.unknown number, lines)

theorem length_read (number : Nat) (rule : List Char) (lines : List (List Char)) :
    (read number rule lines).2.length ≤ lines.length := by
  unfold read
  split
  · exact Nat.le_refl _
  · split
    · exact length_readShape _ _
    · exact Nat.le_refl _

/-- The directives among lines of which the first has the given number. -/
def readFrom (number : Nat) (lines : List (List Char)) : List Directive :=
  match lines with
  | [] => []
  | line :: after =>
    match body? line with
    | none => readFrom (number + 1) after
    | some rule =>
      let directive := (read number rule after).1
      let rest := (read number rule after).2
      directive :: readFrom (number + 1 + (after.length - rest.length)) rest
termination_by lines.length
decreasing_by
  · simp
  · have := length_read number rule after
    simp only [List.length_cons]
    omega

/-- The directives of a template, in order. -/
def readAll (source : List Char) : List Directive :=
  readFrom 1 (Text.lines source)

end Directive

/-! ### Contracts -/

/-- The shape expected by a template without an expectation. -/
def emptyShape : String := "\x7b\x7d"

end Contract

open Contract in
/-- What a template declares of its input, and what it refers to. -/
structure Contract where
  /-- The template. -/
  template : Path
  /-- The text of the expected shape. -/
  rawExpects : String
  /-- The line of the expectation, if there is one. -/
  expectsLine : Option Nat
  /-- What is known of the expected shape. -/
  shape : Shape
  /-- The imports, in order. -/
  imports : List Import
  /-- The targets that name a parent, as written. -/
  rawExtends : List String
  /-- The paths of these targets. -/
  parents : List Path
  /-- The targets of included files, as written. -/
  rawIncludes : List String
  /-- The paths of these targets. -/
  includes : List Path
  deriving DecidableEq, Repr

namespace Contract

/-- The contract of a template that declares nothing. -/
def ofTemplate (template : Path) : Contract :=
  ⟨template, emptyShape, none, .emptyLiteral, [], [], [], [], []⟩

/-! ### Extraction -/

/-- What is wrong with a directive. -/
inductive DirectiveFault where
  /-- An import that cannot be read. -/
  | badImport (fault : ImportFault)
  /-- An expectation without a shape. -/
  | missingShape
  /-- A shape that is not closed. -/
  | unterminatedShape
  /-- A further expectation. -/
  | repeated (first : Nat)
  deriving DecidableEq, Repr

/-- The wording of a fault. -/
def DirectiveFault.message : DirectiveFault → String
  | badImport fault => fault.message
  | missingShape => "`expect` requires a shape, e.g. `//@ expect \x7b title: string \x7d`"
  | unterminatedShape => "unterminated `expect` shape: brackets or quotes are not balanced"
  | repeated first =>
    "multiple `expect` directives; only one is allowed (first declared on line " ++
      toString first ++ ")"

/-- The contract with one more directive, and the faults of the directive with their lines. -/
def addDirective (contract : Contract) : Directive → Contract × List (Nat × DirectiveFault)
  | .importing line statement =>
    match Import.read statement contract.template line with
    | .ok record => ({ contract with imports := contract.imports ++ [record] }, [])
    | .error fault => (contract, [(line, .badImport fault)])
  | .expecting line .missing => (contract, [(line, .missingShape)])
  | .expecting line .unterminated => (contract, [(line, .unterminatedShape)])
  | .expecting line (.complete text) =>
    match contract.expectsLine with
    | some first => (contract, [(line, .repeated first)])
    | none =>
      ({ contract with
          shape := Shape.ofText text
          rawExpects := String.ofList text
          expectsLine := some line }, [])
  | .unknown _ => (contract, [])

/-- The contract with further directives, and their faults in order. -/
def addDirectives (contract : Contract) : List Directive → Contract × List (Nat × DirectiveFault)
  | [] => (contract, [])
  | directive :: rest =>
    let (contract, faults) := contract.addDirective directive
    let (contract, more) := contract.addDirectives rest
    (contract, faults ++ more)

/-- The target of a node that names a parent. -/
def parentTarget? (node : Template.Node) : Option String :=
  match node.kind with
  | .inherits target => some target
  | _ => none

/-- The target of a node that includes a file. -/
def includeTarget? (node : Template.Node) : Option String :=
  match node.kind with
  | .inclusion target _ => some target
  | _ => none

/-- The contract with the references of the template's nodes: parents are named at the top level,
files are included at any depth. -/
def addReferences (contract : Contract) (viewsRoot : Path) (nodes : List Template.Node) :
    Contract :=
  let parents := nodes.filterMap parentTarget?
  let includes := (Template.walkAll nodes).filterMap includeTarget?
  { contract with
    rawExtends := parents
    parents := parents.map (resolveTarget · contract.template viewsRoot)
    rawIncludes := includes
    includes := includes.map (resolveTarget · contract.template viewsRoot) }

/-- The contract of a template with the given source text, and the errors in its directives. -/
def extract (source : String) (template viewsRoot : Path) : Contract × List TemplateError :=
  let (contract, faults) := (ofTemplate template).addDirectives (Directive.readAll source.toList)
  (contract.addReferences viewsRoot (Template.parse source).nodes,
    faults.map fun (line, fault) => .onLine .directiveShape template line fault.message)

end Contract

end PugContracts
