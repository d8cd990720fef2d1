import PugContracts.Template.Node

/-!
# Lines and their origins

A generated program is a list of lines, each with the place in a template that it stands for. Its
source text and its line map are two views of that list, so line `i` of the text and entry `i` of
the map always belong together.

The lines are laid out from a list of *steps*: text is pushed at the current indentation, and the
indentation is changed. A pushed text is cut at every line terminator that the host language knows,
so that a reader of the program and the map agree on what a line is.
-/

namespace PugContracts.Program

/-- The place in a template that a generated line stands for. -/
structure Origin where
  /-- The template. -/
  file : Path
  /-- The line, counted from one. -/
  line : Nat
  deriving DecidableEq, Repr

namespace Origin

/-- The file name that tags the lines made from a contract. -/
def contractTag : String := "contract"

/-- The origin of lines that are made from the contract and not from a line of a template. -/
def contract : Origin :=
  ⟨⟨contractTag⟩, 0⟩

/-- Whether a line is made from the contract. -/
def isContract (origin : Origin) : Bool :=
  origin.file.text == contractTag

/-- The origin of a node; one that is not stamped belongs to the file `fallback`. -/
def ofNode (node : Template.Node) (fallback : Path) : Origin :=
  ⟨node.file.getD fallback, node.line⟩

end Origin

/-- A line of a program. -/
structure Line where
  /-- The text of the line. -/
  text : List Char
  /-- Where it comes from. -/
  origin : Origin
  deriving DecidableEq, Repr

/-! ### Line terminators -/

/-- The characters that end a line in the host language; a carriage return and a newline end one
line together. -/
def isLineEnd (c : Char) : Bool :=
  c == '\n' || c == '\r' || c == '\u2028' || c == '\u2029'

/-- What stands between the line terminators of a text. -/
def splitLines : List Char → List (List Char)
  | [] => [[]]
  | '\r' :: '\n' :: rest => [] :: splitLines rest
  | c :: rest =>
    if isLineEnd c then [] :: splitLines rest
    else
      match splitLines rest with
      | [] => [[c]]
      | line :: lines => (c :: line) :: lines

/-! ### Layout -/

/-- A step of laying out a program. -/
inductive Step where
  /-- Add a text at the current indentation. -/
  | push (text : List Char) (origin : Origin)
  /-- Indent what follows by one level more. -/
  | indent
  /-- Indent what follows by one level less. -/
  | dedent
  deriving DecidableEq, Repr

/-- What one level of indentation is. -/
def indentation : List Char :=
  "  ".toList

/-- A text indented by some levels; an empty one stays empty. -/
def indented (depth : Nat) (text : List Char) : List Char :=
  if text.isEmpty then [] else (List.replicate depth indentation).flatten ++ text

/-- The indentation after a step. -/
def Step.depthAfter (depth : Nat) : Step → Nat
  | push .. => depth
  | indent => depth + 1
  | dedent => depth - 1

/-- The lines that a step adds. -/
def Step.lines (depth : Nat) : Step → List Line
  | push text origin => (splitLines text).map fun line => ⟨indented depth line, origin⟩
  | indent | dedent => []

/-- The lines that steps add, from the given indentation on. -/
def layout (depth : Nat) : List Step → List Line
  | [] => []
  | step :: rest => step.lines depth ++ layout (step.depthAfter depth) rest

/-- The source text of lines; every line ends with a newline. -/
def sourceOf (lines : List Line) : String :=
  String.ofList (lines.flatMap fun line => line.text ++ ['\n'])

end Program

/-- A program made from a template. -/
structure Program where
  /-- The template. -/
  template : Path
  /-- The lines of the program. -/
  lines : List Program.Line
  deriving DecidableEq, Repr

namespace Program

/-- The source text. -/
def source (program : Program) : String :=
  sourceOf program.lines

/-- For each line of the source where it comes from. -/
def lineMap (program : Program) : List Origin :=
  program.lines.map Line.origin

/-- Where a line of the source comes from; lines are counted from one. -/
def origin? (program : Program) (line : Nat) : Option Origin :=
  if line = 0 then none else program.lineMap[line - 1]?

/-! ### Annotated programs -/

/-- A text filled up with blanks at its end. -/
def padEnd (width : Nat) (text : List Char) : List Char :=
  text ++ List.replicate (width - text.length) ' '

/-- A text filled up with blanks at its start. -/
def padStart (width : Nat) (text : List Char) : List Char :=
  List.replicate (width - text.length) ' ' ++ text

/-- Where a line comes from, as shown from the directory `base`. -/
def Origin.shownFrom (origin : Origin) (base : Path) : String :=
  if origin.isContract then Origin.contractTag
  else origin.file.shownFrom base ++ ":" ++ toString origin.line

/-- The width of the text in an annotated line. -/
def annotationColumn : Nat := 60

/-- Lines with their numbers, the first of which is `number`, and their origins. -/
def annotateFrom (base : Path) (width number : Nat) : List Line → String
  | [] => ""
  | line :: rest =>
    String.ofList (padStart width (toString number).toList) ++ " | " ++
      String.ofList (padEnd annotationColumn line.text) ++ " // " ++ line.origin.shownFrom base ++
      "\n" ++ annotateFrom base width (number + 1) rest

/-- The source with the number and the origin of each line. -/
def annotated (program : Program) (base : Path) : String :=
  annotateFrom base (toString program.lines.length).length 1 program.lines

end Program

end PugContracts
