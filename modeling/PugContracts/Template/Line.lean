import PugContracts.Text.Lines

/-!
# Source lines

The structure of a template is carried by indentation, so a template is read line by line. A source
line knows its number, how far it is indented and what stands after the indentation.
-/

namespace PugContracts.Template

/-- One line of a template. -/
structure SourceLine where
  /-- The number of the line, counted from one. -/
  number : Nat
  /-- How many spaces and tabs the line starts with. -/
  indent : Nat
  /-- The rest of the line. -/
  text : List Char
  deriving DecidableEq, Repr

/-- A character of indentation. -/
def isIndentation (c : Char) : Bool :=
  c == ' ' || c == '\t'

namespace SourceLine

/-- A line with nothing but blanks. -/
def isBlank (line : SourceLine) : Bool :=
  Text.isAllBlank line.text

/-- The line with a number and a text. -/
def ofText (number : Nat) (text : List Char) : SourceLine :=
  let text := Text.dropReturn text
  ⟨number, (text.takeWhile isIndentation).length, text.dropWhile isIndentation⟩

/-- Number the lines of a text from `first` on. -/
def numberFrom (first : Nat) : List (List Char) → List SourceLine
  | [] => []
  | text :: rest => ofText first text :: numberFrom (first + 1) rest

/-- The lines of a template. Every piece between newlines is one, also the last. -/
def ofSource (source : List Char) : List SourceLine :=
  numberFrom 1 (Text.newlinePieces source)

end SourceLine

/-! ### Keywords -/

/-- What follows `word` in a text that starts with it, if the word ends there: before a blank,
before one of the characters `extra`, or at the end of the text. -/
def afterKeyword? (word : String) (extra : List Char) (text : List Char) : Option (List Char) :=
  match Text.afterPrefix? word.toList text with
  | some [] => some []
  | some (c :: rest) => if Text.isBlank c || extra.contains c then some (c :: rest) else none
  | none => none

end PugContracts.Template
