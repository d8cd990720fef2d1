import PugContracts.Scan.Basic

/-!
# Removing comments

`stripComments` removes the comments of an expression text. A line comment goes up to the newline,
which stays; a block comment leaves one space, so that what stood on its two sides is not joined.
-/

namespace PugContracts.Scan

/-- What the remover is in the middle of. -/
inductive Strip where
  /-- Text that is kept. -/
  | text
  /-- A string literal that ends at the next `mark`. -/
  | quoted (mark : Char)
  /-- The character after a backslash in a string literal. -/
  | escaped (mark : Char)
  /-- A comment that ends with the line. -/
  | line
  /-- The star that belongs to the start of a block comment. -/
  | opening
  /-- A block comment; `star` tells whether the last character was a star. -/
  | block (star : Bool)
  deriving DecidableEq, Repr

/-- Remove comments from `cs`, of which the part before is described by the first argument. -/
def stripFrom : Strip → List Char → List Char
  | .block _, [] | .opening, [] => [' ']
  | _, [] => []
  | .quoted mark, c :: rest =>
    let next := if c = '\\' then .escaped mark else if c = mark then .text else .quoted mark
    c :: stripFrom next rest
  | .escaped mark, c :: rest => c :: stripFrom (.quoted mark) rest
  | .line, c :: rest => if c = '\n' then '\n' :: stripFrom .text rest else stripFrom .line rest
  | .opening, _ :: rest => stripFrom (.block false) rest
  | .block star, c :: rest =>
    if star = true ∧ c = '/' then ' ' :: stripFrom .text rest
    else stripFrom (.block (c == '*')) rest
  | .text, c :: rest =>
    if c = '/' ∧ rest.head? = some '/' then stripFrom .line rest
    else if c = '/' ∧ rest.head? = some '*' then stripFrom .opening rest
    else c :: stripFrom (if isQuote c then .quoted c else .text) rest

/-- `cs` without its comments. -/
def stripComments (cs : List Char) : List Char :=
  stripFrom .text cs

end PugContracts.Scan
