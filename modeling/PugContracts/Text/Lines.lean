import PugContracts.Text.Blank

/-!
# Lines of a text

Two rules cut a text into lines. *Pieces* (`newlinePieces`) are what stands between newlines, so
there is always one more than there are newlines. *Lines* (`lines`) end with a newline or with the
text: the empty piece after a final newline is no line, and a carriage return before a newline
belongs to the line's end.
-/

namespace PugContracts.Text

/-- What stands between the newlines of `cs`. -/
def newlinePieces (cs : List Char) : List (List Char) :=
  splitAtEach (· == '\n') cs

/-- `cs` without one carriage return at its end. -/
def dropReturn (cs : List Char) : List Char :=
  match cs.reverse with
  | '\r' :: rest => rest.reverse
  | _ => cs

/-- Each piece but the last loses a carriage return; the last is a line unless it is empty. -/
def linesOfPieces : List (List Char) → List (List Char)
  | [] => []
  | [last] => if last.isEmpty then [] else [last]
  | piece :: pieces => dropReturn piece :: linesOfPieces pieces

/-- The lines of `cs`, without their line ends. -/
def lines (cs : List Char) : List (List Char) :=
  linesOfPieces (newlinePieces cs)

end PugContracts.Text
