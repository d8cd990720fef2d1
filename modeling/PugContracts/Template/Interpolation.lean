import PugContracts.Scan.Cut

/-!
# Interpolated text

Text may hold expressions: the value of one written after `#` in braces is escaped, after `!` it is
not. A backslash before the marker takes away its meaning and is dropped itself.
-/

namespace PugContracts.Template

/-- A piece of interpolated text. -/
inductive Segment where
  /-- Text that stands for itself. -/
  | literal (text : List Char)
  /-- An expression whose value is printed. -/
  | expression (value : List Char) (escaped : Bool)
  deriving DecidableEq, Repr

namespace Segment

/-- A character that starts an interpolation when a brace follows. -/
def isMarker (c : Char) : Bool :=
  c == '#' || c == '!'

/-- Put a piece of literal text in front, unless it is empty. -/
def consLiteral (text : List Char) (segments : List Segment) : List Segment :=
  if text.isEmpty then segments else .literal text :: segments

/-- Split `text`, which starts at the byte offset `offset` and follows the piece of literal text
`literal`, given backwards. An interpolation that does not end is refused with its offset. -/
def splitFrom (offset : Nat) (literal : List Char) (text : List Char) :
    Except Nat (List Segment) :=
  match text with
  | [] => .ok (consLiteral literal.reverse [])
  | '\\' :: marker :: '{' :: rest =>
    if isMarker marker then splitFrom (offset + 3) ('{' :: marker :: literal) rest
    else splitFrom (offset + 1) ('\\' :: literal) (marker :: '{' :: rest)
  | marker :: '{' :: rest =>
    if isMarker marker then
      match _found : Scan.group? ('{' :: rest) with
      | none => .error offset
      | some (value, tail) =>
        (splitFrom (offset + 3 + Text.byteLength value) [] tail).map fun segments =>
          consLiteral literal.reverse (.expression (Text.trim value) (marker == '#') :: segments)
    else splitFrom (offset + marker.utf8Size) (marker :: literal) ('{' :: rest)
  | c :: rest => splitFrom (offset + c.utf8Size) (c :: literal) rest
termination_by text.length
decreasing_by
  all_goals simp_wf
  · omega
  · have := Scan.length_group? _found
    simp only [List.length_cons] at this
    omega

/-- The pieces of `text`, or the byte offset of an interpolation that does not end. -/
def split (text : List Char) : Except Nat (List Segment) :=
  splitFrom 0 [] text

end Segment

end PugContracts.Template
