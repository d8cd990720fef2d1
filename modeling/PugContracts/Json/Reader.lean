import PugContracts.Json.Token
import PugContracts.Json.Value

/-!
# Reading JSON

The second step of reading takes the tokens one after the other. What has been opened and not closed
yet is a stack of frames, and `Awaiting` says what may come next. There is no recursion into values,
so the depth of a text is not limited and reading ends with the last token.
-/

namespace PugContracts.Json

/-- An array or an object that is not closed yet. What it holds stands in reverse. -/
inductive Frame where
  /-- An array. -/
  | list (items : List Value)
  /-- An object. -/
  | object (members : List (String × Value))
  /-- An object after the name of a member. -/
  | member (members : List (String × Value)) (name : String)

/-- What may come next. -/
inductive Awaiting where
  /-- A value. -/
  | value
  /-- The first item of an array, or its end. -/
  | firstItem
  /-- The name of a member. -/
  | name
  /-- The name of the first member of an object, or the object's end. -/
  | firstName
  /-- A colon. -/
  | colon
  /-- A comma or the end of the innermost frame. -/
  | separator
  /-- Nothing. -/
  | nothing (value : Value)

/-- Where a reader stands. -/
structure Reader where
  /-- What may come next. -/
  awaiting : Awaiting
  /-- What is open, the innermost first. -/
  frames : List Frame

namespace Reader

/-- The reader before the first token. -/
def start : Reader :=
  ⟨.value, []⟩

/-- The reader after a complete value. -/
def complete (value : Value) : List Frame → Option Reader
  | [] => some ⟨.nothing value, []⟩
  | .list items :: frames => some ⟨.separator, .list (value :: items) :: frames⟩
  | .member members name :: frames =>
    some ⟨.separator, .object ((name, value) :: members) :: frames⟩
  | .object _ :: _ => none

/-- The reader after the innermost frame is closed. -/
def close (frames : List Frame) (token : Token) : Option Reader :=
  match frames, token with
  | .list items :: frames, .closeList => complete (.list items.reverse) frames
  | .object members :: frames, .closeObject => complete (.object members.reverse) frames
  | _, _ => none

/-- The reader after the first token of a value. -/
def begin (frames : List Frame) : Token → Option Reader
  | .openList => some ⟨.firstItem, .list [] :: frames⟩
  | .openObject => some ⟨.firstName, .object [] :: frames⟩
  | .null => complete .null frames
  | .truth value => complete (.truth value) frames
  | .count value => complete (.count value) frames
  | .otherNumber => complete .otherNumber frames
  | .text (some value) => complete (.text value) frames
  | .text none => complete .mangled frames
  | .closeList | .closeObject | .comma | .colon => none

/-- The reader after the name of a member. -/
def nameMember (frames : List Frame) (token : Token) : Option Reader :=
  match frames, token with
  | .object members :: frames, .text (some name) => some ⟨.colon, .member members name :: frames⟩
  | _, _ => none

/-- The reader after one more token. -/
def step (reader : Reader) (token : Token) : Option Reader :=
  match reader.awaiting with
  | .value => begin reader.frames token
  | .firstItem =>
    if token = .closeList then close reader.frames token else begin reader.frames token
  | .name => nameMember reader.frames token
  | .firstName =>
    if token = .closeObject then close reader.frames token else nameMember reader.frames token
  | .colon => if token = .colon then some { reader with awaiting := .value } else none
  | .separator =>
    if token = .comma then
      match reader.frames with
      | .list _ :: _ => some { reader with awaiting := .value }
      | _ => some { reader with awaiting := .name }
    else close reader.frames token
  | .nothing _ => none

end Reader

/-- The value that tokens write. -/
def ofTokens? (tokens : List Token) : Option Value :=
  match tokens.foldlM Reader.step .start with
  | some ⟨.nothing value, _⟩ => some value
  | _ => none

/-- The value that a text writes, if it is JSON. -/
def Value.read? (text : String) : Option Value :=
  (tokens? text.toList).bind ofTokens?

end PugContracts.Json
