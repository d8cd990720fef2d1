import PugContracts.Text.Blank

/-!
# JSON values

Caches, reports and the configuration of a compiler run are written as JSON. A `Value` keeps what a
text says: the members of an object stand in the order of the text, repeated ones included, since it
is for the reader of a document to decide what a repetition means.

Numbers of a document are counts and times, so only numbers written with digits alone carry their
value. A string that spells half of a surrogate pair is no text; it is well-formed all the same, and
kept as `mangled`.
-/

namespace PugContracts.Json

/-- A JSON value. -/
inductive Value where
  /-- The value `null`. -/
  | null
  /-- A truth value. -/
  | truth (value : Bool)
  /-- A number written with digits alone. -/
  | count (value : Nat)
  /-- A number with a sign, a fraction or an exponent. -/
  | otherNumber
  /-- A string. -/
  | text (value : String)
  /-- A string that is no text. -/
  | mangled
  /-- An array. -/
  | list (items : List Value)
  /-- An object. -/
  | object (members : List (String × Value))
  deriving Inhabited, Repr

namespace Value

/-- An array with one value for each element of a list. -/
def listOf {α : Type} (f : α → Value) (items : List α) : Value :=
  list (items.map f)

/-- A value that may be absent. -/
def optional {α : Type} (f : α → Value) : Option α → Value
  | some x => f x
  | none => null

end Value

/-! ### Printing -/

/-- A hexadecimal digit. -/
def hexDigit (n : Nat) : Char :=
  (Nat.toDigits 16 n).headD '0'

/-- A character as it stands in a string. -/
def escape (c : Char) : List Char :=
  if c = '"' then ['\\', '"']
  else if c = '\\' then ['\\', '\\']
  else if c = '\n' then ['\\', 'n']
  else if c = '\r' then ['\\', 'r']
  else if c = '\t' then ['\\', 't']
  else if c = '\x08' then ['\\', 'b']
  else if c = '\x0c' then ['\\', 'f']
  else if c.toNat < 0x20 then
    ['\\', 'u', '0', '0', hexDigit (c.toNat / 16), hexDigit (c.toNat % 16)]
  else [c]

/-- A string between its quotation marks. -/
def quoted (text : String) : List Char :=
  '"' :: text.toList.flatMap escape ++ ['"']

/-- A line end and the indentation of a level. -/
def lineBreak (level : Nat) : List Char :=
  '\n' :: List.replicate (2 * level) ' '

mutual

/-- A value with every item and member on its own line, indented by `level`. -/
def printValue (level : Nat) : Value → List Char
  | .null => "null".toList
  | .truth true => "true".toList
  | .truth false => "false".toList
  | .count n => (toString n).toList
  | .otherNumber => ['0', '.', '0']
  | .text value => quoted value
  | .mangled => quoted "\uFFFD"
  | .list [] => ['[', ']']
  | .list (item :: items) =>
    '[' :: lineBreak (level + 1) ++ printValue (level + 1) item ++ printItems (level + 1) items ++
      lineBreak level ++ [']']
  | .object [] => ['{', '}']
  | .object ((name, value) :: members) =>
    '{' :: lineBreak (level + 1) ++ quoted name ++ [':', ' '] ++ printValue (level + 1) value ++
      printMembers (level + 1) members ++ lineBreak level ++ ['}']

/-- The items after the first one. -/
def printItems (level : Nat) : List Value → List Char
  | [] => []
  | item :: items => ',' :: lineBreak level ++ printValue level item ++ printItems level items

/-- The members after the first one. -/
def printMembers (level : Nat) : List (String × Value) → List Char
  | [] => []
  | (name, value) :: members =>
    ',' :: lineBreak level ++ quoted name ++ [':', ' '] ++ printValue level value ++
      printMembers level members

end

/-- The text of a value. -/
def Value.print (value : Value) : String :=
  String.ofList (printValue 0 value)

end PugContracts.Json
