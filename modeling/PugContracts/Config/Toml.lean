import PugContracts.Text.Blank

/-!
# Reading TOML

The configuration is a TOML document: assignments of values to keys, and headers that name the table
to which the assignments after them belong. A document is read as the list of its statements. What
they say together is for the reader of the configuration, which knows every key there can be.

Only texts and what contains them are told apart; numbers, dates and truth values have no place in a
configuration and are all `scalar`.
-/

namespace PugContracts.Toml

/-- The value of a key. -/
inductive Value where
  /-- A string. -/
  | text (value : String)
  /-- An array. -/
  | list (items : List Value)
  /-- An inline table. -/
  | table (assignments : List (List String × Value))
  /-- A number, a date or a truth value. -/
  | scalar
  deriving Inhabited, Repr

/-- One statement of a document. -/
inductive Statement where
  /-- A key and its value. -/
  | assignment (key : List String) (value : Value)
  /-- The header of a table. -/
  | header (key : List String)
  /-- The header of an element of an array of tables. -/
  | elementHeader (key : List String)
  deriving Repr

/-! ### Blanks and line ends -/

/-- The characters that may stand between the parts of a line. -/
def isSpace (c : Char) : Bool :=
  c == ' ' || c == '\t'

/-- The text after blanks. -/
def skipSpaces (cs : List Char) : List Char :=
  cs.dropWhile isSpace

/-- Whether a character may stand in comments and strings. -/
def isPrintable (c : Char) : Bool :=
  c == '\t' || (0x20 ≤ c.toNat && c.toNat ≠ 0x7F)

/-- The text after a line end. -/
def afterNewline? (cs : List Char) : Option (List Char) :=
  match cs with
  | '\n' :: rest | '\r' :: '\n' :: rest => some rest
  | _ => none

/-- The text after a comment, if there is one. -/
def skipComment (cs : List Char) : List Char :=
  match cs with
  | '#' :: rest => rest.dropWhile isPrintable
  | _ => cs

/-- The text after blanks, comments and line ends. -/
def skipLines : Nat → List Char → List Char
  | 0, cs => cs
  | budget + 1, cs =>
    let cs := skipComment (skipSpaces cs)
    match afterNewline? cs with
    | some rest => skipLines budget rest
    | none => cs

/-- The text after the end of a statement's line. -/
def afterLine? (cs : List Char) : Option (List Char) :=
  match skipComment (skipSpaces cs) with
  | [] => some []
  | rest => afterNewline? rest

/-! ### Strings -/

/-- The value of a hexadecimal digit. -/
def hexValue? (c : Char) : Option Nat :=
  let n := c.toNat
  if c.isDigit then some (n - '0'.toNat)
  else if 'a'.toNat ≤ n && n ≤ 'f'.toNat then some (n - 'a'.toNat + 10)
  else if 'A'.toNat ≤ n && n ≤ 'F'.toNat then some (n - 'A'.toNat + 10)
  else none

/-- The character with the number that some hexadecimal digits write. -/
def scalarValue? (digits : List Char) : Option Char := do
  let values ← digits.mapM hexValue?
  let n := values.foldl (fun n digit => 16 * n + digit) 0
  if n.isValidChar then return Char.ofNat n else none

/-- The number of hexadecimal digits after the letter of an escape. -/
def escapeWidth? (c : Char) : Option Nat :=
  match c with
  | 'x' => some 2
  | 'u' => some 4
  | 'U' => some 8
  | _ => none

/-- The character that a letter after a backslash stands for. -/
def escaped? (c : Char) : Option Char :=
  match c with
  | '"' => some '"'
  | '\\' => some '\\'
  | 'b' => some '\x08'
  | 'e' => some '\x1b'
  | 'f' => some '\x0c'
  | 'n' => some '\n'
  | 'r' => some '\r'
  | 't' => some '\t'
  | _ => none

/-- The character of an escape, after its backslash, and the text after it. -/
def readEscape? (cs : List Char) : Option (Char × List Char) :=
  match cs with
  | [] => none
  | c :: rest =>
    match escapeWidth? c with
    | some width =>
      if rest.length < width then none
      else (scalarValue? (rest.take width)).map fun value => (value, rest.drop width)
    | none => (escaped? c).map fun value => (value, rest)

/-- A string on one line after its opening quotation mark, and the text after it. -/
def readString? (quote : Char) : Nat → List Char → Option (List Char × List Char)
  | 0, _ | _ + 1, [] => none
  | budget + 1, c :: rest =>
    if c = quote then some ([], rest)
    else if c = '\\' && quote = '"' then do
      let (value, rest) ← readEscape? rest
      let (more, rest) ← readString? quote budget rest
      return (value :: more, rest)
    else if isPrintable c then do
      let (more, rest) ← readString? quote budget rest
      return (c :: more, rest)
    else none

/-- The text after a backslash that ends a line: blanks and line ends, at least one of them. -/
def afterContinuation? (cs : List Char) : Option (List Char) :=
  (afterNewline? (skipSpaces cs)).map (·.dropWhile fun c => isSpace c || c == '\n' || c == '\r')

/-- The quotation marks before the end of a string on several lines, and the text after it. The last
three of at most five marks close the string. -/
def readClosing? (quote : Char) (cs : List Char) : Option (List Char × List Char) :=
  let marks := (cs.take 5).takeWhile (· == quote)
  if marks.length < 3 then none else some (marks.drop 3, cs.drop marks.length)

/-- A string on several lines after its opening quotation marks, and the text after it. -/
def readLines? (quote : Char) : Nat → List Char → Option (List Char × List Char)
  | 0, _ | _ + 1, [] => none
  | budget + 1, c :: rest =>
    match readClosing? quote (c :: rest) with
    | some closed => some closed
    | none =>
      if c = '\\' && quote = '"' then
        match afterContinuation? rest with
        | some rest => readLines? quote budget rest
        | none => do
          let (value, rest) ← readEscape? rest
          let (more, rest) ← readLines? quote budget rest
          return (value :: more, rest)
      else
        match afterNewline? (c :: rest) with
        | some rest => do
          let (more, rest) ← readLines? quote budget rest
          return ('\n' :: more, rest)
        | none =>
          if isPrintable c then do
            let (more, rest) ← readLines? quote budget rest
            return (c :: more, rest)
          else none

/-- A string at the start of a text, and the text after it. -/
def readText? (cs : List Char) : Option (String × List Char) :=
  let read (quote : Char) (rest : List Char) : Option (String × List Char) :=
    let found :=
      match Text.afterPrefix? [quote, quote] rest with
      | some body => readLines? quote (body.length + 1) ((afterNewline? body).getD body)
      | none => readString? quote (rest.length + 1) rest
    found.map fun (value, rest) => (String.ofList value, rest)
  match cs with
  | '"' :: rest => read '"' rest
  | '\'' :: rest => read '\'' rest
  | _ => none

/-! ### Keys -/

/-- A character of a key without quotation marks. -/
def isKeyChar (c : Char) : Bool :=
  c.isAlphanum || c == '_' || c == '-'

/-- One part of a key, and the text after it. -/
def readKeyPart? (cs : List Char) : Option (String × List Char) :=
  match cs with
  | '"' :: rest | '\'' :: rest =>
    (readString? (cs.headD '"') (rest.length + 1) rest).map fun (value, rest) =>
      (String.ofList value, rest)
  | _ =>
    let name := cs.takeWhile isKeyChar
    if name.isEmpty then none else some (String.ofList name, cs.drop name.length)

/-- A key, whose parts stand between dots, and the text after it and its blanks. -/
def readKey? : Nat → List Char → Option (List String × List Char)
  | 0, _ => none
  | budget + 1, cs => do
    let (part, rest) ← readKeyPart? (skipSpaces cs)
    match skipSpaces rest with
    | '.' :: rest =>
      let (parts, rest) ← readKey? budget rest
      return (part :: parts, rest)
    | rest => return ([part], rest)

/-! ### Values -/

/-- A character of a number, a date or a truth value. -/
def isScalarChar (c : Char) : Bool :=
  c.isAlphanum || c == '_' || c == '-' || c == '+' || c == '.' || c == ':'

/-- Whether a text is a number, a date or a truth value, as far as its start tells. -/
def isScalar (cs : List Char) : Bool :=
  let unsigned := match cs with
    | '+' :: rest | '-' :: rest => rest
    | _ => cs
  cs == "true".toList || cs == "false".toList || unsigned == "inf".toList ||
    unsigned == "nan".toList || unsigned.head?.any Char.isDigit

/-- The text after a number, a date or a truth value. A blank may stand between a date and
a time. -/
def afterScalar? (cs : List Char) : Option (List Char) :=
  let scalar := cs.takeWhile isScalarChar
  let rest := cs.drop scalar.length
  if !isScalar scalar then none
  else
    match rest with
    | ' ' :: c :: more =>
      if scalar.length = 10 && c.isDigit then some (more.dropWhile isScalarChar) else some rest
    | _ => some rest

mutual

/-- A value at the start of a text, and the text after it. -/
def readValue? : Nat → List Char → Option (Value × List Char)
  | 0, _ => none
  | budget + 1, cs =>
    match cs with
    | '[' :: rest =>
      (readItems? budget (skipLines rest.length rest)).map fun (items, rest) =>
        (.list items, rest)
    | '{' :: rest =>
      (readAssignments? budget (skipLines rest.length rest)).map fun (assignments, rest) =>
        (.table assignments, rest)
    | '"' :: _ | '\'' :: _ => (readText? cs).map fun (value, rest) => (.text value, rest)
    | _ => (afterScalar? cs).map fun rest => (.scalar, rest)

/-- The items of an array up to its closing bracket, and the text after it. -/
def readItems? : Nat → List Char → Option (List Value × List Char)
  | 0, _ => none
  | budget + 1, cs =>
    match cs with
    | ']' :: rest => some ([], rest)
    | _ => do
      let (item, rest) ← readValue? budget cs
      match skipLines rest.length rest with
      | ',' :: rest =>
        let (items, rest) ← readItems? budget (skipLines rest.length rest)
        return (item :: items, rest)
      | ']' :: rest => return ([item], rest)
      | _ => none

/-- The assignments of an inline table up to its closing brace, and the text after it. -/
def readAssignments? : Nat → List Char → Option (List (List String × Value) × List Char)
  | 0, _ => none
  | budget + 1, cs =>
    match cs with
    | '}' :: rest => some ([], rest)
    | _ => do
      let (assignment, rest) ← readAssignment? budget cs
      match skipLines rest.length rest with
      | ',' :: rest =>
        let (assignments, rest) ← readAssignments? budget (skipLines rest.length rest)
        return (assignment :: assignments, rest)
      | '}' :: rest => return ([assignment], rest)
      | _ => none

/-- A key with its value, and the text after them. -/
def readAssignment? : Nat → List Char → Option ((List String × Value) × List Char)
  | 0, _ => none
  | budget + 1, cs => do
    let (key, rest) ← readKey? cs.length cs
    match rest with
    | '=' :: rest =>
      let (value, rest) ← readValue? budget (skipSpaces rest)
      return ((key, value), rest)
    | _ => none

end

/-! ### Documents -/

/-- A statement at the start of a line, and the text after it. -/
def readStatement? (cs : List Char) : Option (Statement × List Char) :=
  match cs with
  | '[' :: '[' :: rest => do
    let (key, rest) ← readKey? rest.length rest
    return (.elementHeader key, ← Text.afterPrefix? [']', ']'] rest)
  | '[' :: rest => do
    let (key, rest) ← readKey? rest.length rest
    return (.header key, ← Text.afterPrefix? [']'] rest)
  | _ => do
    -- Every step into a value takes at least one character and at most two readers.
    let ((key, value), rest) ← readAssignment? (2 * cs.length + 2) cs
    return (.assignment key value, rest)

/-- The statements of the lines of a text. -/
def readStatements? : Nat → List Char → Option (List Statement)
  | 0, _ => none
  | budget + 1, cs =>
    match skipLines cs.length cs with
    | [] => some []
    | rest => do
      let (statement, rest) ← readStatement? rest
      let statements ← readStatements? budget (← afterLine? rest)
      return statement :: statements

/-- The statements of a document; a mark of the byte order may precede them. -/
def read? (text : String) : Option (List Statement) :=
  let cs := match text.toList with
    | '\uFEFF' :: rest => rest
    | cs => cs
  readStatements? (cs.length + 1) cs

end PugContracts.Toml
