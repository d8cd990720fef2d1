/-!
# Brackets, strings and comments in expression text

Attribute values, loop headers, interpolations and contract shapes all embed expressions of the host
language. Cutting them at a separator or at a closing bracket has to pass over string literals,
nested brackets and, where the text may hold them, comments. The scanner here reads such a text one
character at a time and says of each character whether it is *code*, and if so how deep it stands.

## Design

The scanner is a machine whose step sees one character and the one after it, so every reading of a
text is a structural recursion over its characters. `marks` labels each character and loses none;
the other modules of this folder cut a text where a label satisfies some condition.

A bracket and its partner both stand at the depth of the text around them. Closing brackets may
outnumber opening ones: the running depth is then negative, and the depth of a character is taken
to be zero.
-/

namespace PugContracts.Scan

/-- What the scanner is in the middle of. -/
inductive Mode where
  /-- Expression text. -/
  | code
  /-- A string literal that ends at the next `mark`. -/
  | quoted (mark : Char)
  /-- The character after a backslash in a string literal. -/
  | escaped (mark : Char)
  /-- A comment that ends with the line. -/
  | lineComment
  /-- The star that belongs to the start of a block comment. -/
  | blockOpen
  /-- A comment that ends at the next star and slash. -/
  | blockComment
  /-- The slash that belongs to the end of a block comment. -/
  | blockClose
  deriving DecidableEq, Repr

/-- The state of the scanner between two characters. -/
structure State where
  /-- What the scanner is in the middle of. -/
  mode : Mode := .code
  /-- Opening brackets less closing brackets so far. -/
  depth : Int := 0
  deriving DecidableEq, Repr

namespace State

/-- The state in which expression text is entered. -/
def start : State := {}

/-- The text so far ends inside a string literal. -/
def inString (s : State) : Bool :=
  match s.mode with
  | .quoted _ | .escaped _ => true
  | _ => false

/-- The text so far ends inside a block comment. -/
def inComment (s : State) : Bool :=
  match s.mode with
  | .blockOpen | .blockComment | .blockClose => true
  | _ => false

/-- The text so far closes all it opens. -/
def isBalanced (s : State) : Bool :=
  s.depth == 0 && !s.inString && !s.inComment

end State

/-- An opening bracket. -/
def isOpener (c : Char) : Bool :=
  c == '(' || c == '[' || c == '{'

/-- A closing bracket. -/
def isCloser (c : Char) : Bool :=
  c == ')' || c == ']' || c == '}'

/-- A character that starts a string literal. -/
def isQuote (c : Char) : Bool :=
  c == '"' || c == '\'' || c == '\x60'

/-- Read one character of code: the depth around it and the state after it. -/
def stepCode (depth : Int) (c : Char) : Nat × State :=
  if isCloser c then ((depth - 1).toNat, ⟨.code, depth - 1⟩)
  else if isOpener c then (depth.toNat, ⟨.code, depth + 1⟩)
  else if isQuote c then (depth.toNat, ⟨.quoted c, depth⟩)
  else (depth.toNat, ⟨.code, depth⟩)

/-- Read the character `c`, which `next` follows. The first component is the depth around `c` if
`c` is code. Comments are recognised only when `comments` is set. -/
def step (comments : Bool) (s : State) (c : Char) (next : Option Char) : Option Nat × State :=
  match s.mode with
  | .quoted mark =>
    if c = '\\' then (none, ⟨.escaped mark, s.depth⟩)
    else if c = mark then (none, ⟨.code, s.depth⟩)
    else (none, s)
  | .escaped mark => (none, ⟨.quoted mark, s.depth⟩)
  | .lineComment => if c = '\n' then (none, ⟨.code, s.depth⟩) else (none, s)
  | .blockOpen => (none, ⟨.blockComment, s.depth⟩)
  | .blockComment =>
    if c = '*' ∧ next = some '/' then (none, ⟨.blockClose, s.depth⟩) else (none, s)
  | .blockClose => (none, ⟨.code, s.depth⟩)
  | .code =>
    if comments = true ∧ c = '/' ∧ next = some '/' then (none, ⟨.lineComment, s.depth⟩)
    else if comments = true ∧ c = '/' ∧ next = some '*' then (none, ⟨.blockOpen, s.depth⟩)
    else
      let (depth, after) := stepCode s.depth c
      (some depth, after)

/-- The state after reading `cs` from the state `s`. -/
def endState (comments : Bool) (s : State) : List Char → State
  | [] => s
  | c :: rest => endState comments (step comments s c rest.head?).2 rest

/-- A character together with the depth around it, if it is code. -/
structure Mark where
  /-- The character. -/
  char : Char
  /-- The depth around it; absent in string literals and comments. -/
  depth? : Option Nat
  deriving DecidableEq, Repr

/-- The characters of `cs`, labelled by a reading that starts in the state `s`. -/
def marks (comments : Bool) (s : State) : List Char → List Mark
  | [] => []
  | c :: rest =>
    let (depth?, after) := step comments s c rest.head?
    ⟨c, depth?⟩ :: marks comments after rest

/-- The text closes all it opens. -/
def isBalanced (comments : Bool) (cs : List Char) : Bool :=
  (endState comments .start cs).isBalanced

/-- Read `cs` up to and with the first code character that satisfies `stop`: the labels of what
was read, and the state after it. -/
def readUntil (comments : Bool) (stop : Char → Bool) (s : State) :
    List Char → List Mark × State
  | [] => ([], s)
  | c :: rest =>
    let (depth?, after) := step comments s c rest.head?
    if depth?.isSome && stop c then ([⟨c, depth?⟩], after)
    else
      let (more, final) := readUntil comments stop after rest
      (⟨c, depth?⟩ :: more, final)

end PugContracts.Scan
