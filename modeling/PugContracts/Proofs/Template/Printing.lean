import PugContracts.Template.Parser

/-!
# Printing a template

A forest is printed with each node on a line of its own, two spaces deeper than the node that it is
nested in. The line is the *head* of the node, which is determined by its kind up to a few spellings
(`NodeKind.head`). A branch of a conditional that is one further conditional continues the chain, on
an `else if` line; any other branch stands below an `else`.

A template has constructs that cannot be given back by a printer of this sort, and texts that are
read as something else where they stand. `NodeKind.isPrintable` says for each kind which texts are
read back as themselves. `numberedAll` gives the nodes the numbers of the lines that they are
printed on.
-/

namespace PugContracts.Template

/-! ### Texts -/

/-- A text on one line without blanks around it, and not empty. -/
def isPhrase (text : List Char) : Bool :=
  !text.isEmpty && !text.contains '\n' && Text.trim text == text

/-- A text on one line that holds something, has no blanks at its end and no interpolation. -/
def isPlainText (text : List Char) : Bool :=
  !text.isEmpty && !text.contains '\n' && Text.trimEnd text == text &&
    !Text.hasPiece "#\x7b".toList text && !Text.hasPiece "!\x7b".toList text

/-- The words that start a statement by themselves. -/
def keywords : List String :=
  ["doctype", "extends", "extend", "include", "block", "mixin", "each", "for", "while", "if",
    "unless", "else"]

/-- The name of a tag that is no keyword, and does not start like a file that is included through a
filter. -/
def isPlainTag (name : String) : Bool :=
  name.toList.head?.any Char.isAlpha && splitTagName name.toList == (name.toList, []) &&
    !keywords.contains name && !"include:".toList.isPrefixOf name.toList

/-- The rest of a text, read from the state `s`, closes all that is open, and nothing else. -/
def closesFrom (s : Scan.State) : List Char → Bool
  | [] => s.isBalanced
  | c :: rest =>
    let after := (Scan.step false s c rest.head?).2
    decide (0 ≤ after.depth) && closesFrom after rest

/-- A text that closes all it opens, and nothing else. -/
def isNested (text : List Char) : Bool :=
  closesFrom .start text

/-- A variable of a loop: a closed phrase without a comma outside its brackets. -/
def isLoopVariable (text : List Char) : Bool :=
  isPhrase text && Scan.isBalanced false text && Scan.pieces false ',' text == [text]

/-- The name of a mixin: it holds neither blanks nor an opening parenthesis. -/
def isMixinName (name : List Char) : Bool :=
  !name.isEmpty && name.all (!Statement.endsCallName ·)

/-- The arguments of a mixin, which may be empty. -/
def isArguments (text : List Char) : Bool :=
  !text.contains '\n' && Text.trim text == text && isNested text

/-- A text that starts with the mode of a region. -/
def startsWithMode (text : List Char) : Bool :=
  (afterKeyword? RegionMode.append.label [] text).isSome ||
    (afterKeyword? RegionMode.prepend.label [] text).isSome

/-! ### Heads -/

/-- Which of several spellings is printed. -/
structure Spelling where
  /-- Loops start with `for` instead of `each`. -/
  forLoops : Bool
  /-- Regions that add to others start with their mode instead of `block`. -/
  shortRegions : Bool
  deriving DecidableEq, Repr

namespace NodeKind

/-- The variables of a loop as they are written. -/
def bindings (item : String) : Option String → String
  | some key => item ++ ", " ++ key
  | none => item

/-- The first `in` between blanks after the variables of a loop is the one that follows them. -/
def endsBindings (bindings : List Char) : Bool :=
  Scan.breakAt? Statement.loopWord.isPrefixOf (bindings ++ Statement.loopWord) ==
    some (bindings, Statement.loopWord)

/-- What stands on the line of a node. -/
def head (spelling : Spelling) : NodeKind → String
  | .element name _ _ => name
  | .text value => "| " ++ value
  | .code value true escaped => (if escaped then "= " else "!= ") ++ value
  | .code value false _ => "- " ++ value
  | .each item key collection =>
    (if spelling.forLoops then "for " else "each ") ++ bindings item key ++ " in " ++ collection
  | .loop test => "while " ++ test
  | .conditional test negated => (if negated then "unless " else "if ") ++ test
  | .inclusion target _ => "include " ++ target
  | .region name .replace => "block " ++ name
  | .region name mode =>
    (if spelling.shortRegions then "" else "block ") ++ mode.label ++ " " ++ name
  | .mixin name (some args) => "mixin " ++ name ++ "(" ++ args ++ ")"
  | .mixin name none => "mixin " ++ name
  | kind => kind.label

/-- What a node says of itself can be printed. -/
def isPrintable : NodeKind → Bool
  | .element name attributes spreads => isPlainTag name && attributes.isEmpty && spreads.isEmpty
  | .text value => isPlainText value.toList
  | .code value buffered escaped => isPhrase value.toList && (buffered || !escaped)
  | .each item key collection =>
    isLoopVariable item.toList && key.all (isLoopVariable ·.toList) &&
      endsBindings (bindings item key).toList && isPhrase collection.toList
  | .loop test | .conditional test _ => isPhrase test.toList
  | .inclusion target through => isPhrase target.toList && through.isNone
  | .region name mode => isPhrase name.toList && (mode != .replace || !startsWithMode name.toList)
  | .mixin name args => isMixinName name.toList && args.all (isArguments ·.toList)
  | _ => false

/-- The kinds in which nothing is nested. -/
def isLeaf : NodeKind → Bool
  | .text _ | .code _ true _ | .inclusion _ _ => true
  | _ => false

/-- The kinds that may have a branch that is rendered otherwise. -/
def isBranching : NodeKind → Bool
  | .conditional _ _ | .each _ _ _ => true
  | _ => false

/-- Whether the branch `alternate` continues a chain of conditionals. -/
def chains (kind : NodeKind) (alternate : List Node) : Bool :=
  match kind, alternate with
  | .conditional _ _, [⟨.conditional _ false, _, _, _, _⟩] => true
  | _, _ => false

/-- Whether the branch `alternate` stands below an `else`. -/
def needsElse (kind : NodeKind) (alternate : List Node) : Bool :=
  !alternate.isEmpty && !kind.chains alternate

end NodeKind

/-- A node that can be printed, whatever is nested in it. -/
def Node.isPrintable (node : Node) : Bool :=
  node.kind.isPrintable && (!node.kind.isLeaf || node.children.isEmpty) &&
    (node.kind.isBranching || node.alternate.isEmpty)

/-- A forest that can be printed. -/
def Printable (nodes : List Node) : Prop :=
  ∀ node ∈ walkAll nodes, node.isPrintable = true

instance (nodes : List Node) : Decidable (Printable nodes) :=
  inferInstanceAs (Decidable (∀ node ∈ walkAll nodes, _))

/-! ### Printing -/

/-- A printed line. -/
structure Row where
  /-- How many levels it is indented. -/
  depth : Nat
  /-- What stands on it. -/
  text : String
  deriving DecidableEq, Repr

/-- The characters of a printed line. -/
def Row.chars (row : Row) : List Char :=
  List.replicate (2 * row.depth) ' ' ++ row.text.toList

/-- The line of an `else`, if the branch needs one. -/
def elseRows (depth : Nat) (kind : NodeKind) (alternate : List Node) : List Row :=
  if kind.needsElse alternate then [⟨depth, "else"⟩] else []

mutual

/-- The lines of a tree; `opening` stands before its head. -/
def Node.rows (spelling : Spelling) (depth : Nat) (opening : String) : Node → List Row
  | ⟨kind, _, _, children, alternate⟩ =>
    ⟨depth, opening ++ kind.head spelling⟩ :: (rowsAll spelling (depth + 1) "" children ++
      (elseRows depth kind alternate ++
        if kind.chains alternate then rowsAll spelling depth "else " alternate
        else rowsAll spelling (depth + 1) "" alternate))

/-- The lines of a list of trees. -/
def rowsAll (spelling : Spelling) (depth : Nat) (opening : String) : List Node → List Row
  | [] => []
  | node :: rest => node.rows spelling depth opening ++ rowsAll spelling depth opening rest

end

/-- The text of a forest; each line ends with a newline. -/
def print (spelling : Spelling) (nodes : List Node) : String :=
  String.ofList ((rowsAll spelling 0 "" nodes).flatMap fun row => row.chars ++ ['\n'])

/-! ### Numbering -/

mutual

/-- The number of lines on which a tree is printed. -/
def Node.height : Node → Nat
  | ⟨kind, _, _, children, alternate⟩ =>
    1 + heightAll children + (kind.needsElse alternate).toNat + heightAll alternate

/-- The number of lines on which a list of trees is printed. -/
def heightAll : List Node → Nat
  | [] => 0
  | node :: rest => node.height + heightAll rest

end

mutual

/-- The tree with the numbers of the lines that it is printed on, `first` being that of its head. It
does not say in which file these lines are. -/
def Node.numbered (first : Nat) : Node → Node
  | ⟨kind, _, _, children, alternate⟩ =>
    ⟨kind, first, none, numberedAll (first + 1) children,
      numberedAll (first + 1 + heightAll children + (kind.needsElse alternate).toNat) alternate⟩

/-- The trees of a list with the numbers of the lines that they are printed on. -/
def numberedAll (first : Nat) : List Node → List Node
  | [] => []
  | node :: rest => node.numbered first :: numberedAll (first + node.height) rest

end

end PugContracts.Template
