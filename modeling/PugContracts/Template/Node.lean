import PugContracts.Path.Basic

/-!
# Template trees

A `Node` is one construct of a template: an element, a line of text, an embedded statement, a loop,
a directive. What a construct says of itself is its `NodeKind`; nested constructs are its `children`
and, for the kinds that branch, its `alternate`. Each node knows the line it was read from and, once
it has been *stamped*, the file.

Trees are traversed in document order: a node, then its children, then its alternate.
-/

namespace PugContracts.Template

/-- How a region of a child template combines with the region of the same name in its parent. -/
inductive RegionMode where
  /-- The child's content takes the place of the parent's. -/
  | replace
  /-- The child's content comes after the parent's. -/
  | append
  /-- The child's content comes before the parent's. -/
  | prepend
  deriving DecidableEq, Repr, Inhabited

namespace RegionMode

/-- The name of a mode. -/
def label : RegionMode → String
  | replace => "replace"
  | append => "append"
  | prepend => "prepend"

end RegionMode

/-- An attribute of an element. The value is the text of an expression; a class or id shorthand has
a quoted string for a value, and an attribute without a value has `true`. -/
structure Attribute where
  /-- The name. -/
  name : String
  /-- The text of the value's expression. -/
  value : String
  /-- Whether the value is escaped when it is rendered. -/
  escaped : Bool
  deriving DecidableEq, Repr

/-- What a construct says of itself, its nested constructs aside. -/
inductive NodeKind where
  /-- A tag with its attributes and the expressions passed through `&attributes`. -/
  | element (name : String) (attributes : List Attribute) (spreads : List String)
  /-- Literal text. -/
  | text (value : String)
  /-- An expression that is printed (buffered) or a statement that is run. -/
  | code (value : String) (buffered escaped : Bool)
  /-- A loop over a collection; the alternate is rendered for an empty one. -/
  | each (item : String) (key : Option String) (collection : String)
  /-- A loop that runs while a test holds. -/
  | loop (test : String)
  /-- An `if`, or an `unless` when `negated`. -/
  | conditional (test : String) (negated : Bool)
  /-- The directive that names a parent template. -/
  | inherits (target : String)
  /-- The directive that includes a file, possibly through a filter. -/
  | inclusion (target : String) (filter : Option String)
  /-- A region that a child template may override. -/
  | region (name : String) (mode : RegionMode)
  /-- The definition of a mixin. -/
  | mixin (name : String) (args : Option String)
  /-- A call of a mixin. -/
  | mixinCall (name : String) (args : Option String)
  /-- A comment. -/
  | comment (value : String) (buffered : Bool)
  /-- Text in another markup language, which is not read. -/
  | filter (name : String)
  /-- A document type. -/
  | doctype (value : String)
  deriving DecidableEq, Repr

namespace NodeKind

/-- The word for a kind. -/
def label : NodeKind → String
  | element .. => "element"
  | text .. => "text"
  | code .. => "code"
  | each .. => "each"
  | loop .. => "while"
  | conditional .. => "conditional"
  | inherits .. => "extends"
  | inclusion .. => "include"
  | region .. => "block"
  | mixin .. => "mixin"
  | mixinCall .. => "mixin-call"
  | comment .. => "comment"
  | filter .. => "filter"
  | doctype .. => "doctype"

/-- The kinds that refer to another template. -/
def isDirective : NodeKind → Bool
  | inherits .. | inclusion .. => true
  | _ => false

end NodeKind

/-- One construct of a template with all that is nested in it. -/
structure Node where
  /-- What the construct says of itself. -/
  kind : NodeKind
  /-- The line it was read from, counted from one. -/
  line : Nat
  /-- The file it came from; absent until it is stamped. -/
  file : Option Path
  /-- The constructs nested in it. -/
  children : List Node
  /-- The branch rendered otherwise; empty for the kinds that do not branch. -/
  alternate : List Node

namespace Node

/-- A node without nested nodes, not yet stamped. -/
def leaf (kind : NodeKind) (line : Nat) : Node :=
  ⟨kind, line, none, [], []⟩

/-- The node with further children after those it has. -/
def addChildren (node : Node) (more : List Node) : Node :=
  { node with children := node.children ++ more }

/-- The name of a node that is a named region. -/
def regionName? (node : Node) : Option String :=
  match node.kind with
  | .region name _ => if name.isEmpty then none else some name
  | _ => none

end Node

/-! ### Stamping -/

mutual

/-- Say of a node and of all that is nested in it that it came from `file`. -/
def Node.stamp (file : Path) : Node → Node
  | ⟨kind, line, _, children, alternate⟩ =>
    ⟨kind, line, some file, stampAll file children, stampAll file alternate⟩

/-- Stamp every tree of a list. -/
def stampAll (file : Path) : List Node → List Node
  | [] => []
  | node :: rest => node.stamp file :: stampAll file rest

end

/-! ### Document order -/

mutual

/-- A node and all that is nested in it, in document order. -/
def Node.walk : Node → List Node
  | ⟨kind, line, file, children, alternate⟩ =>
    ⟨kind, line, file, children, alternate⟩ :: (walkAll children ++ walkAll alternate)

/-- All nodes of a list of trees, in document order. -/
def walkAll : List Node → List Node
  | [] => []
  | node :: rest => node.walk ++ walkAll rest

end

end PugContracts.Template
