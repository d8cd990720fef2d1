import PugContracts.Template.Node

/-!
# Outlines

The outline of a forest shows each node on a line of its own, two spaces deeper than its parent,
followed by the name of its file and its line. A branch that is rendered otherwise stands after the
word `else`.
-/

namespace PugContracts.Template

/-- What an outline shows of a node's own content. -/
def NodeKind.summary : NodeKind → String
  | .element name _ _ => name
  | .text value => "| " ++ value
  | .code value buffered _ => (if buffered then "= " else "- ") ++ value
  | .each item (some key) collection => "each " ++ item ++ ", " ++ key ++ " in " ++ collection
  | .each item none collection => "each " ++ item ++ " in " ++ collection
  | .loop test => "while " ++ test
  | .conditional test negated => (if negated then "unless " else "if ") ++ test
  | .inherits target => "extends " ++ target
  | .inclusion target _ => "include " ++ target
  | .region name _ => "block " ++ name
  | .mixin name args => "mixin " ++ name ++ "(" ++ args.getD "" ++ ")"
  | .mixinCall name args => "+" ++ name ++ "(" ++ args.getD "" ++ ")"
  | .comment value _ => "// " ++ value
  | .filter name => ":" ++ name
  | .doctype value => "doctype " ++ value

/-- The file name of a stamped node; a question mark for any other. -/
def originName (file : Option Path) : String :=
  (file.bind Path.fileName?).getD "?"

/-- The indentation of a line `depth` levels down. -/
def outlineIndent (depth : Nat) : String :=
  String.ofList (List.replicate (2 * depth) ' ')

mutual

/-- The outline of one tree. -/
def Node.outline (depth : Nat) : Node → String
  | ⟨kind, line, file, children, alternate⟩ =>
    outlineIndent depth ++ kind.summary ++
      "  [" ++ originName file ++ ":" ++ toString line ++ "]\n" ++
      outlineFrom (depth + 1) children ++
      (if alternate.isEmpty then ""
        else outlineIndent depth ++ "else\n" ++ outlineFrom (depth + 1) alternate)

/-- The outlines of a list of trees, one after the other. -/
def outlineFrom (depth : Nat) : List Node → String
  | [] => ""
  | node :: rest => node.outline depth ++ outlineFrom depth rest

end

/-- The outline of a forest. -/
def outline (nodes : List Node) : String :=
  outlineFrom 0 nodes

end PugContracts.Template
