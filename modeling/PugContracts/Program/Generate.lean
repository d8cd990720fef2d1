import PugContracts.Contract.Basic
import PugContracts.Program.LineMap
import PugContracts.SharedLocals

/-!
# Generating a program

The program of a template is one function whose parameter has the type that the contract expects.
Each expression of the template stands where the template evaluates it, so that a type checker sees
it with the variables that are in scope there: loop variables, parameters of mixins, declarations of
earlier code. Markup is left out, and a value is only mentioned, as in `void (value);`.

The program is never run. Every construct has a rendition; one without a typed meaning becomes a
comment.
-/

namespace PugContracts.Program

open Template

/-! ### Texts -/

/-- The characters of text inside a template literal. Backslashes, backticks and the start of a
substitution lose their meaning; line terminators other than the newline are written as escapes, so
that the literal has as many lines as the text has newlines. -/
def escapeTemplateLiteral : List Char → List Char
  | [] => []
  | '$' :: '{' :: rest => '\\' :: '$' :: '{' :: escapeTemplateLiteral rest
  | c :: rest =>
    let written :=
      if c = '\\' then ['\\', '\\']
      else if c = '\x60' then ['\\', '\x60']
      else if c = '\r' then ['\\', 'r']
      else if c = '\u2028' then "\\u2028".toList
      else if c = '\u2029' then "\\u2029".toList
      else [c]
    written ++ escapeTemplateLiteral rest

/-- The name of the function that a mixin becomes. -/
def mixinFunction (name : String) : String :=
  "mixin_" ++ String.ofList (name.toList.map fun c =>
    if c.isAlphanum || c == '_' || c == '$' then c else '_')

/-- A parameter of a mixin as it is declared. One without a type or a default value may be anything,
or left out. -/
def mixinParameter (parameter : List Char) : List Char :=
  match Text.afterPrefix? "...".toList parameter with
  | some rest =>
    if rest.contains ':' then parameter
    else "...".toList ++ Text.trim rest ++ ": any[]".toList
  | none =>
    if parameter.contains ':' || parameter.contains '=' then parameter
    else parameter ++ "?: any".toList

/-- Whether a parameter takes all arguments that are left. -/
def isRest (parameter : List Char) : Bool :=
  "...".toList.isPrefixOf parameter

/-- The parameters of a mixin. A mixin takes any number of arguments. -/
def mixinParameters (args : String) : String :=
  let given := ((Scan.pieces false ',' args.toList).map Text.trim).filter (!·.isEmpty)
  let last := if given.any isRest then [] else ["..._rest: any[]"]
  ", ".intercalate (given.map (fun parameter => String.ofList (mixinParameter parameter)) ++ last)

/-- An expression without blanks around it and without semicolons at its end. -/
def bareExpression (value : String) : String :=
  String.ofList (Text.trimEnd (Text.dropTrailing (· == ';') (Text.trim value.toList)))

/-- A text without blanks around it. -/
def trimmed (value : String) : String :=
  String.ofList (Text.trim value.toList)

/-- The statement that mentions a value. -/
def mention (expression : String) : String :=
  "void (" ++ expression ++ ");"

/-- Elements whose content is written in another language. -/
def rawTextElements : List String :=
  ["script", "style"]

/-- The variables that a mixin has besides its parameters. -/
def mixinLocals : String :=
  "const attributes: Record<string, any> = \x7b\x7d; " ++
    "const block = undefined as undefined | (() => void);"

/-! ### Steps -/

/-- The step that adds a text. -/
def pushing (origin : Origin) (text : String) : Step :=
  .push text.toList origin

/-- Steps one level deeper. -/
def deeper (steps : List Step) : List Step :=
  .indent :: steps ++ [.dedent]

/-- A block: its head, its content one level deeper and its closing brace. -/
def blockSteps (origin : Origin) (head : String) (content : List Step) : List Step :=
  pushing origin head :: deeper content ++ [pushing origin "\x7d"]

/-- The origin of the first node of a branch. -/
def branchOrigin (fallback : Path) (default : Origin) (branch : List Node) : Origin :=
  (branch.head?.map (Origin.ofNode · fallback)).getD default

/-- The steps for a node, given those for its children and for its alternate. -/
def kindSteps (origin otherwise : Origin) (kind : NodeKind) (isLeaf branches : Bool)
    (children alternate : List Step) : List Step :=
  match kind with
  | .element name attributes spreads =>
    attributes.map (fun a => pushing origin (mention (trimmed a.value))) ++
      spreads.map (fun expression => pushing origin (mention (trimmed expression))) ++
      (if rawTextElements.contains name then [] else children)
  | .text value =>
    [.push ("void `".toList ++ escapeTemplateLiteral value.toList ++ "`;".toList) origin]
  | .code value true _ => pushing origin (mention (bareExpression value)) :: children
  | .code value false _ =>
    let statement := String.ofList (Text.trimEnd value.toList)
    if isLeaf || statement.toList.getLast? == some '{' then pushing origin statement :: children
    else blockSteps origin (statement ++ " \x7b") children
  | .each item key collection =>
    let head :=
      match key with
      | some key =>
        "for (const [" ++ key ++ ", " ++ item ++ "] of Object.entries(" ++ collection ++ ")) \x7b"
      | none => "for (const " ++ item ++ " of " ++ collection ++ ") \x7b"
    blockSteps origin head children ++
      (if branches then blockSteps otherwise "\x7b" alternate else [])
  | .loop test => blockSteps origin ("while (" ++ test ++ ") \x7b") children
  | .conditional test negated =>
    let head := if negated then "if (!(" ++ test ++ ")) \x7b" else "if (" ++ test ++ ") \x7b"
    pushing origin head :: deeper children ++
      (if branches then pushing otherwise "\x7d else \x7b" :: deeper alternate else []) ++
      [pushing origin "\x7d"]
  | .region _ _ => children
  | .mixin name args =>
    let head :=
      "function " ++ mixinFunction name ++ "(" ++ mixinParameters (args.getD "") ++ ") \x7b"
    blockSteps origin head (pushing origin mixinLocals :: children)
  | .mixinCall name args =>
    pushing origin (mixinFunction name ++ "(" ++ trimmed (args.getD "") ++ ");") :: children
  | .comment _ _ => []
  | .filter _ | .doctype _ | .inherits _ | .inclusion _ _ =>
    [pushing origin ("// pugcheck: " ++ kind.label ++ " skipped")]

mutual

/-- The steps for a tree. Nodes that are not stamped belong to the file `fallback`. -/
def nodeSteps (fallback : Path) : Node → List Step
  | ⟨kind, line, file, children, alternate⟩ =>
    let origin := ⟨file.getD fallback, line⟩
    kindSteps origin (branchOrigin fallback origin alternate) kind children.isEmpty
      (!alternate.isEmpty) (nodesSteps fallback children) (nodesSteps fallback alternate)

/-- The steps for a list of trees. -/
def nodesSteps (fallback : Path) : List Node → List Step
  | [] => []
  | node :: rest => nodeSteps fallback node ++ nodesSteps fallback rest

end

/-! ### Programs -/

/-- The names in `names` that are not in `known`, each once, after `known`. -/
def addNames (known : List String) (names : List String) : List String :=
  names.foldl (fun known name => if known.contains name then known else known ++ [name]) known

/-- The variables of a template: the members of its shape that can be variables, and those of the
shared locals. -/
def localNames (contract : Contract) (shared : Option SharedLocals) : List String :=
  let own := (contract.shape.fields.filter (·.isIdentifier)).map (·.name)
  addNames (addNames [] own) ((shared.map SharedLocals.fields).getD [])

/-- The type of a template's input. -/
def localsType (contract : Contract) (shared : Option SharedLocals) : String :=
  match shared with
  | some shared => contract.rawExpects ++ " & " ++ shared.typeName
  | none => contract.rawExpects

/-- The statements before the function. -/
def preamble (contract : Contract) (shared : Option SharedLocals) : List String :=
  ("// pugcheck: generated from " ++ contract.template.text) ::
    contract.imports.map (·.absoluteStatement) ++ (shared.map (·.importStatement)).toList

/-- The steps for a program. -/
def programSteps (tree : List Node) (contract : Contract) (shared : Option SharedLocals) :
    List Step :=
  let signature : Origin := ⟨contract.template, contract.expectsLine.getD 1⟩
  let names := ", ".intercalate (localNames contract shared)
  (preamble contract shared).map (pushing .contract) ++
    [pushing signature
      ("export function render(locals: " ++ localsType contract shared ++ ") \x7b"), .indent,
      pushing signature ("const \x7b " ++ names ++ " \x7d = locals;")] ++
    nodesSteps contract.template tree ++ [.dedent, pushing signature "\x7d"]

/-- The program for a resolved tree. -/
def generate (tree : List Node) (contract : Contract) (shared : Option SharedLocals) : Program :=
  ⟨contract.template, layout 0 (programSteps tree contract shared)⟩

end PugContracts.Program
