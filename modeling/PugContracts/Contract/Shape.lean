import PugContracts.Scan.Comment
import PugContracts.Scan.Cut

/-!
# Shapes

The shape that a template expects is a type of the host language. Types are not evaluated here. If
the text is a single object literal, its members are read: their names become variables of the
generated program. Any other type stands for itself and has no known members.
-/

namespace PugContracts.Contract

/-- A member of an object literal. -/
structure ShapeField where
  /-- The name, without quotes. -/
  name : String
  /-- The text of the type. -/
  typeText : String
  /-- Whether the member may be absent. -/
  optional : Bool
  deriving DecidableEq, Repr

/-- Whether a name is an identifier of ASCII letters, digits, `_` and `$`. -/
def isIdentifier (name : String) : Bool :=
  let isStart (c : Char) : Bool := c.isAlpha || c == '_' || c == '$'
  match name.toList with
  | [] => false
  | c :: rest => isStart c && rest.all fun c => isStart c || c.isDigit

namespace ShapeField

/-- Whether the member can be destructured by its name. -/
def isIdentifier (field : ShapeField) : Bool :=
  Contract.isIdentifier field.name

/-! ### Members -/

/-- The text between two quotes of the same sort; the text itself if it is not quoted. -/
def unquote (text : List Char) : List Char :=
  let inner? (quote : Char) : Option (List Char) :=
    (Text.afterPrefix? [quote] text).bind (Text.beforeSuffix? [quote])
  ((inner? '"').orElse fun _ => inner? '\'').getD text

/-- Take the parameters of a method from its name to its type. -/
def splitMethod (head type : List Char) : List Char × List Char :=
  match Text.cutAtChar? '(' head with
  | some (name, parameters) => (Text.trim name, '(' :: parameters ++ ": ".toList ++ type)
  | none => (head, type)

/-- Take the question mark from an optional name. -/
def splitOptional (head : List Char) : List Char × Bool :=
  match Text.beforeSuffix? ['?'] head with
  | some name => (Text.trimEnd name, true)
  | none => (head, false)

/-- Read a member `[readonly ]name[?]: type`. An index signature is no member. -/
def read? (member : List Char) : Option ShapeField :=
  let member := Text.trim member
  if member.isEmpty || member.head? == some '[' then none
  else
    match Scan.pieces false ':' member with
    | head :: next :: rest =>
      let type := Text.trim ((next :: rest).intersperse [':']).flatten
      let head := Text.trim head
      let head := ((Text.afterPrefix? "readonly ".toList head).map Text.trim).getD head
      let (head, type) := splitMethod head type
      let (head, optional) := splitOptional head
      let name := unquote head
      if name.isEmpty then none
      else some ⟨String.ofList name, String.ofList type, optional⟩
    | _ => none

end ShapeField

/-! ### Shapes -/

/-- What is known of an expected shape. -/
structure Shape where
  /-- The members of the object literal, in order. -/
  fields : List ShapeField
  /-- Whether the text is a single object literal. -/
  objectLiteral : Bool
  deriving DecidableEq, Repr

namespace Shape

/-- A shape of which nothing is known. -/
def opaqueType : Shape :=
  ⟨[], false⟩

/-- An object literal without members. -/
def emptyLiteral : Shape :=
  ⟨[], true⟩

/-- Read the text of a shape. Members are separated by semicolons or commas. -/
def ofText (text : List Char) : Shape :=
  let trimmed := Text.trim (Scan.stripComments text)
  let trimmed := Text.trimEnd (Text.dropTrailing (· == ';') trimmed)
  match trimmed with
  | '{' :: _ =>
    match Scan.group? trimmed with
    | some (inner, []) =>
      let members := (Scan.pieces false ';' inner).flatMap (Scan.pieces false ',')
      ⟨members.filterMap ShapeField.read?, true⟩
    | _ => opaqueType
  | _ => opaqueType

/-- The first member with a name. -/
def field? (shape : Shape) (name : String) : Option ShapeField :=
  shape.fields.find? (·.name == name)

end Shape

end PugContracts.Contract
