/-!
# Faults in template lines

Reading a template never stops at a malformed line. What was wrong with it is a `Fault`; a
`SyntaxError` is a fault with its line.
-/

namespace PugContracts.Template

/-- What can be wrong with a template line. -/
inductive Fault where
  /-- The line is deeper than its siblings. -/
  | unexpectedIndentation
  /-- The directive that names a parent names none. -/
  | missingParent (keyword : String)
  /-- The directive that includes a file names none. -/
  | missingInclude
  /-- The definition of a mixin has no name. -/
  | unnamedMixin
  /-- The call of a mixin has no name. -/
  | unnamedMixinCall
  /-- A loop header is not of the form `item[, key] in collection`. -/
  | malformedLoop (keyword : String)
  /-- A conditional has no condition. -/
  | missingCondition (keyword : String)
  /-- Something other than a further condition follows `else`. -/
  | textAfterElse (rest : String)
  /-- No conditional or loop precedes that could take the branch. -/
  | strayElse
  /-- The template ends inside an attribute list. -/
  | unclosedAttributes
  /-- An interpolation does not end; the column counts bytes from one. -/
  | unterminatedInterpolation (column : Nat)
  /-- The line starts like no construct. -/
  | unexpectedText (preview : String)
  /-- A tag is followed by something that cannot follow it. -/
  | unexpectedCharacter (char : Char) (tag : String)
  /-- No tag follows the colon of a block expansion. -/
  | missingNestedTag
  /-- An attribute list holds an attribute without a name. -/
  | malformedAttributes (list : String)
  /-- An attribute has an equals sign and no value. -/
  | missingValue (name : String)
  deriving DecidableEq, Repr

/-- The wording of a fault. -/
def Fault.message : Fault → String
  | unexpectedIndentation => "unexpected indentation"
  | missingParent keyword => "`" ++ keyword ++ "` requires a template path"
  | missingInclude => "`include` requires a path"
  | unnamedMixin => "mixin definition requires a name"
  | unnamedMixinCall => "mixin call requires a name"
  | malformedLoop keyword =>
    "malformed `" ++ keyword ++ "`: expected `" ++ keyword ++ " item[, key] in collection`"
  | missingCondition keyword => "`" ++ keyword ++ "` requires a condition"
  | textAfterElse rest => "unexpected text after `else`: " ++ rest
  | strayElse => "`else` without a matching `if`, `unless` or `each`"
  | unclosedAttributes => "unclosed attribute list"
  | unterminatedInterpolation column =>
    "unterminated interpolation at column " ++ toString column
  | unexpectedText preview => "unexpected text `" ++ preview ++ "`"
  | unexpectedCharacter char tag =>
    "unexpected character `" ++ String.ofList [char] ++ "` after tag `" ++ tag ++ "`"
  | missingNestedTag => "expected a nested tag after `:`"
  | malformedAttributes list => "malformed attribute list `" ++ list ++ "`"
  | missingValue name => "attribute `" ++ name ++ "` is missing a value"

/-- A malformed line of a template. -/
structure SyntaxError where
  /-- The line, counted from one. -/
  line : Nat
  /-- What is wrong with it. -/
  fault : Fault
  deriving DecidableEq, Repr

end PugContracts.Template
