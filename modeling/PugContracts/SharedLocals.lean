import PugContracts.Contract.Shape
import PugContracts.Disk.Basic

/-!
# Shared locals

A project usually passes a few values to all its templates. Their type is declared once in a
declaration file, as `type Name = { ... }` or `interface Name { ... }`. Every generated program
imports the type, and its members are variables of every template.
-/

namespace PugContracts

/-- The type of the values that all templates share. -/
structure SharedLocals where
  /-- The declaration file. -/
  importPath : Path
  /-- The name of the type. -/
  typeName : String
  /-- The members that can be variables. -/
  fields : List String
  deriving DecidableEq, Repr

namespace SharedLocals

/-! ### Finding the declaration -/

/-- What follows the keyword `word` and at least one blank. -/
def afterWord? (word : String) (cs : List Char) : Option (List Char) :=
  match Text.afterPrefix? word.toList cs with
  | some (c :: rest) => if Text.isBlank c then some (Text.trimStart rest) else none
  | _ => none

/-- What follows `word`, or the text itself if it does not start with it. -/
def skipWord (word : String) (cs : List Char) : List Char :=
  (afterWord? word cs).getD cs

/-- What follows blanks and `name`, with as many blanks before the name as there can be. -/
def afterName? (name : List Char) : List Char → Option (List Char)
  | [] => if name.isEmpty then some [] else none
  | c :: rest =>
    (if Text.isBlank c then afterName? name rest else none).orElse fun _ =>
      Text.afterPrefix? name (c :: rest)

/-- What follows a keyword, at least one blank, and the name of the type. -/
def afterDeclared? (word : String) (name : List Char) (cs : List Char) : Option (List Char) :=
  match Text.afterPrefix? word.toList cs with
  | some (c :: rest) => if Text.isBlank c then afterName? name rest else none
  | _ => none

/-- What follows type parameters, or the text itself if there are none. -/
def skipParameters (cs : List Char) : List Char :=
  match cs with
  | '<' :: rest => ((Text.cutAtChar? '>' rest).map Prod.snd).getD cs
  | _ => cs

/-- The members after the head of a type alias, from their opening brace on. -/
def aliasBody? (cs : List Char) : Option (List Char) :=
  match Text.trimStart (skipParameters (Text.trimStart cs)) with
  | '=' :: rest =>
    match Text.trimStart rest with
    | '{' :: body => some ('{' :: body)
    | _ => none
  | _ => none

/-- The members after the head of an interface, from their opening brace on. -/
def interfaceBody? (cs : List Char) : Option (List Char) :=
  match Text.trimStart (skipParameters (Text.trimStart cs)) with
  | '{' :: body => some ('{' :: body)
  | rest =>
    match Text.afterPrefix? "extends".toList rest with
    | some (c :: bases) =>
      if Text.isBlank c then
        match Text.cutAtChar? '{' (Text.trimStart bases) with
        | some (_ :: _, body) => some ('{' :: body)
        | some ([], body) =>
          -- The bases may also be the last of several blanks.
          if (bases.head?.any Text.isBlank) then some ('{' :: body) else none
        | none => none
      else none
    | _ => none

/-- The members declared at the start of a text, blanks aside. -/
def declarationBody? (name : List Char) (cs : List Char) : Option (List Char) :=
  let cs := skipWord "declare" (skipWord "export" (Text.trimStart cs))
  ((afterDeclared? "type" name cs).bind aliasBody?).orElse fun _ =>
    (afterDeclared? "interface" name cs).bind interfaceBody?

/-- The members of the first declaration of `name` that starts a line. -/
def findBody? (name : List Char) (cs : List Char) : Option (List Char) :=
  (declarationBody? name cs).orElse fun _ => later cs
where
  /-- The same after a newline. -/
  later : List Char → Option (List Char)
    | [] => none
    | c :: rest =>
      if c = '\n' then (declarationBody? name rest).orElse fun _ => later rest else later rest

/-- The members of the declaration of a type that can be variables, if it is declared. -/
def fieldsOf? (text : String) (typeName : String) : Option (List String) := do
  let body ← findBody? typeName.toList text.toList
  let (inner, _) ← Scan.group? body
  let shape := Contract.Shape.ofText ('{' :: inner ++ ['}'])
  return (shape.fields.filter (·.isIdentifier)).map (·.name)

/-! ### Loading -/

/-- Read the declaration of a type. -/
def load (d : Disk) (importPath : Path) (typeName : String) : Except Failure SharedLocals :=
  match d.readText importPath with
  | .error e => .error (Disk.failing ("Failed to read shared locals file: " ++ importPath.text) e)
  | .ok text =>
    match fieldsOf? text typeName with
    | none => .error (.run (.sharedLocalsNotFound typeName importPath))
    | some fields => .ok ⟨importPath, typeName, fields⟩

/-- The module of the declaration file: its path without the extension. -/
def moduleName (shared : SharedLocals) : String :=
  let path := shared.importPath.text.toList.map fun c => if c = '\\' then '/' else c
  let stem? (extension : String) : Option (List Char) := Text.beforeSuffix? extension.toList path
  String.ofList (((stem? ".d.ts").orElse fun _ => stem? ".ts").getD path)

/-- The statement that imports the type. -/
def importStatement (shared : SharedLocals) : String :=
  "import type \x7b " ++ shared.typeName ++ " \x7d from \"" ++ shared.moduleName ++ "\";"

end SharedLocals

end PugContracts
