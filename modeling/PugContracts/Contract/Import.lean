import PugContracts.Path.Basic

/-!
# Imports

A contract may name types of other modules. An import directive has the form
`import <bindings> from "<module>"`; it is repeated at the head of the generated program, with a
module given by a path made absolute.
-/

namespace PugContracts.Contract

/-- Why a directive is no import. -/
inductive ImportFault where
  /-- The statement does not have the form of an import. -/
  | malformed (statement : String)
  /-- The statement binds no name. -/
  | bindsNothing (statement : String)
  deriving DecidableEq, Repr

/-- The wording of a fault. -/
def ImportFault.message : ImportFault → String
  | malformed statement =>
    "malformed import `" ++ statement ++ "`: expected `import ... from \"<module>\"`"
  | bindsNothing statement => "import `" ++ statement ++ "` does not bind any names"

/-- An import directive. -/
structure Import where
  /-- The statement as written. -/
  raw : String
  /-- What precedes `from`. -/
  clause : String
  /-- The names that the clause binds. -/
  symbols : List String
  /-- The module as written. -/
  source : String
  /-- Whether only types are imported. -/
  typeOnly : Bool
  /-- The template that holds the directive. -/
  file : Path
  /-- The line of the directive. -/
  line : Nat
  deriving DecidableEq, Repr

namespace Import

/-! ### Cutting a statement -/

/-- Whether nothing is left but blanks and at most one semicolon. -/
def endsStatement (cs : List Char) : Bool :=
  match Text.trimStart cs with
  | ';' :: rest => Text.isAllBlank rest
  | rest => rest.isEmpty

/-- A quotation mark around a module. -/
def isQuote (c : Char) : Bool :=
  c == '"' || c == '\''

/-- The module of a text that is `from "<module>"` between blanks, with the statement's end. -/
def module? (cs : List Char) : Option (List Char) :=
  if !cs.head?.any Text.isBlank then none
  else
    match Text.afterPrefix? "from".toList (Text.trimStart cs) with
    | none => none
    | some after =>
      if !after.head?.any Text.isBlank then none
      else
        match Text.trimStart after with
        | [] => none
        | quote :: rest =>
          let name := rest.takeWhile (!isQuote ·)
          let tail := (rest.dropWhile (!isQuote ·))
          if isQuote quote && !name.isEmpty && !tail.isEmpty && endsStatement (tail.drop 1) then
            some name
          else none

/-- Cut where the rest names the module: the bindings and the module. The bindings end at the first
such place and hold no newline. -/
def cut? : List Char → Option (List Char × List Char)
  | [] => none
  | c :: rest =>
    match module? (c :: rest) with
    | some name => some ([], name)
    | none =>
      if c = '\n' then none
      else (cut? rest).map fun (bindings, name) => (c :: bindings, name)

/-- The bindings of an import statement and its module. Between `import` and `from` at least one
further blank has to stand. -/
def bindings? (statement : List Char) : Option (List Char × List Char) :=
  match Text.afterPrefix? "import".toList statement with
  | none => none
  | some after =>
    let blanks := after.takeWhile Text.isBlank
    let rest := Text.trimStart after
    if blanks.isEmpty then none
    else
      match cut? rest with
      | some found => some found
      | none =>
        if blanks.length < 2 then none
        else (module? (' ' :: rest)).map fun name => ([], name)

/-! ### Names -/

/-- The parts of a list between commas, without blanks around them, that are not empty. -/
def parts (cs : List Char) : List (List Char) :=
  ((Text.splitAtEach (· == ',') cs).map Text.trim).filter (!·.isEmpty)

/-- The name bound by a default or namespace binding. -/
def outerName? (part : List Char) : Option (List Char) :=
  match part with
  | '*' :: rest => (Text.afterPrefix? "as ".toList (Text.trim rest)).map Text.trim
  | _ => some part

/-- The name bound by a binding in braces. -/
def namedName (spec : List Char) : List Char :=
  let spec := ((Text.afterPrefix? "type ".toList spec).map Text.trim).getD spec
  match Text.cutAt? " as ".toList spec with
  | some (_, bound) => Text.trim bound
  | none => spec

/-- What stands outside the first opening and the last closing brace, and what stands between. -/
def splitBraces (body : List Char) : List Char × List Char :=
  match Text.cutAtChar? '{' body with
  | none => (body, [])
  | some (before, inside) =>
    match Text.cutAtLast? '}' inside with
    | none => (body, [])
    | some (named, after) => (before ++ after, named)

/-- The names that bindings bind: first those outside the braces. -/
def symbolsOf (body : List Char) : List String :=
  let (outer, named) := splitBraces body
  ((parts outer).filterMap outerName? ++ (parts named).map namedName).map String.ofList

/-- The bindings without a leading `type`, and whether there is one. -/
def splitTypeOnly (body : List Char) : List Char × Bool :=
  match Text.afterPrefix? "type".toList body with
  | some (c :: rest) => if c = ' ' ∨ c = '{' then (Text.trim (c :: rest), true) else (body, false)
  | _ => (body, false)

/-! ### Reading -/

/-- The blanks between `import` and the bindings, as written. -/
def blanksAfterImport (statement : List Char) : List Char :=
  (statement.drop "import".length).takeWhile Text.isBlank

/-- Read an import statement that stands on a line of a template. -/
def read (statement : List Char) (file : Path) (line : Nat) : Except ImportFault Import :=
  let statement := Text.trim statement
  match bindings? statement with
  | none => .error (.malformed (String.ofList statement))
  | some (bindings, name) =>
    let (body, typeOnly) := splitTypeOnly (Text.trim bindings)
    let symbols := symbolsOf body
    if symbols.isEmpty then .error (.bindsNothing (String.ofList statement))
    else
      let clause := "import".toList ++ blanksAfterImport statement ++ bindings
      .ok ⟨String.ofList statement, String.ofList (Text.trim clause), symbols,
        String.ofList (Text.trim name), typeOnly, file, line⟩

/-! ### Modules -/

/-- Whether the module is given by a path. Any other is the name of a package. -/
def isPath (record : Import) : Bool :=
  "./".isPrefixOf record.source || "../".isPrefixOf record.source || "/".isPrefixOf record.source

/-- The path of the module, read from the directory of the template. -/
def modulePath (record : Import) : Path :=
  (record.file.parent.join ⟨record.source⟩).normalize

/-- A path as it is written in a program. -/
def slashed (p : Path) : String :=
  String.ofList (p.text.toList.map fun c => if c = '\\' then '/' else c)

/-- The statement with a module that does not depend on where the program is. -/
def absoluteStatement (record : Import) : String :=
  record.clause ++ " from \"" ++
    (if record.isPath then slashed record.modulePath else record.source) ++ "\";"

end Import

end PugContracts.Contract
