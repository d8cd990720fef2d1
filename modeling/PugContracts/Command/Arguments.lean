import PugContracts.Path.Basic

/-!
# Reading the command line

A command line names a command, possibly with a subcommand, among options and paths:

```text
pugcheck [-v | -q] [-c FILE] check [--no-typecheck] [--no-cache] [-f FORMAT] [PATH]...
pugcheck [-v | -q] [-c FILE] generate [--tree | --raw] FILE
pugcheck [-v | -q] [-c FILE] deps [-f FORMAT] FILE
pugcheck [-v | -q] [-c FILE] cache (clear | info)
```

The arguments are read from left to right. The first one that asks for help or cannot be read ends
the reading. The options `-v`, `-q` and `-c` are understood before and after every command; an
option stands once at each of these places, and the last place decides.
-/

namespace PugContracts.Command

/-- How results are printed. -/
inductive Format where
  /-- For a reader. -/
  | text
  /-- For a program. -/
  | json
  deriving DecidableEq, Repr

/-- The format with a given name. -/
def Format.ofName? (name : String) : Option Format :=
  match name with
  | "text" => some .text
  | "json" => some .json
  | _ => none

/-- What is to be done. -/
inductive Task where
  /-- Check templates. -/
  | check (paths : List Path) (checkTypes useCache : Bool) (format : Format)
  /-- Print the program of a template. -/
  | generate (file : Path) (tree raw : Bool)
  /-- Show what a template depends on and what depends on it. -/
  | deps (file : Path) (format : Format)
  /-- Remove the cache. -/
  | clearCache
  /-- Describe the cache. -/
  | cacheInfo
  deriving DecidableEq, Repr

/-- A command line that has been read. -/
structure Request where
  /-- What is to be done. -/
  task : Task
  /-- The file of the settings, if one is given. -/
  config : Option Path
  deriving DecidableEq, Repr

/-- Why there is no command. -/
inductive Stop where
  /-- The command line asks for help or for the version. -/
  | help
  /-- The command line cannot be read. -/
  | misuse
  deriving DecidableEq, Repr

/-- The code to exit with. -/
def Stop.exitCode : Stop → Nat
  | help => 0
  | misuse => 2

/-! ### Places -/

/-- How far the commands have been named. -/
inductive Place where
  /-- No command has been named. -/
  | top
  /-- The command `check`. -/
  | check
  /-- The command `generate`. -/
  | generate
  /-- The command `deps`. -/
  | deps
  /-- The command `cache` without its subcommand. -/
  | cache
  /-- The command `cache clear`. -/
  | cacheClear
  /-- The command `cache info`. -/
  | cacheInfo
  deriving DecidableEq, Repr

/-- The commands that can be named at a place. -/
def Place.subcommands : Place → List (String × Place)
  | top => [("check", check), ("generate", generate), ("deps", deps), ("cache", cache)]
  | cache => [("clear", cacheClear), ("info", cacheInfo)]
  | check | generate | deps | cacheClear | cacheInfo => []

/-- How many paths can stand at a place; absent if there is no limit. -/
def Place.capacity : Place → Option Nat
  | check => none
  | generate | deps => some 1
  | top | cache | cacheClear | cacheInfo => some 0

/-! ### Options -/

/-- The options without a value. -/
inductive Switch where
  /-- Log more. -/
  | verbose
  /-- Log errors only. -/
  | quiet
  /-- Do not check types. -/
  | noTypecheck
  /-- Neither use nor save the cache. -/
  | noCache
  /-- Print the resolved tree too. -/
  | tree
  /-- Print the program as it is. -/
  | raw
  deriving DecidableEq, Repr

/-- The options with a value. -/
inductive Setting where
  /-- The file of the settings. -/
  | config
  /-- The format of results. -/
  | format
  deriving DecidableEq, Repr

/-- What an option does. -/
inductive Effect where
  /-- It asks for help or for the version. -/
  | help
  /-- It has no value. -/
  | switch (switch : Switch)
  /-- It has a value. -/
  | setting (setting : Setting)
  deriving DecidableEq, Repr

/-- An option. -/
structure Opt where
  /-- Its letter, if it has one. -/
  letter : Option Char
  /-- Its name. -/
  name : String
  /-- What it does. -/
  effect : Effect
  deriving DecidableEq, Repr

/-- The options that are understood everywhere. -/
def commonOptions : List Opt :=
  [⟨some 'h', "help", .help⟩, ⟨some 'v', "verbose", .switch .verbose⟩,
    ⟨some 'q', "quiet", .switch .quiet⟩, ⟨some 'c', "config", .setting .config⟩]

/-- The option for the format of results. -/
def formatOption : Opt :=
  ⟨some 'f', "format", .setting .format⟩

/-- The options of one place alone. -/
def Place.ownOptions : Place → List Opt
  | top => [⟨some 'V', "version", .help⟩]
  | check => [⟨none, "no-typecheck", .switch .noTypecheck⟩, ⟨none, "no-cache", .switch .noCache⟩,
      formatOption]
  | generate => [⟨none, "tree", .switch .tree⟩, ⟨none, "raw", .switch .raw⟩]
  | deps => [formatOption]
  | cache | cacheClear | cacheInfo => []

/-- The options that are understood at a place. -/
def Place.options (place : Place) : List Opt :=
  commonOptions ++ place.ownOptions

/-- The effect of the option with a given letter. -/
def Place.ofLetter? (place : Place) (letter : Char) : Option Effect :=
  (place.options.find? (·.letter == some letter)).map Opt.effect

/-- The effect of the option with a given name. -/
def Place.ofName? (place : Place) (name : String) : Option Effect :=
  (place.options.find? (·.name == name)).map Opt.effect

/-! ### What is given at a place -/

/-- The arguments that were read at a place. -/
structure Given where
  /-- The place. -/
  place : Place
  /-- The options without a value. -/
  switches : List Switch
  /-- The options with their values. -/
  settings : List (Setting × String)
  /-- The paths. -/
  paths : List Path
  deriving DecidableEq, Repr

namespace Given

/-- A place before its first argument. -/
def at_ (place : Place) : Given :=
  ⟨place, [], [], []⟩

/-- Whether an option without a value is given. -/
def has (given : Given) (switch : Switch) : Bool :=
  given.switches.contains switch

/-- The value of an option. -/
def value? (given : Given) (setting : Setting) : Option String :=
  given.settings.lookup setting

/-- Add an option without a value; it may not be given twice. -/
def addSwitch (given : Given) (switch : Switch) : Except Stop Given :=
  if given.has switch then .error .misuse
  else .ok { given with switches := switch :: given.switches }

/-- Whether an option can have a value. -/
def admits (setting : Setting) (value : String) : Bool :=
  match setting with
  | .config => !value.isEmpty
  | .format => (Format.ofName? value).isSome

/-- Add an option with its value; it may not be given twice. -/
def addSetting (given : Given) (setting : Setting) (value : String) : Except Stop Given :=
  if (given.value? setting).isSome || !admits setting value then .error .misuse
  else .ok { given with settings := (setting, value) :: given.settings }

/-- Add a path. -/
def addPath (given : Given) (text : String) : Except Stop Given :=
  let full :=
    match given.place.capacity with
    | none => false
    | some limit => decide (limit ≤ given.paths.length)
  if text.isEmpty || full then .error .misuse
  else .ok { given with paths := given.paths ++ [⟨text⟩] }

/-- Whether the options given at a place go together. -/
def isConsistent (given : Given) : Bool :=
  !(given.has .verbose && given.has .quiet) && !(given.has .tree && given.has .raw)

/-- What a place and what is given there ask for. -/
def task (given : Given) : Except Stop Task :=
  let format := ((given.value? .format).bind Format.ofName?).getD .text
  match given.place, given.paths with
  | .check, paths => .ok (.check paths (!given.has .noTypecheck) (!given.has .noCache) format)
  | .generate, [file] => .ok (.generate file (given.has .tree) (given.has .raw))
  | .deps, [file] => .ok (.deps file format)
  | .cacheClear, _ => .ok .clearCache
  | .cacheInfo, _ => .ok .cacheInfo
  | _, _ => .error .misuse

end Given

/-! ### Reading -/

/-- What an argument is. -/
inductive Argument where
  /-- The mark after which everything is a path. -/
  | mark
  /-- An option by its name, with a value if one is attached. -/
  | long (name : String) (value : Option String)
  /-- Options by their letters. -/
  | letters (letters : List Char)
  /-- Anything else. -/
  | plain (text : String)
  deriving DecidableEq, Repr

/-- Tell what an argument is. -/
def Argument.ofText (text : String) : Argument :=
  match text.toList with
  | ['-', '-'] => mark
  | '-' :: '-' :: rest =>
    match Text.cutAtChar? '=' rest with
    | some (name, value) => long (String.ofList name) (some (String.ofList value))
    | none => long (String.ofList rest) none
  | '-' :: c :: rest => letters (c :: rest)
  | _ => plain text

/-- What reading one argument comes to. -/
inductive Progress where
  /-- The argument is done with. -/
  | done (given : Given)
  /-- The next argument is the value of an option. -/
  | awaiting (given : Given) (setting : Setting)

/-- Read an option that is given by its name. -/
def readLong (given : Given) (name : String) (value : Option String) : Except Stop Progress :=
  match given.place.ofName? name, value with
  | some .help, none => .error .help
  | some (.switch switch), none => (given.addSwitch switch).map .done
  | some (.setting setting), some value => (given.addSetting setting value).map .done
  | some (.setting setting), none => .ok (.awaiting given setting)
  | _, _ => .error .misuse

/-- Read options that are given by their letters. What follows the letter of an option with a value
is the value, with or without an equals sign. -/
def readLetters (given : Given) : List Char → Except Stop Progress
  | [] => .ok (.done given)
  | letter :: rest =>
    match given.place.ofLetter? letter with
    | none => .error .misuse
    | some .help => .error .help
    | some (.switch switch) => do readLetters (← given.addSwitch switch) rest
    | some (.setting setting) =>
      match rest with
      | [] => .ok (.awaiting given setting)
      | '=' :: value | value => (given.addSetting setting (String.ofList value)).map .done

/-- Follow the commands named after `help`. -/
def followHelp (place : Place) : List String → Stop
  | [] => .help
  | name :: rest =>
    match place.subcommands.lookup name with
    | some next => followHelp next rest
    | none => if name = "help" && !place.subcommands.isEmpty && rest.isEmpty then .help else .misuse

/-- The name of the command that shows help. -/
def helpName : String := "help"

mutual

/-- Read arguments at a place; the places before it, the last one first, are `above`. Once `marked`,
every argument is a path. -/
def readArguments (marked : Bool) (given : Given) (above : List Given) :
    List String → Except Stop (List Given)
  | [] => .ok (given :: above)
  | text :: rest =>
    if marked then do readArguments true (← given.addPath text) above rest
    else
      match Argument.ofText text with
      | .mark => readArguments true given above rest
      | .long name value => do
        match ← readLong given name value with
        | .done given => readArguments false given above rest
        | .awaiting given setting => readValue given setting above rest
      | .letters letters => do
        match ← readLetters given letters with
        | .done given => readArguments false given above rest
        | .awaiting given setting => readValue given setting above rest
      | .plain text =>
        if text = helpName && !given.place.subcommands.isEmpty then
          .error (followHelp given.place rest)
        else
          match given.place.subcommands.lookup text with
          | some next => readArguments false (.at_ next) (given :: above) rest
          | none => do readArguments false (← given.addPath text) above rest

/-- Read the value of an option, and the arguments after it. -/
def readValue (given : Given) (setting : Setting) (above : List Given) :
    List String → Except Stop (List Given)
  | [] => .error .misuse
  | text :: rest =>
    match Argument.ofText text with
    | .plain value => do readArguments false (← given.addSetting setting value) above rest
    | .mark | .long _ _ | .letters _ => .error .misuse

end

/-- Read a command line, without the name of the program. -/
def Request.read (arguments : List String) : Except Stop Request := do
  let places ← readArguments false (.at_ .top) [] arguments
  match places with
  | [] => .error .misuse
  | last :: _ =>
    if places.all Given.isConsistent then
      return ⟨← last.task, (places.findSome? (·.value? .config)).map Path.mk⟩
    else .error .misuse

end PugContracts.Command
