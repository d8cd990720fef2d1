import PugContracts.Config.Toml
import PugContracts.Disk.Discovery

/-!
# Configuration

The settings of a project live in `pugcheck.toml`. Every setting has a default, and relative paths
are read from the directory of the file:

```toml
project_path = "."
template_paths = ["./src/views"]
views_root = "./src/views"
tmp_dir = ".tmp"
cache_path = ".tmp/pug.parseResults.json"
tsconfig = "./tsconfig.json"
log_level = "info"

[shared_locals]
import_path = "./src/types/viewSharedLocals.d.ts"
type_name = "SharedLocals"
```

A setting that is not known, is given twice or has a value of another type makes the whole file
invalid.
-/

namespace PugContracts

/-- Where the type of the shared locals is declared. -/
structure SharedLocalsConfig where
  /-- The declaration file. -/
  importPath : Path
  /-- The name of the type. -/
  typeName : String
  deriving DecidableEq, Repr

/-- The settings of a project. -/
structure Config where
  /-- The directory of the project, where the engine runs. -/
  projectPath : Path
  /-- The directories, files and patterns to check. -/
  templatePaths : List Path
  /-- The directory below which rooted targets are looked up. -/
  viewsRoot : Path
  /-- The directory for generated programs. -/
  tmpDir : Path
  /-- The file of the cache. -/
  cachePath : Path
  /-- The configuration of the compiler. -/
  tsconfig : Option Path
  /-- How much is logged. -/
  logLevel : String
  /-- The shared locals, if there are any. -/
  sharedLocals : Option SharedLocalsConfig
  deriving DecidableEq, Repr

/-- The settings that a table of shared locals starts from. -/
def SharedLocalsConfig.default : SharedLocalsConfig :=
  ⟨⟨"./src/types/viewSharedLocals.d.ts"⟩, "SharedLocals"⟩

namespace Config

/-- The settings of a project that has none of its own. -/
def default : Config where
  projectPath := ⟨"."⟩
  templatePaths := [⟨"./src/views"⟩]
  viewsRoot := ⟨"./src/views"⟩
  tmpDir := ⟨".tmp"⟩
  cachePath := ⟨".tmp/pug.parseResults.json"⟩
  tsconfig := none
  logLevel := "info"
  sharedLocals := none

/-- The name of the file that holds the settings. -/
def fileName : String := "pugcheck.toml"

/-- The settings with all paths read from the directory `base`. -/
def resolved (config : Config) (base : Path) : Config :=
  { config with
    projectPath := config.projectPath.absolutize base
    templatePaths := config.templatePaths.map (·.absolutize base)
    viewsRoot := config.viewsRoot.absolutize base
    tmpDir := config.tmpDir.absolutize base
    cachePath := config.cachePath.absolutize base
    tsconfig := config.tsconfig.map (·.absolutize base)
    sharedLocals := config.sharedLocals.map fun shared =>
      { shared with importPath := shared.importPath.absolutize base } }

/-- The configuration of the compiler that generated programs extend: the one that is set, or else
the one that the project has. -/
def effectiveTsconfig (config : Config) (d : Disk) : Option Path :=
  match config.tsconfig with
  | some path => some path
  | none =>
    let usual := config.projectPath.child "tsconfig.json"
    if d.isFile usual then some usual else none

/-! ### Reading -/

/-- Set one of the shared locals' settings. -/
def setShared (shared : SharedLocalsConfig) (key : List String) (value : Toml.Value) :
    Option SharedLocalsConfig :=
  match key, value with
  | ["import_path"], .text path => some { shared with importPath := ⟨path⟩ }
  | ["type_name"], .text name => some { shared with typeName := name }
  | _, _ => none

/-- The shared locals of an inline table. No setting stands there twice. -/
def sharedOfTable (assignments : List (List String × Toml.Value)) : Option SharedLocalsConfig :=
  let keys := assignments.map Prod.fst
  if keys.eraseDups.length = keys.length then
    assignments.foldlM (fun shared (key, value) => setShared shared key value) .default
  else none

/-- The shared locals as a value: a table, or the settings in order, the last of which may be left
out. -/
def sharedOfValue : Toml.Value → Option SharedLocalsConfig
  | .table assignments => sharedOfTable assignments
  | .list [] => some .default
  | .list [.text path] => some { SharedLocalsConfig.default with importPath := ⟨path⟩ }
  | .list (.text path :: .text name :: _) => some ⟨⟨path⟩, name⟩
  | _ => none

/-- The path that a value writes. -/
def pathOfValue : Toml.Value → Option Path
  | .text text => some ⟨text⟩
  | _ => none

/-- The key of the shared locals. -/
def sharedKey : String := "shared_locals"

/-- Set one setting. -/
def set (config : Config) (key : List String) (value : Toml.Value) : Option Config :=
  match key, value with
  | ["project_path"], .text path => some { config with projectPath := ⟨path⟩ }
  | ["template_paths"], .list items =>
    (items.mapM pathOfValue).map fun paths => { config with templatePaths := paths }
  | ["views_root"], .text path => some { config with viewsRoot := ⟨path⟩ }
  | ["tmp_dir"], .text path => some { config with tmpDir := ⟨path⟩ }
  | ["cache_path"], .text path => some { config with cachePath := ⟨path⟩ }
  | ["tsconfig"], .text path => some { config with tsconfig := some ⟨path⟩ }
  | ["log_level"], .text level => some { config with logLevel := level }
  | [name], value =>
    if name = sharedKey then
      (sharedOfValue value).map fun shared => { config with sharedLocals := some shared }
    else none
  | name :: key, value =>
    if name = sharedKey then
      (setShared (config.sharedLocals.getD .default) key value).map fun shared =>
        { config with sharedLocals := some shared }
    else none
  | [], _ => none

/-- Settings while a document is read. -/
structure Draft where
  /-- The settings so far. -/
  config : Config
  /-- The keys that have been assigned. -/
  assigned : List (List String)
  /-- The table that assignments belong to. -/
  table : List String

namespace Draft

/-- Whether an assignment to `key` would repeat one, or assign to a part of a value or to a whole of
which a part has a value. -/
def conflicts (draft : Draft) (key : List String) : Bool :=
  draft.assigned.any fun other => other.isPrefixOf key || key.isPrefixOf other

/-- The draft after one more statement. -/
def step (draft : Draft) : Toml.Statement → Option Draft
  | .assignment key value =>
    let key := draft.table ++ key
    if draft.conflicts key then none
    else
      (draft.config.set key value).map fun config =>
        { draft with config := config, assigned := key :: draft.assigned }
  | .header key =>
    if key = [sharedKey] && draft.table.isEmpty && !draft.conflicts key then
      some { draft with
        config := { draft.config with sharedLocals := some .default }, table := key }
    else none
  | .elementHeader _ => none

end Draft

/-- The settings that a document gives. -/
def ofText? (text : String) : Option Config := do
  let draft ← (← Toml.read? text).foldlM Draft.step ⟨.default, [], []⟩
  return draft.config

/-! ### Loading -/

/-- Load the settings of a file. -/
def loadFile (d : Disk) (file : Path) : Except Failure Config :=
  match d.readText file with
  | .error e => .error (Disk.failing ("Failed to read config file: " ++ file.text) e)
  | .ok text =>
    match ofText? text with
    | none => .error (.run (.configParse file "not a valid configuration"))
    | some config => .ok (config.resolved file.parent)

/-- Load the settings for a run in the directory `cwd`: those of the given file, or else of the
nearest file upwards, or else the default ones. -/
def load (d : Disk) (file : Option Path) (cwd : Path) : Except Failure Config :=
  match file.map (·.absolutize cwd) |>.orElse fun _ => d.findUpwards cwd fileName with
  | some file => loadFile d file
  | none => .ok (Config.default.resolved cwd)

/-! ### Validation -/

/-- A path that has to be there in some way. -/
structure Requirement where
  /-- Whether it is there. -/
  met : Bool
  /-- The setting. -/
  field : String
  /-- The path. -/
  path : Path

/-- What the settings require. Whether a pattern matches anything is not known before templates are
looked for. -/
def requirements (config : Config) (d : Disk) : List Requirement :=
  [⟨d.isDirectory config.projectPath, "project_path", config.projectPath⟩,
      ⟨d.isDirectory config.viewsRoot, "views_root", config.viewsRoot⟩] ++
    config.templatePaths.map (fun path =>
      ⟨path.isPattern || d.holds path, "template_paths", path⟩) ++
    config.tsconfig.toList.map (fun path => ⟨d.isFile path, "tsconfig", path⟩) ++
    config.sharedLocals.toList.map fun shared =>
      ⟨d.isFile shared.importPath, "shared_locals.import_path", shared.importPath⟩

/-- Check that what the settings name exists. -/
def validate (config : Config) (d : Disk) : Except Failure Unit :=
  match (config.requirements d).find? (!·.met) with
  | some requirement =>
    .error (.run (.configPathMissing requirement.field requirement.path))
  | none => .ok ()

end Config

end PugContracts
