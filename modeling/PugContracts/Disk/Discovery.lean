import PugContracts.Disk.Pattern
import PugContracts.Contract.Reference

/-!
# Finding files

Templates are looked for in directories, at any depth, by patterns, or given one by one.
Configuration files and modules are looked for by trying one path after the other.
-/

namespace PugContracts.Disk

/-- Whether a path leads to a file with the extension of templates. -/
def isTemplate (d : Disk) (p : Path) : Bool :=
  d.isFile p && Contract.isTemplatePath p

/-- The templates that a pattern leads to. -/
def matching (d : Disk) (pattern : Path) : Except PatternError (List Path) :=
  (Pattern.readComponents pattern.text.toList).map fun components =>
    if endsWithSlash pattern || !pattern.isAbsolute then []
    else (Pattern.expand d components ⟨"/"⟩).filter d.isTemplate

/-- The templates that a root stands for: those matching a pattern, a file whatever its extension,
or those below a directory. A root that does not exist stands for none. -/
def templatesOf (d : Disk) (root : Path) : Except Failure (List Path) :=
  if root.isPattern then
    match d.matching root with
    | .ok found => .ok found
    | .error e => .error ⟨["Invalid template pattern: " ++ root.text], .plain e.message⟩
  else if d.isFile root then .ok [root]
  else if d.isDirectory root then .ok ((d.descendants root.normalize).filter d.isTemplate)
  else .ok []

/-- The templates that roots stand for, in the order of paths and each once. -/
def findTemplates (d : Disk) (roots : List Path) : Except Failure (List Path) :=
  (roots.mapM d.templatesOf).map fun found => Path.ordered (found.flatten.map Path.normalize)

/-! ### Trying one path after the other -/

/-- A path and the directories above it, at most `n` of them. -/
def upwards : Nat → Path → List Path
  | 0, p => [p]
  | n + 1, p =>
    match p.parent? with
    | none => [p]
    | some above => p :: upwards n above

/-- The file `name` in the directory `start` or in the nearest directory above that has one. -/
def findUpwards (d : Disk) (start : Path) (name : String) : Option Path :=
  let start :=
    match d.locate start with
    | .ok key => key
    | .error _ => start
  ((upwards start.pieces.length start).map (·.child name)).find? d.isFile

/-- The extensions of modules, in the order in which they are tried. -/
def moduleExtensions : List String :=
  ["ts", "d.ts", "tsx", "mts", "d.mts"]

/-- The files that a module path may mean besides itself. A trailing `.js` stands for the source
that it is made from. -/
def moduleCandidates (p : Path) : List Path :=
  let stem := ((Text.beforeSuffix? ".js".toList p.text.toList).map String.ofList).getD p.text
  moduleExtensions.map (fun extension => ⟨stem ++ "." ++ extension⟩) ++
    moduleExtensions.map fun extension => p.child ("index." ++ extension)

/-- The file that a module path means. -/
def moduleFile? (d : Disk) (p : Path) : Option Path :=
  (p :: moduleCandidates p).find? d.isFile

theorem of_moduleFile? {d : Disk} {p file : Path} (h : d.moduleFile? p = some file) :
    file ∈ p :: moduleCandidates p ∧ d.isFile file = true :=
  ⟨List.mem_of_find?_eq_some h, List.find?_some h⟩

/-- A module is found if one of the files that it may mean is there. -/
theorem isSome_moduleFile?_iff {d : Disk} {p : Path} :
    (d.moduleFile? p).isSome = true ↔ ∃ file ∈ p :: moduleCandidates p, d.isFile file = true :=
  List.find?_isSome

end PugContracts.Disk
