import PugContracts.Text.Blank

/-!
# Paths

A path is the text of a path, read as a sequence of components. Joining and printing keep the text
as it was written; comparing, ordering and cutting look at the components only, so `a//b/.` and
`a/b` name the same file and print differently.

`normalize` brings a path to the one spelling under which a file is known everywhere else: in the
dependency graph, in the cache, on the disk and in the origins of template nodes. The file system is
not consulted.

## Components

A repeated slash, a slash at the end and a `.` anywhere but at the very start of a relative path are
no components. Components are ordered root, `.`, `..`, names; names by their characters; paths
lexicographically by their components.
-/

namespace PugContracts

/-- A path, as written. -/
structure Path where
  /-- The text of the path. -/
  text : String
  deriving DecidableEq, Repr, Inhabited

namespace Path

/-- One component of a path. -/
inductive Component where
  /-- The leading slash of an absolute path. -/
  | root
  /-- A leading `.` of a relative path. -/
  | here
  /-- A `..`. -/
  | up
  /-- An ordinary name. -/
  | name (text : String)
  deriving DecidableEq, Repr

namespace Component

/-- The component as written in a path. -/
def text : Component → String
  | root => "/"
  | here => "."
  | up => ".."
  | name text => text

/-- The kinds of components in their order. -/
def rank : Component → Nat
  | root => 0
  | here => 1
  | up => 2
  | name _ => 3

instance : Ord Component where
  compare := compareLex (compareOn rank) (compareOn text)

instance : Std.TransOrd Component :=
  inferInstanceAs (Std.TransCmp (compareLex (compareOn rank) (compareOn text)))

end Component

/-! ### Reading a path -/

/-- What stands between the slashes of a path. -/
def pieces (p : Path) : List (List Char) :=
  Text.splitAtEach (· == '/') p.text.toList

/-- A piece that is no component: an empty one, and a `.` that does not start the path. -/
def isIdle (piece : List Char) : Bool :=
  piece.isEmpty || piece == ['.']

/-- The component that a piece after the first stands for. -/
def component? (piece : List Char) : Option Component :=
  if isIdle piece then none
  else if piece == ['.', '.'] then some .up
  else some (.name (String.ofList piece))

/-- The components of a path. -/
def components (p : Path) : List Component :=
  match p.pieces with
  | [] => []
  | [[]] => []
  | [] :: rest => .root :: rest.filterMap component?
  | ['.'] :: rest => .here :: rest.filterMap component?
  | all => all.filterMap component?

instance : Ord Path where
  compare p q := compare p.components q.components

instance : Std.TransOrd Path :=
  inferInstanceAs (Std.TransCmp (compareOn components))

/-- Two spellings of one sequence of components. -/
def same (p q : Path) : Bool :=
  p.components == q.components

/-- A path that starts with a slash. -/
def isAbsolute (p : Path) : Bool :=
  p.text.toList.head? == some '/'

/-- Whether a path holds `*`, `?` or `[`. -/
def isPattern (p : Path) : Bool :=
  p.text.toList.any fun c => c == '*' || c == '?' || c == '['

/-! ### Building a path -/

/-- The path with the given components; a root stands first or not at all. -/
def ofComponents : List Component → Path
  | .root :: rest => ⟨"/" ++ "/".intercalate (rest.map Component.text)⟩
  | all => ⟨"/".intercalate (all.map Component.text)⟩

/-- The path with the given pieces. -/
def ofPieces : List (List Char) → Path
  | [[]] => ⟨"/"⟩
  | all => ⟨"/".intercalate (all.map String.ofList)⟩

/-- The path `q` read from the directory `p`. An absolute `q` stands for itself. -/
def join (p q : Path) : Path :=
  if q.isAbsolute then q
  else if p.text.toList.getLast?.all (· == '/') then ⟨p.text ++ q.text⟩
  else ⟨p.text ++ "/" ++ q.text⟩

/-- The file `name` in the directory `p`. -/
def child (p : Path) (name : String) : Path :=
  p.join ⟨name⟩

/-! ### Normalization -/

/-- Add a component to a normalized path, given with its last component first. A `..` takes away
the name before it, is nothing after the root, and otherwise stays. -/
def settle : List Component → Component → List Component
  | below, .here => below
  | .name _ :: below, .up => below
  | .root :: below, .up => .root :: below
  | below, c => c :: below

/-- The components of `p` with `.` and `..` carried out as far as the text allows. -/
def settled (p : Path) : List Component :=
  (p.components.foldl settle []).reverse

/-- The path without `.`, without `..` except at the start of a relative path, and with single
slashes only between names. -/
def normalize (p : Path) : Path :=
  ofComponents p.settled

/-- The normalized path of `p`, read from the directory `base`. -/
def absolutize (p base : Path) : Path :=
  if p.isAbsolute then p.normalize else (base.join p).normalize

/-! ### Parts of a path -/

/-- The pieces of a path without idle ones at its end. -/
def solidPieces (p : Path) : List (List Char) :=
  match p.pieces with
  | [] => []
  | first :: rest => first :: (rest.reverse.dropWhile isIdle).reverse

/-- The path without its last component; absent for a root and for the empty path. -/
def parent? (p : Path) : Option Path :=
  match p.solidPieces with
  | [] | [[]] => none
  | [_] => some ⟨""⟩
  | first :: rest => some (ofPieces (first :: (rest.dropLast.reverse.dropWhile isIdle).reverse))

/-- The path without its last component; empty if there is none. -/
def parent (p : Path) : Path :=
  p.parent?.getD ⟨""⟩

/-- The last component, if it is a name. -/
def fileName? (p : Path) : Option String :=
  match p.components.getLast? with
  | some (.name text) => some text
  | _ => none

/-- The last component, if it is a name; empty otherwise. -/
def fileName (p : Path) : String :=
  p.fileName?.getD ""

/-- A file name as its stem and its extension. The extension is what follows the last dot; a dot
that starts the name begins no extension. -/
def splitExtension (name : String) : String × Option String :=
  match Text.cutAtLast? '.' name.toList with
  | none | some ([], _) => (name, none)
  | some (stem, extension) => (String.ofList stem, some (String.ofList extension))

/-- The stem of the file name; empty if there is no file name. -/
def stem (p : Path) : String :=
  (splitExtension p.fileName).1

/-- The extension of the file name. -/
def extension? (p : Path) : Option String :=
  p.fileName?.bind fun name => (splitExtension name).2

/-- The path with `extension` in place of the extension of its file name; unchanged if it has no
file name. -/
def withExtension (p : Path) (extension : String) : Path :=
  match p.fileName? with
  | none => p
  | some name =>
    let renamed := (splitExtension name).1 ++ "." ++ extension
    ofPieces (p.solidPieces.dropLast ++ [renamed.toList])

/-! ### Relative paths -/

/-- The pieces after the first `n` components among `pieces`, none of which starts the path. -/
def dropComponents : Nat → List (List Char) → List (List Char)
  | 0, pieces => pieces.dropWhile isIdle
  | _ + 1, [] => []
  | n + 1, piece :: rest =>
    if isIdle piece then dropComponents (n + 1) rest else dropComponents n rest

/-- What follows `base` in a path that begins with the components of `base`. -/
def after? (p base : Path) : Option Path :=
  if base.components.isPrefixOf p.components then
    match base.components.length, p.solidPieces with
    | _, [] => some ⟨""⟩
    | 0, all => if p.text.isEmpty then some p else some (ofPieces all)
    | n + 1, _ :: rest => some ⟨"/".intercalate ((dropComponents n rest).map String.ofList)⟩
  else none

/-- The path as shown to a user in the directory `base`: relative if it is below `base`. -/
def shownFrom (p base : Path) : String :=
  ((p.after? base).getD p).text

end Path

end PugContracts
