import PugContracts.Path.Map
import PugContracts.Failure

/-!
# The disk

Everything a run reads and writes is on a `Disk`, a finite map from normalized absolute paths to
files and directories. There are no links, so the place that a path leads to is its normalized form;
whether it leads there depends on the directories on the way (`Disk.locate`). A relative path leads
nowhere.

A file carries the time of its last change in milliseconds. Directories carry one time for all,
since nothing depends on when a directory changed. What the disk itself writes is stamped by its
clock, which moves on with every such write.
-/

namespace PugContracts

/-- Why an operation on the disk fails. -/
inductive DiskError where
  /-- Nothing is there. -/
  | notFound
  /-- The file may not be used in this way. -/
  | permissionDenied
  /-- Something is there already. -/
  | exists
  /-- A file stands where a directory is needed. -/
  | notDirectory
  /-- A directory stands where a file is needed. -/
  | isDirectory
  /-- The name of a directory is written as a dot. -/
  | busy
  /-- A name or a path is too long. -/
  | nameTooLong
  /-- A path holds the character zero. -/
  | zeroInPath
  /-- A file does not hold text. -/
  | notText
  deriving DecidableEq, Repr

/-- The wording of an error. -/
def DiskError.message : DiskError → String
  | notFound => "No such file or directory (os error 2)"
  | permissionDenied => "Permission denied (os error 13)"
  | .exists => "File exists (os error 17)"
  | notDirectory => "Not a directory (os error 20)"
  | isDirectory => "Is a directory (os error 21)"
  | busy => "Device or resource busy (os error 16)"
  | nameTooLong => "File name too long (os error 36)"
  | zeroInPath => "file name contained an unexpected NUL byte"
  | notText => "stream did not contain valid UTF-8"

/-- What a file holds. -/
inductive Content where
  /-- Text in UTF-8. -/
  | text (text : String)
  /-- Bytes that are no text. -/
  | binary (bytes : List UInt8)
  deriving DecidableEq, Repr

/-- What a tool answers when it is run. -/
structure Output where
  /-- What it prints. -/
  stdout : String
  /-- What it prints as errors. -/
  stderr : String
  /-- The code it exits with. -/
  code : Nat
  deriving DecidableEq, Repr

/-- A file. -/
structure File where
  /-- What it holds. -/
  content : Content
  /-- When it was changed. -/
  time : Nat
  /-- What happens when it is run, if it can be. -/
  tool : Option Output
  deriving DecidableEq, Repr

/-- What a path can lead to. -/
inductive Entry where
  /-- A file. -/
  | file (file : File)
  /-- A directory. -/
  | directory
  deriving DecidableEq, Repr

/-- A command that was run. -/
structure Invocation where
  /-- The directory it was run in. -/
  directory : Path
  /-- Its arguments. -/
  arguments : List String
  deriving DecidableEq, Repr

/-- The files and directories below the root, which is always there. -/
structure Disk where
  /-- What is there, by normalized absolute path. -/
  entries : List (Path × Entry)
  /-- The time of the next write. -/
  clock : Nat
  /-- The last command that was run. -/
  lastInvocation : Option Invocation
  deriving DecidableEq, Repr

namespace Disk

/-- The time that every directory carries. -/
def directoryTime : Nat := 1000

/-- The disk that holds nothing. -/
def blank (clock : Nat) : Disk :=
  ⟨[], clock, none⟩

/-! ### Finding entries -/

/-- The path of the entry with the given names, the last one first. -/
def pathOf (names : List String) : Path :=
  .ofComponents (.root :: names.reverse.map .name)

/-- The entry at a normalized absolute path. -/
def entryAt? (d : Disk) (key : Path) : Option Entry :=
  if key.text = "/" then some .directory
  else (d.entries.find? fun entry => entry.1 == key).map Prod.snd

/-- The greatest number of bytes in a name. -/
def maxNameLength : Nat := 255

/-- The number of bytes that a path may not reach. -/
def maxPathLength : Nat := 4096

/-- Follow the pieces of a path from the directory with the given names. -/
def walk (d : Disk) (names : List String) : List (List Char) → Except DiskError Unit
  | [] => .ok ()
  | piece :: rest =>
    match d.entryAt? (pathOf names) with
    | none => .error .notFound
    | some (.file _) => .error .notDirectory
    | some .directory =>
      if Path.isIdle piece then walk d names rest
      else if piece = ['.', '.'] then walk d names.tail rest
      else if Text.byteLength piece > maxNameLength then .error .nameTooLong
      else
        let deeper := String.ofList piece :: names
        if (d.entryAt? (pathOf deeper)).isNone then .error .notFound else walk d deeper rest

/-- Where a path leads to. -/
def locate (d : Disk) (p : Path) : Except DiskError Path :=
  if p.text.toList.contains '\x00' then .error .zeroInPath
  else if p.text.utf8ByteSize ≥ maxPathLength then .error .nameTooLong
  else if p.isAbsolute then
    match d.walk [] (p.pieces.drop 1) with
    | .error e => .error e
    | .ok () => .ok p.normalize
  else .error .notFound

/-- A path leads to its normalized form or nowhere. -/
theorem eq_normalize_of_locate {d : Disk} {p key : Path} (h : d.locate p = .ok key) :
    key = p.normalize := by
  unfold locate at h
  split at h
  · simp at h
  · split at h
    · simp at h
    · split at h
      · split at h
        · simp at h
        · simpa using h.symm
      · simp at h

/-- What a path leads to. -/
def entry (d : Disk) (p : Path) : Except DiskError Entry :=
  match d.locate p with
  | .error e => .error e
  | .ok key =>
    match d.entryAt? key with
    | none => .error .notFound
    | some entry => .ok entry

/-- Whether a path leads to anything. -/
def holds (d : Disk) (p : Path) : Bool :=
  (d.entry p).isOk

/-- The file that a path leads to. -/
def file (d : Disk) (p : Path) : Except DiskError File :=
  match d.entry p with
  | .error e => .error e
  | .ok .directory => .error .isDirectory
  | .ok (.file f) => .ok f

/-- Whether a path leads to a file. -/
def isFile (d : Disk) (p : Path) : Bool :=
  (d.file p).isOk

/-- Whether a path leads to a directory. -/
def isDirectory (d : Disk) (p : Path) : Bool :=
  match d.entry p with
  | .ok .directory => true
  | _ => false

/-- The text of a file. -/
def readText (d : Disk) (p : Path) : Except DiskError String :=
  match d.file p with
  | .error e => .error e
  | .ok f =>
    match f.content with
    | .text text => .ok text
    | .binary _ => .error .notText

/-- When what a path leads to was changed. -/
def modified (d : Disk) (p : Path) : Except DiskError Nat :=
  match d.entry p with
  | .error e => .error e
  | .ok .directory => .ok directoryTime
  | .ok (.file f) => .ok f.time

/-- The time of change that is recorded for an input; zero if there is none. -/
def inputTime (d : Disk) (p : Path) : Nat :=
  match d.modified p with
  | .ok time => time
  | .error _ => 0

/-- The place that two paths lead to is the same. -/
def samePlace (d : Disk) (p q : Path) : Bool :=
  match d.locate p, d.locate q with
  | .ok a, .ok b => a == b
  | _, _ => false

theorem normalize_eq_of_samePlace {d : Disk} {p q : Path} (h : d.samePlace p q = true) :
    p.normalize = q.normalize := by
  unfold samePlace at h
  split at h
  · next hp hq =>
    rw [← eq_normalize_of_locate hp, ← eq_normalize_of_locate hq]
    exact beq_iff_eq.mp h
  · cases h

/-! ### Listing -/

/-- The normalized absolute paths of all files. -/
def filePaths (d : Disk) : List Path :=
  d.entries.filterMap fun entry =>
    match entry.2 with
    | .file _ => some entry.1
    | .directory => none

theorem mem_filePaths_of_entryAt? {d : Disk} {key : Path} {f : File}
    (h : d.entryAt? key = some (.file f)) : key ∈ d.filePaths := by
  unfold entryAt? at h
  split at h
  · simp at h
  · simp only [Option.map_eq_some_iff] at h
    obtain ⟨⟨key', value⟩, found, rfl⟩ := h
    have same := List.find?_some found
    simp only [beq_iff_eq] at same
    subst same
    exact List.mem_filterMap.2 ⟨_, List.mem_of_find?_eq_some found, rfl⟩

theorem entryAt?_of_entry {d : Disk} {p : Path} {entry : Entry} (h : d.entry p = .ok entry) :
    d.entryAt? p.normalize = some entry := by
  unfold Disk.entry at h
  split at h
  · simp at h
  · next located =>
    rw [eq_normalize_of_locate located] at h
    split at h
    · simp at h
    · next found =>
      simp only [Except.ok.injEq] at h
      rw [found, h]

/-- A file whose text can be read is one of the finitely many files of the disk. -/
theorem mem_filePaths_of_readText {d : Disk} {p : Path} {text : String}
    (h : d.readText p = .ok text) : p.normalize ∈ d.filePaths := by
  unfold readText at h
  split at h
  · simp at h
  · next f found =>
    unfold Disk.file at found
    split at found
    · simp at found
    · simp at found
    · next entry => exact mem_filePaths_of_entryAt? (entryAt?_of_entry entry)

/-- The entries directly in the directory at a normalized absolute path, in the order of paths. -/
def children (d : Disk) (directory : Path) : List Path :=
  Path.ordered ((d.entries.map Prod.fst).filter fun key => key.parent? == some directory)

/-- The entries at any depth in the directory at a normalized absolute path, in the order of
paths. -/
def descendants (d : Disk) (directory : Path) : List Path :=
  Path.ordered ((d.entries.map Prod.fst).filter fun key =>
    directory.components.isPrefixOf key.components && key != directory)

/-! ### Writing -/

/-- Put an entry at a normalized absolute path. -/
def put (d : Disk) (key : Path) (entry : Entry) : Disk :=
  { d with entries := d.entries.filter (fun old => old.1 != key) ++ [(key, entry)] }

/-- Take away what is at a normalized absolute path and all that is in it. -/
def removeTree (d : Disk) (key : Path) : Disk :=
  { d with entries := d.entries.filter fun old =>
      !key.components.isPrefixOf old.1.components }

/-- Create the directories that are missing along the pieces of a path. -/
def createAlong (d : Disk) (names : List String) : List (List Char) → Disk × Except DiskError Unit
  | [] => (d, .ok ())
  | piece :: rest =>
    if Path.isIdle piece then createAlong d names rest
    else if piece = ['.', '.'] then createAlong d names.tail rest
    else if Text.byteLength piece > maxNameLength then (d, .error .nameTooLong)
    else
      let deeper := String.ofList piece :: names
      match d.entryAt? (pathOf deeper) with
      | some .directory => createAlong d deeper rest
      | some (.file _) => (d, .error (if rest.isEmpty then .exists else .notDirectory))
      | none => createAlong (d.put (pathOf deeper) .directory) deeper rest

/-- Create a directory and all directories above it. -/
def createDirectories (d : Disk) (p : Path) : Disk × Except DiskError Unit :=
  if p.text.toList.contains '\x00' then (d, .error .zeroInPath)
  else if p.text.utf8ByteSize ≥ maxPathLength then (d, .error .nameTooLong)
  else if p.isAbsolute then d.createAlong [] (p.pieces.drop 1)
  else (d, .error .notFound)

/-- The disk after writing a file at a normalized absolute path. -/
def stamp (d : Disk) (key : Path) (content : Content) : Disk :=
  { d.put key (.file ⟨content, d.clock, none⟩) with clock := d.clock + 1 }

/-- Write a file in a directory that exists. -/
def createFile (d : Disk) (p : Path) (content : Content) : Except DiskError Disk :=
  match d.entry p with
  | .ok .directory => .error .isDirectory
  | .ok (.file _) => .ok (d.stamp p.normalize content)
  | .error .notFound =>
    if p.fileName?.isSome && d.isDirectory p.parent then .ok (d.stamp p.normalize content)
    else .error .notFound
  | .error e => .error e

/-- Whether a path is written with a slash at its end. -/
def endsWithSlash (p : Path) : Bool :=
  p.text.toList.getLast? == some '/'

/-- Whether the last piece of a path is a dot, slashes at the end aside. -/
def endsInDot (p : Path) : Bool :=
  (p.pieces.reverse.dropWhile List.isEmpty).head? == some ['.']

/-- Move a file to another path, which leads to it afterwards. -/
def rename (d : Disk) (source target : Path) : Except DiskError Disk :=
  match d.file source with
  | .error e => .error e
  | .ok moved =>
    let rest := { d with entries := d.entries.filter (fun old => old.1 != source.normalize) }
    let done := rest.put target.normalize (.file moved)
    match d.entry target with
    | .ok .directory =>
      .error (if endsInDot target then .busy
        else if endsWithSlash target then .notDirectory else .isDirectory)
    | .ok (.file _) | .error .notFound =>
      if endsWithSlash target && !endsInDot target then .error .notDirectory
      else if done.isFile target then .ok done
      else .error .notFound
    | .error e => .error e

/-- Take a file away. -/
def removeFile (d : Disk) (p : Path) : Except DiskError Disk :=
  match d.file p with
  | .error e => .error e
  | .ok _ => .ok { d with entries := d.entries.filter (fun old => old.1 != p.normalize) }

/-! ### Atomic writes -/

/-- An error of the disk as a failure, with what was being done. -/
def failing (context : String) (error : DiskError) : Failure :=
  ⟨[context], .plain error.message⟩

/-- Write a text so that a reader finds either the old or the whole new text: it is written to a
file beside the target and then moved there. What was created before a failure stays. -/
def atomicWrite (d : Disk) (p : Path) (text : String) : Disk × Except Failure Unit :=
  let directory := p.parent
  let (d, created) :=
    if directory.text.isEmpty then (d, .ok ()) else d.createDirectories directory
  match created with
  | .error e => (d, .error (failing ("Failed to create directory: " ++ directory.text) e))
  | .ok () =>
    let temporary := p.withExtension "tmp"
    match d.createFile temporary (.text text) with
    | .error e => (d, .error (failing ("Failed to create temp file: " ++ temporary.text) e))
    | .ok written =>
      match written.rename temporary p with
      | .error e => (written, .error (failing ("Failed to rename temp file to: " ++ p.text) e))
      | .ok done => (done, .ok ())

/-- The time of change of a file, for a caller that needs one. -/
def modifiedOrFail (d : Disk) (p : Path) : Except Failure Nat :=
  match d.modified p with
  | .ok time => .ok time
  | .error e => .error (failing ("Failed to get modification time for: " ++ p.text) e)

end Disk

end PugContracts
