import PugContracts.Command.Run
import Std.Time.Format

/-!
# The program

The program reads the directory of the project into a `Disk`, runs the command line on it, writes
back what has changed and prints. All decisions are made by `Command.Request.run`; here is only what
touches the machine.

It starts no other program, so directories of installed packages are not read and no compiler is
found in them: `check` has to be given `--no-typecheck`.
-/

namespace PugContracts

/-- How the program is called. -/
def usage : String :=
  "usage: pugcheck [-v | -q] [-c FILE] COMMAND\n\n" ++
    "  check [--no-typecheck] [--no-cache] [-f text|json] [PATH]...\n" ++
    "  generate [--tree | --raw] FILE\n" ++
    "  deps [-f text|json] FILE\n" ++
    "  cache clear|info\n"

/-- The directories that are not read. -/
def skippedDirectories : List String :=
  ["node_modules", ".git"]

/-- The milliseconds of a time of change. -/
def millisecondsOf (time : IO.FS.SystemTime) : Nat :=
  time.sec.toNat * 1000 + time.nsec.toNat / 1000000

/-- What a file holds. -/
def contentOf (bytes : ByteArray) : Content :=
  match String.fromUTF8? bytes with
  | some text => .text text
  | none => .binary bytes.toList

/-- The entries below the given directories, which have been read up to here. -/
partial def readEntries (pending : List String) (found : List (Path × Entry)) :
    IO (List (Path × Entry)) := do
  match pending with
  | [] => return found
  | directory :: rest =>
    let mut pending := rest
    let mut found := found
    for item in ← (← IO.FS.realPath directory).readDir do
      let place := item.path.toString
      let data ← item.path.metadata
      match data.type with
      | .dir =>
        unless skippedDirectories.contains item.fileName do
          found := (⟨place⟩, .directory) :: found
          pending := place :: pending
      | .file =>
        let file : File :=
          ⟨contentOf (← IO.FS.readBinFile place), millisecondsOf data.modified, none⟩
        found := (⟨place⟩, .file file) :: found
      | _ => pure ()
    readEntries pending found

/-- The disk with what is below a directory. -/
def readDisk (directory : Path) : IO Disk := do
  let now := (← Std.Time.Timestamp.now).toMillisecondsSinceUnixEpoch.val.toNat
  let (d, _) := (Disk.blank now).createDirectories directory
  return { d with entries := d.entries ++ (← readEntries [directory.text] []) }

/-- Write a file. -/
def writeFile (p : Path) (content : Content) : IO Unit := do
  IO.FS.createDirAll p.parent.text
  match content with
  | .text text => IO.FS.writeFile p.text text
  | .binary bytes => IO.FS.writeBinFile p.text ⟨bytes.toArray⟩

/-- The files of a disk that another one does not hold as they are. -/
def changedFiles (old new : Disk) : List (Path × Content) :=
  new.entries.filterMap fun (p, entry) =>
    match entry, old.file p with
    | .directory, _ => none
    | .file file, .ok before => if file = before then none else some (p, file.content)
    | .file file, .error _ => some (p, file.content)

/-- Carry over to the machine what has changed from one disk to another. -/
def writeBack (old new : Disk) : IO Unit := do
  for p in old.filePaths do
    unless new.isFile p do IO.FS.removeFile p.text
  for (p, content) in changedFiles old new do
    writeFile p content

/-- The directory of the project: the nearest one upwards from `cwd` with settings, or `cwd`. -/
partial def projectDirectory (cwd : Path) (directory : Path) : IO Path := do
  let names ← (← IO.FS.realPath directory.text).readDir
  if names.any (·.fileName == Config.fileName) then return directory
  match directory.parent? with
  | some above => projectDirectory cwd above
  | none => return cwd

end PugContracts

open PugContracts in
/-- Run the command line. -/
def main (arguments : List String) : IO UInt32 := do
  match Command.Request.read arguments with
  | .error .help =>
    IO.print usage
    return 0
  | .error .misuse =>
    IO.eprint usage
    return 2
  | .ok request =>
    let cwd : Path := ⟨(← IO.currentDir).toString⟩
    let d ← readDisk (← projectDirectory cwd cwd)
    let (after, outcome) := request.run d cwd
    writeBack d after
    IO.print outcome.stdout
    IO.eprint outcome.stderr
    return outcome.code.toUInt32
