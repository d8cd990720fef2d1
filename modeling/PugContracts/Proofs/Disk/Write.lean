import PugContracts.Proofs.Path.Map
import PugContracts.Disk.Basic

/-!
# What a write changes

Putting an entry changes what is at one path (`entryAt?_put`). When a file takes the place of a
file, every path still leads where it led, since only the directories on the way matter: nothing
else looks different (`entry_put_of_ne`, `holds_put`), and the file itself has its new time and
content. A text that was written atomically is the text that a reader finds
(`readText_atomicWrite`).
-/

namespace PugContracts

/-- Whether the entry is a directory. -/
def Entry.isDirectory : Entry → Bool
  | .directory => true
  | .file _ => false

namespace Disk

variable {d d' : Disk} {key p : Path} {before after : File}

theorem find?_entries_filter (d : Disk) (key p : Path) :
    (d.entries.filter fun old => old.1 != key).find? (fun old => old.1 == p) =
      if p = key then none else d.entries.find? fun old => old.1 == p := by
  rw [List.find?_filter]
  by_cases hp : p = key
  · subst hp
    rw [if_pos rfl]
    exact List.find?_eq_none.mpr fun old _ => by simp
  · rw [if_neg hp]
    congr 1
    funext old
    by_cases h : old.1 = p <;> simp [h, hp]

/-- **Look up after putting an entry.** The root is a directory whatever is put. -/
theorem entryAt?_put (d : Disk) (key : Path) (entry : Entry) (p : Path) :
    (d.put key entry).entryAt? p =
      if p.text = "/" then some .directory else if p = key then some entry else d.entryAt? p := by
  rw [entryAt?, entryAt?]
  by_cases hroot : p.text = "/"
  · rw [if_pos hroot, if_pos hroot]
  · rw [if_neg hroot, if_neg hroot, if_neg hroot, put, List.find?_append, find?_entries_filter]
    by_cases hp : p = key
    · simp [hp]
    · simp [hp, Ne.symm hp]

/-- The file that is found where a file was put is that one. -/
theorem eq_of_entryAt?_put {found : File} (h : (d.put key (.file after)).entryAt? key =
    some (.file found)) : found = after := by
  rw [entryAt?_put] at h
  split at h
  · exact absurd h (by simp)
  · simpa [eq_comm] using h

/-! ### Replacing a file by a file -/

theorem entryAt?_of_file (h : d.file p = .ok before) :
    d.entryAt? p.normalize = some (.file before) := by
  rw [file] at h
  split at h
  · exact absurd h (by simp)
  · exact absurd h (by simp)
  · next found hentry =>
    rw [← Except.ok.inj h]
    exact entryAt?_of_entry hentry

/-- The way to a place depends on which entries are there and which of them are directories. -/
theorem locate_congr
    (h : ∀ key, (d'.entryAt? key).map Entry.isDirectory = (d.entryAt? key).map Entry.isDirectory)
    (p : Path) : d'.locate p = d.locate p := by
  have hwalk : ∀ (pieces : List (List Char)) (names : List String),
      d'.walk names pieces = d.walk names pieces := by
    intro pieces
    induction pieces with
    | nil => intro names; rfl
    | cons piece pieces ih =>
      intro names
      have hhere := h (pathOf names)
      have hdeeper : (d'.entryAt? (pathOf (String.ofList piece :: names))).isNone =
          (d.entryAt? (pathOf (String.ofList piece :: names))).isNone := by
        rw [← Option.isNone_map, h, Option.isNone_map]
      simp only [walk, hdeeper, ih]
      revert hhere
      rcases d.entryAt? (pathOf names) with _ | ⟨_ | _⟩ <;>
        rcases d'.entryAt? (pathOf names) with _ | ⟨_ | _⟩ <;>
        simp [Entry.isDirectory]
  rw [locate, locate, hwalk]

/-- A file in the place of a file changes no way. -/
theorem locate_put (h : d.entryAt? key = some (.file before)) (after : File) (p : Path) :
    (d.put key (.file after)).locate p = d.locate p := by
  refine locate_congr (fun other => ?_) p
  rw [entryAt?_put]
  split
  · next hroot => rw [entryAt?, if_pos hroot]
  · split
    · next heq => rw [heq, h]; rfl
    · rfl

theorem entryAt?_put_of_ne (d : Disk) (entry : Entry) (hp : p ≠ key) :
    (d.put key entry).entryAt? p = d.entryAt? p := by
  rw [entryAt?_put, if_neg hp]
  split
  · next hroot => rw [entryAt?, if_pos hroot]
  · rfl

/-- Nothing else looks different. -/
theorem entry_put_of_ne (h : d.entryAt? key = some (.file before)) (after : File)
    (hp : p.normalize ≠ key) : (d.put key (.file after)).entry p = d.entry p := by
  rw [entry, entry, locate_put h]
  split
  · rfl
  · next place hplace =>
    rw [eq_normalize_of_locate hplace, entryAt?_put_of_ne d _ hp]

theorem modified_put_of_ne (h : d.entryAt? key = some (.file before)) (after : File)
    (hp : p.normalize ≠ key) : (d.put key (.file after)).modified p = d.modified p := by
  rw [modified, modified, entry_put_of_ne h after hp]

theorem file_put_of_ne (h : d.entryAt? key = some (.file before)) (after : File)
    (hp : p.normalize ≠ key) : (d.put key (.file after)).file p = d.file p := by
  rw [file, file, entry_put_of_ne h after hp]

theorem readText_put_of_ne (h : d.entryAt? key = some (.file before)) (after : File)
    (hp : p.normalize ≠ key) : (d.put key (.file after)).readText p = d.readText p := by
  rw [readText, readText, file_put_of_ne h after hp]

/-- What leads to the place of the file leads to the new file. -/
theorem entry_put_of_eq (h : d.entryAt? p.normalize = some (.file before)) (after : File) :
    (d.put p.normalize (.file after)).entry p = (d.entry p).map fun _ => .file after := by
  have hroot : p.normalize.text ≠ "/" := by
    intro hroot
    rw [entryAt?, if_pos hroot] at h
    exact absurd h (by simp)
  rw [entry, entry, locate_put h]
  split
  · rfl
  · next place hplace =>
    rw [eq_normalize_of_locate hplace, entryAt?_put, if_neg hroot, if_pos rfl, h]
    rfl

/-- Every path still leads to something or nothing. -/
theorem holds_put (h : d.entryAt? key = some (.file before)) (after : File) (p : Path) :
    (d.put key (.file after)).holds p = d.holds p := by
  by_cases hp : p.normalize = key
  · subst hp
    rw [holds, holds, entry_put_of_eq h]
    cases d.entry p <;> rfl
  · rw [holds, holds, entry_put_of_ne h after hp]

/-- Every path still leads to a file or not. -/
theorem isFile_put (h : d.entryAt? key = some (.file before)) (after : File) (p : Path) :
    (d.put key (.file after)).isFile p = d.isFile p := by
  by_cases hp : p.normalize = key
  · subst hp
    rw [isFile, isFile, file, file, entry_put_of_eq h]
    cases hentry : d.entry p with
    | error e => rfl
    | ok entry =>
      have hfound := entryAt?_of_entry hentry
      rw [h] at hfound
      rw [← Option.some.inj hfound]
      rfl
  · rw [isFile, isFile, file_put_of_ne h after hp]

/-- The file has the time of the new one. -/
theorem modified_put (h : d.file p = .ok before) (after : File) :
    (d.put p.normalize (.file after)).modified p = .ok after.time := by
  have hentry := entryAt?_of_file h
  rw [modified, entry_put_of_eq hentry]
  cases hp : d.entry p with
  | ok _ => rfl
  | error e =>
    rw [file, hp] at h
    exact absurd h (by simp)

/-- A file with the same content reads the same. -/
theorem readText_put_of_content (h : d.entryAt? p.normalize = some (.file before))
    (hcontent : after.content = before.content) :
    (d.put p.normalize (.file after)).readText p = d.readText p := by
  rw [readText, readText, file, file, entry_put_of_eq h]
  cases hp : d.entry p with
  | error e => rfl
  | ok entry =>
    have hfile : entry = .file before := by
      have hfound := entryAt?_of_entry hp
      rw [h] at hfound
      exact (Option.some.inj hfound).symm
    rw [hfile]
    simp only [Except.map, hcontent]

theorem modified_of_file (h : d.file p = .ok before) : d.modified p = .ok before.time := by
  rw [file] at h
  rw [modified]
  split at h
  · exact absurd h (by simp)
  · exact absurd h (by simp)
  · next found hfound =>
    rw [Except.ok.inj h]

theorem exists_file (h : d.isFile p = true) : ∃ found, d.file p = .ok found := by
  rw [isFile] at h
  cases hfile : d.file p with
  | ok found => exact ⟨found, rfl⟩
  | error e =>
    rw [hfile] at h
    cases h

/-- What is no file cannot be read. -/
theorem exists_readText_error (h : d.isFile p = false) : ∃ e, d.readText p = .error e := by
  rw [isFile] at h
  cases hfile : d.file p with
  | ok found =>
    rw [hfile] at h
    cases h
  | error e =>
    rw [readText, hfile]
    exact ⟨e, rfl⟩

/-- A file that is the same has the same time. -/
theorem inputTime_congr (h : d.isFile p = true) (hfile : d'.file p = d.file p) :
    d'.inputTime p = d.inputTime p := by
  obtain ⟨found, hfound⟩ := exists_file h
  rw [inputTime, inputTime, modified_of_file hfound, modified_of_file (hfile.trans hfound)]

/-- Two disks differ in when one file was changed, and perhaps in what it holds. -/
structure Touched (d d' : Disk) (file : Path) : Prop where
  /-- The file is there on both, with different times. -/
  time : ∃ before after, d.modified file = .ok before ∧ d'.modified file = .ok after ∧
    after ≠ before
  /-- Whatever leads elsewhere has its time. -/
  others : ∀ p, p.normalize ≠ file → d'.modified p = d.modified p
  /-- The same files are there. -/
  holds : ∀ p, d'.holds p = d.holds p

theorem touched_put (hp : p.normalize = p) (h : d.file p = .ok before)
    (htime : after.time ≠ before.time) : Touched d (d.put p (.file after)) p := by
  have hentry := entryAt?_of_file h
  have hmodified := modified_put h after
  rw [hp] at hentry hmodified
  exact ⟨⟨before.time, after.time, modified_of_file h, hmodified, htime⟩,
    fun _ hq => modified_put_of_ne hentry after hq, holds_put hentry after⟩

/-! ### Atomic writes -/

theorem eq_stamp_of_createFile {content : Content} (h : d.createFile p content = .ok d') :
    d' = d.stamp p.normalize content := by
  rw [createFile] at h
  split at h
  · exact absurd h (by simp)
  · exact (Except.ok.inj h).symm
  · split at h
    · exact (Except.ok.inj h).symm
    · exact absurd h (by simp)
  · exact absurd h (by simp)

/-- A file that is moved is put where it is moved to, and found there. -/
theorem eq_put_of_rename {source : Path} (h : d.rename source p = .ok d') :
    d'.isFile p = true ∧
      ∃ moved rest, d.file source = .ok moved ∧ d' = put rest p.normalize (.file moved) := by
  have hdone : ∀ {slashed : Bool} {done : Disk}, (if slashed then .error .notDirectory
      else if done.isFile p then .ok done else .error .notFound : Except DiskError Disk) = .ok d' →
        d'.isFile p = true ∧ d' = done := by
    intro slashed done h
    split at h
    · exact absurd h (by simp)
    · split at h
      · next hfile =>
        rw [← Except.ok.inj h]
        exact ⟨hfile, rfl⟩
      · exact absurd h (by simp)
  rw [rename] at h
  split at h
  · exact absurd h (by simp)
  · next moved hmoved =>
    dsimp only at h
    split at h
    · exact absurd h (by simp)
    · exact (hdone h).imp_right fun heq => ⟨moved, _, hmoved, heq⟩
    · exact (hdone h).imp_right fun heq => ⟨moved, _, hmoved, heq⟩
    · exact absurd h (by simp)

/-- An atomic write puts a file with the text, and it is found there. -/
theorem eq_put_of_atomicWrite {text : String} (h : d.atomicWrite p text = (d', .ok ())) :
    d'.isFile p = true ∧
      ∃ written rest, written.content = .text text ∧ d' = put rest p.normalize (.file written) := by
  rw [atomicWrite] at h
  split at h
  next d₁ created _ =>
    split at h
    · exact absurd (congrArg Prod.snd h) (by simp)
    · dsimp only at h
      split at h
      · exact absurd (congrArg Prod.snd h) (by simp)
      · next created hcreated =>
        split at h
        · exact absurd (congrArg Prod.snd h) (by simp)
        · next done hdone =>
          obtain rfl : done = d' := congrArg Prod.fst h
          obtain ⟨hfile, moved, rest, hmoved, hput⟩ := eq_put_of_rename hdone
          have hfound := entryAt?_of_file hmoved
          rw [eq_stamp_of_createFile hcreated] at hfound
          have hsame : moved = ⟨.text text, d₁.clock, none⟩ := eq_of_entryAt?_put hfound
          exact ⟨hfile, moved, rest, by rw [hsame], hput⟩

/-- **A reader finds what was written atomically.** -/
theorem readText_atomicWrite {text : String} (h : d.atomicWrite p text = (d', .ok ())) :
    d'.readText p = .ok text := by
  obtain ⟨hfile, written, rest, hcontent, rfl⟩ := eq_put_of_atomicWrite h
  obtain ⟨found, hfound⟩ := exists_file hfile
  rw [readText, hfound, eq_of_entryAt?_put (entryAt?_of_file hfound)]
  simp only [hcontent]

end Disk

end PugContracts
