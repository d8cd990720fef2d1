import PugContracts.Engine.Compiler
import PugContracts.Proofs.Disk.Spelling
import PugContracts.Proofs.Engine.Finding
import PugContracts.Proofs.Text.Parts

/-!
# Files in compiler output

A compiler may spell a file in any way that leads there from the directory in which it runs, and the
spelling is brought back to the normal path (`Spells.absolutize_eq`). Since a mark holds no slash,
a spelling whose names are names of the file has no mark if the file has none.

The file of a program is made from a normal directory and a name without marks, so a compiler can
report on it (`nameable_programFile`). Two normal paths mean the same file only if they are equal,
so what is reported on that file is known from what is reported on others
(`sameFile_eq_true_iff`).

## Main results

* `Spells.absolutize_eq` — a spelling is brought back to the file
* `Nameable.spells_upAndDown` — every file but the directory itself has a relative spelling
* `nameable_programFile` — a compiler can report on the file of a program
-/

namespace PugContracts

/-! ### Directories and their names -/

namespace Disk

variable {d : Disk} {name : String} {names : List String} {p q : Path}

theorem normalize_pathOf (hnames : ∀ name ∈ names, Path.IsName name) :
    (pathOf names).normalize = pathOf names := by
  have hneat : Path.Neat (names.map Path.Component.name ++ [Path.Component.root]) := by
    induction names with
    | nil => rfl
    | cons name names ih =>
      obtain ⟨hname, hnames⟩ := List.forall_mem_cons.mp hnames
      exact ⟨hname, ih hnames⟩
  have hstack : pathOf names =
      .ofComponents (names.map Path.Component.name ++ [Path.Component.root]).reverse := by
    simp [pathOf]
  rw [hstack, Path.normalize_ofComponents_reverse hneat]

theorem namesAfter_append (names : List String) (pieces more : List (List Char)) :
    namesAfter names (pieces ++ more) = namesAfter (namesAfter names pieces) more :=
  List.foldl_append

/-- Names are gone down one after the other. -/
theorem namesAfter_map (hnames : ∀ name ∈ names, Path.IsName name) (above : List String) :
    namesAfter above (names.map String.toList) = names.reverse ++ above := by
  induction names generalizing above with
  | nil => rfl
  | cons name names ih =>
    obtain ⟨hname, hnames⟩ := List.forall_mem_cons.mp hnames
    rw [List.map_cons, namesAfter, List.foldl_cons, ← namesAfter,
      if_neg (by simp [Path.isIdle_of_isName hname]), if_neg hname.2.2.1, String.ofList_toList,
      ih hnames, List.reverse_cons, List.append_assoc, List.singleton_append]

theorem namesAfter_up (below above : List String) :
    namesAfter (below ++ above) (List.replicate below.length "..".toList) = above := by
  induction below with
  | nil => rfl
  | cons name below ih => exact ih

/-- A path is known by its pieces. -/
theorem eq_of_pieces_eq (h : p.pieces = q.pieces) : p = q := by
  have htext := p.intercalate_pieces
  rw [h, q.intercalate_pieces] at htext
  obtain ⟨_⟩ := p
  obtain ⟨_⟩ := q
  exact congrArg Path.mk htext.symm

/-- A file in a directory has one name more. -/
theorem child_pathOf (hname : Path.IsName name) (hnames : ∀ name ∈ names, Path.IsName name) :
    (pathOf names).child name = pathOf (name :: names) := by
  obtain ⟨first, rest, hchars⟩ := List.exists_cons_of_ne_nil hname.1
  have hslash : ∀ c ∈ name.toList, (c == '/') = false := fun c hc => by
    simpa using fun heq : c = '/' => hname.2.2.2 (heq ▸ hc)
  have hrelative : (Path.mk name).isAbsolute = false := by
    simpa [Path.isAbsolute, hchars] using hslash first (hchars ▸ List.mem_cons_self)
  have hcut : ∀ before, Text.splitAtEach (· == '/') (before ++ '/' :: name.toList) =
      Text.splitAtEach (· == '/') before ++ [name.toList] := fun before => by
    rw [Text.splitAtEach_append_cons rfl, Text.splitAtEach_eq_singleton hslash]
  refine eq_of_pieces_eq ?_
  rw [pieces_pathOf (List.cons_ne_nil _ _) (List.forall_mem_cons.mpr ⟨hname, hnames⟩), Path.child,
    Path.join, if_neg (by simp [hrelative])]
  by_cases hnil : names = []
  · have hroot : (pathOf []).text.toList.getLast?.all (· == '/') = true := by decide
    rw [hnil, if_pos hroot, Path.pieces, String.toList_append,
      show (pathOf []).text.toList = ['/'] by decide]
    exact hcut []
  · have hpieces := pieces_pathOf hnil hnames
    have hopen : (pathOf names).text.toList.getLast?.all (· == '/') = false := by
      cases hlast : (pathOf names).text.toList.getLast? with
      | none =>
        rw [Path.pieces, List.getLast?_eq_none_iff.mp hlast] at hpieces
        simp [Text.splitAtEach, hnil] at hpieces
      | some c =>
        refine beq_eq_false_iff_ne.mpr fun heq => ?_
        -- After a slash at the end there would be an empty name.
        obtain ⟨before, htext⟩ := List.getLast?_eq_some_iff.mp hlast
        obtain ⟨name, names, rfl⟩ := List.exists_cons_of_ne_nil hnil
        rw [Path.pieces, htext, heq, Text.splitAtEach_append_cons rfl] at hpieces
        have hempty := congrArg List.getLast? hpieces
        simp [Text.splitAtEach, List.getLast?_cons] at hempty
        exact (hnames name List.mem_cons_self).1 (by simp [hempty])
    have htext : ((pathOf names).text ++ "/" ++ name).toList =
        (pathOf names).text.toList ++ '/' :: name.toList := by
      simp
    rw [if_neg (by simp [hopen]), Path.pieces, htext, hcut, ← Path.pieces, hpieces]
    simp

end Disk

/-- Normal paths mean the same file only if they are equal. -/
theorem EngineDiagnostic.sameFile_eq_true_iff {d : Disk} {p q : Path} (hp : p.normalize = p)
    (hq : q.normalize = q) : sameFile d p q = true ↔ p = q := by
  constructor
  · intro h
    rcases Bool.or_eq_true_iff.mp h with hsame | hplace
    · exact Path.eq_of_components_eq hp hq (beq_iff_eq.mp hsame)
    · rw [← hp, ← hq, Disk.normalize_eq_of_samePlace hplace]
  · rintro rfl
    simp [sameFile, Path.same]

namespace Engine

variable {base file written p : Path} {text part : List Char}

/-! ### Plain texts -/

/-- A text that can stand before a mark: it is on one line and holds no mark itself. -/
structure Plain (text : List Char) : Prop where
  /-- It holds no newline. -/
  unbroken : '\n' ∉ text
  /-- It holds no mark. -/
  unmarked : Unmarked text

theorem Plain.of_part (h : Plain text) (hpart : part <:+: text) : Plain part :=
  ⟨fun hmem => h.unbroken (hpart.subset hmem), h.unmarked.of_part hpart⟩

theorem plain_of_notMem (hnewline : '\n' ∉ text) (hcolon : ':' ∉ text) : Plain text :=
  ⟨hnewline, .of_notMem hcolon⟩

/-- A mark holds no slash, so a path is plain if its names are. -/
theorem Plain.of_pieces (h : ∀ piece ∈ p.pieces, Plain piece) : Plain p.text.toList := by
  constructor
  · intro hmem
    obtain ⟨before, after, htext⟩ := List.append_of_mem hmem
    have hpart : ['\n'] <:+: p.text.toList := ⟨before, after, by simp [htext]⟩
    obtain ⟨piece, hpiece, hin⟩ :=
      Text.exists_mem_splitAtEach (p := (· == '/')) (by simp) hpart
    exact (h piece hpiece).unbroken (hin.subset List.mem_cons_self)
  · intro finding hnumbered hmark
    obtain ⟨piece, hpiece, hin⟩ := Text.exists_mem_splitAtEach (p := (· == '/'))
      (fun c hc => beq_eq_false_iff_ne.mpr fun heq => hnumbered.slash_notMem_mark (heq ▸ hc)) hmark
    exact (h piece hpiece).unmarked finding hnumbered hin

/-- A file that a compiler can report on. -/
structure Nameable (file : Path) : Prop where
  /-- It is known by where it is on the disk. -/
  absolute : file.isAbsolute = true
  /-- It is known by one path. -/
  normal : file.normalize = file
  /-- Its path can stand before a mark. -/
  plain : Plain file.text.toList

/-! ### Spellings -/

/-- What is written leads to the file, from the root or from the directory of the compiler. -/
structure Spells (base file written : Path) : Prop where
  /-- Something is written. -/
  nonempty : written.text ≠ ""
  /-- It leads to the file, going up at each `..` and down at each name. -/
  leads : Disk.namesAfter (if written.isAbsolute then [] else Disk.namesAfter [] base.pieces)
    written.pieces = Disk.namesAfter [] file.pieces
  /-- Only plain names are on the way. -/
  names : ∀ piece ∈ written.pieces, piece ∈ file.pieces ∨ Plain piece

theorem Spells.plain (h : Spells base file written) (hfile : Plain file.text.toList) :
    Plain written.text.toList := by
  refine .of_pieces fun piece hpiece => ?_
  rcases h.names piece hpiece with hmem | hplain
  · exact hfile.of_part (Text.isInfix_of_mem_splitAtEach hmem)
  · exact hplain

/-- The root is no name. -/
theorem namesAfter_pieces (h : p.isAbsolute = true) :
    Disk.namesAfter [] p.pieces = Disk.namesAfter [] (p.pieces.drop 1) := by
  obtain ⟨rest, -, hpieces⟩ := p.isAbsolute_iff.mp h
  rw [hpieces]
  rfl

theorem normalize_eq_pathOf_pieces (h : p.isAbsolute = true) :
    p.normalize = Disk.pathOf (Disk.namesAfter [] p.pieces) := by
  rw [Disk.normalize_eq_pathOf h, namesAfter_pieces h]

/-- **A spelling is brought back to the file.** -/
theorem Spells.absolutize_eq (h : Spells base file written) (hbase : base.isAbsolute = true)
    (hfile : Nameable file) : written.absolutize base = file := by
  have hleads := h.leads
  rw [← hfile.normal, normalize_eq_pathOf_pieces hfile.absolute, ← hleads, Path.absolutize]
  cases hwritten : written.isAbsolute with
  | true => rw [if_pos rfl, if_pos rfl, normalize_eq_pathOf_pieces hwritten]
  | false =>
    have hsettled : base.settled.reverse =
        (Disk.namesAfter [] base.pieces).map Path.Component.name ++ [Path.Component.root] := by
      obtain ⟨rest, -, hpieces⟩ := base.isAbsolute_iff.mp hbase
      rw [Disk.settled_eq hbase, hpieces]
      simp [Disk.namesAfter, Path.isIdle]
    rw [if_neg Bool.false_ne_true, if_neg Bool.false_ne_true, Path.normalize,
      Path.settled_join base hwritten, hsettled, Disk.foldl_settle_pieces, Disk.pathOf]
    simp

/-- The file itself is a spelling of it. -/
theorem Nameable.spells_self (h : Nameable file) : Spells base file file where
  nonempty hempty := by
    have habsolute := h.absolute
    simp [Path.isAbsolute, hempty] at habsolute
  leads := by rw [if_pos h.absolute]
  names _ hpiece := Or.inl hpiece

/-- The path that goes up some directories, and down through others. -/
def upAndDown (up : Nat) (down : List String) : Path :=
  ⟨"/".intercalate (List.replicate up ".." ++ down)⟩

section UpAndDown

variable {up : Nat} {down : List String} (hdown : ∀ name ∈ down, Path.IsName name)
  (hne : List.replicate up ".." ++ down ≠ [])

include hdown

/-- No step up or down is empty or goes more than one way. -/
theorem solid_of_mem_upAndDown : ∀ text ∈ List.replicate up ".." ++ down,
    text.toList ≠ [] ∧ '/' ∉ text.toList := by
  intro text htext
  rcases List.mem_append.mp htext with hup | hname
  · rw [List.eq_of_mem_replicate hup]
    exact ⟨by decide, by decide⟩
  · exact ⟨(hdown text hname).1, (hdown text hname).2.2.2⟩

include hne

theorem pieces_upAndDown :
    (upAndDown up down).pieces = (List.replicate up ".." ++ down).map String.toList :=
  Path.pieces_intercalate hne fun text htext => (solid_of_mem_upAndDown hdown text htext).2

theorem nil_notMem_pieces_upAndDown : [] ∉ (upAndDown up down).pieces := by
  rw [pieces_upAndDown hdown hne]
  intro hmem
  obtain ⟨text, htext, hnil⟩ := List.mem_map.mp hmem
  exact (solid_of_mem_upAndDown hdown text htext).1 hnil

theorem isAbsolute_upAndDown : (upAndDown up down).isAbsolute = false := by
  rw [Bool.eq_false_iff]
  intro habsolute
  obtain ⟨rest, -, hpieces⟩ := (upAndDown up down).isAbsolute_iff.mp habsolute
  exact nil_notMem_pieces_upAndDown hdown hne (hpieces ▸ List.mem_cons_self)

end UpAndDown

/-- **Every file but the directory itself has a relative spelling**: up to a directory that holds
both, and down from there. -/
theorem Nameable.spells_upAndDown {common below rest : List String} (h : Nameable file)
    (hbase : Disk.namesAfter [] base.pieces = below ++ common)
    (hfile : Disk.namesAfter [] file.pieces = rest ++ common) (hne : rest ++ below ≠ []) :
    (upAndDown below.length rest.reverse).isAbsolute = false ∧
      Spells base file (upAndDown below.length rest.reverse) := by
  have hpath : file = Disk.pathOf (rest ++ common) := by
    rw [← hfile, ← normalize_eq_pathOf_pieces h.absolute, h.normal]
  have hnames : ∀ name ∈ rest ++ common, Path.IsName name := by
    rw [← hfile, namesAfter_pieces h.absolute]
    exact Disk.isName_of_mem_namesAfter h.absolute
  have hdown : ∀ name ∈ rest.reverse, Path.IsName name := fun name hname =>
    hnames name (List.mem_append_left _ (List.mem_reverse.mp hname))
  have hsteps : List.replicate below.length ".." ++ rest.reverse ≠ [] := fun hnil =>
    hne (by simpa [and_comm] using hnil)
  have hrelative := isAbsolute_upAndDown hdown hsteps
  have hpieces := pieces_upAndDown hdown hsteps
  refine ⟨hrelative, fun hempty => ?_, ?_, fun piece hpiece => ?_⟩
  · refine nil_notMem_pieces_upAndDown hdown hsteps ?_
    simp [Path.pieces, hempty, Text.splitAtEach]
  · rw [if_neg (by simp [hrelative]), hbase, hfile, hpieces, List.map_append,
      Disk.namesAfter_append, List.map_replicate, Disk.namesAfter_up, Disk.namesAfter_map hdown,
      List.reverse_reverse]
  · rw [hpieces] at hpiece
    obtain ⟨text, htext, rfl⟩ := List.mem_map.mp hpiece
    rcases List.mem_append.mp htext with hup | hname
    · rw [List.eq_of_mem_replicate hup]
      exact Or.inr (plain_of_notMem (by decide) (by decide))
    · have hname := List.mem_append_left common (List.mem_reverse.mp hname)
      refine Or.inl ?_
      rw [hpath, Disk.pieces_pathOf (List.ne_nil_of_mem hname) hnames]
      exact List.mem_cons_of_mem _ (List.mem_map_of_mem (List.mem_reverse.mpr hname))

/-! ### The files of programs -/

/-- What is made of the characters for the names of programs is a name, and is plain. -/
theorem isName_programName {stem : List Char} {name : String}
    (hstem : ∀ c ∈ stem, Compiler.isFileNameChar c = true)
    (hname : name = String.ofList stem ++ ".ts") : Path.IsName name ∧ Plain name.toList := by
  have htext : name.toList = stem ++ ['.', 't', 's'] := by rw [hname]; simp
  have hlength : 3 ≤ name.toList.length := by rw [htext]; simp
  have hextension : ∀ c ∈ ['.', 't', 's'], Compiler.isFileNameChar c = true :=
    List.all_eq_true.mp rfl
  have habsent : ∀ c, Compiler.isFileNameChar c = false → c ∉ name.toList := fun c hc hmem => by
    rw [htext, List.mem_append] at hmem
    rcases hmem with hmem | hmem
    · rw [hstem c hmem] at hc
      cases hc
    · rw [hextension c hmem] at hc
      cases hc
  refine ⟨⟨?_, ?_, ?_, habsent '/' (by decide)⟩,
    plain_of_notMem (habsent '\n' (by decide)) (habsent ':' (by decide))⟩
  all_goals
    intro heq
    rw [heq] at hlength
    simp at hlength

/-- **A compiler can report on the file of a program**, wherever the template is, if the directory
for generated programs is nameable. -/
theorem nameable_programFile (compiler : Compiler) (h : Nameable compiler.temporary)
    (template : Path) : Nameable (compiler.programFile template) := by
  have hnames := Disk.isName_of_mem_namesAfter h.absolute
  have htemporary := Disk.normalize_eq_pathOf h.absolute
  rw [h.normal] at htemporary
  rw [Compiler.programFile]
  generalize (template.after? compiler.project).getD template = relative
  generalize hflat : List.map _ relative.text.toList = flat
  have hstem : ∀ c ∈ flat.dropWhile (· == '_'), Compiler.isFileNameChar c = true := fun c hc => by
    rw [← hflat] at hc
    obtain ⟨original, -, rfl⟩ := List.mem_map.mp ((List.dropWhile_suffix _).subset hc)
    split
    · assumption
    · decide
  obtain ⟨hname, hplain⟩ := isName_programName hstem rfl
  generalize Disk.namesAfter [] (compiler.temporary.pieces.drop 1) = names at *
  rw [htemporary, Disk.child_pathOf hname hnames]
  have hall := List.forall_mem_cons.mpr ⟨hname, hnames⟩
  refine ⟨Disk.isAbsolute_pathOf _, Disk.normalize_pathOf hall, .of_pieces fun piece hpiece => ?_⟩
  rw [Disk.pieces_pathOf (List.cons_ne_nil _ _) hall, List.mem_cons] at hpiece
  rcases hpiece with rfl | hpiece
  · exact plain_of_notMem List.not_mem_nil List.not_mem_nil
  · obtain ⟨other, hother, rfl⟩ := List.mem_map.mp hpiece
    rcases List.mem_cons.mp (List.mem_reverse.mp hother) with rfl | hother
    · exact hplain
    · have hpieces := Disk.pieces_pathOf (List.ne_nil_of_mem hother) hnames
      refine h.plain.of_part (Text.isInfix_of_mem_splitAtEach (p := (· == '/')) ?_)
      rw [htemporary, ← Path.pieces, hpieces]
      exact List.mem_cons_of_mem _ (List.mem_map_of_mem (List.mem_reverse.mpr hother))

end Engine

end PugContracts
