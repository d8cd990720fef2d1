import PugContracts.Disk.Discovery
import PugContracts.Proofs.Path.Characters
import PugContracts.Proofs.Path.Map

/-!
# Files under their normal paths

Templates are found under the paths that the roots spell, and known by normal ones. A normal path
takes a shorter way than the path that it is made from, which goes through directories and leaves
them again. It leads to the same place nevertheless: of a path that leads somewhere, each name that
is kept was looked up in the directory of the names before it (`linked_namesAfter`), and that is all
that the normal path needs (`walk_of_linked`). It is no longer than the path either
(`utf8ByteSize_normalize_le`), so limits on the length of paths do not stand in the way.

## Main results

* `locate_normalize`: a path that leads somewhere has a normal form that leads there
* `isFile_of_mem_findTemplates`: the templates that are found exist
-/

namespace PugContracts

namespace Disk

variable {d : Disk} {name : String} {names above more : List String} {pieces : List (List Char)}
  {p : Path}

/-! ### The names on the way -/

/-- The directory that the pieces of a path lead to from another one; both are given by the names
on the way to them, the last one first. -/
def namesAfter (names : List String) (pieces : List (List Char)) : List String :=
  pieces.foldl (fun names piece =>
    if Path.isIdle piece then names
    else if piece = ['.', '.'] then names.tail
    else String.ofList piece :: names) names

/-- Each of the names is there, in a directory. -/
def Linked (d : Disk) : List String → Prop
  | [] => True
  | name :: above => d.entryAt? (pathOf above) = some .directory ∧
      (d.entryAt? (pathOf (name :: above))).isSome = true ∧
      Text.byteLength name.toList ≤ maxNameLength ∧ Linked d above

theorem Linked.tail (h : Linked d names) : Linked d names.tail := by
  cases names with
  | nil => exact h
  | cons name above => exact h.2.2.2

theorem Linked.of_append (h : Linked d (more ++ names)) : Linked d names := by
  induction more with
  | nil => exact h
  | cons name more ih => exact ih h.tail

/-- The names that are kept on the way of a path were looked up. -/
theorem linked_namesAfter (h : d.walk names pieces = .ok ()) (hnames : Linked d names) :
    Linked d (namesAfter names pieces) := by
  induction pieces generalizing names with
  | nil => exact hnames
  | cons piece rest ih =>
    rw [namesAfter, List.foldl_cons, ← namesAfter]
    rw [walk] at h
    split at h
    · cases h
    · cases h
    · next hdirectory =>
      split at h
      · next hidle =>
        rw [if_pos hidle]
        exact ih h hnames
      · next hidle =>
        rw [if_neg hidle]
        split at h
        · next hup =>
          rw [if_pos hup]
          exact ih h hnames.tail
        · next hname =>
          rw [if_neg hname]
          split at h
          · cases h
          · next hshort =>
            dsimp only at h
            split at h
            · cases h
            · next hfound =>
              refine ih h ⟨hdirectory, ?_, ?_, hnames⟩
              · cases hdeeper : d.entryAt? (pathOf (String.ofList piece :: names)) with
                | none => exact absurd (Option.isNone_iff_eq_none.mpr hdeeper) hfound
                | some entry => rfl
              · rw [String.toList_ofList]
                exact Nat.le_of_not_gt hshort

/-- Names that are linked can be followed one after the other. -/
theorem walk_of_linked (hmore : ∀ name ∈ more, Path.IsName name)
    (h : Linked d (more.reverse ++ names)) : d.walk names (more.map String.toList) = .ok () := by
  induction more generalizing names with
  | nil => rfl
  | cons name more ih =>
    obtain ⟨hname, hmore⟩ := List.forall_mem_cons.mp hmore
    rw [List.reverse_cons, List.append_assoc, List.singleton_append] at h
    obtain ⟨hdirectory, hfound, hshort, -⟩ := h.of_append
    have hsome : ¬ (d.entryAt? (pathOf (name :: names))).isNone = true := by
      rw [Option.isNone_iff_eq_none]
      exact Option.isSome_iff_ne_none.mp hfound
    rw [List.map_cons, walk, hdirectory]
    dsimp only
    rw [if_neg (by simp [Path.isIdle_of_isName hname]), if_neg hname.2.2.1,
      if_neg (Nat.not_lt.mpr hshort), String.ofList_toList, if_neg hsome]
    exact ih hmore h

/-! ### The names of the normal form -/

/-- Settling the components of pieces keeps the names on the way. -/
theorem foldl_settle_pieces (names : List String) (pieces : List (List Char)) :
    (pieces.filterMap Path.component?).foldl Path.settle (names.map .name ++ [.root]) =
      (namesAfter names pieces).map .name ++ [.root] := by
  induction pieces generalizing names with
  | nil => rfl
  | cons piece rest ih =>
    rw [namesAfter, List.foldl_cons, ← namesAfter]
    by_cases hidle : Path.isIdle piece = true
    · rw [List.filterMap_cons_none (by rw [Path.component?, if_pos hidle]), if_pos hidle]
      exact ih names
    · by_cases hup : piece = ['.', '.']
      · have hcomponent : Path.component? ['.', '.'] = some .up := rfl
        rw [if_neg hidle, if_pos hup, hup, List.filterMap_cons_some hcomponent, List.foldl_cons]
        have hsettled : Path.settle (names.map .name ++ [.root]) .up =
            names.tail.map .name ++ [.root] := by
          cases names <;> rfl
        rw [hsettled]
        exact ih names.tail
      · have hcomponent : Path.component? piece = some (.name (String.ofList piece)) := by
          rw [Path.component?, if_neg hidle, if_neg (by simpa using hup)]
        have hsettled : Path.settle (names.map .name ++ [.root]) (.name (String.ofList piece)) =
            (String.ofList piece :: names).map .name ++ [.root] := by
          cases names <;> rfl
        rw [if_neg hidle, if_neg hup, List.filterMap_cons_some hcomponent, List.foldl_cons,
          hsettled]
        exact ih (String.ofList piece :: names)

/-- What an absolute path settles to are the names that it leads to. -/
theorem settled_eq (h : p.isAbsolute = true) :
    p.settled = .root :: (namesAfter [] (p.pieces.drop 1)).reverse.map .name := by
  obtain ⟨rest, -, hpieces⟩ := p.isAbsolute_iff.mp h
  have hsettled := foldl_settle_pieces [] rest
  rw [Path.settled, Path.foldl_settle_components, if_pos h, hpieces,
    List.filterMap_cons_none (by rfl)]
  show ((rest.filterMap Path.component?).foldl Path.settle [.root]).reverse = _
  rw [show [Path.Component.root] = ([] : List String).map .name ++ [.root] from rfl, hsettled]
  simp

theorem isName_of_mem_namesAfter (h : p.isAbsolute = true) :
    ∀ name ∈ namesAfter [] (p.pieces.drop 1), Path.IsName name := by
  have hneat := p.neat_reverse_settled
  rw [settled_eq h, List.reverse_cons, List.map_reverse, List.reverse_reverse] at hneat
  generalize namesAfter [] (p.pieces.drop 1) = names at hneat ⊢
  induction names with
  | nil => simp
  | cons name above ih => exact List.forall_mem_cons.mpr ⟨hneat.1, ih hneat.2⟩

/-- The normal form of an absolute path has the names that the path leads to. -/
theorem normalize_eq_pathOf (h : p.isAbsolute = true) :
    p.normalize = pathOf (namesAfter [] (p.pieces.drop 1)) := by
  rw [Path.normalize, settled_eq h, pathOf]

theorem pieces_pathOf (hne : names ≠ []) (hnames : ∀ name ∈ names, Path.IsName name) :
    (pathOf names).pieces = [] :: names.reverse.map String.toList := by
  have hinner : ∀ c ∈ names.reverse.map Path.Component.name, Path.IsInner c := by
    intro c hc
    obtain ⟨name, hname, rfl⟩ := List.mem_map.mp hc
    exact hnames name (List.mem_reverse.mp hname)
  rw [pathOf, Path.pieces_ofComponents_root (by simpa using hne) hinner, List.map_map]
  rfl

theorem isAbsolute_pathOf (names : List String) : (pathOf names).isAbsolute = true := by
  simp [pathOf, Path.ofComponents, Path.isAbsolute]

/-- A normal path can be followed if its names are linked. -/
theorem walk_pathOf (hnames : ∀ name ∈ names, Path.IsName name) (h : Linked d names) :
    d.walk [] ((pathOf names).pieces.drop 1) = .ok () := by
  by_cases hne : names = []
  · rw [hne]
    rfl
  · rw [pieces_pathOf hne hnames]
    refine walk_of_linked (fun name hname => hnames name (List.mem_reverse.mp hname)) ?_
    rwa [List.reverse_reverse, List.append_nil]

/-! ### The length of the normal form -/

/-- The bytes that texts take up in a path, each with a slash. -/
def width : List String → Nat
  | [] => 0
  | text :: rest => text.utf8ByteSize + 1 + width rest

theorem width_append (texts more : List String) :
    width (texts ++ more) = width texts + width more := by
  induction texts with
  | nil => exact (Nat.zero_add _).symm
  | cons text rest ih => rw [List.cons_append, width, width, ih, ← Nat.add_assoc]

theorem width_reverse (texts : List String) : width texts.reverse = width texts := by
  induction texts with
  | nil => rfl
  | cons text rest ih =>
    rw [List.reverse_cons, width_append, ih, width, width, width]
    omega

theorem utf8ByteSize_intercalate {texts : List String} (hne : texts ≠ []) :
    ("/".intercalate texts).utf8ByteSize + 1 = width texts := by
  induction texts with
  | nil => exact absurd rfl hne
  | cons text rest ih =>
    by_cases hrest : rest = []
    · simp [hrest, width]
    · have hslash : "/".utf8ByteSize = 1 := rfl
      rw [String.intercalate_cons_of_ne_nil hrest, String.utf8ByteSize_append,
        String.utf8ByteSize_append, width, ← ih hrest, hslash]
      omega

/-- The pieces of a path take up its bytes, and one more for the slash that the first has not. -/
theorem utf8ByteSize_eq_width {q : Path} (h : q.pieces ≠ []) :
    q.text.utf8ByteSize + 1 = width (q.pieces.map String.ofList) := by
  rw [← q.intercalate_pieces]
  exact utf8ByteSize_intercalate (by simpa using h)

/-- Names are only kept or taken away. -/
theorem width_namesAfter_le (names : List String) (pieces : List (List Char)) :
    width (namesAfter names pieces) ≤ width names + width (pieces.map String.ofList) := by
  induction pieces generalizing names with
  | nil => exact Nat.le_add_right _ _
  | cons piece rest ih =>
    have htail : width names.tail ≤ width names := by
      cases names with
      | nil => exact Nat.le_refl _
      | cons name above => exact Nat.le_add_left _ _
    rw [namesAfter, List.foldl_cons, ← namesAfter, List.map_cons, width]
    split
    · have := ih names
      omega
    · split
      · have := ih names.tail
        omega
      · have := ih (String.ofList piece :: names)
        rw [width] at this
        omega

/-- **A normal form is no longer than the path**, if that is absolute. -/
theorem utf8ByteSize_normalize_le (h : p.isAbsolute = true) :
    p.normalize.text.utf8ByteSize ≤ p.text.utf8ByteSize := by
  obtain ⟨rest, hrest, hpieces⟩ := p.isAbsolute_iff.mp h
  have hnames := isName_of_mem_namesAfter h
  have hkept := width_namesAfter_le [] rest
  have hpath := utf8ByteSize_eq_width (q := p) (by simp [hpieces])
  rw [normalize_eq_pathOf h]
  rw [hpieces, List.map_cons, width] at hpath
  rw [hpieces, List.drop_one, List.tail_cons] at *
  generalize namesAfter [] rest = names at *
  by_cases hne : names = []
  · -- The root is as short as an absolute path can be.
    have hroot : (pathOf []).text.utf8ByteSize = 1 := rfl
    obtain ⟨first, rest, rfl⟩ := List.exists_cons_of_ne_nil hrest
    rw [List.map_cons, width] at hpath
    rw [hne, hroot]
    omega
  · have htexts : (names.reverse.map String.toList).map String.ofList = names.reverse := by
      simp [Function.comp_def]
    have hnormal := utf8ByteSize_eq_width (q := pathOf names) (by simp [pieces_pathOf hne hnames])
    rw [pieces_pathOf hne hnames, List.map_cons, htexts, width, width_reverse] at hnormal
    rw [width] at hkept
    omega

/-! ### Entries -/

/-- When a path leads somewhere. -/
theorem locate_eq_ok_iff {key : Path} :
    d.locate p = .ok key ↔
      '\x00' ∉ p.text.toList ∧ p.text.utf8ByteSize < maxPathLength ∧ p.isAbsolute = true ∧
        d.walk [] (p.pieces.drop 1) = .ok () ∧ p.normalize = key := by
  rw [locate]
  by_cases hzero : '\x00' ∈ p.text.toList
  · simp [hzero]
  · rw [if_neg (by simpa using hzero), and_iff_right hzero]
    by_cases hlong : p.text.utf8ByteSize ≥ maxPathLength
    · simp [hlong, Nat.not_lt.mpr hlong]
    · rw [if_neg hlong, and_iff_right (Nat.lt_of_not_ge hlong)]
      by_cases habsolute : p.isAbsolute = true
      · rw [if_pos habsolute, and_iff_right habsolute]
        cases d.walk [] (p.pieces.drop 1) <;> simp
      · simp [habsolute]

/-- **A path that leads somewhere has a normal form that leads there.** -/
theorem locate_normalize {key : Path} (h : d.locate p = .ok key) :
    d.locate p.normalize = .ok key := by
  obtain ⟨hzero, hshort, habsolute, hwalk, rfl⟩ := locate_eq_ok_iff.mp h
  have hzero' : p.normalize.Consists (· ≠ '\x00') :=
    Path.Consists.normalize (by decide) (by decide) fun c hc heq => hzero (heq ▸ hc)
  have hlength := utf8ByteSize_normalize_le habsolute
  have hfollowed := walk_pathOf (isName_of_mem_namesAfter habsolute)
    (linked_namesAfter hwalk trivial)
  have habsolute' := isAbsolute_pathOf (namesAfter [] (p.pieces.drop 1))
  rw [← normalize_eq_pathOf habsolute] at hfollowed habsolute'
  exact locate_eq_ok_iff.mpr ⟨fun hmem => hzero' _ hmem rfl, by omega, habsolute', hfollowed,
    p.normalize_normalize⟩

theorem entry_normalize {entry : Entry} (h : d.entry p = .ok entry) :
    d.entry p.normalize = .ok entry := by
  rw [Disk.entry] at h ⊢
  cases hplace : d.locate p with
  | error e =>
    rw [hplace] at h
    exact absurd h (by simp)
  | ok key =>
    rw [hplace] at h
    rwa [locate_normalize hplace]

theorem isFile_normalize (h : d.isFile p = true) : d.isFile p.normalize = true := by
  rw [isFile, file] at h
  cases hentry : d.entry p with
  | error e =>
    rw [hentry] at h
    exact absurd h (by simp [Except.isOk, Except.toBool])
  | ok entry =>
    rw [hentry] at h
    rw [isFile, file, entry_normalize hentry]
    exact h

/-! ### The templates that are found -/

theorem isFile_of_mem_templatesOf {root : Path} {found : List Path}
    (h : d.templatesOf root = .ok found) (hp : p ∈ found) : d.isFile p = true := by
  have hfilter : ∀ {paths : List Path}, p ∈ paths.filter d.isTemplate → d.isFile p = true := by
    intro paths hmem
    have htemplate := (List.mem_filter.mp hmem).2
    rw [isTemplate, Bool.and_eq_true] at htemplate
    exact htemplate.1
  rw [templatesOf] at h
  split at h
  · split at h
    · next matched hmatching =>
      obtain rfl := Except.ok.inj h
      rw [matching] at hmatching
      cases hread : Pattern.readComponents root.text.toList with
      | error e =>
        rw [hread] at hmatching
        exact absurd hmatching (by simp [Except.map])
      | ok components =>
        rw [hread] at hmatching
        obtain rfl := Except.ok.inj hmatching
        split at hp
        · exact absurd hp List.not_mem_nil
        · exact hfilter hp
    · exact absurd h (by simp)
  · split at h
    · next hfile =>
      obtain rfl := Except.ok.inj h
      rwa [List.mem_singleton.mp hp]
    · split at h
      · obtain rfl := Except.ok.inj h
        exact hfilter hp
      · obtain rfl := Except.ok.inj h
        exact absurd hp List.not_mem_nil

/-- What a list of roots stands for are the templates of its members. -/
theorem exists_templatesOf {roots : List Path} {all : List (List Path)} {found : List Path}
    (h : roots.mapM d.templatesOf = .ok all) (hfound : found ∈ all) :
    ∃ root ∈ roots, d.templatesOf root = .ok found := by
  induction roots generalizing all with
  | nil =>
    obtain rfl := Except.ok.inj h
    exact absurd hfound List.not_mem_nil
  | cons root roots ih =>
    rw [List.mapM_cons] at h
    cases hroot : d.templatesOf root with
    | error failure =>
      rw [hroot] at h
      exact absurd h (by simp [bind, Except.bind])
    | ok first =>
      cases hrest : roots.mapM d.templatesOf with
      | error failure =>
        rw [hroot, hrest] at h
        exact absurd h (by simp [bind, Except.bind])
      | ok rest =>
        rw [hroot, hrest] at h
        obtain rfl := Except.ok.inj h
        rcases List.mem_cons.mp hfound with rfl | hfound
        · exact ⟨root, List.mem_cons_self, hroot⟩
        · obtain ⟨other, hother, heq⟩ := ih hrest hfound
          exact ⟨other, List.mem_cons_of_mem root hother, heq⟩

theorem findTemplates_eq_ok {roots templates : List Path}
    (h : d.findTemplates roots = .ok templates) :
    ∃ all, roots.mapM d.templatesOf = .ok all ∧
      templates = Path.ordered (all.flatten.map Path.normalize) := by
  rw [findTemplates] at h
  cases hall : roots.mapM d.templatesOf with
  | error failure =>
    rw [hall] at h
    exact absurd h (by simp [Except.map])
  | ok all =>
    rw [hall] at h
    exact ⟨all, rfl, (Except.ok.inj h).symm⟩

/-- **The templates that are found exist**, and they are found under normal paths. -/
theorem isFile_of_mem_findTemplates {roots templates : List Path} {template : Path}
    (h : d.findTemplates roots = .ok templates) (htemplate : template ∈ templates) :
    template.normalize = template ∧ d.isFile template = true := by
  obtain ⟨all, hall, rfl⟩ := findTemplates_eq_ok h
  have hnormal : ∀ q ∈ all.flatten.map Path.normalize, q.normalize = q := by
    intro q hq
    obtain ⟨spelled, -, rfl⟩ := List.mem_map.mp hq
    exact spelled.normalize_normalize
  have hmem := (Path.mem_ordered hnormal).mp htemplate
  obtain ⟨spelled, hspelled, rfl⟩ := List.mem_map.mp hmem
  obtain ⟨found, hfound, hp⟩ := List.mem_flatten.mp hspelled
  obtain ⟨root, -, hroot⟩ := exists_templatesOf hall hfound
  exact ⟨hnormal _ hmem, isFile_normalize (isFile_of_mem_templatesOf hroot hp)⟩

end Disk

end PugContracts
