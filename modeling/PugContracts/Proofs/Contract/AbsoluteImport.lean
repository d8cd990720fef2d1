import PugContracts.Contract.Import
import PugContracts.Proofs.Path.Canonical
import PugContracts.Proofs.Text.Ends

/-!
# Imports that do not depend on where they stand

An import statement is cut at the first place from which it names its module. There is only one such
place but for the blanks before it: the name of the module stands between the last two quotation
marks, and the `from` before them is the last one. So the cut depends on what it leaves as bindings
only in that these do not end in a blank, and a statement keeps its bindings when another module is
put in the place of its own.

The statement that a program repeats names its module by an absolute path. Read again, for whatever
template, it binds the same names, and it is repeated as it is.

## Main results

* `module?_eq_some_iff`, `cut?_eq_some_iff`, `read_eq_ok_iff`: what is read, without the reader.
* `absoluteStatement_stable`: statements with an absolute module.
-/

namespace PugContracts.Contract.Import

open Text

variable {gap cs rest name other bindings part ending statement : List Char} {c : Char}

/-! ### Runs of blanks -/

/-- A run of blanks. -/
structure Gap (gap : List Char) : Prop where
  /-- There is one at least. -/
  ne_nil : gap ≠ []
  /-- There is nothing else. -/
  blank : ∀ c ∈ gap, isBlank c = true

theorem gap_space : Gap [' '] :=
  ⟨List.cons_ne_nil _ _, List.forall_mem_singleton.mpr rfl⟩

/-- A text after a run of blanks starts with a blank, and is what is left when it is trimmed. -/
theorem Gap.append (h : Gap gap) (rest : List Char) :
    (gap ++ rest).head?.any isBlank = true ∧ trimStart (gap ++ rest) = trimStart rest := by
  refine ⟨?_, trimStart_blanks_append h.blank rest⟩
  obtain ⟨c, more, rfl⟩ := List.exists_cons_of_ne_nil h.ne_nil
  exact h.blank c List.mem_cons_self

/-- A text that starts with a blank is a run of blanks before what is left when it is trimmed. -/
theorem exists_gap (h : cs.head?.any isBlank = true) :
    ∃ gap, Gap gap ∧ cs = gap ++ trimStart cs := by
  refine ⟨cs.takeWhile isBlank, ⟨?_, fun c hc => List.mem_takeWhile_imp hc⟩,
    (List.takeWhile_append_dropWhile).symm⟩
  cases cs with
  | nil => cases h
  | cons c cs => simp [List.takeWhile_cons_of_pos (show isBlank c = true from h)]

/-! ### Naming a module -/

/-- The text names a module: `from` between blanks, the module between quotation marks, and the end
of the statement. -/
inductive NamesModule (name : List Char) : List Char → Prop
  | intro {before between ending : List Char} {opening closing : Char} (hbefore : Gap before)
      (hbetween : Gap between) (hopening : isQuote opening = true) (hname : name ≠ [])
      (hplain : ∀ c ∈ name, isQuote c = false) (hclosing : isQuote closing = true)
      (hending : endsStatement ending = true) :
      NamesModule name
        (before ++ ("from".toList ++ (between ++ opening :: (name ++ closing :: ending))))

theorem isQuote_eq_false_of_isBlank (hc : isBlank c = true) : isQuote c = false := by
  rw [Bool.eq_false_iff]
  intro hquote
  rw [isQuote, Bool.or_eq_true, beq_iff_eq, beq_iff_eq] at hquote
  rcases hquote with rfl | rfl <;> cases hc

theorem isBlank_eq_false_of_isQuote (hc : isQuote c = true) : isBlank c = false := by
  rw [Bool.eq_false_iff]
  intro hblank
  rw [isQuote_eq_false_of_isBlank hblank] at hc
  cases hc

theorem namesModule_of_module? (h : module? cs = some name) : NamesModule name cs := by
  rw [module?] at h
  split at h
  · cases h
  next hhead =>
  split at h
  · cases h
  next after hfrom =>
  split at h
  · cases h
  next hblank =>
  split at h
  · cases h
  next opening rest hrest =>
  dsimp only at h
  split at h
  · next hmodule =>
    obtain rfl := Option.some.inj h
    simp only [Bool.and_eq_true, Bool.not_eq_true', List.isEmpty_eq_false_iff] at hmodule
    obtain ⟨⟨⟨hopening, hname⟩, hclosed⟩, hending⟩ := hmodule
    obtain ⟨before, hbefore, hcs⟩ := exists_gap (by simpa using hhead)
    obtain ⟨between, hbetween, hafter⟩ := exists_gap (by simpa using hblank)
    obtain ⟨closing, ending, htail⟩ := List.exists_cons_of_ne_nil hclosed
    have hclosing : isQuote closing = true := by
      have hstop := List.head?_dropWhile_not (!isQuote ·) rest
      rw [htail] at hstop
      simpa using hstop
    have hcut : rest = rest.takeWhile (!isQuote ·) ++ closing :: ending := by
      rw [← htail, List.takeWhile_append_dropWhile]
    have hplain : ∀ c ∈ rest.takeWhile (!isQuote ·), isQuote c = false := fun c hc => by
      simpa using List.mem_takeWhile_imp hc
    rw [htail] at hending
    generalize rest.takeWhile (!isQuote ·) = name at hcut hname hplain
    rw [hcs, afterPrefix?_eq_some_iff.mp hfrom, hafter, hrest, hcut]
    exact .intro hbefore hbetween hopening hname hplain hclosing hending
  · cases h

/-- The text before the first quotation mark, and the text from it on. -/
theorem cut_at_quote (hplain : ∀ c ∈ part, isQuote c = false) (hc : isQuote c = true)
    (rest : List Char) :
    (part ++ c :: rest).takeWhile (!isQuote ·) = part ∧
      (part ++ c :: rest).dropWhile (!isQuote ·) = c :: rest := by
  have hkept : ∀ c ∈ part, (!isQuote c) = true := fun c hc => by rw [hplain c hc]; rfl
  constructor
  · rw [List.takeWhile_append_of_pos hkept, List.takeWhile_cons_of_neg (by simp [hc]),
      List.append_nil]
  · rw [List.dropWhile_append_of_pos hkept, List.dropWhile_cons_of_neg (by simp [hc])]

theorem NamesModule.module?_eq (h : NamesModule name cs) : module? cs = some name := by
  obtain ⟨hbefore, hbetween, hopening, hname, hplain, hclosing, hending⟩ := h
  rename_i before between ending opening closing
  obtain ⟨htake, hdrop⟩ := cut_at_quote hplain hclosing ending
  have hfrom : ∀ after, trimStart ("from".toList ++ after) = "from".toList ++ after :=
    fun _ => trimStart_of_not_isBlank rfl
  rw [module?, (hbefore.append _).1, (hbefore.append _).2, hfrom,
    afterPrefix?_eq_some_iff.mpr rfl]
  dsimp only
  rw [(hbetween.append _).1, (hbetween.append _).2,
    trimStart_of_not_isBlank (isBlank_eq_false_of_isQuote hopening)]
  dsimp only
  rw [htake, hdrop]
  simp [hopening, hname, hending]

theorem module?_eq_some_iff : module? cs = some name ↔ NamesModule name cs :=
  ⟨namesModule_of_module?, NamesModule.module?_eq⟩

/-! ### Where a statement is cut -/

theorem isQuote_eq_false_of_endsStatement (h : endsStatement ending = true) :
    ∀ c ∈ ending, isQuote c = false := by
  intro c hc
  rw [← List.takeWhile_append_dropWhile (p := isBlank) (l := ending)] at hc
  rw [endsStatement, trimStart] at h
  rcases List.mem_append.mp hc with hc | hc
  · exact isQuote_eq_false_of_isBlank (List.mem_takeWhile_imp hc)
  · split at h
    · next rest hrest =>
      rw [hrest] at hc
      rcases List.mem_cons.mp hc with rfl | hc
      · rfl
      · exact isQuote_eq_false_of_isBlank (List.all_eq_true.mp h c hc)
    · rw [List.isEmpty_iff.mp h] at hc
      cases hc

/-- A text that names a module has two quotation marks, and `from` stands before the first one. -/
theorem NamesModule.quotes (h : NamesModule name cs) : cs.countP isQuote = 2 ∧
    ∃ before between, Gap before ∧ Gap between ∧
      cs.takeWhile (!isQuote ·) = before ++ ("from".toList ++ between) := by
  obtain ⟨hbefore, hbetween, hopening, -, hplain, hclosing, hending⟩ := h
  rename_i before between ending opening closing
  have hnone : ∀ {cs : List Char}, (∀ c ∈ cs, isQuote c = false) → cs.countP isQuote = 0 :=
    fun hcs => List.countP_eq_zero.mpr fun c hc => by simp [hcs c hc]
  have hgap : ∀ {gap : List Char}, Gap gap → ∀ c ∈ gap, isQuote c = false :=
    fun hgap c hc => isQuote_eq_false_of_isBlank (hgap.blank c hc)
  have hfrom : ∀ c ∈ "from".toList, isQuote c = false := by simp [isQuote]
  constructor
  · rw [List.countP_append, List.countP_append, List.countP_append,
      List.countP_cons_of_pos hopening, List.countP_append, List.countP_cons_of_pos hclosing,
      hnone (hgap hbefore), hnone hfrom, hnone (hgap hbetween), hnone hplain,
      hnone (isQuote_eq_false_of_endsStatement hending)]
  · refine ⟨before, between, hbefore, hbetween, ?_⟩
    rw [← List.append_assoc "from".toList, ← List.append_assoc before]
    refine (cut_at_quote ?_ hopening _).1
    exact List.forall_mem_append.mpr
      ⟨hgap hbefore, List.forall_mem_append.mpr ⟨hfrom, hgap hbetween⟩⟩

/-- More blanks may stand before the text. -/
theorem NamesModule.blanks_append (h : NamesModule name cs) (hpart : ∀ c ∈ part, isBlank c = true) :
    NamesModule name (part ++ cs) := by
  obtain ⟨hbefore, hbetween, hopening, hname, hplain, hclosing, hending⟩ := h
  rename_i before between ending opening closing
  rw [← List.append_assoc]
  refine .intro ⟨?_, ?_⟩ hbetween hopening hname hplain hclosing hending
  · exact List.append_ne_nil_of_right_ne_nil _ hbefore.ne_nil
  · exact List.forall_mem_append.mpr ⟨hpart, hbefore.blank⟩

theorem trimEnd_from (h : Gap gap) (cs : List Char) :
    trimEnd (cs ++ ("from".toList ++ gap)) = cs ++ "from".toList := by
  have hlast : EndsUnblank (cs ++ "from".toList) :=
    (bare_of_ends rfl rfl rfl rfl).last.append_left cs (by decide)
  rw [← List.append_assoc, trimEnd_append_blanks h.blank, trimEnd_eq_self hlast]

/-- **A module is named from one place only**, but for the blanks before it. -/
theorem NamesModule.blank_of_append (h : NamesModule name cs)
    (hpart : NamesModule other (part ++ cs)) : ∀ c ∈ part, isBlank c = true := by
  obtain ⟨hcount, before, between, hbefore, hbetween, hcut⟩ := h.quotes
  obtain ⟨hcount', before', between', hbefore', hbetween', hcut'⟩ := hpart.quotes
  have hplain : ∀ c ∈ part, (!isQuote c) = true := by
    rw [List.countP_append] at hcount'
    have hzero : part.countP isQuote = 0 := by omega
    intro c hc
    simpa using List.countP_eq_zero.mp hzero c hc
  rw [List.takeWhile_append_of_pos hplain, hcut, ← List.append_assoc] at hcut'
  have hsame : part ++ before = before' := by
    have htrim := congrArg trimEnd hcut'
    rw [trimEnd_from hbetween, trimEnd_from hbetween'] at htrim
    exact List.append_cancel_right htrim
  intro c hc
  exact hbefore'.blank c (hsame ▸ List.mem_append_left before hc)

theorem NamesModule.ne_nil (h : NamesModule name cs) : cs ≠ [] := by
  obtain ⟨hbefore, -⟩ := h
  exact List.append_ne_nil_of_left_ne_nil hbefore.ne_nil _

theorem cut?_cons (c : Char) (rest : List Char) : cut? (c :: rest) =
    match module? (c :: rest) with
    | some name => some ([], name)
    | none =>
      if c = '\n' then none
      else (cut? rest).map fun (bindings, name) => (c :: bindings, name) := by
  rfl

theorem of_cut? (h : cut? cs = some (bindings, name)) :
    ∃ rest, cs = bindings ++ rest ∧ NamesModule name rest ∧ EndsUnblank bindings ∧
      '\n' ∉ bindings := by
  induction cs generalizing bindings with
  | nil => cases h
  | cons c cs ih =>
    rw [cut?_cons] at h
    split at h
    · next found hfound =>
      cases h
      exact ⟨c :: cs, rfl, namesModule_of_module? hfound, by simp [EndsUnblank], by simp⟩
    · next hnone =>
      split at h
      · cases h
      · next hc =>
        obtain ⟨⟨more, found⟩, hcut, heq⟩ := Option.map_eq_some_iff.mp h
        cases heq
        obtain ⟨rest, rfl, hrest, hlast, hnewline⟩ := ih hcut
        refine ⟨rest, rfl, hrest, ?_, by simp [Ne.symm hc, hnewline]⟩
        cases more with
        | nil =>
          -- A blank would belong to the text that names the module.
          intro d hd
          obtain rfl : c = d := Option.some.inj hd
          rw [Bool.eq_false_iff]
          intro hblank
          have hnames := hrest.blanks_append (List.forall_mem_singleton.mpr hblank)
          rw [List.singleton_append, ← module?_eq_some_iff] at hnames
          rw [List.nil_append, hnames] at hnone
          cases hnone
        | cons d more => exact hlast.append_left [c] (List.cons_ne_nil d more)

theorem NamesModule.cut?_eq (h : NamesModule name rest) (hlast : EndsUnblank bindings)
    (hnewline : '\n' ∉ bindings) : cut? (bindings ++ rest) = some (bindings, name) := by
  induction bindings with
  | nil =>
    obtain ⟨c, more, rfl⟩ := List.exists_cons_of_ne_nil h.ne_nil
    rw [List.nil_append, cut?_cons, h.module?_eq]
  | cons c bindings ih =>
    have hnone : module? (c :: (bindings ++ rest)) = none := by
      rw [Option.eq_none_iff_forall_ne_some]
      intro found hfound
      have hblank : ∀ d ∈ c :: bindings, isBlank d = true :=
        h.blank_of_append (namesModule_of_module? hfound)
      exact absurd (hlast.eq_nil hblank) (List.cons_ne_nil c bindings)
    obtain ⟨hc, hmore⟩ := not_or.mp (mt List.mem_cons.mpr hnewline)
    rw [List.cons_append, cut?_cons, hnone]
    dsimp only
    rw [if_neg (Ne.symm hc), ih (hlast.of_append [c]) hmore]
    rfl

/-- **Where a statement is cut**: the bindings are what stands before the blanks from which it names
its module. -/
theorem cut?_eq_some_iff : cut? cs = some (bindings, name) ↔
    ∃ rest, cs = bindings ++ rest ∧ NamesModule name rest ∧ EndsUnblank bindings ∧
      '\n' ∉ bindings := by
  refine ⟨of_cut?, ?_⟩
  rintro ⟨rest, rfl, hrest, hlast, hnewline⟩
  exact hrest.cut?_eq hlast hnewline

/-! ### Reading -/

/-- The blanks before a bare text, and the text with what follows it. -/
theorem Gap.cut (h : Gap gap) (hbindings : Bare bindings) (rest : List Char) :
    (gap ++ (bindings ++ rest)).takeWhile isBlank = gap ∧
      trimStart (gap ++ (bindings ++ rest)) = bindings ++ rest := by
  obtain ⟨c, hc, hblank⟩ := hbindings.head
  obtain ⟨more, rfl⟩ := List.head?_eq_some_iff.mp hc
  constructor
  · rw [List.takeWhile_append_of_pos h.blank, List.cons_append,
      List.takeWhile_cons_of_neg (by simp [hblank]), List.append_nil]
  · rw [(h.append _).2, List.cons_append, trimStart_of_not_isBlank hblank]

/-- The text is an import statement with the given parts. -/
structure HasParts (statement gap bindings name : List Char) : Prop where
  /-- Blanks stand after `import`. -/
  spaced : Gap gap
  /-- No blanks stand around the bindings. -/
  bare : Bare bindings
  /-- The bindings stand on one line. -/
  single : '\n' ∉ bindings
  /-- What follows the bindings names the module. -/
  named : ∃ rest, NamesModule name rest ∧
    statement = "import".toList ++ (gap ++ (bindings ++ rest))

theorem of_bindings? (h : bindings? statement = some (bindings, name)) (hne : bindings ≠ []) :
    ∃ gap, HasParts statement gap bindings name := by
  rw [bindings?] at h
  split at h
  · cases h
  next after hafter =>
  dsimp only at h
  split at h
  · cases h
  next hblanks =>
  split at h
  · next found hcut =>
    cases h
    obtain ⟨rest, htrim, hrest, hlast, hnewline⟩ := cut?_eq_some_iff.mp hcut
    obtain ⟨c, more, rfl⟩ := List.exists_cons_of_ne_nil hne
    have hhead : isBlank c = false := by
      have hstop := List.head?_dropWhile_not isBlank after
      rw [← trimStart, htrim] at hstop
      exact hstop
    have hgap : Gap (after.takeWhile isBlank) :=
      ⟨by simpa using hblanks, fun c hc => List.mem_takeWhile_imp hc⟩
    refine ⟨after.takeWhile isBlank, hgap, ⟨⟨c, rfl, hhead⟩, hlast⟩, hnewline, rest, hrest, ?_⟩
    rw [afterPrefix?_eq_some_iff.mp hafter, ← htrim, trimStart, List.takeWhile_append_dropWhile]
  · split at h
    · cases h
    · obtain ⟨found, -, heq⟩ := Option.map_eq_some_iff.mp h
      cases heq
      exact absurd rfl hne

theorem HasParts.bindings?_eq (h : HasParts statement gap bindings name) :
    bindings? statement = some (bindings, name) ∧ blanksAfterImport statement = gap := by
  obtain ⟨rest, hrest, rfl⟩ := h.named
  obtain ⟨htake, htrim⟩ := h.spaced.cut h.bare rest
  have hcut : cut? (bindings ++ rest) = some (bindings, name) :=
    cut?_eq_some_iff.mpr ⟨rest, rfl, hrest, h.bare.last, h.single⟩
  constructor
  · rw [bindings?, afterPrefix?_eq_some_iff.mpr rfl]
    dsimp only
    rw [htake, htrim, hcut, if_neg (by simp [h.spaced.ne_nil])]
  · rw [blanksAfterImport, List.drop_left' String.length_toList, htake]

theorem HasParts.trim_clause (h : HasParts statement gap bindings name) :
    trim ("import".toList ++ gap ++ bindings) = "import".toList ++ (gap ++ bindings) := by
  have hopen : Bare "import".toList := bare_of_ends rfl rfl rfl rfl
  rw [List.append_assoc, (hopen.join h.bare gap).trim]

/-- The record of a statement with the given parts. -/
def ofParts (statement gap bindings name : List Char) (file : Path) (line : Nat) : Import :=
  ⟨String.ofList statement, String.ofList ("import".toList ++ (gap ++ bindings)),
    symbolsOf (splitTypeOnly bindings).1, String.ofList (trim name), (splitTypeOnly bindings).2,
    file, line⟩

/-- **What is read**: a statement whose bindings bind a name. -/
theorem read_eq_ok_iff {file : Path} {line : Nat} {record : Import} :
    read statement file line = .ok record ↔
      ∃ gap bindings name, HasParts (trim statement) gap bindings name ∧
        symbolsOf (splitTypeOnly bindings).1 ≠ [] ∧
        record = ofParts (trim statement) gap bindings name file line := by
  constructor
  · intro h
    rw [read] at h
    dsimp only at h
    split at h
    · cases h
    next bindings name hfound =>
    split at h
    · cases h
    next hsymbols =>
    cases h
    have hne : bindings ≠ [] := by
      rintro rfl
      exact hsymbols (by decide)
    obtain ⟨gap, hparts⟩ := of_bindings? hfound hne
    rw [hparts.bare.trim, List.isEmpty_iff] at hsymbols
    refine ⟨gap, bindings, name, hparts, hsymbols, ?_⟩
    rw [ofParts, hparts.bare.trim, hparts.bindings?_eq.2, hparts.trim_clause]
  · rintro ⟨gap, bindings, name, hparts, hsymbols, rfl⟩
    obtain ⟨hfound, hblanks⟩ := hparts.bindings?_eq
    rw [read]
    dsimp only
    rw [hfound, hblanks]
    dsimp only
    rw [hparts.bare.trim, hparts.trim_clause, if_neg (by simpa using hsymbols)]
    rfl

/-! ### Absolute modules -/

variable {record : Import} {p file : Path} {line : Nat}

/-- A path that stands between quotation marks as it is, and that no blank is trimmed from. -/
structure Plain (path : List Char) : Prop where
  /-- It holds no quotation marks. -/
  unquoted : ∀ c ∈ path, isQuote c = false
  /-- It holds no backslash, which would be written as a slash. -/
  unescaped : '\\' ∉ path
  /-- It does not end with a blank. -/
  last : EndsUnblank path

/-- The path of a module is absolute if the template is in a directory or the module says so. -/
theorem isAbsolute_modulePath (hfile : record.file.isAbsolute = true)
    (h : record.file.HasDirectory ∨ (Path.mk record.source).isAbsolute = true) :
    record.modulePath.isAbsolute = true := by
  rw [modulePath, Path.isAbsolute_normalize]
  rcases h with hdirectory | hsource
  · exact Path.isAbsolute_join (Path.isAbsolute_parent hfile hdirectory) _
  · rw [Path.join, if_pos hsource, hsource]

theorem modulePath_normalize (record : Import) : record.modulePath.normalize = record.modulePath :=
  (record.file.parent.join ⟨record.source⟩).normalize_normalize

/-- A normal and absolute path is the path of the module that it is given as, wherever that
stands. -/
theorem modulePath_eq (hp : p.isAbsolute = true) (hnormal : p.normalize = p)
    (hsource : record.source = p.text) : record.isPath = true ∧ record.modulePath = p := by
  constructor
  · have hslash : p.text.startsWith "/" = true := by
      rw [String.startsWith_string_iff]
      obtain ⟨rest, hrest⟩ := List.head?_eq_some_iff.mp (beq_iff_eq.mp hp)
      exact ⟨rest, hrest.symm⟩
    rw [isPath, hsource, Bool.or_eq_true]
    exact Or.inr hslash
  · rw [modulePath, hsource, Path.join, if_pos hp, hnormal]

theorem absoluteStatement_eq (hpath : record.isPath = true)
    (hplain : Plain record.modulePath.text.toList) :
    record.absoluteStatement =
      record.clause ++ " from \"" ++ record.modulePath.text ++ "\";" := by
  have hslashed : slashed record.modulePath = record.modulePath.text := by
    have hkept : ∀ c ∈ record.modulePath.text.toList, (if c = '\\' then '/' else c) = id c := by
      intro c hc
      refine if_neg ?_
      rintro rfl
      exact hplain.unescaped hc
    rw [slashed, List.map_congr_left hkept, List.map_id, String.ofList_toList]
  rw [absoluteStatement, if_pos hpath, hslashed]

/-- The text of a statement that is repeated with the given parts. -/
def quoted (gap bindings name : List Char) : List Char :=
  "import".toList ++ (gap ++ (bindings ++ (" from \"".toList ++ (name ++ "\";".toList))))

/-- **Another module in the place of the one that was read** leaves the bindings as they are. -/
theorem HasParts.read_quoted (h : HasParts statement gap bindings name)
    (hsymbols : symbolsOf (splitTypeOnly bindings).1 ≠ []) (hother : other ≠ [])
    (hplain : ∀ c ∈ other, isQuote c = false) (file : Path) (line : Nat) :
    read (quoted gap bindings other) file line =
      .ok (ofParts (quoted gap bindings other) gap bindings other file line) := by
  have hnames : NamesModule other (" from \"".toList ++ (other ++ "\";".toList)) :=
    .intro gap_space gap_space rfl hother hplain rfl (by decide)
  have hparts : HasParts (quoted gap bindings other) gap bindings other :=
    ⟨h.spaced, h.bare, h.single, _, hnames, rfl⟩
  have hbare : Bare (quoted gap bindings other) := by
    have hopen : Bare "import".toList := bare_of_ends rfl rfl rfl rfl
    have hclose : Bare "\";".toList := bare_of_ends rfl rfl rfl rfl
    have hwhole := hopen.join hclose (gap ++ (bindings ++ (" from \"".toList ++ other)))
    rwa [List.append_assoc, List.append_assoc, List.append_assoc] at hwhole
  refine read_eq_ok_iff.mpr ⟨gap, bindings, other, ?_, hsymbols, ?_⟩
  · rwa [hbare.trim]
  · rw [hbare.trim]

/-- **A statement with an absolute module is stable.** It is read, for whatever template and line,
with the same bindings and the path as its module, and is repeated as it is. -/
theorem absoluteStatement_stable {statement : List Char}
    (hread : read statement file line = .ok record) (hpath : record.isPath = true)
    (hfile : file.isAbsolute = true)
    (hplace : file.HasDirectory ∨ (Path.mk record.source).isAbsolute = true)
    (hplain : Plain record.modulePath.text.toList) :
    record.modulePath.isAbsolute = true ∧ ∀ (other : Path) (otherLine : Nat), ∃ again,
      read record.absoluteStatement.toList other otherLine = .ok again ∧
        again.clause = record.clause ∧ again.symbols = record.symbols ∧
        again.typeOnly = record.typeOnly ∧ again.source = record.modulePath.text ∧
        again.absoluteStatement = record.absoluteStatement := by
  obtain ⟨gap, bindings, name, hparts, hsymbols, hrecord⟩ := read_eq_ok_iff.mp hread
  have hfile' : record.file = file := by rw [hrecord]; rfl
  have habsolute : record.modulePath.isAbsolute = true :=
    isAbsolute_modulePath (hfile' ▸ hfile) (hfile' ▸ hplace)
  refine ⟨habsolute, fun other otherLine => ?_⟩
  have hbare : Bare record.modulePath.text.toList :=
    ⟨⟨'/', beq_iff_eq.mp habsolute, by decide⟩, hplain.last⟩
  have hclause : record.clause = String.ofList ("import".toList ++ (gap ++ bindings)) := by
    rw [hrecord]
    rfl
  have htext : record.absoluteStatement.toList =
      quoted gap bindings record.modulePath.text.toList := by
    have hchars : record.clause.toList = "import".toList ++ (gap ++ bindings) :=
      (congrArg String.toList hclause).trans String.toList_ofList
    rw [absoluteStatement_eq hpath hplain, String.toList_append, String.toList_append,
      String.toList_append, hchars]
    show _ = "import".toList ++ (gap ++ (bindings ++ (_ ++ (_ ++ _))))
    simp only [List.append_assoc]
  have hagain := hparts.read_quoted hsymbols hbare.ne_nil hplain.unquoted other otherLine
  rw [← htext] at hagain
  have hsource : ∀ text, (ofParts text gap bindings record.modulePath.text.toList other
      otherLine).source = record.modulePath.text := by
    intro text
    rw [ofParts, hbare.trim, String.ofList_toList]
  obtain ⟨hpath', hmodule⟩ :=
    modulePath_eq habsolute record.modulePath_normalize (hsource record.absoluteStatement.toList)
  refine ⟨_, hagain, hclause.symm, by rw [hrecord]; rfl, by rw [hrecord]; rfl, hsource _, ?_⟩
  rw [absoluteStatement_eq hpath' (hmodule.symm ▸ hplain), hmodule,
    absoluteStatement_eq hpath hplain, hclause]
  rfl

/-- Bindings that end in the word `from`, and a module above the template. -/
theorem absoluteStatement_stable_from :
    let statement := "import  * as from from '../x'".toList
    let file : Path := ⟨"/v/pages/a.pug"⟩
    let record : Import :=
      ⟨"import  * as from from '../x'", "import  * as from", ["from"], "../x", false, file, 3⟩
    (read statement file 3 = .ok record ∧ record.isPath = true ∧ file.isAbsolute = true ∧
        file.HasDirectory ∧ Plain record.modulePath.text.toList) ∧
      ∃ again, read record.absoluteStatement.toList ⟨"/w/b.pug"⟩ 1 = .ok again ∧
        again.clause = record.clause ∧ again.symbols = record.symbols ∧
        again.typeOnly = record.typeOnly ∧ again.source = record.modulePath.text ∧
        again.absoluteStatement = record.absoluteStatement := by
  intro statement file record
  have hread : read statement file 3 = .ok record := by decide +kernel
  have hpath : record.isPath = true := by decide +kernel
  have hfile : file.isAbsolute = true := by decide
  have hdirectory : file.HasDirectory := by decide +kernel
  have hmodule : record.modulePath = ⟨"/v/x"⟩ := by decide +kernel
  have hplain : Plain record.modulePath.text.toList := by
    rw [hmodule]
    exact ⟨by simp [isQuote], by decide, (bare_of_ends rfl rfl rfl rfl).last⟩
  exact ⟨⟨hread, hpath, hfile, hdirectory, hplain⟩,
    (absoluteStatement_stable hread hpath hfile (Or.inl hdirectory) hplain).2 ⟨"/w/b.pug"⟩ 1⟩

/-- The root is in no directory. As the file of a statement it makes relative paths of relative
modules, also an empty one, which is the module of no statement. -/
theorem absoluteStatement_without_directory :
    let statement := "import \x7b A \x7d from './'".toList
    let record : Import :=
      ⟨"import \x7b A \x7d from './'", "import \x7b A \x7d", ["A"], "./", false, ⟨"/"⟩, 1⟩
    (read statement ⟨"/"⟩ 1 = .ok record ∧ record.isPath = true ∧
        (Path.mk "/").isAbsolute = true ∧ record.modulePath = ⟨""⟩) ∧
      ∀ again, read record.absoluteStatement.toList ⟨"/v/a.pug"⟩ 1 ≠ .ok again := by
  intro statement record
  refine ⟨⟨by decide +kernel, by decide +kernel, by decide, by decide +kernel⟩, ?_⟩
  have hagain : read record.absoluteStatement.toList ⟨"/v/a.pug"⟩ 1 =
      .error (.malformed "import \x7b A \x7d from \"\";") := by
    decide +kernel
  intro again
  rw [hagain]
  exact fun h => by cases h

end PugContracts.Contract.Import
