import Mathlib.Order.Monotone.Basic
import PugContracts.Proofs.Template.Reading
import PugContracts.Proofs.Text.Pieces

/-!
# Widths of indentation

A template may be indented by tabs, by two spaces or by four, and it may be shifted as a whole. What
it says depends on which lines are deeper than which others, and on nothing else.

Reading a statement returns lines, those that it does not take, and these still have their widths.
So what is proved by induction is that reading commutes with a change of widths (`reindent` on
lines, on statements that were read and on blocks). The change has to keep the order of widths, and
strictly: then every comparison that the reading makes has the same outcome, and as no width gets
into a text, a node or a fault, these are the same ones.

## Main results

* `Statement.read_reindent`: reading a statement.
* `Reads.reindent`: reading a block.
* `parse_reindent`: a template whose indentation is replaced is read as before.
-/

namespace PugContracts.Template

variable {f : Nat → Nat} {floor : Option Nat} {indent number : Nat} {before : List Node}
  {text : List Char} {line : SourceLine} {lines : List SourceLine}

/-! ### Changing widths -/

/-- The line indented by `f n` instead of `n`. -/
def SourceLine.reindent (f : Nat → Nat) (line : SourceLine) : SourceLine :=
  { line with indent := f line.indent }

/-- The same of the lines that are left after a statement. -/
def StatementReading.reindent (f : Nat → Nat) (reading : StatementReading) : StatementReading :=
  { reading with rest := reading.rest.map (.reindent f) }

/-- The same of the lines that are left after a block. -/
def BlockReading.reindent (f : Nat → Nat) (reading : BlockReading) : BlockReading :=
  { reading with rest := reading.rest.map (.reindent f) }

/-- The same of the lines that are left after an element. -/
def Statement.ElementReading.reindent (f : Nat → Nat) : ElementReading → ElementReading
  | .done reading => .done (reading.reindent f)
  | .expansion element inner rest => .expansion element inner (rest.map (.reindent f))

@[simp] theorem SourceLine.isBlank_reindent (f : Nat → Nat) (line : SourceLine) :
    (line.reindent f).isBlank = line.isBlank := rfl

/-- The text of a line with `f n` spaces instead of the `n` spaces and tabs that it starts with. -/
def reindentText (f : Nat → Nat) (text : List Char) : List Char :=
  List.replicate (f (text.takeWhile isIndentation).length) ' ' ++ text.dropWhile isIndentation

/-- The source text in which every line that starts with `n` spaces and tabs starts with `f n`
spaces instead. -/
def reindent (f : Nat → Nat) (source : String) : String :=
  String.ofList (['\n'].intercalate ((Text.newlinePieces source.toList).map (reindentText f)))

/-! ### Lines -/

/-- A line is cut after its indentation. -/
theorem ofText_append {blanks body : List Char} (hblanks : ∀ c ∈ blanks, isIndentation c = true)
    (hbody : ∀ c ∈ body.head?, isIndentation c = false) (number : Nat) :
    SourceLine.ofText number (blanks ++ body) = ⟨number, blanks.length, Text.dropReturn body⟩ := by
  have hreturn : '\r' ∉ blanks := fun hmem => absurd (hblanks _ hmem) (by decide)
  have hhead : ∀ c ∈ (Text.dropReturn body).head?, isIndentation c = false := by
    intro c hc
    obtain ⟨rest, hrest⟩ := List.head?_eq_some_iff.mp hc
    refine hbody c ?_
    rw [Text.dropReturn] at hrest
    split at hrest
    · next before hreverse =>
      rw [← List.reverse_reverse body, hreverse, List.reverse_cons, hrest]
      rfl
    · rw [hrest]
      rfl
  have hnone : (Text.dropReturn body).takeWhile isIndentation = [] ∧
      (Text.dropReturn body).dropWhile isIndentation = Text.dropReturn body := by
    cases hbody : Text.dropReturn body with
    | nil => exact ⟨rfl, rfl⟩
    | cons c rest =>
      have hc := Bool.eq_false_iff.mp (hhead c (by rw [hbody]; rfl))
      exact ⟨List.takeWhile_cons_of_neg hc, List.dropWhile_cons_of_neg hc⟩
  rw [SourceLine.ofText, Text.dropReturn_append hreturn, List.takeWhile_append_of_pos hblanks,
    List.dropWhile_append_of_pos hblanks, hnone.1, hnone.2, List.append_nil]

/-- Replacing the indentation in a text is replacing it in the line. -/
theorem ofText_reindentText (f : Nat → Nat) (number : Nat) (text : List Char) :
    SourceLine.ofText number (reindentText f text) =
      (SourceLine.ofText number text).reindent f := by
  have hbody : ∀ c ∈ (text.dropWhile isIndentation).head?, isIndentation c = false := by
    intro c hc
    have hfirst := List.head?_dropWhile_not isIndentation text
    rw [Option.mem_def.mp hc] at hfirst
    exact hfirst
  have hblanks : ∀ c ∈ text.takeWhile isIndentation, isIndentation c = true :=
    fun c hc => List.mem_takeWhile_imp hc
  have hspaces : ∀ c ∈ List.replicate (f (text.takeWhile isIndentation).length) ' ',
      isIndentation c = true := fun c hc => by rw [List.eq_of_mem_replicate hc]; rfl
  have hcut := ofText_append hblanks hbody number
  rw [List.takeWhile_append_dropWhile] at hcut
  rw [hcut, reindentText, ofText_append hspaces hbody, List.length_replicate]
  rfl

theorem numberFrom_reindent (f : Nat → Nat) (first : Nat) (texts : List (List Char)) :
    SourceLine.numberFrom first (texts.map (reindentText f)) =
      (SourceLine.numberFrom first texts).map (.reindent f) := by
  induction texts generalizing first with
  | nil => rfl
  | cons text rest ih =>
    rw [List.map_cons, SourceLine.numberFrom, SourceLine.numberFrom, List.map_cons, ih,
      ofText_reindentText]

/-- **The lines of a source whose indentation is replaced** are its lines with other widths. -/
theorem ofSource_reindent (f : Nat → Nat) (source : String) :
    SourceLine.ofSource (reindent f source).toList =
      (SourceLine.ofSource source.toList).map (.reindent f) := by
  have hsingle : ∀ piece ∈ (Text.newlinePieces source.toList).map (reindentText f),
      '\n' ∉ piece := by
    intro piece hmem hline
    obtain ⟨text, htext, rfl⟩ := List.mem_map.mp hmem
    rcases List.mem_append.mp hline with hline | hline
    · exact absurd (List.eq_of_mem_replicate hline) (by decide)
    · exact absurd (Text.of_mem_splitAtEach htext ((List.dropWhile_suffix _).mem hline)).2 (by simp)
  have hne : (Text.newlinePieces source.toList).map (reindentText f) ≠ [] := by
    exact fun hnil => Text.splitAtEach_ne_nil _ _ (List.map_eq_nil_iff.mp hnil)
  rw [SourceLine.ofSource, reindent, String.toList_ofList,
    Text.newlinePieces_intercalate hne, Text.flatMap_newlinePieces hsingle, numberFrom_reindent]
  rfl

/-! ### Statements -/

namespace Statement

variable (hf : StrictMono f)

theorem textBlock_reindent (f : Nat → Nat) (lines : List SourceLine) :
    textBlock (lines.map (.reindent f)) = textBlock lines := by
  rw [textBlock, textBlock, List.map_map]
  rfl

include hf

theorem isRaw_reindent (indent : Nat) (line : SourceLine) :
    isRaw (f indent) (line.reindent f) = isRaw indent line := by
  rw [isRaw, isRaw, SourceLine.isBlank_reindent, SourceLine.reindent,
    decide_eq_decide.mpr hf.lt_iff_lt]

theorem afterRaw_reindent (indent : Nat) (lines : List SourceLine) :
    afterRaw (f indent) (lines.map (.reindent f)) = (afterRaw indent lines).map (.reindent f) := by
  have hsame : isRaw (f indent) ∘ SourceLine.reindent f = isRaw indent :=
    funext (isRaw_reindent hf indent)
  rw [afterRaw, afterRaw, List.dropWhile_map, hsame]

theorem rawLines_reindent (indent : Nat) (lines : List SourceLine) :
    rawLines (f indent) (lines.map (.reindent f)) = (rawLines indent lines).map (.reindent f) := by
  have hsame : isRaw (f indent) ∘ SourceLine.reindent f = isRaw indent :=
    funext (isRaw_reindent hf indent)
  rw [rawLines, rawLines, List.takeWhile_map, hsame, List.filter_map, List.map_map, List.map_map]
  rfl

theorem commentStatement_reindent (comment : List Char) :
    commentStatement number (f indent) comment (lines.map (.reindent f)) =
      (commentStatement number indent comment lines).reindent f := by
  delta commentStatement
  dsimp only
  rw [afterRaw_reindent hf]
  rfl

theorem filterStatement_reindent (rest : List Char) :
    filterStatement number (f indent) rest (lines.map (.reindent f)) =
      (filterStatement number indent rest lines).reindent f := by
  rw [filterStatement, filterStatement, afterRaw_reindent hf]
  rfl

theorem codeStatement_reindent (code : List Char) :
    codeStatement number (f indent) code (lines.map (.reindent f)) =
      (codeStatement number indent code lines).reindent f := by
  rw [codeStatement, codeStatement]
  split
  · rw [afterRaw_reindent hf, rawLines_reindent hf, List.map_map]
    rfl
  · rfl

/-- A statement that starts with a word or a sign. -/
theorem simple?_reindent (number indent : Nat) (text : List Char) (lines : List SourceLine) :
    simple? number (f indent) text (lines.map (.reindent f)) =
      (simple? number indent text lines).map (.reindent f) := by
  rw [simple?.eq_def, simple?.eq_def]
  split
  · exact congrArg some (commentStatement_reindent hf _)
  · rfl
  · rfl
  · rfl
  · exact congrArg some (codeStatement_reindent hf _)
  · rfl
  · rfl
  · exact congrArg some (filterStatement_reindent hf _)
  · rw [Option.map_some, callStatement, callStatement]
    split <;> rfl
  · rw [Option.map_map]
    rfl

/-- An element. -/
theorem element_reindent (number indent : Nat) (text : List Char) (lines : List SourceLine) :
    element number (f indent) text (lines.map (.reindent f)) =
      (element number indent text lines).reindent f := by
  rw [element, element, readTag_map (g := .reindent f) fun _ => rfl]
  generalize readTag text lines = read
  obtain ⟨result, rest⟩ := read
  cases result with
  | error fault => cases fault <;> rfl
  | ok head =>
    dsimp only
    cases head.rest with
    | dotBlock => 
      dsimp only
      rw [rawLines_reindent hf, textBlock_reindent, afterRaw_reindent hf]
      rfl
    | _ => rfl

/-- **Reading a statement** commutes with a change of widths. -/
theorem read_reindent (number indent : Nat) (text : List Char) (lines : List SourceLine) :
    read number (f indent) text (lines.map (.reindent f)) =
      (read number indent text lines).reindent f := by
  fun_induction read number indent text lines with
  | case1 text lines reading hsimple =>
    exact read_eq_of_simple? (by rw [simple?_reindent hf, hsimple]; rfl)
  | case2 text lines hsimple reading hdone =>
    exact read_eq_of_done (by rw [simple?_reindent hf, hsimple]; rfl)
      (by rw [element_reindent hf, hdone]; rfl)
  | case3 text lines hsimple node inner rest hexpands reading ih =>
    rw [read_eq_of_expansion (by rw [simple?_reindent hf, hsimple]; rfl)
      (by rw [element_reindent hf, hexpands]; rfl), ih]
    rfl

end Statement

/-! ### Blocks -/

theorem endsBlock_reindent (hf : StrictMono f) (floor : Option Nat) (indent : Nat)
    (line : SourceLine) :
    endsBlock (floor.map f) (f indent) (line.reindent f) = endsBlock floor indent line := by
  have hfloor : (floor.map f).any (f line.indent ≤ ·) = floor.any (line.indent ≤ ·) := by
    cases floor with
    | none => rfl
    | some floor => exact decide_eq_decide.mpr hf.le_iff_le
  rw [endsBlock, endsBlock, SourceLine.reindent, hfloor, decide_eq_decide.mpr hf.lt_iff_lt]

/-- The width of the first line is the new one of what it was, unless no line holds anything. -/
theorem firstIndent_reindent (f : Nat → Nat) (lines : List SourceLine) :
    firstIndent (lines.map (.reindent f)) = f (firstIndent lines) ∨
      ∀ line ∈ lines, line.isBlank = true := by
  have hsame : (!·.isBlank) ∘ SourceLine.reindent f = (!·.isBlank) := rfl
  rw [firstIndent, firstIndent, List.find?_map, hsame]
  cases hfirst : lines.find? (!·.isBlank) with
  | some line => exact Or.inl rfl
  | none => exact Or.inr fun line hline => by simpa using List.find?_eq_none.mp hfirst line hline

/-- The width of a block does not matter if no line holds anything. -/
theorem Reads.of_blank {other : Nat} {reading : BlockReading}
    (h : Reads floor indent before lines reading) (hblank : ∀ line ∈ lines, line.isBlank = true) :
    Reads floor other before lines reading := by
  induction h with
  | nil => exact .nil
  | blank hfirst _ ih => exact .blank hfirst (ih (List.forall_mem_cons.mp hblank).2)
  | ends hnot | sibling hnot | stray hnot =>
    rw [(List.forall_mem_cons.mp hblank).1] at hnot
    cases hnot

/-- What is read with the new width of the first line is read with the width that it has now. -/
theorem Reads.at_firstIndent {reading : BlockReading}
    (h : Reads floor (f (firstIndent lines)) before (lines.map (.reindent f)) reading) :
    Reads floor (firstIndent (lines.map (.reindent f))) before (lines.map (.reindent f))
      reading := by
  rcases firstIndent_reindent f lines with hsame | hblank
  · rwa [hsame]
  · refine h.of_blank fun line hline => ?_
    obtain ⟨line, hmem, rfl⟩ := List.mem_map.mp hline
    exact hblank line hmem

theorem Start.reading_reindent (hf : StrictMono f) (line : SourceLine) (after : List SourceLine) :
    (Start.mk (line.reindent f) (after.map (.reindent f))).reading =
      (Start.mk line after).reading.reindent f :=
  Statement.read_reindent hf line.number line.indent line.text after

/-- **Reading a block** commutes with a change of widths. -/
theorem Reads.reindent (hf : StrictMono f) {reading : BlockReading}
    (h : Reads floor indent before lines reading) :
    Reads (floor.map f) (f indent) before (lines.map (.reindent f)) (reading.reindent f) := by
  induction h with
  | nil => exact .nil
  | blank hblank _ ih => exact .blank ((SourceLine.isBlank_reindent f _).trans hblank) ih
  | ends hblank hends =>
    exact .ends ((SourceLine.isBlank_reindent f _).trans hblank)
      ((endsBlock_reindent hf ..).trans hends)
  | sibling hblank hends hindent hopened _ hleaves _ ihblock ih =>
    have hread := (Start.reading_reindent hf _ _).trans (congrArg (·.reindent f) hopened)
    exact .sibling ((SourceLine.isBlank_reindent f _).trans hblank)
      ((endsBlock_reindent hf ..).trans hends)
      (fun hlt => hindent (hf.lt_iff_lt.mp hlt)) hread
      (fun htakes => (ihblock htakes).at_firstIndent)
      (fun hleft => congrArg (BlockReading.reindent f) (hleaves hleft)) ih
  | stray hblank hends hindent hopened _ hleaves _ _ ihblock ihmore ih =>
    have hread := (Start.reading_reindent hf _ _).trans (congrArg (·.reindent f) hopened)
    exact .stray ((SourceLine.isBlank_reindent f _).trans hblank)
      ((endsBlock_reindent hf ..).trans hends) (hf hindent) hread
      (fun htakes => (ihblock htakes).at_firstIndent)
      (fun hleft => congrArg (BlockReading.reindent f) (hleaves hleft)) ihmore ih

/-- **Only the order of widths matters**: a template in which the width of every indentation is
replaced, so that what was deeper stays deeper, has the same nodes on the same lines and the same
faults. -/
theorem parse_reindent (hf : StrictMono f) (source : String) :
    parse (reindent f source) = parse source := by
  have hreads := (reads_siblings none (firstIndent (SourceLine.ofSource source.toList)) []
    (SourceLine.ofSource source.toList)).reindent hf
  have hsame := (reads_siblings ..).unique hreads.at_firstIndent
  rw [parse, parse, block, block, ofSource_reindent]
  exact congrArg (fun reading => ParsedTemplate.mk reading.nodes reading.errors) hsame

/-- A list that is indented by a tab, with a tag over two lines, a raw block and a stray line. -/
def tabbedTemplate : String :=
  "ul\n\tli(a=1,\n\tb=2)\n\t\t| one\n\t\t  | two\n\tpre.\n\t\t  raw\n"

/-- The template is read alike if each width is doubled and it is shifted as a whole. -/
theorem parse_reindent_tabbed :
    StrictMono (fun n => 2 * n + 1) ∧
      reindent (fun n => 2 * n + 1) tabbedTemplate =
        " ul\n   li(a=1,\n   b=2)\n     | one\n         | two\n   pre.\n         raw\n " ∧
      parse (reindent (fun n => 2 * n + 1) tabbedTemplate) = parse tabbedTemplate := by
  have hf : StrictMono fun n : Nat => 2 * n + 1 := fun m n hlt => by
    show 2 * m + 1 < 2 * n + 1
    omega
  exact ⟨hf, by decide +kernel, parse_reindent hf tabbedTemplate⟩

end PugContracts.Template
