import PugContracts.Contract.Basic
import PugContracts.Program.Generate
import PugContracts.Proofs.Program.Scanned
import PugContracts.Proofs.Scan.Comment
import PugContracts.Proofs.Text.Ends

/-!
# Comments in an expectation

The shape of an expectation may hold comments, and it is copied into the signature of the generated
function, before a closing parenthesis. So it has to close all it opens, and it must not end in a
line comment, which would hide the parenthesis.

A shape is taken if it is balanced once its line comment is cut off. `Expected` says what this comes
to for a template with one directive: no unbalanced text is taken; a text whose line comment is
found is taken if it is balanced, unless there is nothing but a line comment in it; and of the texts
that are taken, those whose line comment is found can be copied, and no others. It is always found
where the block comments hold neither quotation marks nor two slashes in a row.

## Main results

* `extract_expectsOnce`: what becomes of the only directive of a template.
* `expected_extract`: which expectations are taken, and which of these can be copied.
-/

namespace PugContracts

/-! ### Lines -/

namespace Text

variable {cs : List Char} {c : Char}

theorem mem_of_mem_dropReturn (hc : c ∈ dropReturn cs) : c ∈ cs := by
  rw [dropReturn] at hc
  split at hc
  · next rest hreverse =>
    rw [← List.mem_reverse, hreverse]
    exact List.mem_cons_of_mem _ (List.mem_reverse.mp hc)
  · exact hc

/-- A line holds no newline. -/
theorem single_of_mem_lines {line : List Char} (hline : line ∈ lines cs) : '\n' ∉ line := by
  have hpieces : ∀ pieces : List (List Char), (∀ piece ∈ pieces, '\n' ∉ piece) →
      ∀ line ∈ linesOfPieces pieces, '\n' ∉ line := by
    intro pieces hpieces line hline
    fun_induction linesOfPieces pieces with
    | case1 => cases hline
    | case2 => cases hline
    | case3 last => exact hpieces line hline
    | case4 piece rest _ ih =>
      obtain ⟨hpiece, hrest⟩ := List.forall_mem_cons.mp hpieces
      rcases List.mem_cons.mp hline with rfl | hline
      · exact fun hmem => hpiece (mem_of_mem_dropReturn hmem)
      · exact ih hrest hline
  refine hpieces _ (fun piece hpiece hmem => ?_) line hline
  cases (of_mem_splitAtEach hpiece hmem).2

/-- A trimmed text does not start with a blank. -/
theorem not_isBlank_of_mem_head?_trim (hc : c ∈ (trim cs).head?) : isBlank c = false := by
  obtain ⟨blanks, hcut, -⟩ := Scan.exists_trimEnd_append (trimStart cs)
  obtain ⟨rest, hrest⟩ := List.head?_eq_some_iff.mp hc
  have hhead := List.head?_dropWhile_not isBlank cs
  rw [← trimStart, hcut, ← trim, hrest] at hhead
  exact hhead

end Text

namespace Contract

open Scan (endState marks FindsLineComment withoutLineComment hasCode)

variable {source : String} {number : Nat} {text shape : List Char} {lines : List (List Char)}

/-! ### The only directive -/

/-- One line of a template is a directive, and this is an expectation with the given text. -/
inductive ExpectsOnce : String → Nat → List Char → Prop
  | only {source : String} {before after : List (List Char)} {line text : List Char}
      (hlines : Text.lines source.toList = before ++ line :: after)
      (hothers : ∀ other ∈ before ++ after, Directive.body? other = none)
      (hline : Directive.body? line = some ("expect".toList ++ text))
      (hword : ∀ c ∈ text.head?, Text.isBlank c = true ∨ c = '{') :
      ExpectsOnce source (before.length + 1) text

namespace Directive

/-- What an expectation makes of its text if no directive line follows. -/
def shapeAlone (text : List Char) : ShapeText :=
  let shape := withoutLineComment (Text.trim text)
  if shape.isEmpty then .missing
  else if Scan.isBalanced true shape then .complete shape
  else .unterminated

theorem readFrom_eq_nil (h : ∀ line ∈ lines, body? line = none) (number : Nat) :
    readFrom number lines = [] := by
  induction lines generalizing number with
  | nil => rw [readFrom]
  | cons line rest ih =>
    obtain ⟨hline, hrest⟩ := List.forall_mem_cons.mp h
    rw [readFrom, hline]
    exact ih hrest _

/-- Lines that are no directives are only counted. -/
theorem readFrom_append (h : ∀ line ∈ lines, body? line = none) (number : Nat)
    (rest : List (List Char)) :
    readFrom number (lines ++ rest) = readFrom (lines.length + number) rest := by
  induction lines generalizing number with
  | nil => rw [List.nil_append, List.length_nil, Nat.zero_add]
  | cons line lines ih =>
    obtain ⟨hline, hlines⟩ := List.forall_mem_cons.mp h
    rw [List.cons_append, readFrom, hline]
    dsimp only
    rw [ih hlines, List.length_cons, Nat.add_assoc, Nat.add_comm 1]

theorem finishShape_alone (h : ∀ line ∈ lines, body? line = none) (shape : List Char) :
    finishShape shape lines =
      (if Scan.isBalanced true shape then .complete shape else .unterminated, lines) := by
  unfold finishShape
  split_ifs with hbalanced
  · rfl
  · cases lines with
    | nil => rfl
    | cons line rest =>
      dsimp only
      rw [h line List.mem_cons_self]

theorem readShape_alone (h : ∀ line ∈ lines, body? line = none) (text : List Char) :
    readShape text lines = (shapeAlone text, lines) := by
  rw [readShape, shapeAlone]
  split_ifs with hempty hbalanced
  · rfl
  · rw [finishShape_alone h, if_pos hbalanced]
  · rw [finishShape_alone h, if_neg hbalanced]

theorem read_expect (hword : ∀ c ∈ text.head?, Text.isBlank c = true ∨ c = '{')
    (h : ∀ line ∈ lines, body? line = none) (number : Nat) :
    read number ("expect".toList ++ text) lines = (.expecting number (shapeAlone text), lines) := by
  have himport : Template.afterKeyword? "import" ['{', '*'] ("expect".toList ++ text) = none := by
    rfl
  have hexpect : Template.afterKeyword? "expect" ['{'] ("expect".toList ++ text) = some text := by
    rw [Template.afterKeyword?, Text.afterPrefix?_eq_some_iff.mpr rfl]
    cases text with
    | nil => rfl
    | cons c rest =>
      have hc : (Text.isBlank c || ['{'].contains c) = true := by
        rcases hword c rfl with hblank | rfl
        · rw [hblank, Bool.true_or]
        · rfl
      dsimp only
      rw [if_pos hc]
  rw [read, himport]
  dsimp only
  rw [hexpect]
  dsimp only
  rw [readShape_alone h]

end Directive

theorem ExpectsOnce.readAll (h : ExpectsOnce source number text) :
    Directive.readAll source.toList = [.expecting number (Directive.shapeAlone text)] := by
  obtain ⟨hlines, hothers, hline, hword⟩ := h
  next before after line =>
  obtain ⟨hbefore, hafter⟩ := List.forall_mem_append.mp hothers
  rw [Directive.readAll, hlines, Directive.readFrom_append hbefore, Directive.readFrom, hline]
  dsimp only
  rw [Directive.read_expect hword hafter, Directive.readFrom_eq_nil hafter]

theorem ExpectsOnce.single (h : ExpectsOnce source number text) : '\n' ∉ text := by
  obtain ⟨hlines, -, hline, -⟩ := h
  next before after line =>
  have hsingle : '\n' ∉ line :=
    Text.single_of_mem_lines (by rw [hlines]; exact List.mem_append_right _ List.mem_cons_self)
  obtain ⟨rest, hrest, htrim⟩ := Option.map_eq_some_iff.mp hline
  intro hmem
  have hbody : '\n' ∈ Text.trim rest := by
    rw [htrim]
    exact List.mem_append_right _ hmem
  refine hsingle (Text.mem_of_mem_trim ?_)
  rw [Text.afterPrefix?_eq_some_iff.mp hrest]
  exact List.mem_append_right _ (Text.mem_of_mem_trim hbody)

/-- **What becomes of the only directive of a template.** -/
theorem extract_expectsOnce (h : ExpectsOnce source number text) (template viewsRoot : Path) :
    let result := extract source template viewsRoot
    result.1.template = template ∧
      match Directive.shapeAlone text with
      | .complete shape => result.1.expectsLine = some number ∧
          result.1.rawExpects = String.ofList shape ∧ result.2 = []
      | .missing => result.1.expectsLine = none ∧ result.2 =
          [.onLine .directiveShape template number DirectiveFault.missingShape.message]
      | .unterminated => result.1.expectsLine = none ∧ result.2 =
          [.onLine .directiveShape template number DirectiveFault.unterminatedShape.message] := by
  rw [extract, h.readAll]
  cases Directive.shapeAlone text with
  | complete shape => exact ⟨rfl, rfl, rfl, rfl⟩
  | missing | unterminated => exact ⟨rfl, rfl, rfl⟩

/-! ### Taken expectations -/

/-- The expectation on a line is taken, without an error. -/
def Takes (number : Nat) (result : Contract × List TemplateError) : Prop :=
  result.1.expectsLine = some number ∧ result.2 = []

theorem takes_iff (h : ExpectsOnce source number text) (template viewsRoot : Path) :
    Takes number (extract source template viewsRoot) ↔
      withoutLineComment (Text.trim text) ≠ [] ∧
        Scan.isBalanced true (withoutLineComment (Text.trim text)) = true := by
  obtain ⟨-, hresult⟩ := extract_expectsOnce h template viewsRoot
  rw [Directive.shapeAlone] at hresult
  split_ifs at hresult with hempty hbalanced
  · obtain ⟨hline, herrors⟩ := hresult
    refine iff_of_false (fun htakes => ?_) fun hboth => hboth.1 (List.isEmpty_iff.mp hempty)
    rw [htakes.2] at herrors
    cases herrors
  · obtain ⟨hline, -, herrors⟩ := hresult
    exact iff_of_true ⟨hline, herrors⟩ ⟨by simpa using hempty, hbalanced⟩
  · obtain ⟨hline, herrors⟩ := hresult
    refine iff_of_false (fun htakes => ?_) fun hboth => hbalanced hboth.2
    rw [htakes.2] at herrors
    cases herrors

theorem rawExpects_of_takes (h : ExpectsOnce source number text) {template viewsRoot : Path}
    (htakes : Takes number (extract source template viewsRoot)) :
    (extract source template viewsRoot).1.rawExpects.toList =
      withoutLineComment (Text.trim text) := by
  obtain ⟨hempty, hbalanced⟩ := (takes_iff h template viewsRoot).mp htakes
  obtain ⟨-, hresult⟩ := extract_expectsOnce h template viewsRoot
  rw [Directive.shapeAlone, if_neg (by simpa using hempty), if_pos hbalanced] at hresult
  rw [hresult.2.1, String.toList_ofList]

/-! ### Signatures -/

/-- What precedes the type of the input in the signature of a program. -/
def signatureStart : List Char :=
  "export function render(locals: ".toList

/-- The signature of a program whose input has the given type. -/
def signature (shape : List Char) : List Char :=
  signatureStart ++ (shape ++ ") \x7b".toList)

/-- The signature of a program stands in it, with the line of the expectation. -/
theorem signature_mem_programSteps (tree : List Template.Node) (contract : Contract) :
    Program.Step.push (signature contract.rawExpects.toList)
        ⟨contract.template, contract.expectsLine.getD 1⟩ ∈
      Program.programSteps tree contract none := by
  have htext : signature contract.rawExpects.toList =
      ("export function render(locals: " ++ Program.localsType contract none ++
        ") \x7b").toList := by
    rw [String.toList_append, String.toList_append, List.append_assoc]
    rfl
  rw [htext, Program.programSteps]
  refine List.mem_append_left _ (List.mem_append_left _ (List.mem_append_right _ ?_))
  exact List.mem_cons_self

/-- The parenthesis after a shape that closes all it opens, and ends in no comment, closes the
signature. -/
theorem marks_signature (h : endState true .start shape = .start) :
    (marks true .start (signature shape))[(signatureStart ++ shape).length]? =
      some ⟨')', some 0⟩ := by
  have hopen : endState true .start signatureStart = Scan.State.raise 1 .start := by decide
  have hspace : ∀ c, signatureStart.getLast? = some c → Scan.isInert c = true := fun c hc => by
    obtain rfl : ' ' = c := Option.some.inj hc
    decide
  have hend : endState true .start (signatureStart ++ shape) = Scan.State.raise 1 .start := by
    rw [Program.endState_append hspace, hopen, Scan.endState_raise, h]
  have htext : signature shape = signatureStart ++ shape ++ ')' :: [' ', '\x7b'] := by
    rw [signature, List.append_assoc]
    rfl
  rw [htext, Scan.getElem?_marks (by decide) (by decide), hend]
  rfl

/-! ### Main result -/

/-- What is made of an expectation with the given text on the given line. -/
structure Expected (number : Nat) (text : List Char) (result : Contract × List TemplateError) :
    Prop where
  /-- A text is taken only if it is balanced outside of comments. -/
  balanced : Takes number result → Scan.isBalanced true text = true
  /-- If its line comment is found, a balanced text is taken that has something besides comments. So
  is one that has nothing else, if the first of them is a block comment. -/
  takes_iff : FindsLineComment text →
    (Takes number result ↔
      (hasCode text = true ∨ ['/', '*'] <+: text) ∧ Scan.isBalanced true text = true)
  /-- What is taken leaves no string, bracket or comment open if the line comment is found, and only
  then. -/
  closed_iff : Takes number result →
    (endState true .start result.1.rawExpects.toList = .start ↔ FindsLineComment text)
  /-- In the signature of any program for the contract, the parenthesis after such a text is code
  outside of all brackets but its own. -/
  signed : Takes number result → FindsLineComment text → ∀ tree : List Template.Node,
    Program.Step.push (signature result.1.rawExpects.toList) ⟨result.1.template, number⟩ ∈
        Program.programSteps tree result.1 none ∧
      (marks true .start (signature result.1.rawExpects.toList))[
          (signatureStart ++ result.1.rawExpects.toList).length]? = some ⟨')', some 0⟩
  /-- Where block comments are quiet, comments are respected: a text with something besides them is
  taken if and only if it is balanced, and what is taken is closed. -/
  respected : Scan.isQuiet text = true → hasCode text = true →
    (Takes number result ↔ Scan.isBalanced true text = true) ∧
      (Takes number result → endState true .start result.1.rawExpects.toList = .start)

/-- **Which expectations are taken, and which of these can be copied.** -/
theorem expected_extract (h : ExpectsOnce source number text) (template viewsRoot : Path) :
    Expected number (Text.trim text) (extract source template viewsRoot) := by
  have hsingle : '\n' ∉ Text.trim text := fun hmem => h.single (Text.mem_of_mem_trim hmem)
  have htaken := takes_iff h template viewsRoot
  have hclosed : Takes number (extract source template viewsRoot) →
      (endState true .start (extract source template viewsRoot).1.rawExpects.toList = .start ↔
        FindsLineComment (Text.trim text)) := fun htakes => by
    rw [rawExpects_of_takes h htakes]
    exact Scan.endState_withoutLineComment hsingle (htaken.mp htakes).2
  have hfound : FindsLineComment (Text.trim text) →
      (Takes number (extract source template viewsRoot) ↔
        (hasCode (Text.trim text) = true ∨ ['/', '*'] <+: Text.trim text) ∧
          Scan.isBalanced true (Text.trim text) = true) := fun hfinds => by
    rw [htaken, Scan.isBalanced_withoutLineComment_iff hsingle hfinds,
      Scan.withoutLineComment_ne_nil_iff (fun _ => Text.not_isBlank_of_mem_head?_trim) hsingle]
  refine ⟨fun htakes => ?_, hfound, hclosed, fun htakes hfinds tree => ⟨?_, ?_⟩,
    fun hquiet hcode => ⟨?_, fun htakes => ?_⟩⟩
  · exact Scan.isBalanced_of_withoutLineComment hsingle (htaken.mp htakes).2
  · have hmem := signature_mem_programSteps tree (extract source template viewsRoot).1
    rwa [htakes.1] at hmem
  · exact marks_signature ((hclosed htakes).mpr hfinds)
  · rw [hfound (Scan.findsLineComment_of_isQuiet hquiet), and_iff_right (Or.inl hcode)]
  · exact (hclosed htakes).mpr (Scan.findsLineComment_of_isQuiet hquiet)

/-- A template whose shape is followed by a comment. -/
def commentedTemplate : String :=
  "//@ expect \x7b name: string \x7d // of the user\np= name"

theorem expected_extract_commentedTemplate :
    let text := " \x7b name: string \x7d // of the user".toList
    let result := extract commentedTemplate ⟨"/v/p.pug"⟩ ⟨"/v"⟩
    ExpectsOnce commentedTemplate 1 text ∧ Expected 1 (Text.trim text) result ∧
      Takes 1 result := by
  have hexpects : ExpectsOnce commentedTemplate 1
      " \x7b name: string \x7d // of the user".toList :=
    @ExpectsOnce.only commentedTemplate [] ["p= name".toList]
      "//@ expect \x7b name: string \x7d // of the user".toList _ (by decide) (by decide)
      (by decide) fun c hc => by
        obtain rfl : ' ' = c := Option.some.inj hc
        exact Or.inl rfl
  have hexpected := expected_extract hexpects ⟨"/v/p.pug"⟩ ⟨"/v"⟩
  refine ⟨hexpects, hexpected, ?_⟩
  exact (hexpected.takes_iff (by decide)).mpr ⟨Or.inl (by decide), by decide⟩

end Contract

end PugContracts
