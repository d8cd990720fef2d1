import PugContracts.Proofs.Contract.Lines

/-!
# Spans of directives

A directive starts on a directive line. An expectation whose shape is not closed there goes on over
the directive lines that follow, until the shape is closed or the next line is no directive line.
So the directive lines of a template fall into spans (`Span`), one for each directive, and no line
is read twice or left out.

What a reader has to get right is where to go on. A shape takes the lines that close it, and the
directive after it has the number of the first line that is left (`Directive.read_spec`).

## Main results

* `Span.Extent`: how far a directive goes.
* `Directive.readFrom_spans`: the directives that are read are those of the spans.
-/

namespace PugContracts.Contract

open Scan (isBalanced withoutLineComment)

variable {number first : Nat} {line rule text : List Char} {after more : List (List Char)}
  {directives : List (List Char × Nat)} {template : Path}

/-! ### Directive lines -/

/-- The texts of the directive lines among lines of which the first has the given number, each with
its number. -/
def directiveLines (number : Nat) (lines : List (List Char)) : List (List Char × Nat) :=
  (lines.zipIdx number).filterMap fun (line, number) => (Directive.body? line).map (·, number)

theorem directiveLines_cons_of_none (h : Directive.body? line = none) (number : Nat)
    (lines : List (List Char)) :
    directiveLines number (line :: lines) = directiveLines (number + 1) lines := by
  rw [directiveLines, List.zipIdx_cons, List.filterMap_cons_none (by simp [h]), directiveLines]

theorem directiveLines_cons (h : Directive.body? line = some rule) (number : Nat)
    (lines : List (List Char)) :
    directiveLines number (line :: lines) =
      (rule, number) :: directiveLines (number + 1) lines := by
  rw [directiveLines, List.zipIdx_cons, List.filterMap_cons_some (by simp [h]; rfl),
    directiveLines]

/-- Directive lines that follow one another are numbered one after the other. -/
theorem directiveLines_append {taken : List (List Char)}
    (h : taken.map Directive.body? = more.map some) (number : Nat) (rest : List (List Char)) :
    directiveLines number (taken ++ rest) =
      more.zipIdx number ++ directiveLines (number + more.length) rest := by
  induction more generalizing taken number with
  | nil =>
    obtain rfl : taken = [] := List.map_eq_nil_iff.mp h
    rfl
  | cons rule more ih =>
    obtain ⟨line, taken, rfl, hline, htaken⟩ := List.map_eq_cons_iff.mp h
    rw [List.cons_append, directiveLines_cons hline, ih htaken, List.zipIdx_cons, List.length_cons,
      List.cons_append, Nat.add_right_comm, Nat.add_assoc]

theorem le_of_mem_directiveLines (h : (rule, first) ∈ directiveLines number after) :
    number ≤ first := by
  obtain ⟨⟨line, index⟩, hmem, hbody⟩ := List.mem_filterMap.mp h
  obtain ⟨_, _, heq⟩ := Option.map_eq_some_iff.mp hbody
  obtain rfl : index = first := congrArg Prod.snd heq
  exact (List.mem_zipIdx hmem).1

/-- If the first line is no directive line, there is no directive line with its number. -/
theorem not_mem_directiveLines (h : after.head?.bind Directive.body? = none) :
    (rule, number) ∉ directiveLines number after := by
  cases after with
  | nil => exact List.not_mem_nil
  | cons line after =>
    rw [directiveLines_cons_of_none h]
    intro hmem
    have := le_of_mem_directiveLines hmem
    omega

theorem pairwise_directiveLines (number : Nat) (lines : List (List Char)) :
    ((directiveLines number lines).map Prod.snd).Pairwise (· < ·) := by
  induction lines generalizing number with
  | nil => exact .nil
  | cons line lines ih =>
    cases hbody : Directive.body? line with
    | none =>
      rw [directiveLines_cons_of_none hbody]
      exact ih _
    | some rule =>
      rw [directiveLines_cons hbody, List.map_cons, List.pairwise_cons]
      refine ⟨fun later hlater => ?_, ih _⟩
      obtain ⟨⟨_, _⟩, hmem, rfl⟩ := List.mem_map.mp hlater
      exact le_of_mem_directiveLines hmem

/-! ### Spans -/

/-- A directive as it stands in a template. -/
structure Span where
  /-- The number of its first line. -/
  line : Nat
  /-- The text of that line. -/
  rule : List Char
  /-- The texts of the lines on which it goes on. -/
  more : List (List Char)

/-- What a directive is for. -/
inductive Span.Kind where
  /-- Importing. -/
  | importing
  /-- Expecting; the text follows the keyword. -/
  | expecting (text : List Char)
  /-- Nothing known. -/
  | unknown

/-- A shape that goes on over some lines. Each of them loses its line comment. -/
def continued (shape : List Char) (more : List (List Char)) : List Char :=
  shape ++ more.flatMap fun line => '\n' :: withoutLineComment line

/-- The shape of an expectation that goes on over some lines. -/
def shapeText (text : List Char) (more : List (List Char)) : List Char :=
  continued (withoutLineComment (Text.trim text)) more

/-- What is known of that shape. -/
def shapeOf (text : List Char) (more : List (List Char)) : ShapeText :=
  if (shapeText text []).isEmpty then .missing
  else if isBalanced true (shapeText text more) then .complete (shapeText text more)
  else .unterminated

namespace Span

/-- What the directive is for, by its keyword. -/
def kind (span : Span) : Kind :=
  match Template.afterKeyword? "import" ['{', '*'] span.rule,
      Template.afterKeyword? "expect" ['{'] span.rule with
  | some _, _ => .importing
  | none, some text => .expecting text
  | none, none => .unknown

/-- The directive lines of the span. They follow one another. -/
def lines (span : Span) : List (List Char × Nat) :=
  (span.rule :: span.more).zipIdx span.line

/-- The number of the line after the span. -/
def next (span : Span) : Nat :=
  span.line + 1 + span.more.length

/-- The directive. -/
def directive (span : Span) : Directive :=
  match span.kind with
  | .importing => .importing span.line span.rule
  | .expecting text => .expecting span.line (shapeOf text span.more)
  | .unknown => .unknown span.line

@[simp] theorem line_directive (span : Span) : span.directive.line = span.line := by
  rw [directive]
  split <;> rfl

/-- How far a directive goes, among all directive lines. -/
inductive Extent (directives : List (List Char × Nat)) (span : Span) : Prop
  /-- What is no expectation takes its own line, and so does an expectation without a shape. -/
  | single (hkind : ∀ text, span.kind = .expecting text → shapeText text [] = [])
      (hmore : span.more = [])
  /-- An expectation goes on while its shape is not closed, until it is, or until the next line is
  no directive line. -/
  | expecting {text : List Char} (hkind : span.kind = .expecting text)
      (hshape : shapeText text [] ≠ [])
      (hopen : ∀ count < span.more.length,
        isBalanced true (shapeText text (span.more.take count)) = false)
      (hends : isBalanced true (shapeText text span.more) = true ∨
        ∀ rule, (rule, span.next) ∉ directives)

theorem line_le_of_mem_lines {span : Span} (h : (rule, number) ∈ span.lines) :
    span.line ≤ number ∧ number < span.next := by
  have hbounds := List.mem_zipIdx h
  rw [List.length_cons] at hbounds
  rw [next]
  omega

/-- More directive lines before a span do not change how far it goes. -/
theorem Extent.append {span : Span} {before : List (List Char × Nat)}
    (h : span.Extent directives) (hbefore : ∀ line ∈ before, line.2 < span.line) :
    span.Extent (before ++ directives) := by
  cases h with
  | single hkind hmore => exact .single hkind hmore
  | expecting hkind hshape hopen hends =>
    refine .expecting hkind hshape hopen (hends.imp_right fun hnone rule hmem => ?_)
    rcases List.mem_append.mp hmem with hmem | hmem
    · have := hbefore _ hmem
      simp only [next] at this
      omega
    · exact hnone rule hmem

end Span

/-- The directive lines from the first line of a span on. -/
theorem directiveLines_span {taken : List (List Char)} (hbody : Directive.body? line = some rule)
    (htaken : taken.map Directive.body? = more.map some) (number : Nat)
    (rest : List (List Char)) :
    directiveLines number (line :: (taken ++ rest)) =
      (Span.mk number rule more).lines ++ directiveLines (Span.mk number rule more).next rest := by
  have hall : (line :: taken).map Directive.body? = (rule :: more).map some := by
    rw [List.map_cons, List.map_cons, hbody, htaken]
  rw [← List.cons_append, directiveLines_append hall, Span.next, List.length_cons,
    Nat.add_right_comm, Nat.add_assoc]
  rfl

/-! ### Reading spans -/

theorem continued_nil (shape : List Char) : continued shape [] = shape :=
  List.append_nil shape

theorem continued_cons (shape line : List Char) (more : List (List Char)) :
    continued shape (line :: more) = continued (shape ++ '\n' :: withoutLineComment line) more := by
  rw [continued, continued, List.flatMap_cons, List.append_assoc]

namespace Directive

/-- **An open shape goes on** over directive lines until it is closed or there are no more. -/
theorem finishShape_spec (shape : List Char) (lines : List (List Char)) :
    ∃ taken rest more, lines = taken ++ rest ∧ taken.map body? = more.map some ∧
      finishShape shape lines =
        (if isBalanced true (continued shape more) then .complete (continued shape more)
          else .unterminated, rest) ∧
      (∀ count < more.length, isBalanced true (continued shape (more.take count)) = false) ∧
      (isBalanced true (continued shape more) = true ∨ rest.head?.bind body? = none) := by
  induction lines generalizing shape with
  | nil =>
    refine ⟨[], [], [], rfl, rfl, ?_, by simp, Or.inr rfl⟩
    unfold finishShape
    rw [continued_nil]
    split <;> rfl
  | cons line lines ih =>
    unfold finishShape
    split
    · next hclosed =>
      refine ⟨[], _, [], rfl, rfl, ?_, by simp, Or.inl ?_⟩
      · rw [continued_nil, if_pos hclosed]
      · rwa [continued_nil]
    · next hopen =>
      dsimp only
      split
      · next hbody =>
        refine ⟨[], _, [], rfl, rfl, ?_, by simp, Or.inr hbody⟩
        rw [continued_nil, if_neg hopen]
      · next rule hbody =>
        obtain ⟨taken, rest, more, rfl, htaken, hfinish, hbefore, hends⟩ :=
          ih (shape ++ '\n' :: withoutLineComment rule)
        refine ⟨line :: taken, rest, rule :: more, rfl, ?_, ?_, fun count hcount => ?_, ?_⟩
        · rw [List.map_cons, List.map_cons, hbody, htaken]
        · rw [hfinish, continued_cons]
        · cases count with
          | zero => rwa [List.take_zero, continued_nil, ← Bool.not_eq_true]
          | succ count =>
            rw [List.take_succ_cons, continued_cons]
            exact hbefore count (Nat.lt_of_succ_lt_succ hcount)
        · rwa [continued_cons]

/-- **Reading the shape of an expectation** that has one. -/
theorem readShape_spec (hshape : shapeText text [] ≠ []) (lines : List (List Char)) :
    ∃ taken rest more, lines = taken ++ rest ∧ taken.map body? = more.map some ∧
      readShape text lines = (shapeOf text more, rest) ∧
      (∀ count < more.length, isBalanced true (shapeText text (more.take count)) = false) ∧
      (isBalanced true (shapeText text more) = true ∨ rest.head?.bind body? = none) := by
  obtain ⟨taken, rest, more, hlines, htaken, hfinish, hopen, hends⟩ :=
    finishShape_spec (withoutLineComment (Text.trim text)) lines
  have hsome : ¬(shapeText text []).isEmpty = true := fun h => hshape (List.isEmpty_iff.mp h)
  refine ⟨taken, rest, more, hlines, htaken, ?_, hopen, hends⟩
  rw [shapeOf, if_neg hsome]
  rw [shapeText, continued_nil] at hsome
  rw [readShape, if_neg hsome]
  exact hfinish

/-- **Reading a directive** reads its span. -/
theorem read_spec (hbody : body? line = some rule) (number : Nat) (lines : List (List Char)) :
    ∃ taken rest more, lines = taken ++ rest ∧ taken.map body? = more.map some ∧
      read number rule lines = ((Span.mk number rule more).directive, rest) ∧
      (Span.mk number rule more).Extent (directiveLines number (line :: lines)) := by
  cases himport : Template.afterKeyword? "import" ['{', '*'] rule with
  | some _ =>
    have hkind : (Span.mk number rule []).kind = .importing := by rw [Span.kind, himport]
    refine ⟨[], lines, [], rfl, rfl, ?_, .single (by simp [hkind]) rfl⟩
    rw [read, himport, Span.directive, hkind]
  | none =>
    cases hexpect : Template.afterKeyword? "expect" ['{'] rule with
    | none =>
      have hkind : (Span.mk number rule []).kind = .unknown := by rw [Span.kind, himport, hexpect]
      refine ⟨[], lines, [], rfl, rfl, ?_, .single (by simp [hkind]) rfl⟩
      rw [read, himport, hexpect, Span.directive, hkind]
    | some text =>
      have hkind : ∀ more, (Span.mk number rule more).kind = .expecting text := fun more => by
        rw [Span.kind, himport, hexpect]
      have hread : ∀ {more rest}, readShape text lines = (shapeOf text more, rest) →
          read number rule lines = ((Span.mk number rule more).directive, rest) := fun hshape => by
        rw [read, himport, hexpect, Span.directive, hkind]
        dsimp only
        rw [hshape]
      by_cases hempty : shapeText text [] = []
      · have hmissing : readShape text lines = (shapeOf text [], lines) := by
          rw [shapeOf, hempty]
          rw [shapeText, continued_nil] at hempty
          rw [readShape, hempty]
          rfl
        refine ⟨[], lines, [], rfl, rfl, hread hmissing, .single (fun other hother => ?_) rfl⟩
        obtain rfl : text = other := Span.Kind.expecting.inj ((hkind []).symm.trans hother)
        exact hempty
      · obtain ⟨taken, rest, more, rfl, htaken, hshape, hopen, hends⟩ :=
          readShape_spec hempty lines
        refine ⟨taken, rest, more, rfl, htaken, hread hshape,
          .expecting (hkind more) hempty hopen (hends.imp_right fun hnone other hmem => ?_)⟩
        rw [directiveLines_span hbody htaken] at hmem
        rcases List.mem_append.mp hmem with hmem | hmem
        · exact absurd (Span.line_le_of_mem_lines hmem).2 (Nat.lt_irrefl _)
        · exact not_mem_directiveLines hnone hmem

/-- **The directives that are read are those of the spans**, and these are all directive lines. -/
theorem readFrom_spans (number : Nat) (lines : List (List Char)) :
    ∃ spans : List Span, readFrom number lines = spans.map Span.directive ∧
      directiveLines number lines = spans.flatMap Span.lines ∧
      ∀ span ∈ spans, span.Extent (directiveLines number lines) := by
  induction number, lines using readFrom.induct with
  | case1 number => exact ⟨[], by rw [readFrom]; rfl, rfl, by simp⟩
  | case2 number line after hbody ih =>
    rw [readFrom, hbody, directiveLines_cons_of_none hbody]
    exact ih
  | case3 number line after rule hbody rest ih =>
    obtain ⟨taken, left, more, hafter, htaken, hread, hextent⟩ := read_spec hbody number after
    have hrest : rest = left := congrArg Prod.snd hread
    have hcount : number + 1 + (after.length - left.length) = (Span.mk number rule more).next := by
      have hlength := congrArg List.length htaken
      rw [List.length_map, List.length_map] at hlength
      rw [Span.next, hafter, List.length_append, Nat.add_sub_cancel, hlength]
    rw [hrest, hcount] at ih
    obtain ⟨spans, hspans, hlines, hextents⟩ := ih
    refine ⟨⟨number, rule, more⟩ :: spans, ?_, ?_, ?_⟩
    · rw [readFrom, hbody, List.map_cons, ← hspans]
      dsimp only
      rw [hread]
      dsimp only
      rw [hcount]
    · rw [hafter, directiveLines_span hbody htaken, List.flatMap_cons, hlines]
    · rw [hafter, directiveLines_span hbody htaken] at hextent ⊢
      refine List.forall_mem_cons.mpr ⟨hextent, fun span hspan => ?_⟩
      refine (hextents span hspan).append fun numbered hbefore => ?_
      have hfirst :
          (span.rule, span.line) ∈ directiveLines (Span.mk number rule more).next left := by
        rw [hlines]
        exact List.mem_flatMap.mpr ⟨span, hspan, List.mem_cons_self⟩
      exact Nat.lt_of_lt_of_le (Span.line_le_of_mem_lines hbefore).2
        (le_of_mem_directiveLines hfirst)

end Directive

end PugContracts.Contract
