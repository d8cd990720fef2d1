import PugContracts.Proofs.Scan.Plain
import PugContracts.Scan.Comment

/-!
# The scanner and the remover of comments

Comments are recognised twice: by the scanner, which passes over them, and by `stripComments`,
which takes them out. The contract of a template is accepted by the one and read by the other, so
both have to find the same comments in every text, also in one that ends inside a comment or a
string.

Here they go through a text side by side. `Abreast` says which of their states belong together; they
differ only in how they know the end of a block comment, since the scanner looks ahead from the star
and the remover looks back from the slash. What is left of the text is read as the text was
(`State.uncommented`), and no comment starts in it, because a comment that is taken out leaves a
blank wherever something follows: slashes from its two sides do not meet.

## Main results

* `Abreast.step`: a character is kept and read, or it belongs to a comment and leaves a blank or
  nothing.
* `plain?_stripFrom`: no comment is left, and the end is that of the text.
* `solid_marks_stripFrom`: the same code is read at the same depths.
* `stripComments_agrees`: the scanner and the remover agree on every text.
-/

namespace PugContracts.Scan

variable {s s' : State} {r : Strip} {c : Char} {next : Option Char} {cs rest : List Char}
  {depth : Int}

/-! ### States that belong together -/

/-- The state that the text so far leads to without its comments. -/
def State.uncommented (s : State) : State :=
  if s.commented then ⟨.code, s.depth⟩ else s

@[simp] theorem State.depth_uncommented (s : State) : s.uncommented.depth = s.depth := by
  rw [uncommented]
  split <;> rfl

@[simp] theorem State.inString_uncommented (s : State) : s.uncommented.inString = s.inString := by
  obtain ⟨mode, depth⟩ := s
  cases mode <;> rfl

theorem State.Plain.uncommented (h : s.Plain) : s.uncommented = s := by
  rw [State.uncommented, h.commented]
  rfl

/-- The scanner is in the state `s` and the remover in the state `r` at the same place of a text, of
which `rest` is left. -/
inductive Abreast : State → Strip → List Char → Prop
  /-- In code. -/
  | code (depth : Int) (rest : List Char) : Abreast ⟨.code, depth⟩ .text rest
  /-- In a string. -/
  | quoted {mark : Char} (hmark : isQuote mark = true) (depth : Int) (rest : List Char) :
      Abreast ⟨.quoted mark, depth⟩ (.quoted mark) rest
  /-- After a backslash in a string. -/
  | escaped {mark : Char} (hmark : isQuote mark = true) (depth : Int) (rest : List Char) :
      Abreast ⟨.escaped mark, depth⟩ (.escaped mark) rest
  /-- In a line comment. -/
  | line (depth : Int) (rest : List Char) : Abreast ⟨.lineComment, depth⟩ .line rest
  /-- Before the star of a block comment. -/
  | opening (depth : Int) (rest : List Char) : Abreast ⟨.blockOpen, depth⟩ .opening rest
  /-- In a block comment that does not end here. -/
  | block {star : Bool} (depth : Int) {rest : List Char}
      (hgoes : star = true → rest.head? ≠ some '/') :
      Abreast ⟨.blockComment, depth⟩ (.block star) rest
  /-- Before the slash of a block comment. -/
  | closing (depth : Int) {rest : List Char} (hends : rest.head? = some '/') :
      Abreast ⟨.blockClose, depth⟩ (.block true) rest

/-! ### One character -/

/-- What the remover leaves of the character `c`, which the scanner reads in the state `s`. -/
inductive Leaves (s : State) (c : Char) (next : Option Char) : List Char → Prop
  /-- The character is no part of a comment. -/
  | kept (hplain : s.Plain) (hkept : isComment s c next = false) : Leaves s c next [c]
  /-- The character belongs to a comment. -/
  | removed {left : List Char} (hcomment : isComment s c next = true)
      (hleft : left = [] ∨ left = [' '] ∨ left = ['\n']) : Leaves s c next left

/-- A comment stands in code. -/
theorem uncommented_of_isComment (h : isComment s c next = true) :
    s.uncommented = ⟨.code, s.depth⟩ := by
  obtain ⟨mode, depth⟩ := s
  cases mode <;> first | rfl | cases h

/-- A character of a comment is not read as code and changes nothing. -/
theorem step_of_isComment (h : isComment s c next = true) :
    (step true s c next).1 = none ∧ (step true s c next).2.uncommented = ⟨.code, s.depth⟩ := by
  obtain ⟨mode, depth⟩ := s
  cases mode with
  | code =>
    obtain ⟨rfl, rfl | rfl⟩ : c = '/' ∧ (next = some '/' ∨ next = some '*') := by
      simpa [isComment] using h
    · exact ⟨rfl, rfl⟩
    · exact ⟨rfl, rfl⟩
  | quoted | escaped => cases h
  | blockOpen | blockClose => exact ⟨rfl, rfl⟩
  | lineComment | blockComment =>
    simp only [step]
    split_ifs <;> exact ⟨rfl, rfl⟩

/-- A bracket is no quotation mark. -/
theorem isQuote_of_isCloser (h : isCloser c = true) : isQuote c = false := by
  simp only [isCloser, Bool.or_eq_true, beq_iff_eq] at h
  rcases h with (rfl | rfl) | rfl <;> rfl

theorem isQuote_of_isOpener (h : isOpener c = true) : isQuote c = false := by
  simp only [isOpener, Bool.or_eq_true, beq_iff_eq] at h
  rcases h with (rfl | rfl) | rfl <;> rfl

/-- In code, both are in a string after a quotation mark, and in code after anything else that
starts no comment. -/
theorem abreast_advance_code (depth : Int) (c : Char) (rest : List Char) :
    Abreast (advance ⟨.code, depth⟩ c) (if isQuote c then .quoted c else .text) rest := by
  rw [advance_code, stepCode]
  split
  · next hcloser =>
    rw [isQuote_of_isCloser hcloser]
    exact .code _ rest
  · split
    · next hopener =>
      rw [isQuote_of_isOpener hopener]
      exact .code _ rest
    · split
      · next hquote => exact .quoted hquote depth rest
      · exact .code depth rest

theorem abreast_advance_quoted {mark : Char} (hmark : isQuote mark = true) (depth : Int) (c : Char)
    (rest : List Char) :
    Abreast (advance ⟨.quoted mark, depth⟩ c)
      (if c = '\\' then .escaped mark else if c = mark then .text else .quoted mark) rest := by
  rw [advance_quoted]
  split_ifs
  · exact .escaped hmark depth rest
  · exact .code depth rest
  · exact .quoted hmark depth rest

/-- **Both go on by one character.** -/
theorem Abreast.step (h : Abreast s r (c :: rest)) :
    ∃ left r', stripFrom r (c :: rest) = left ++ stripFrom r' rest ∧
      Leaves s c rest.head? left ∧ Abreast (Scan.step true s c rest.head?).2 r' rest := by
  cases h with
  | code depth =>
    by_cases hline : c = '/' ∧ rest.head? = some '/'
    · obtain ⟨rfl, hnext⟩ := hline
      refine ⟨[], .line, by rw [stripFrom, if_pos ⟨rfl, hnext⟩]; rfl, ?_⟩
      rw [hnext]
      exact ⟨.removed rfl (Or.inl rfl), .line depth rest⟩
    by_cases hblock : c = '/' ∧ rest.head? = some '*'
    · obtain ⟨rfl, hnext⟩ := hblock
      refine ⟨[], .opening, by rw [stripFrom, if_neg hline, if_pos ⟨rfl, hnext⟩]; rfl, ?_⟩
      rw [hnext]
      exact ⟨.removed rfl (Or.inl rfl), .opening depth rest⟩
    have hkept : isComment ⟨.code, depth⟩ c rest.head? = false := by
      simp only [isComment, Bool.and_eq_false_imp, beq_iff_eq, Bool.or_eq_false_iff,
        beq_eq_false_iff_ne]
      exact fun hslash => ⟨fun hnext => hline ⟨hslash, hnext⟩, fun hnext => hblock ⟨hslash, hnext⟩⟩
    refine ⟨[c], if isQuote c then .quoted c else .text,
      by rw [stripFrom, if_neg hline, if_neg hblock]; rfl, .kept trivial hkept, ?_⟩
    rw [step_of_not_isComment hkept]
    exact abreast_advance_code depth c rest
  | quoted hmark depth =>
    refine ⟨[c], _, rfl, .kept hmark rfl, ?_⟩
    rw [step_of_not_isComment rfl]
    exact abreast_advance_quoted hmark depth c rest
  | escaped hmark depth => exact ⟨[c], _, rfl, .kept hmark rfl, .quoted hmark depth rest⟩
  | line depth =>
    by_cases hend : c = '\n'
    · refine ⟨['\n'], .text, by rw [stripFrom, if_pos hend]; rfl,
        .removed rfl (Or.inr (Or.inr rfl)), ?_⟩
      rw [Scan.step, if_pos hend]
      exact .code depth rest
    · refine ⟨[], .line, by rw [stripFrom, if_neg hend]; rfl, .removed rfl (Or.inl rfl), ?_⟩
      rw [Scan.step, if_neg hend]
      exact .line depth rest
  | opening depth =>
    exact ⟨[], .block false, rfl, .removed rfl (Or.inl rfl), .block depth (by simp)⟩
  | @block star depth _ hgoes =>
    have hopen : ¬ (star = true ∧ c = '/') := fun hend => hgoes hend.1 (by rw [hend.2]; rfl)
    refine ⟨[], .block (c == '*'), by rw [stripFrom, if_neg hopen]; rfl,
      .removed rfl (Or.inl rfl), ?_⟩
    by_cases hends : c = '*' ∧ rest.head? = some '/'
    · rw [Scan.step, if_pos hends, hends.1]
      exact .closing depth hends.2
    · rw [Scan.step, if_neg hends]
      exact .block depth fun hstar hnext => hends ⟨beq_iff_eq.mp hstar, hnext⟩
  | closing depth hends =>
    obtain rfl : c = '/' := Option.some.inj hends
    exact ⟨[' '], .text, by rw [stripFrom, if_pos ⟨rfl, rfl⟩]; rfl,
      .removed rfl (Or.inr (Or.inl rfl)), .code depth rest⟩

/-- At the end of the text nothing is left to read but the blank of a block comment. -/
theorem Abreast.nil (h : Abreast s r []) :
    stripFrom r [] = [] ∨ (stripFrom r [] = [' '] ∧ s.uncommented = ⟨.code, s.depth⟩) := by
  cases h with
  | opening | block => exact Or.inr ⟨rfl, rfl⟩
  | closing depth hends => cases hends
  | _ => exact Or.inl rfl

/-! ### No comment is left -/

/-- What is left of a text starts as the text does, unless a comment starts there. -/
theorem head?_stripFrom_text (h : rest.head? ≠ some '/') :
    (stripFrom .text rest).head? = rest.head? := by
  cases rest with
  | nil => rfl
  | cons d tail =>
    have hslash : d ≠ '/' := fun heq => h (by rw [heq]; rfl)
    rw [stripFrom, if_neg fun hline => hslash hline.1, if_neg fun hblock => hslash hblock.1]
    rfl

/-- What is left of the text after a character does not make a comment of it. -/
theorem Abreast.isComment_eq_false (h : Abreast (advance s c) r rest)
    (hkept : isComment s c rest.head? = false) :
    isComment s c (stripFrom r rest).head? = false := by
  obtain ⟨mode, depth⟩ := s
  cases mode with
  | code =>
    by_cases hslash : c = '/'
    · subst hslash
      have hnext : rest.head? ≠ some '/' ∧ rest.head? ≠ some '*' := by
        simpa [isComment] using hkept
      have hcode : advance ⟨.code, depth⟩ '/' = ⟨.code, depth⟩ := rfl
      rw [hcode] at h
      cases h
      simp [isComment, head?_stripFrom_text hnext.1, hnext]
    · simp [isComment, hslash]
  | quoted | escaped => rfl
  | _ => cases hkept

/-- A blank that stands for a comment is read over. -/
theorem plain?_left {left : List Char} (hleft : left = [] ∨ left = [' '] ∨ left = ['\n'])
    (depth : Int) (cs : List Char) :
    plain? ⟨.code, depth⟩ (left ++ cs) = plain? ⟨.code, depth⟩ cs := by
  refine plain?_inert_append (s := ⟨.code, depth⟩) (fun c hc => isInert_of_isBlank ?_) trivial rfl
    cs
  rcases hleft with rfl | rfl | rfl
  · cases hc
  · rw [List.mem_singleton.mp hc]
    rfl
  · rw [List.mem_singleton.mp hc]
    rfl

/-- **No comment is left**, and what is left leads to the state that the text leads to. -/
theorem plain?_stripFrom (h : Abreast s r cs) :
    plain? s.uncommented (stripFrom r cs) = some (endState true s cs).uncommented := by
  induction cs generalizing s r with
  | nil =>
    rcases h.nil with hnil | ⟨hblank, hcode⟩
    · rw [hnil]
      rfl
    · have hread := plain?_left (Or.inr (Or.inl rfl)) s.depth []
      rw [hblank, endState, hcode]
      exact hread
  | cons c rest ih =>
    obtain ⟨left, r', hstrip, hleaves, habreast⟩ := h.step
    rw [hstrip, endState, ← ih habreast]
    cases hleaves with
    | kept hplain hkept =>
      rw [step_of_not_isComment hkept] at habreast ⊢
      rw [hplain.uncommented, (hplain.advance c).uncommented, List.singleton_append, plain?,
        habreast.isComment_eq_false hkept]
      rfl
    | removed hcomment hleft =>
      rw [uncommented_of_isComment hcomment, (step_of_isComment hcomment).2, plain?_left hleft]

/-- A text in which no comment starts is left as it is. -/
theorem stripFrom_of_plain? (h : Abreast s r cs) (hs : s.Plain) (hplain : plain? s cs = some s') :
    stripFrom r cs = cs := by
  induction cs generalizing s r with
  | nil =>
    rcases h.nil with hnil | ⟨-, hcode⟩
    · exact hnil
    · rw [hs.uncommented] at hcode
      rw [hcode] at h
      cases h
      rfl
  | cons c rest ih =>
    obtain ⟨left, r', hstrip, hleaves, habreast⟩ := h.step
    rw [plain?] at hplain
    split at hplain
    · cases hplain
    · next hkept =>
      cases hleaves with
      | kept =>
        rw [step_of_not_isComment (Bool.eq_false_iff.mpr hkept)] at habreast
        rw [hstrip, ih habreast (hs.advance c) hplain]
        rfl
      | removed hcomment => exact absurd hcomment hkept

/-! ### The code that is read -/

/-- The code of a text, each character with the depth around it. -/
def code (marks : List Mark) : List (Char × Nat) :=
  marks.filterMap fun mark => mark.depth?.map fun depth => (mark.char, depth)

/-- The code of a text without the blanks that may stand for a comment. -/
def solid (marks : List Mark) : List (Char × Nat) :=
  (code marks).filter fun visit => visit.1 != ' ' && visit.1 != '\n'

theorem solid_cons (mark : Mark) (marks : List Mark) :
    solid (mark :: marks) = solid [mark] ++ solid marks := by
  rw [solid, solid, solid, ← List.filter_append, code, code, code, ← List.filterMap_append]
  rfl

/-- The code of blanks that stand for a comment is not solid. -/
theorem solid_marks_left {left : List Char} (hleft : left = [] ∨ left = [' '] ∨ left = ['\n'])
    (depth : Int) (cs : List Char) :
    solid (marks false ⟨.code, depth⟩ (left ++ cs)) = solid (marks false ⟨.code, depth⟩ cs) := by
  rcases hleft with rfl | rfl | rfl
  · rfl
  · rfl
  · rfl

/-- A character that starts no comment is read as if there were none. -/
theorem step_eq_of_not_isComment (h : isComment s c next = false) :
    step true s c next = step false s c none := by
  obtain ⟨mode, depth⟩ := s
  cases mode with
  | code =>
    have hline : ¬ (c = '/' ∧ next = some '/') := by
      rintro ⟨rfl, rfl⟩
      cases h
    have hblock : ¬ (c = '/' ∧ next = some '*') := by
      rintro ⟨rfl, rfl⟩
      cases h
    simp [step, hline, hblock]
  | quoted | escaped => rfl
  | _ => cases h

/-- **The same code is read at the same depths**, up to blanks. -/
theorem solid_marks_stripFrom (h : Abreast s r cs) :
    solid (marks false s.uncommented (stripFrom r cs)) = solid (marks true s cs) := by
  induction cs generalizing s r with
  | nil =>
    rcases h.nil with hnil | ⟨hblank, hcode⟩
    · rw [hnil]
      rfl
    · rw [hblank, hcode]
      rfl
  | cons c rest ih =>
    obtain ⟨left, r', hstrip, hleaves, habreast⟩ := h.step
    have hrest := ih habreast
    rw [hstrip, marks, solid_cons, ← hrest]
    cases hleaves with
    | kept hplain hkept =>
      have hafter : (step false s c none).2.uncommented = (step false s c none).2 :=
        (hplain.advance c).uncommented
      rw [step_eq_of_not_isComment hkept, hafter, hplain.uncommented, List.singleton_append, marks,
        step_false hplain, solid_cons]
    | removed hcomment hleft =>
      obtain ⟨hread, hafter⟩ := step_of_isComment hcomment
      rw [uncommented_of_isComment hcomment, hafter, solid_marks_left hleft, hread]
      rfl

/-! ### Both on a whole text -/

/-- **The scanner and the remover of comments agree.** Of every text, also one that ends in a
comment or in a string, `stripComments` leaves a text that is read without comments as the text is
read with them: up to the same depth, into a string or not, and over the same code at the same
depths, save the blanks that may stand for a comment. No comment starts in what is left, so nothing
more is taken out of it. -/
theorem stripComments_agrees (cs : List Char) :
    (endState false .start (stripComments cs)).depth = (endState true .start cs).depth ∧
      (endState false .start (stripComments cs)).inString = (endState true .start cs).inString ∧
      solid (marks false .start (stripComments cs)) = solid (marks true .start cs) ∧
      CommentFree (stripComments cs) ∧ stripComments (stripComments cs) = stripComments cs := by
  have habreast : Abreast .start .text cs := .code 0 cs
  have hplain : plain? .start (stripComments cs) = some (endState true .start cs).uncommented :=
    plain?_stripFrom habreast
  have hend : endState false .start (stripComments cs) = (endState true .start cs).uncommented :=
    endState_of_plain? hplain
  refine ⟨?_, ?_, solid_marks_stripFrom habreast, commentFree_of_plain? hplain,
    stripFrom_of_plain? (.code 0 _) trivial hplain⟩
  · rw [hend, State.depth_uncommented]
  · rw [hend, State.inString_uncommented]

/-- Slashes around a comment do not meet, and a comment may be left open. -/
example : stripComments "a /* ' */ / '/*' /*/ b".toList = "a   / '/*'  ".toList := by decide

end PugContracts.Scan
