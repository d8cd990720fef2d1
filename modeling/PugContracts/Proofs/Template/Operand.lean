import PugContracts.Proofs.Scan.Through
import PugContracts.Proofs.Template.Heads

/-!
# Expressions between the separators of a list

An attribute value is made of operands with operators between them. An operand is a word, a string
literal or a group in brackets, and what is selected from it or called on it; so a blank or a comma
in it always stands in a string or in brackets.

## Main definitions

* `IsOperand`: the operands.
* `Value`: operands with operators between them.

## Main results

* `IsOperand.unbroken`: no blank and no comma of an operand stands outside of its brackets.
-/

namespace PugContracts

namespace Template

open Statement (isTagChar not_isBlank_of_isTagChar)
open Scan (State Through isOpener isCloser isQuote isPassive)

/-! ### Operands -/

/-- The inside of a string literal. -/
inductive IsLiteralBody (mark : Char) : List Char → Prop
  | nil : IsLiteralBody mark []
  | char {c : Char} {rest : List Char} (hmark : c ≠ mark) (hescape : c ≠ '\\') (hline : c ≠ '\n')
      (tail : IsLiteralBody mark rest) : IsLiteralBody mark (c :: rest)
  | escape {c : Char} {rest : List Char} (hline : c ≠ '\n') (tail : IsLiteralBody mark rest) :
      IsLiteralBody mark ('\\' :: c :: rest)

/-- A string literal. -/
inductive IsLiteral : List Char → Prop
  | quoted {mark : Char} {body : List Char} (hmark : isQuote mark = true)
      (hbody : IsLiteralBody mark body) : IsLiteral (mark :: (body ++ [mark]))

/-- A text in which brackets are balanced outside of string literals. -/
inductive IsBalancedText : List Char → Prop
  | nil : IsBalancedText []
  | char {c : Char} {rest : List Char}
      (hc : isPassive c = true) (hline : c ≠ '\n')
      (tail : IsBalancedText rest) : IsBalancedText (c :: rest)
  | literal {text rest : List Char} (head : IsLiteral text) (tail : IsBalancedText rest) :
      IsBalancedText (text ++ rest)
  | group {opener closer : Char} {inner rest : List Char} (hopener : isOpener opener = true)
      (hcloser : isCloser closer = true) (inside : IsBalancedText inner)
      (tail : IsBalancedText rest) : IsBalancedText (opener :: (inner ++ closer :: rest))

/-- A balanced text in brackets. -/
inductive IsGroup : List Char → Prop
  | bracketed {opener closer : Char} {inner : List Char} (hopener : isOpener opener = true)
      (hcloser : isCloser closer = true) (inside : IsBalancedText inner) :
      IsGroup (opener :: (inner ++ [closer]))

/-- A character of a name or a number. -/
def isWordChar (c : Char) : Bool :=
  c.isAlphanum || c == '_' || c == '$' || (128 ≤ c.toNat && !Text.isBlank c)

/-- A name or the digits of a number. -/
def IsWord (text : List Char) : Prop :=
  text ≠ [] ∧ ∀ c ∈ text, isWordChar c = true

/-- An operand. A member path is a word and the members selected from it, and so is a number with
a fraction; a call is an operand and the group of its arguments. -/
inductive IsOperand : List Char → Prop
  | word {text : List Char} (h : IsWord text) : IsOperand text
  | literal {text : List Char} (h : IsLiteral text) : IsOperand text
  | group {text : List Char} (h : IsGroup text) : IsOperand text
  | negative {text : List Char} (h : IsOperand text) : IsOperand ('-' :: text)
  | member {text word : List Char} (h : IsOperand text) (hword : IsWord word) :
      IsOperand (text ++ '.' :: word)
  | optional {text word : List Char} (h : IsOperand text) (hword : IsWord word) :
      IsOperand (text ++ '?' :: '.' :: word)
  | call {text arguments : List Char} (h : IsOperand text) (harguments : IsGroup arguments) :
      IsOperand (text ++ arguments)

/-! ### Values -/

/-- An infix operator; the last two are the signs of a conditional expression `c ? a : b`. -/
inductive Operator where
  | plus
  | minus
  | times
  | and
  | or
  | coalesce
  | equal
  | unequal
  | less
  | greater
  | question
  | colon
  deriving DecidableEq, Repr

/-- How an operator is written. -/
def Operator.text : Operator → List Char
  | plus => ['+']
  | minus => ['-']
  | times => ['*']
  | and => ['&', '&']
  | or => ['|', '|']
  | coalesce => ['?', '?']
  | equal => ['=', '=', '=']
  | unequal => ['!', '=', '=']
  | less => ['<']
  | greater => ['>']
  | question => ['?']
  | colon => [':']

/-- A text that is an operand. -/
structure Operand where
  /-- The text. -/
  text : List Char
  /-- It is an operand. -/
  isOperand : IsOperand text

/-- An operand and the operators and operands that follow it. -/
structure Value where
  /-- The first operand. -/
  first : Operand
  /-- The other ones, each with the operator before it. -/
  others : List (Operator × Operand)

/-- What is written behind an operand, with one space on each side of an operator. -/
def othersText : List (Operator × Operand) → List Char
  | [] => []
  | (operator, operand) :: rest =>
    ' ' :: (operator.text ++ ' ' :: (operand.text ++ othersText rest))

/-- How a value is written. -/
def Value.text (value : Value) : List Char :=
  value.first.text ++ othersText value.others

/-! ### How operands are read -/

variable {text rest inner word : List Char} {c mark : Char} {depth : Int}

/-- Neither a blank nor a comma. -/
def isUnbroken (c : Char) : Bool :=
  !(Text.isBlank c || c == ',')

/-- A character that an operand may start with. -/
def startsOperand (c : Char) : Bool :=
  isWordChar c || isQuote c || isOpener c || c == '-'

/-- A character that an operand may end with. -/
def endsOperand (c : Char) : Bool :=
  isWordChar c || isQuote c || isCloser c

/-- What the reading of a list uses of an operand. -/
structure Unbroken (text : List Char) : Prop where
  /-- Blanks and commas stand in brackets and strings only. -/
  through : Through isUnbroken .start text .start
  /-- It starts like an operand. -/
  head : ∃ c rest, text = c :: rest ∧ startsOperand c = true
  /-- It ends like an operand. -/
  last : ∃ before c, text = before ++ [c] ∧ endsOperand c = true
  /-- It stands on one line. -/
  single : '\n' ∉ text

theorem of_isWordChar (hc : isWordChar c = true) :
    isPassive c = true ∧ Text.isBlank c = false ∧ c ≠ ',' ∧ c ≠ '=' ∧ c ≠ '!' := by
  have hnot : ∀ d : Char, isWordChar d = false → c ≠ d := by
    rintro d hd rfl
    rw [hd] at hc
    cases hc
  refine ⟨?_, ?_, hnot _ (by decide), hnot _ (by decide), hnot _ (by decide)⟩
  · by_contra hactive
    simp only [isPassive, isOpener, isCloser, isQuote, Bool.not_eq_true, Bool.not_eq_false',
      Bool.or_eq_true, beq_iff_eq, or_assoc] at hactive
    rcases hactive with h | h | h | h | h | h | h | h | h <;> exact hnot _ (by decide) h
  · simp only [isWordChar, Bool.or_eq_true, Bool.and_eq_true, beq_iff_eq, Bool.not_eq_true'] at hc
    rcases hc with ((hc | rfl) | rfl) | ⟨-, hblank⟩
    · exact not_isBlank_of_isTagChar (by simp [isTagChar, hc])
    · decide
    · decide
    · exact hblank

theorem of_startsOperand (hc : startsOperand c = true) :
    Text.isBlank c = false ∧ c ≠ ',' ∧ c ≠ '=' ∧ c ≠ '!' := by
  simp only [startsOperand, isQuote, isOpener, Bool.or_eq_true, beq_iff_eq, or_assoc] at hc
  rcases hc with hc | rfl | rfl | rfl | rfl | rfl | rfl | rfl
  · exact (of_isWordChar hc).2
  all_goals decide

theorem of_endsOperand (hc : endsOperand c = true) :
    Text.isBlank c = false ∧ c ≠ ',' ∧ c ≠ '=' ∧ c ≠ '!' := by
  simp only [endsOperand, isQuote, isCloser, Bool.or_eq_true, beq_iff_eq, or_assoc] at hc
  rcases hc with hc | rfl | rfl | rfl | rfl | rfl | rfl
  · exact (of_isWordChar hc).2
  all_goals decide

theorem isUnbroken_iff : isUnbroken c = true ↔ Text.isBlank c = false ∧ c ≠ ',' := by
  simp [isUnbroken]

/-! ### Strings and groups -/

theorem IsLiteralBody.through {p : Char → Bool} (h : IsLiteralBody mark text)
    (hdepth : 0 ≤ depth) : Through p ⟨.quoted mark, depth⟩ text ⟨.quoted mark, depth⟩ := by
  induction h with
  | nil => exact .nil _
  | char hmark hescape hline tail ih =>
    refine (Scan.through_string (by simp) hdepth ?_ rfl).append ih
    rw [Scan.advance_quoted, if_neg hescape, if_neg hmark]
  | escape hline tail ih =>
    have hbackslash : Through p ⟨.quoted mark, depth⟩ ['\\'] ⟨.escaped mark, depth⟩ :=
      Scan.through_string (by simp) hdepth (by rw [Scan.advance_quoted, if_pos rfl]) rfl
    exact hbackslash.append ((Scan.through_string (by simp) hdepth rfl rfl).append ih)

/-- Outside of a string literal there is nothing but its first quote. -/
theorem IsLiteral.through {p : Char → Bool} (h : IsLiteral text)
    (hquote : ∀ c, isQuote c = true → p c = true) (hdepth : 0 ≤ depth) :
    Through p ⟨.code, depth⟩ text ⟨.code, depth⟩ := by
  obtain ⟨hmark, hbody⟩ := h
  next mark body =>
  have hopen : Scan.advance ⟨.code, depth⟩ mark = ⟨.quoted mark, depth⟩ ∧ mark ≠ '\\' := by
    have hmark := hmark
    simp only [isQuote, Bool.or_eq_true, beq_iff_eq] at hmark
    rcases hmark with (rfl | rfl) | rfl
    all_goals exact ⟨rfl, by decide⟩
  obtain ⟨hadvance, hslash⟩ := hopen
  refine .cons (by rwa [hadvance]) (fun _ => hquote mark hmark) ?_
  rw [hadvance]
  refine (hbody.through hdepth).append (Scan.through_string (by simp) hdepth ?_ rfl)
  rw [Scan.advance_quoted, if_neg hslash, if_pos rfl]

theorem isUnbroken_of_isQuote {c : Char} (hc : isQuote c = true) : isUnbroken c = true := by
  simp only [isQuote, Bool.or_eq_true, beq_iff_eq] at hc
  rcases hc with (rfl | rfl) | rfl <;> decide

theorem isUnbroken_of_isBracket {c : Char} (hc : isOpener c = true ∨ isCloser c = true) :
    isUnbroken c = true := by
  simp only [isOpener, isCloser, Bool.or_eq_true, beq_iff_eq, or_assoc] at hc
  rcases hc with rfl | rfl | rfl | rfl | rfl | rfl <;> decide

theorem IsBalancedText.through (h : IsBalancedText text) (hdepth : 0 < depth) :
    Through isUnbroken ⟨.code, depth⟩ text ⟨.code, depth⟩ := by
  induction h generalizing depth with
  | nil => exact .nil _
  | @char c rest hc hline tail ih =>
    have hadvance : Scan.advance ⟨.code, depth⟩ c = ⟨.code, depth⟩ :=
      Scan.advance_of_isPassive rfl hc
    refine .cons (by rw [hadvance]; exact Int.le_of_lt hdepth) (fun hzero => ?_) ?_
    · exact absurd (Scan.of_fst_step_passive hc hzero).2.1 (Int.not_le.mpr hdepth)
    · rw [hadvance]
      exact ih hdepth
  | literal head tail ih =>
    exact (head.through (fun _ => isUnbroken_of_isQuote) (Int.le_of_lt hdepth)).append (ih hdepth)
  | @group opener closer inner rest hopener hcloser inside tail ihinside ihtail =>
    have hgroup := Scan.through_bracketed hopener hcloser (fun _ => isUnbroken_of_isBracket)
      (ihinside (by omega : 0 < depth + 1)) (Int.le_of_lt hdepth)
    simpa using hgroup.append (ihtail hdepth)

theorem IsGroup.through (h : IsGroup text) (hdepth : 0 ≤ depth) :
    Through isUnbroken ⟨.code, depth⟩ text ⟨.code, depth⟩ := by
  obtain ⟨hopener, hcloser, inside⟩ := h
  exact Scan.through_bracketed hopener hcloser (fun _ => isUnbroken_of_isBracket)
    (inside.through (by omega)) hdepth

theorem IsLiteral.single (h : IsLiteral text) : '\n' ∉ text := by
  obtain ⟨hmark, hbody⟩ := h
  next mark body =>
  have hinside : '\n' ∉ body := by
    induction hbody with
    | nil => simp
    | char hmark hescape hline tail ih => simp [ih, Ne.symm hline]
    | escape hline tail ih => simp [ih, Ne.symm hline]
  have hends : '\n' ≠ mark := by
    rintro rfl
    cases hmark
  simp [hinside, hends]

theorem IsBalancedText.single (h : IsBalancedText text) : '\n' ∉ text := by
  induction h with
  | nil => simp
  | char hc hline tail ih => simp [ih, Ne.symm hline]
  | literal head tail ih => simp [ih, head.single]
  | @group opener closer inner rest hopener hcloser inside tail ihinside ihtail =>
    have hfirst : '\n' ≠ opener := by
      rintro rfl
      cases hopener
    have hlast : '\n' ≠ closer := by
      rintro rfl
      cases hcloser
    simp [ihinside, ihtail, hfirst, hlast]

/-! ### Operands -/

theorem IsWord.through (h : IsWord text) : Through isUnbroken .start text .start :=
  Scan.through_of_all (List.all_eq_true.mpr fun c hc => by
    obtain ⟨hpassive, hblank, hcomma, -⟩ := of_isWordChar (h.2 c hc)
    rw [hpassive, isUnbroken_iff.mpr ⟨hblank, hcomma⟩, Bool.and_self]) (Int.le_refl 0)

theorem IsWord.single (h : IsWord text) : '\n' ∉ text := fun hmem => by
  cases h.2 _ hmem

theorem IsWord.unbroken (h : IsWord text) : Unbroken text := by
  refine ⟨h.through, ?_, ?_, h.single⟩
  · obtain ⟨c, rest, rfl⟩ := List.exists_cons_of_ne_nil h.1
    exact ⟨c, rest, rfl, by simp [startsOperand, h.2 c List.mem_cons_self]⟩
  · obtain ⟨before, c, rfl⟩ := (List.eq_nil_or_concat text).resolve_left h.1
    exact ⟨before, c, by simp, by simp [endsOperand, h.2 c (by simp)]⟩

theorem IsLiteral.unbroken (h : IsLiteral text) : Unbroken text := by
  refine ⟨h.through (fun _ => isUnbroken_of_isQuote) (Int.le_refl 0), ?_, ?_, h.single⟩
  · obtain ⟨hmark, -⟩ := h
    exact ⟨_, _, rfl, by simp [startsOperand, hmark]⟩
  · obtain ⟨hmark, -⟩ := h
    exact ⟨_ :: _, _, rfl, by simp [endsOperand, hmark]⟩

theorem IsGroup.unbroken (h : IsGroup text) : Unbroken text := by
  refine ⟨h.through (Int.le_refl 0), ?_, ?_, ?_⟩
  · obtain ⟨hopener, -, -⟩ := h
    exact ⟨_, _, rfl, by simp [startsOperand, hopener]⟩
  · obtain ⟨-, hcloser, -⟩ := h
    exact ⟨_ :: _, _, rfl, by simp [endsOperand, hcloser]⟩
  · obtain ⟨hopener, hcloser, inside⟩ := h
    simpa using (IsBalancedText.group hopener hcloser inside .nil).single

/-- What stands behind an operand is a part of it if it could be read on its own. -/
theorem Unbroken.append {more : List Char} (h : Unbroken text)
    (hthrough : Through isUnbroken .start more .start)
    (hlast : ∃ before c, more = before ++ [c] ∧ endsOperand c = true) (hsingle : '\n' ∉ more) :
    Unbroken (text ++ more) := by
  refine ⟨h.through.append hthrough, ?_, ?_, by simp [h.single, hsingle]⟩
  · obtain ⟨c, rest, rfl, hc⟩ := h.head
    exact ⟨c, rest ++ more, rfl, hc⟩
  · obtain ⟨before, c, rfl, hc⟩ := hlast
    exact ⟨text ++ before, c, by simp, hc⟩

/-- **No blank and no comma of an operand** stands outside of its brackets and strings. -/
theorem IsOperand.unbroken (h : IsOperand text) : Unbroken text := by
  have hpoint : Through isUnbroken .start ['.'] .start :=
    Scan.through_of_isPassive (by decide) (by decide) (Int.le_refl 0)
  have hmark : Through isUnbroken .start ['?'] .start :=
    Scan.through_of_isPassive (by decide) (by decide) (Int.le_refl 0)
  induction h with
  | word h => exact h.unbroken
  | literal h => exact h.unbroken
  | group h => exact h.unbroken
  | negative h ih =>
    have hminus : Through isUnbroken .start ['-'] .start :=
      Scan.through_of_isPassive (by decide) (by decide) (Int.le_refl 0)
    refine ⟨hminus.append ih.through, ⟨_, _, rfl, by decide⟩, ?_, by simp [ih.single]⟩
    obtain ⟨before, c, rfl, hc⟩ := ih.last
    exact ⟨'-' :: before, c, rfl, hc⟩
  | member h hword ih =>
    obtain ⟨before, c, rfl, hc⟩ := hword.unbroken.last
    exact ih.append (hpoint.append hword.through) ⟨'.' :: before, c, rfl, hc⟩
      (by simpa using hword.single)
  | optional h hword ih =>
    obtain ⟨before, c, rfl, hc⟩ := hword.unbroken.last
    exact ih.append (hmark.append (hpoint.append hword.through)) ⟨'?' :: '.' :: before, c, rfl, hc⟩
      (by simpa using hword.single)
  | call h harguments ih =>
    exact ih.append harguments.unbroken.through harguments.unbroken.last harguments.unbroken.single

theorem Operator.through (operator : Operator) :
    Through isUnbroken .start operator.text .start := by
  refine Scan.through_of_all ?_ (Int.le_refl 0)
  cases operator <;> rfl

end Template

end PugContracts
