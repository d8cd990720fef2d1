import PugContracts.Proofs.Template.Operand
import PugContracts.Scan.Comment

/-!
# Removing comments

What stands in comments is removed, and what stands between them is kept. A text is kept (`Kept`) if
no comment starts in it outside of its strings, whatever follows it. A line comment leaves its
newline and a block comment a space, so comments that stand between other texts leave blanks there.

## Main results

* `stripFrom_gap`: blanks and comments leave blanks.
-/

namespace PugContracts.Scan

variable {a b body : List Char} {c mark : Char}

/-! ### Texts that are kept -/

/-- The text is kept, and comments are looked for after it. -/
def Kept (cs : List Char) : Prop :=
  ∀ rest, stripFrom .text (cs ++ rest) = cs ++ stripFrom .text rest

theorem kept_nil : Kept [] := fun _ => rfl

theorem Kept.append (ha : Kept a) (hb : Kept b) : Kept (a ++ b) := fun rest => by
  rw [List.append_assoc, ha, hb, List.append_assoc]

theorem kept_singleton (hslash : c ≠ '/') (hquote : isQuote c = false) : Kept [c] := fun rest => by
  rw [List.singleton_append, stripFrom, if_neg (fun h => hslash h.1), if_neg (fun h => hslash h.1),
    hquote]
  rfl

theorem Kept.cons (hslash : c ≠ '/') (hquote : isQuote c = false) (h : Kept a) : Kept (c :: a) :=
  (kept_singleton hslash hquote).append h

theorem kept_of_all {cs : List Char} (h : ∀ c ∈ cs, c ≠ '/' ∧ isQuote c = false) : Kept cs := by
  induction cs with
  | nil => exact kept_nil
  | cons c rest ih =>
    obtain ⟨⟨hslash, hquote⟩, hrest⟩ := List.forall_mem_cons.mp h
    exact (ih hrest).cons hslash hquote

/-- In a string literal no comment starts. -/
theorem stripFrom_literalBody (h : Template.IsLiteralBody mark body) (rest : List Char) :
    stripFrom (.quoted mark) (body ++ rest) = body ++ stripFrom (.quoted mark) rest := by
  induction h with
  | nil => rfl
  | char hmark hescape hline tail ih =>
    rw [List.cons_append, stripFrom, if_neg hescape, if_neg hmark, ih]
    rfl
  | escape hline tail ih =>
    rw [List.cons_append, List.cons_append, stripFrom, if_pos rfl, stripFrom, ih]
    rfl

theorem kept_literal (h : Template.IsLiteral a) : Kept a := by
  obtain ⟨hmark, hbody⟩ := h
  next mark body =>
  intro rest
  have hslash : mark ≠ '/' ∧ mark ≠ '\\' := by
    constructor <;> rintro rfl <;> cases hmark
  have hclose : stripFrom (.quoted mark) (mark :: rest) = mark :: stripFrom .text rest := by
    rw [stripFrom, if_neg hslash.2, if_pos rfl]
  rw [List.cons_append, stripFrom, if_neg (fun h => hslash.1 h.1), if_neg (fun h => hslash.1 h.1),
    if_pos hmark, List.append_assoc, stripFrom_literalBody hbody, List.singleton_append, hclose,
    List.cons_append, List.append_assoc, List.singleton_append]

/-! ### Comments -/

theorem stripFrom_line (h : '\n' ∉ body) (rest : List Char) :
    stripFrom .line (body ++ '\n' :: rest) = '\n' :: stripFrom .text rest := by
  induction body with
  | nil => rfl
  | cons c body ih =>
    rw [List.mem_cons, not_or] at h
    rw [List.cons_append, stripFrom, if_neg (Ne.symm h.1), ih h.2]

/-- A block comment goes up to the first star and slash in a row. -/
theorem stripFrom_block {star : Bool} (h : ¬ ['*', '/'] <:+: body)
    (hstar : star = true → body.head? ≠ some '/') (rest : List Char) :
    stripFrom (.block star) (body ++ '*' :: '/' :: rest) = ' ' :: stripFrom .text rest := by
  induction body generalizing star with
  | nil => cases star <;> rfl
  | cons c body ih =>
    have hgo : ¬ (star = true ∧ c = '/') := fun hend => hstar hend.1 (by rw [hend.2]; rfl)
    have hnext : (c == '*') = true → body.head? ≠ some '/' := by
      intro hc hhead
      obtain ⟨tail, rfl⟩ := List.head?_eq_some_iff.mp hhead
      obtain rfl := beq_iff_eq.mp hc
      exact h ⟨[], tail, rfl⟩
    rw [List.cons_append, stripFrom, if_neg hgo]
    exact ih (fun hends => h (hends.trans (List.suffix_cons c body).isInfix)) hnext

/-! ### Gaps -/

/-- What may stand between two texts that belong together. -/
inductive Filler where
  /-- A blank. -/
  | blank (c : Char) (h : Text.isBlank c = true)
  /-- A line comment with its newline. -/
  | line (body : List Char) (h : '\n' ∉ body)
  /-- A block comment. -/
  | block (body : List Char) (h : ¬ ['*', '/'] <:+: body)

/-- How a filler is written. -/
def Filler.text : Filler → List Char
  | blank c _ => [c]
  | line body _ => '/' :: '/' :: (body ++ ['\n'])
  | block body _ => '/' :: '*' :: (body ++ ['*', '/'])

/-- The blank that is left of a filler. -/
def Filler.left : Filler → Char
  | blank c _ => c
  | line _ _ => '\n'
  | block _ _ => ' '

theorem Filler.isBlank_left (filler : Filler) : Text.isBlank filler.left = true := by
  cases filler with
  | blank c h => exact h
  | line => rfl
  | block => rfl

theorem stripFrom_filler (filler : Filler) (rest : List Char) :
    stripFrom .text (filler.text ++ rest) = filler.left :: stripFrom .text rest := by
  cases filler with
  | blank c h =>
    have hinert := isInert_of_isBlank h
    have hslash := (ne_of_isInert hinert).1
    simp only [isInert, Bool.not_eq_true', Bool.or_eq_false_iff] at hinert
    exact kept_singleton hslash hinert.1.1.1.2 rest
  | line body h =>
    have hslashes : '\n' ∉ '/' :: body := by simp [h]
    show stripFrom .text ('/' :: '/' :: ((body ++ ['\n']) ++ rest)) = _
    rw [stripFrom, if_pos ⟨rfl, rfl⟩, List.append_assoc, ← List.cons_append]
    exact stripFrom_line hslashes rest
  | block body h =>
    show stripFrom .text ('/' :: '*' :: ((body ++ ['*', '/']) ++ rest)) = _
    rw [stripFrom, if_neg (by simp), if_pos ⟨rfl, rfl⟩, stripFrom, List.append_assoc]
    exact stripFrom_block h (by simp) rest

/-- **Blanks and comments leave blanks.** -/
theorem stripFrom_gap (gap : List Filler) (rest : List Char) :
    stripFrom .text (gap.flatMap Filler.text ++ rest) =
      gap.map Filler.left ++ stripFrom .text rest := by
  induction gap with
  | nil => rfl
  | cons filler gap ih =>
    rw [List.flatMap_cons, List.append_assoc, stripFrom_filler, ih]
    rfl

end PugContracts.Scan
