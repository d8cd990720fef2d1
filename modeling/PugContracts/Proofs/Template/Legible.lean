import PugContracts.Proofs.Template.Printing
import PugContracts.Proofs.Template.Statement

/-!
# Texts that can stand on a line

A line is read without its indentation and without the blanks at its end. So a text can stand on a
line if it has no blanks around it, holds no newline and is not empty. It still can after a word,
and what follows the word is then trimmed to the text.
-/

namespace PugContracts

/-! ### Texts -/

namespace Text

variable {cs rest : List Char} {c : Char}

theorem trimEnd_eq_self (h : EndsUnblank cs) : trimEnd cs = cs := by
  rw [trimEnd, dropTrailing]
  cases hlast : cs.reverse with
  | nil => rw [List.dropWhile_nil, ← hlast, List.reverse_reverse]
  | cons c before =>
    have hc : isBlank c = false := h c (by rw [← List.head?_reverse, hlast]; rfl)
    rw [List.dropWhile_cons_of_neg (by simp [hc]), ← hlast, List.reverse_reverse]

theorem trim_blank_cons (hc : isBlank c = true) (cs : List Char) : trim (c :: cs) = trim cs := by
  rw [trim, trimStart, List.dropWhile_cons_of_pos hc]
  rfl

theorem trim_eq_self (hc : isBlank c = false) (h : EndsUnblank (c :: rest)) :
    trim (c :: rest) = c :: rest := by
  rw [trim, trimStart_of_not_isBlank hc, trimEnd_eq_self h]

theorem EndsUnblank.append_left (before : List Char) (hne : cs ≠ []) (h : EndsUnblank cs) :
    EndsUnblank (before ++ cs) := by
  intro c hc
  rw [Option.mem_def, List.getLast?_append] at hc
  cases hlast : cs.getLast? with
  | none => exact absurd (List.getLast?_eq_none_iff.mp hlast) hne
  | some last =>
    rw [hlast, Option.some_or] at hc
    exact h c (hlast.trans hc)

end Text

namespace Template

open Text (EndsUnblank)

/-- A text that can stand on a line. -/
structure Legible (text : List Char) : Prop where
  /-- It holds no newline. -/
  single : '\n' ∉ text
  /-- It does not start with a blank. -/
  head : ∃ c, text.head? = some c ∧ Text.isBlank c = false
  /-- It does not end with one. -/
  last : EndsUnblank text

variable {text rest : List Char} {number indent : Nat} {lines : List SourceLine}

theorem Legible.ne_nil (h : Legible text) : text ≠ [] := by
  rintro rfl
  obtain ⟨c, hc, -⟩ := h.head
  cases hc

theorem Legible.trim (h : Legible text) : Text.trim text = text := by
  obtain ⟨c, hc, hblank⟩ := h.head
  obtain ⟨rest, rfl⟩ := List.head?_eq_some_iff.mp hc
  exact Text.trim_eq_self hblank h.last

theorem Legible.trim_space (h : Legible text) : Text.trim (' ' :: text) = text :=
  (Text.trim_blank_cons (by decide) text).trans h.trim

theorem isPhrase_iff : isPhrase text = true ↔ Legible text := by
  simp only [isPhrase, Bool.and_eq_true, Bool.not_eq_true', List.isEmpty_eq_false_iff,
    List.contains_eq_mem, decide_eq_false_iff_not, beq_iff_eq]
  constructor
  · rintro ⟨⟨hne, hsingle⟩, htrim⟩
    have hlast : EndsUnblank text := htrim ▸ Text.endsUnblank_trimEnd _
    refine ⟨hsingle, ?_, hlast⟩
    obtain ⟨c, rest, rfl⟩ := List.exists_cons_of_ne_nil hne
    refine ⟨c, rfl, Bool.eq_false_iff.mpr fun hc => ?_⟩
    have hlength := Text.length_trimEnd_le (Text.trimStart rest)
    have hstart := Text.length_trimStart_le rest
    rw [Text.trim_blank_cons hc] at htrim
    have := congrArg List.length htrim
    simp only [Text.trim, List.length_cons] at this
    omega
  · exact fun h => ⟨⟨h.ne_nil, h.single⟩, h.trim⟩

/-- A text that can stand on a line still can after some word. -/
theorem Legible.append {word : List Char} (hsingle : '\n' ∉ word)
    (hhead : ∃ c, word.head? = some c ∧ Text.isBlank c = false) (hrest : '\n' ∉ rest)
    (hne : rest ≠ []) (hlast : EndsUnblank rest) : Legible (word ++ rest) := by
  refine ⟨by simp [hsingle, hrest], ?_, hlast.append_left word hne⟩
  obtain ⟨c, hc, hblank⟩ := hhead
  obtain ⟨tail, rfl⟩ := List.head?_eq_some_iff.mp hc
  exact ⟨c, rfl, hblank⟩

/-- Whether a word can stand before a text, as it can be computed. -/
theorem Legible.after {word : List Char} (h : Legible rest)
    (hword : word.contains '\n' = false ∧ word.head?.any (!Text.isBlank ·) = true) :
    Legible (word ++ rest) := by
  obtain ⟨hsingle, hhead⟩ := hword
  refine .append (by simpa using hsingle) ?_ h.single h.ne_nil h.last
  cases hc : word.head? with
  | none => simp [hc] at hhead
  | some c => exact ⟨c, rfl, by simpa [hc] using hhead⟩

end Template

end PugContracts
