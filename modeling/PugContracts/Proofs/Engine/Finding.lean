import Mathlib.Data.List.Infix
import Mathlib.Tactic.SplitIfs
import PugContracts.Engine.Output

/-!
# Diagnostic lines

A diagnostic line is a file, a mark such as `(4,9): error TS2339: `, and a message. Reading finds
the first mark that is not at the start of the line, and takes what stands before it for the file.
So a line without such a mark is no diagnostic (`cutFile?_eq_none`), and the file of a diagnostic is
read back if no mark stands within it (`cutFile?_append`). Marks cannot overlap: the only opening
bracket of a mark is its first character, so a mark that starts in the file would have to end there.

## Main results

* `Finding.read?_eq_some_iff` — what is read from the opening bracket on
* `cutFile?_append` — the file and the finding of a printed line
-/

namespace PugContracts

namespace Engine

variable {cs rest digits file line : List Char} {severity : Severity} {finding : Finding}

/-! ### The parts of a mark -/

theorem isDecimalDigit_of_isDigit {c : Char} (h : c.isDigit = true) :
    Text.isDecimalDigit c = true := by
  simp only [Char.isDigit, Bool.and_eq_true, decide_eq_true_eq, ge_iff_le,
    UInt32.le_iff_toNat_le] at h
  have hrange : 0x30 ≤ c.toNat ∧ c.toNat ≤ 0x30 + 9 := h
  rw [Text.isDecimalDigit, List.any_eq_true]
  refine ⟨0x30, List.mem_cons_self, ?_⟩
  simp only [Bool.and_eq_true, decide_eq_true_eq, hrange, and_self]

/-- Digits are read up to the first character that is none. -/
theorem digits?_eq_some_iff : digits? cs = some (digits, rest) ↔
    digits ≠ [] ∧ (∀ c ∈ digits, Text.isDecimalDigit c = true) ∧ cs = digits ++ rest ∧
      ∀ c ∈ rest.head?, Text.isDecimalDigit c = false := by
  rw [digits?]
  constructor
  · intro h
    split_ifs at h with hempty
    obtain ⟨rfl, rfl⟩ := Prod.mk.inj (Option.some.inj h)
    have hstop := List.head?_dropWhile_not Text.isDecimalDigit cs
    refine ⟨by simpa using hempty, List.all_eq_true.mp List.all_takeWhile,
      List.takeWhile_append_dropWhile.symm, fun c hc => ?_⟩
    rwa [Option.mem_def.mp hc] at hstop
  · rintro ⟨hne, hdigits, rfl, hrest⟩
    have htake : (digits ++ rest).takeWhile Text.isDecimalDigit = digits := by
      rw [List.takeWhile_append_of_pos hdigits]
      cases rest with
      | nil => simp
      | cons c rest => simp [hrest c rfl]
    have hdrop : (digits ++ rest).dropWhile Text.isDecimalDigit = rest := by
      rw [List.dropWhile_append_of_pos hdigits]
      cases rest with
      | nil => rfl
      | cons c rest => simp [hrest c rfl]
    simp only [htake, hdrop]
    rw [if_neg (by simpa using hne)]

/-- The word for a severity. -/
def severityWord : Severity → String
  | .error => "error"
  | .warning => "warning"

theorem severity?_eq_some_iff :
    severity? cs = some (severity, rest) ↔ cs = (severityWord severity).toList ++ rest := by
  rw [severity?]
  cases herror : Text.afterPrefix? "error".toList cs with
  | some after =>
    obtain rfl := Text.afterPrefix?_eq_some_iff.mp herror
    cases severity with
    | error => simp [severityWord]
    | warning => simp [severityWord]
  | none =>
    have hnone : cs ≠ "error".toList ++ rest := fun h => by
      rw [Text.afterPrefix?_eq_some_iff.mpr h] at herror
      cases herror
    cases severity with
    | error => simpa [severityWord] using hnone
    | warning => simp [severityWord, Text.afterPrefix?_eq_some_iff]

/-! ### Marks -/

/-- Digits are digits of any script, one or more. -/
def IsNumber (digits : List Char) : Prop :=
  digits ≠ [] ∧ ∀ c ∈ digits, Text.isDecimalDigit c = true

/-- The numbers of a finding are written in digits. -/
structure Finding.Numbered (finding : Finding) : Prop where
  /-- So is the line. -/
  line : IsNumber finding.line
  /-- So is the column. -/
  column : IsNumber finding.column
  /-- So is the number of the error. -/
  code : IsNumber finding.code

/-- What stands between the file and the message of a diagnostic line. -/
def Finding.mark (finding : Finding) : List Char :=
  '(' :: finding.line ++ ',' :: finding.column ++ "): ".toList ++
    (severityWord finding.severity).toList ++ " TS".toList ++ finding.code ++ ": ".toList

theorem Finding.mark_append (finding : Finding) (rest : List Char) :
    finding.mark ++ rest = ['('] ++ (finding.line ++ ([','] ++ (finding.column ++ ("): ".toList ++
      ((severityWord finding.severity).toList ++ (" TS".toList ++ (finding.code ++
        (": ".toList ++ rest)))))))) := by
  simp [mark]

/-- **A finding is read from a mark and a message**, and from nothing else. -/
theorem Finding.read?_eq_some_iff :
    Finding.read? cs = some finding ↔ finding.Numbered ∧ cs = finding.mark ++ finding.message := by
  have hstop : Text.isDecimalDigit ',' = false ∧ Text.isDecimalDigit ')' = false ∧
      Text.isDecimalDigit ':' = false := by decide
  simp only [Finding.read?, Option.bind_eq_bind, Option.bind_eq_some_iff, Option.pure_def,
    Option.some.injEq, Prod.exists, Text.afterPrefix?_eq_some_iff, digits?_eq_some_iff,
    severity?_eq_some_iff]
  rw [mark_append]
  constructor
  · rintro ⟨_, rfl, line, _, ⟨hline, hlines, rfl, -⟩, _, rfl, column, _,
      ⟨hcolumn, hcolumns, rfl, -⟩, _, rfl, severity, _, rfl, _, rfl, code, _,
      ⟨hcode, hcodes, rfl, -⟩, message, rfl, rfl⟩
    exact ⟨⟨⟨hline, hlines⟩, ⟨hcolumn, hcolumns⟩, ⟨hcode, hcodes⟩⟩, rfl⟩
  · rintro ⟨⟨hline, hcolumn, hcode⟩, rfl⟩
    refine ⟨_, rfl, finding.line, _, ⟨hline.1, hline.2, rfl, ?_⟩, _, rfl, finding.column, _,
      ⟨hcolumn.1, hcolumn.2, rfl, ?_⟩, _, rfl, finding.severity, _, rfl, _, rfl, finding.code, _,
      ⟨hcode.1, hcode.2, rfl, ?_⟩, finding.message, rfl, rfl⟩
    · simpa using hstop.1
    · simpa using hstop.2.1
    · simpa using hstop.2.2

/-- After its bracket, a mark consists of digits, signs and words. -/
theorem Finding.Numbered.mem_tail (h : finding.Numbered) :
    ∀ c ∈ finding.mark.tail, Text.isDecimalDigit c = true ∨ c ∈ ",): errorwarningTS".toList := by
  have hword : (severityWord finding.severity).toList ⊆ ",): errorwarningTS".toList := by
    cases finding.severity <;> decide
  intro c hc
  simp only [mark, List.cons_append, List.tail_cons, List.mem_append, List.mem_cons] at hc
  rcases hc with (((((hc | rfl | hc) | hc) | hc) | hc) | hc) | hc
  · exact Or.inl (h.line.2 c hc)
  · exact Or.inr (by decide)
  · exact Or.inl (h.column.2 c hc)
  · exact Or.inr ((by decide : "): ".toList ⊆ ",): errorwarningTS".toList) hc)
  · exact Or.inr (hword hc)
  · exact Or.inr ((by decide : " TS".toList ⊆ ",): errorwarningTS".toList) hc)
  · exact Or.inl (h.code.2 c hc)
  · exact Or.inr ((by decide : ": ".toList ⊆ ",): errorwarningTS".toList) hc)

theorem Finding.mark_eq_cons (finding : Finding) : finding.mark = '(' :: finding.mark.tail := by
  simp [mark]

theorem Finding.Numbered.bracket_notMem_tail (h : finding.Numbered) : '(' ∉ finding.mark.tail :=
  fun hmem => absurd (h.mem_tail _ hmem) (by decide)

theorem Finding.Numbered.slash_notMem_mark (h : finding.Numbered) : '/' ∉ finding.mark := by
  rw [mark_eq_cons, List.mem_cons, not_or]
  exact ⟨by decide, fun hmem => absurd (h.mem_tail _ hmem) (by decide)⟩

theorem Finding.Numbered.newline_notMem_mark (h : finding.Numbered) : '\n' ∉ finding.mark := by
  rw [mark_eq_cons, List.mem_cons, not_or]
  exact ⟨by decide, fun hmem => absurd (h.mem_tail _ hmem) (by decide)⟩

theorem Finding.getLast?_mark (finding : Finding) : finding.mark.getLast? = some ' ' := by
  rw [mark, List.getLast?_append]
  rfl

/-! ### Lines -/

/-- What is read as a diagnostic: a mark that is not at the start of the line. -/
def IsDiagnosticLine (line : List Char) : Prop :=
  ∃ (file : List Char) (finding : Finding),
    file ≠ [] ∧ finding.Numbered ∧ line = file ++ (finding.mark ++ finding.message)

theorem IsDiagnosticLine.append (h : IsDiagnosticLine line) (rest : List Char) :
    IsDiagnosticLine (line ++ rest) := by
  obtain ⟨file, finding, hne, hnumbered, rfl⟩ := h
  refine ⟨file, { finding with message := finding.message ++ rest }, hne, ?_, ?_⟩
  · exact ⟨hnumbered.line, hnumbered.column, hnumbered.code⟩
  · rw [List.append_assoc, List.append_assoc]
    rfl

/-- There is no mark within the text. -/
def Unmarked (text : List Char) : Prop :=
  ∀ finding : Finding, finding.Numbered → ¬ finding.mark <:+: text

theorem Unmarked.of_part {part text : List Char} (h : Unmarked text) (hpart : part <:+: text) :
    Unmarked part :=
  fun finding hnumbered hmark => h finding hnumbered (hmark.trans hpart)

/-- A colon is part of every mark. -/
theorem Unmarked.of_notMem {text : List Char} (h : ':' ∉ text) : Unmarked text :=
  fun finding _ hmark => h (hmark.subset (by simp [Finding.mark]))

theorem Unmarked.not_isDiagnosticLine (h : Unmarked line) : ¬ IsDiagnosticLine line := by
  rintro ⟨file, finding, -, hnumbered, rfl⟩
  exact h finding hnumbered ⟨file, finding.message, List.append_assoc _ _ _⟩

/-- Any other line is none. -/
theorem cutFile?_eq_none (h : ¬ IsDiagnosticLine line) : cutFile? line = none := by
  induction line with
  | nil => rfl
  | cons c rest ih =>
    rw [cutFile?]
    cases hread : Finding.read? rest with
    | some finding =>
      obtain ⟨hnumbered, rfl⟩ := Finding.read?_eq_some_iff.mp hread
      exact absurd ⟨[c], finding, List.cons_ne_nil _ _, hnumbered, rfl⟩ h
    | none =>
      refine Option.map_eq_none_iff.mpr (ih ?_)
      rintro ⟨file, finding, -, hnumbered, rfl⟩
      exact h ⟨c :: file, finding, List.cons_ne_nil _ _, hnumbered, rfl⟩

/-- A mark that starts in a file ends there. -/
theorem read?_append_eq_none (hne : file ≠ []) (hfile : Unmarked file) :
    Finding.read? (file ++ (finding.mark ++ finding.message)) = none := by
  refine Option.eq_none_iff_forall_ne_some.mpr fun other hread => ?_
  obtain ⟨hother, heq⟩ := Finding.read?_eq_some_iff.mp hread
  rcases List.append_eq_append_iff.mp heq with ⟨beyond, hmark, hbeyond⟩ | ⟨after, hcut, -⟩
  · cases beyond with
    | nil => exact hfile other hother ⟨[], [], by simp [hmark]⟩
    | cons c beyond =>
      -- The mark reaches over the bracket of the mark that is meant.
      obtain ⟨first, others, rfl⟩ := List.exists_cons_of_ne_nil hne
      rw [finding.mark_eq_cons, List.cons_append, List.cons_append] at hbeyond
      refine hother.bracket_notMem_tail ?_
      rw [hmark, (List.cons.inj hbeyond).1]
      simp
  · exact hfile other hother ⟨[], after, by simp [hcut]⟩

/-- **The file and the finding of a line** are found again, if there is no mark in the file. -/
theorem cutFile?_append (hne : file ≠ []) (hfile : Unmarked file) (hnumbered : finding.Numbered) :
    cutFile? (file ++ (finding.mark ++ finding.message)) = some (file, finding) := by
  induction file with
  | nil => exact absurd rfl hne
  | cons c rest ih =>
    rw [List.cons_append, cutFile?]
    by_cases hrest : rest = []
    · rw [hrest, List.nil_append, Finding.read?_eq_some_iff.mpr ⟨hnumbered, rfl⟩]
    · have hunmarked : Unmarked rest := hfile.of_part (List.suffix_cons c rest).isInfix
      rw [read?_append_eq_none hrest hunmarked, ih hrest hunmarked]
      rfl

end Engine

end PugContracts
