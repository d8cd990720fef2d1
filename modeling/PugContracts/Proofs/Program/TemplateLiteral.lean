import Mathlib.Tactic.SplitIfs
import PugContracts.Json.Token
import PugContracts.Program.Generate

/-!
# Template literals

Text of a template stands in the program as a template literal, a text between backticks in which
expressions may be embedded and characters may be written as escape sequences. Were a backtick or
the start of an embedded expression taken for what it is, the rest of the text would be read as
code. So it is escaped, and what has to be known of it is what the host language makes of the
result.

`read` gives the rules of the host language for the characters of a template literal: where it ends
or is interrupted, and which units of UTF-16 its value consists of. A line end that is not escaped
stands for a newline whatever it is, a backslash before a line end stands for nothing, and an escape
sequence that is malformed leaves the literal without a value.

The escaping was conceived as replacements one after the other, each made in what the one before
left behind (`replaced`). Done in one pass it is the same, since no replacement makes anything that
a later one looks for.

## Main results

* `replaced_eq`: the replacements together are the escaping.
* `read_escape_append`: reading goes through escaped text and finds the text.
* `text_stays_in_literal`: what is read of the text of a node.
-/

namespace PugContracts

namespace TemplateLiteral

open Json (CodeUnit hexValue? hexNumber?)
open Program

/-! ### Escape sequences -/

/-- The character that a backslash and the given character stand for, if no longer sequence starts
with them. -/
def escapedChar (c : Char) : Char :=
  if c = 'v' then '\x0b' else (Json.escaped? c).getD c

/-- The number of a character that is written with hexadecimal digits. -/
def codePoint? (digits : List Char) : Option Nat := do
  if digits.isEmpty then none
  let n ← digits.foldlM (fun n digit => (hexValue? digit).map (n * 16 + ·)) 0
  if n ≤ 0x10FFFF then some n else none

/-- Read the escape sequence after a backslash: the units that it stands for, and the text after
it. -/
def escapeSequence? : List Char → Option (List CodeUnit × List Char)
  | [] => none
  | '\r' :: '\n' :: rest => some ([], rest)
  | 'x' :: a :: b :: rest => (hexNumber? '0' '0' a b).map fun n => ([.ofNat n], rest)
  | 'u' :: '{' :: rest =>
    match Text.cutAtChar? '}' rest with
    | none => none
    | some (digits, after) => (codePoint? digits).map fun n => ([.ofNat n], after)
  | 'u' :: a :: b :: c :: d :: rest => (hexNumber? a b c d).map fun n => ([.ofNat n], rest)
  | c :: rest =>
    if isLineEnd c then some ([], rest)
    else if c = 'x' ∨ c = 'u' then none
    else if c.isDigit then
      if c = '0' ∧ rest.head?.any Char.isDigit = false then some ([.char '\x00'], rest) else none
    else some ([.char (escapedChar c)], rest)

theorem length_escapeSequence? {cs after : List Char} {units : List CodeUnit}
    (h : escapeSequence? cs = some (units, after)) : after.length < cs.length := by
  unfold escapeSequence? at h
  split at h
  · cases h
  · cases h
    simp only [List.length_cons]
    omega
  · obtain ⟨n, -, heq⟩ := Option.map_eq_some_iff.mp h
    cases heq
    simp only [List.length_cons]
    omega
  · split at h
    · cases h
    · next hcut =>
      obtain ⟨n, -, heq⟩ := Option.map_eq_some_iff.mp h
      cases heq
      have := Text.length_cutAtChar? hcut
      simp only [List.length_cons]
      omega
  · obtain ⟨n, -, heq⟩ := Option.map_eq_some_iff.mp h
    cases heq
    simp only [List.length_cons]
    omega
  · split_ifs at h <;> cases h <;> simp

/-! ### Reading -/

/-- What the characters of a template literal come to. The values are of the characters before the
place that ends the reading. -/
inductive Reading where
  /-- The text ends, and the literal does not. -/
  | unended (value : List CodeUnit)
  /-- A backtick ends the literal; `after` follows it. -/
  | ended (value : List CodeUnit) (after : List Char)
  /-- An expression starts. -/
  | substitution (value : List CodeUnit) (after : List Char)
  /-- An escape sequence is malformed. -/
  | malformed
  deriving DecidableEq, Repr

/-- The reading after some units more. -/
def Reading.prepend (units : List CodeUnit) : Reading → Reading
  | unended value => unended (units ++ value)
  | ended value after => ended (units ++ value) after
  | substitution value after => substitution (units ++ value) after
  | malformed => malformed

/-- Read the characters of a template literal, after its first backtick. -/
def read (cs : List Char) : Reading :=
  match cs with
  | [] => .unended []
  | '\x60' :: rest => .ended [] rest
  | '$' :: '{' :: rest => .substitution [] rest
  | '\\' :: rest =>
    match _escape : escapeSequence? rest with
    | none => .malformed
    | some (units, after) => (read after).prepend units
  | '\r' :: '\n' :: rest => (read rest).prepend [.char '\n']
  | c :: rest => (read rest).prepend [.char (if c = '\r' then '\n' else c)]
termination_by cs.length
decreasing_by
  all_goals simp only [List.length_cons]
  · have := length_escapeSequence? _escape
    omega
  all_goals omega

theorem Reading.prepend_nil (reading : Reading) : reading.prepend [] = reading := by
  cases reading <;> rfl

theorem Reading.prepend_append (first second : List CodeUnit) (reading : Reading) :
    reading.prepend (first ++ second) = (reading.prepend second).prepend first := by
  cases reading <;> simp [prepend]

/-- A character that has no meaning of its own stands for itself. -/
theorem read_cons {c : Char} {rest : List Char} (hbacktick : c ≠ '\x60') (hslash : c ≠ '\\')
    (hreturn : c ≠ '\r') (hdollar : c = '$' → rest.head? ≠ some '{') :
    read (c :: rest) = (read rest).prepend [.char c] := by
  have hopen : ∀ tail, c = '$' → rest = '{' :: tail → False := by
    rintro tail heq rfl
    exact hdollar heq rfl
  rw [read.eq_6 c rest hbacktick hopen hslash (fun _ heq => absurd heq hreturn), if_neg hreturn]

/-- An escape sequence stands for its units. -/
theorem read_slash {rest after : List Char} {units : List CodeUnit}
    (h : escapeSequence? rest = some (units, after)) :
    read ('\\' :: rest) = (read after).prepend units := by
  rw [read]
  split
  · next hnone =>
    rw [h] at hnone
    cases hnone
  · next hsome =>
    rw [h] at hsome
    cases hsome
    rfl

/-! ### Escaped text -/

/-- A character behind a backslash stands for itself if no escape sequence starts with it. -/
theorem read_escapedSign {c : Char} (hc : c = '\\' ∨ c = '\x60' ∨ c = '$') (rest : List Char) :
    read ('\\' :: c :: rest) = (read rest).prepend [.char c] := by
  refine read_slash ?_
  rcases hc with rfl | rfl | rfl <;> rfl

/-- Escaped text starts with a brace only if the text does. -/
theorem head?_escape_append {text after : List Char} (htext : text.head? ≠ some '{')
    (hafter : after.head? ≠ some '{') :
    (escapeTemplateLiteral text ++ after).head? ≠ some '{' := by
  fun_cases escapeTemplateLiteral text with
  | case1 => exact hafter
  | case2 rest => simp
  | case3 c rest hsubstitution written =>
    have hc : c ≠ '{' := by simpa using htext
    simp only [written]
    split_ifs <;> simp [hc]

/-- **Reading goes through escaped text** and finds the text, unless a dollar sign at its end is
taken together with a brace that follows. -/
theorem read_escape_append (text : List Char) {after : List Char}
    (hafter : after.head? ≠ some '{') :
    read (escapeTemplateLiteral text ++ after) = (read after).prepend (text.map .char) := by
  induction text using escapeTemplateLiteral.induct with
  | case1 => exact (Reading.prepend_nil _).symm
  | case2 rest ih =>
    show read ('\\' :: '$' :: '{' :: (escapeTemplateLiteral rest ++ after)) =
      (read after).prepend ([.char '$'] ++ ([.char '{'] ++ rest.map .char))
    rw [read_escapedSign (Or.inr (Or.inr rfl)),
      read_cons (by decide) (by decide) (by decide) (absurd · (by decide)), ih,
      Reading.prepend_append, Reading.prepend_append]
  | case3 c rest hsubstitution ih =>
    show _ = (read after).prepend ([.char c] ++ rest.map .char)
    rw [escapeTemplateLiteral.eq_3 _ _ hsubstitution, List.append_assoc, Reading.prepend_append,
      ← ih]
    split_ifs with hslash hbacktick hreturn hline hparagraph
    · rw [hslash]
      exact read_escapedSign (Or.inl rfl) _
    · rw [hbacktick]
      exact read_escapedSign (Or.inr (Or.inl rfl)) _
    · rw [hreturn]
      exact read_slash rfl
    · rw [hline]
      exact read_slash rfl
    · rw [hparagraph]
      exact read_slash rfl
    · refine read_cons hbacktick hslash hreturn fun hdollar => head?_escape_append ?_ hafter
      intro hopen
      obtain ⟨tail, htail⟩ := List.head?_eq_some_iff.mp hopen
      exact hsubstitution tail hdollar htail

/-! ### Replacements -/

/-- The start of every embedded expression behind a backslash. -/
def escapeSubstitutions : List Char → List Char
  | [] => []
  | '$' :: '{' :: rest => '\\' :: '$' :: '{' :: escapeSubstitutions rest
  | c :: rest => c :: escapeSubstitutions rest

/-- The text after one replacement behind the other: each character or sequence with a meaning in a
template literal is replaced everywhere in what the replacements before made of the text. -/
def replaced (text : List Char) : List Char :=
  let slashes := Text.replaceChar '\\' "\\\\".toList text
  let backticks := Text.replaceChar '\x60' "\\\x60".toList slashes
  let substitutions := escapeSubstitutions backticks
  let returns := Text.replaceChar '\r' "\\r".toList substitutions
  let lines := Text.replaceChar '\u2028' "\\u2028".toList returns
  Text.replaceChar '\u2029' "\\u2029".toList lines

theorem replaceChar_cons (mark : Char) (by_ : List Char) (c : Char) (rest : List Char) :
    Text.replaceChar mark by_ (c :: rest) =
      (if c = mark then by_ else [c]) ++ Text.replaceChar mark by_ rest :=
  List.flatMap_cons

theorem escapeSubstitutions_cons {c : Char} {rest : List Char}
    (h : c = '$' → rest.head? ≠ some '{') :
    escapeSubstitutions (c :: rest) = c :: escapeSubstitutions rest := by
  refine escapeSubstitutions.eq_3 c rest ?_
  rintro tail heq rfl
  exact h heq rfl

/-- A replacement that starts with a backslash puts no brace at the start of a text. -/
theorem head?_replaceChar {mark : Char} {more text : List Char} (h : text.head? ≠ some '{') :
    (Text.replaceChar mark ('\\' :: more) text).head? ≠ some '{' := by
  cases text with
  | nil => exact h
  | cons c rest =>
    rw [replaceChar_cons]
    split_ifs
    · simp
    · exact h

/-- **The replacements together are the escaping**: none of them makes anything that a later one
looks for. -/
theorem replaced_eq (text : List Char) : replaced text = escapeTemplateLiteral text := by
  induction text using escapeTemplateLiteral.induct with
  | case1 => rfl
  | case2 rest ih =>
    rw [escapeTemplateLiteral, ← ih]
    simp [replaced, replaceChar_cons, escapeSubstitutions]
  | case3 c rest hsubstitution ih =>
    rw [escapeTemplateLiteral.eq_3 _ _ hsubstitution, ← ih]
    split_ifs with hslash hbacktick hreturn hline hparagraph
    · rw [hslash]
      simp [replaced, replaceChar_cons, escapeSubstitutions]
    · rw [hbacktick]
      simp [replaced, replaceChar_cons, escapeSubstitutions]
    · rw [hreturn]
      simp [replaced, replaceChar_cons, escapeSubstitutions]
    · rw [hline]
      simp [replaced, replaceChar_cons, escapeSubstitutions]
    · rw [hparagraph]
      simp [replaced, replaceChar_cons, escapeSubstitutions]
    · -- What stands behind a dollar sign when substitutions are looked for is no brace.
      have hbrace : c = '$' → rest.head? ≠ some '{' := by
        intro hdollar hopen
        obtain ⟨tail, htail⟩ := List.head?_eq_some_iff.mp hopen
        exact hsubstitution tail hdollar htail
      have hkept : escapeSubstitutions (c :: Text.replaceChar '\x60' "\\\x60".toList
          (Text.replaceChar '\\' "\\\\".toList rest)) =
            c :: escapeSubstitutions (Text.replaceChar '\x60' "\\\x60".toList
              (Text.replaceChar '\\' "\\\\".toList rest)) :=
        escapeSubstitutions_cons fun hdollar =>
          head?_replaceChar (head?_replaceChar (hbrace hdollar))
      simp only [replaced, replaceChar_cons, if_neg hslash, if_neg hbacktick, List.singleton_append,
        hkept, if_neg hreturn, if_neg hline, if_neg hparagraph]

/-! ### Main result -/

/-- How the text of a node is written. -/
structure StaysInside (text : List Char) (written : List Char) : Prop where
  /-- One replacement after the other leads to what is written. -/
  replaced : written = TemplateLiteral.replaced text
  /-- Reading it neither ends the literal nor starts an expression nor meets a malformed escape
  sequence; all of it is read, and its value is the text. -/
  unended : read written = .unended (text.map .char)
  /-- A backtick after it ends the literal, with the text for its value. -/
  ended : ∀ after, read (written ++ '\x60' :: after) = .ended (text.map .char) after

/-- **Text never leaves its template literal.** A text node, wherever it stands, is written as one
statement with a template literal, and reading the literal up to the backtick behind it finds the
text and nothing else. -/
theorem text_stays_in_literal (text : String) (line : Nat) (file : Option Path)
    (children alternate : List Template.Node) (fallback : Path) :
    ∃ written,
      nodeSteps fallback ⟨.text text, line, file, children, alternate⟩ =
        [.push ("void \x60".toList ++ written ++ "\x60;".toList) ⟨file.getD fallback, line⟩] ∧
      StaysInside text.toList written := by
  refine ⟨escapeTemplateLiteral text.toList, by rw [nodeSteps]; rfl, (replaced_eq _).symm, ?_, ?_⟩
  · have hend : ([] : List Char).head? ≠ some '{' := nofun
    have hread := read_escape_append text.toList hend
    rw [List.append_nil] at hread
    rw [hread, read.eq_1, Reading.prepend, List.append_nil]
  · intro after
    rw [read_escape_append _ (by simp), read.eq_2, Reading.prepend, List.append_nil]

/-- A text with everything that has a meaning in a template literal. -/
example : escapeTemplateLiteral "\\\x60$\x7b\r$".toList = "\\\\\\\x60\\$\x7b\\r$".toList := by
  decide

end TemplateLiteral

end PugContracts
