import PugContracts.Text.Blank
import PugContracts.Text.Decimal

/-!
# Tokens of JSON

The first step of reading a JSON text cuts it into tokens and drops the blanks between them. Each
token takes at least one character (`length_readToken?`), which is why `tokens?` ends.
-/

namespace PugContracts.Json

/-- A token. -/
inductive Token where
  /-- An opening bracket. -/
  | openList
  /-- A closing bracket. -/
  | closeList
  /-- An opening brace. -/
  | openObject
  /-- A closing brace. -/
  | closeObject
  /-- A comma. -/
  | comma
  /-- A colon. -/
  | colon
  /-- The word `null`. -/
  | null
  /-- The word `true` or `false`. -/
  | truth (value : Bool)
  /-- A number written with digits alone. -/
  | count (value : Nat)
  /-- Any other number. -/
  | otherNumber
  /-- A string; absent if it spells half of a surrogate pair. -/
  | text (value : Option String)
  deriving DecidableEq, Repr

/-- The characters that may stand between tokens. -/
def isSpace (c : Char) : Bool :=
  c == ' ' || c == '\n' || c == '\t' || c == '\r'

/-! ### Strings -/

/-- The value of a hexadecimal digit. -/
def hexValue? (c : Char) : Option Nat :=
  let n := c.toNat
  if c.isDigit then some (n - '0'.toNat)
  else if 'a'.toNat ≤ n && n ≤ 'f'.toNat then some (n - 'a'.toNat + 10)
  else if 'A'.toNat ≤ n && n ≤ 'F'.toNat then some (n - 'A'.toNat + 10)
  else none

/-- The number that four hexadecimal digits write. -/
def hexNumber? (a b c d : Char) : Option Nat := do
  return (((← hexValue? a) * 16 + (← hexValue? b)) * 16 + (← hexValue? c)) * 16 + (← hexValue? d)

/-- The character that stands behind a backslash for another one. -/
def escaped? (c : Char) : Option Char :=
  match c with
  | '"' => some '"'
  | '\\' => some '\\'
  | '/' => some '/'
  | 'b' => some '\x08'
  | 'f' => some '\x0c'
  | 'n' => some '\n'
  | 'r' => some '\r'
  | 't' => some '\t'
  | _ => none

/-- A unit of UTF-16, as an escape writes it. -/
inductive CodeUnit where
  /-- A character. -/
  | char (c : Char)
  /-- The first half of a surrogate pair. -/
  | high (unit : Nat)
  /-- The second half of a surrogate pair. -/
  | low (unit : Nat)
  deriving DecidableEq, Repr

/-- Read a unit of UTF-16. -/
def CodeUnit.ofNat (n : Nat) : CodeUnit :=
  if 0xD800 ≤ n && n < 0xDC00 then high n
  else if 0xDC00 ≤ n && n < 0xE000 then low n
  else char (Char.ofNat n)

/-- The text of units of which both halves of a pair stand together; absent if a half stands
alone. -/
def textOfUnits? : List CodeUnit → Option (List Char)
  | [] => some []
  | .char c :: rest => (textOfUnits? rest).map (c :: ·)
  | .high a :: .low b :: rest =>
    let c := Char.ofNat (0x10000 + (a - 0xD800) * 0x400 + (b - 0xDC00))
    (textOfUnits? rest).map (c :: ·)
  | _ => none

/-- The units of a string up to its closing quotation mark, and the text after that. -/
def readUnits? : List Char → Option (List CodeUnit × List Char)
  | [] => none
  | '"' :: rest => some ([], rest)
  | '\\' :: 'u' :: a :: b :: c :: d :: rest =>
    match hexNumber? a b c d with
    | none => none
    | some n => (readUnits? rest).map fun (units, after) => (.ofNat n :: units, after)
  | '\\' :: c :: rest =>
    match escaped? c with
    | none => none
    | some c => (readUnits? rest).map fun (units, after) => (.char c :: units, after)
  | c :: rest =>
    if c.toNat < 0x20 || c == '\\' then none
    else (readUnits? rest).map fun (units, after) => (.char c :: units, after)

/-- A string after its opening quotation mark, and the text after it. -/
def readString? (cs : List Char) : Option (Token × List Char) :=
  (readUnits? cs).map fun (units, after) => (.text ((textOfUnits? units).map String.ofList), after)

/-! ### Numbers and words -/

/-- The digits of a fraction, if there is a fraction, and the text after them. -/
def skipFraction? (cs : List Char) : Option (Bool × List Char) :=
  match cs with
  | '.' :: c :: rest => if c.isDigit then some (true, rest.dropWhile Char.isDigit) else none
  | ['.'] => none
  | _ => some (false, cs)

/-- A text without a leading sign. -/
def skipSign (cs : List Char) : List Char :=
  match cs with
  | '+' :: rest | '-' :: rest => rest
  | _ => cs

/-- The digits of an exponent, if there is an exponent, and the text after them. -/
def skipExponent? (cs : List Char) : Option (Bool × List Char) :=
  match cs with
  | c :: rest =>
    if c = 'e' ∨ c = 'E' then
      match skipSign rest with
      | d :: after => if d.isDigit then some (true, after.dropWhile Char.isDigit) else none
      | [] => none
    else some (false, cs)
  | [] => some (false, [])

/-- A number without its sign that starts with a digit, and the text after it. No digit follows a
leading zero. -/
def readNumber? (digit : Char) (cs : List Char) : Option (Token × List Char) := do
  let digits := if digit = '0' then [] else cs.takeWhile Char.isDigit
  let rest := cs.drop digits.length
  if rest.head?.any Char.isDigit then none
  let (hasFraction, rest) ← skipFraction? rest
  let (hasExponent, rest) ← skipExponent? rest
  if hasFraction || hasExponent then return (.otherNumber, rest)
  else return (.count (Text.digitsValue (digit :: digits)), rest)

/-- The words of JSON. -/
def words : List (String × Token) :=
  [("null", .null), ("true", .truth true), ("false", .truth false)]

/-- A word, and the text after it. -/
def readWord? (cs : List Char) : Option (Token × List Char) :=
  words.findSome? fun (word, token) =>
    (Text.afterPrefix? word.toList cs).map fun rest => (token, rest)

/-! ### Tokens -/

/-- The token at the start of a text, and the text after it. -/
def readToken? : List Char → Option (Token × List Char)
  | [] => none
  | '[' :: rest => some (.openList, rest)
  | ']' :: rest => some (.closeList, rest)
  | '{' :: rest => some (.openObject, rest)
  | '}' :: rest => some (.closeObject, rest)
  | ',' :: rest => some (.comma, rest)
  | ':' :: rest => some (.colon, rest)
  | '"' :: rest => readString? rest
  | '-' :: c :: rest =>
    if c.isDigit then (readNumber? c rest).map fun (_, after) => (.otherNumber, after) else none
  | c :: rest => if c.isDigit then readNumber? c rest else readWord? (c :: rest)

theorem length_readUnits? {cs rest : List Char} {units : List CodeUnit}
    (h : readUnits? cs = some (units, rest)) : rest.length < cs.length := by
  fun_induction readUnits? cs generalizing units <;>
    simp_all only [reduceCtorEq, Option.some.injEq, Prod.mk.injEq, Option.map_eq_some_iff,
      Prod.exists, List.length_cons]
  · obtain ⟨_, rfl⟩ := h
    omega
  all_goals
    obtain ⟨units', rest', read, _, rfl⟩ := h
    rename_i ih
    have := ih read
    omega

theorem length_readString? {cs rest : List Char} {token : Token}
    (h : readString? cs = some (token, rest)) : rest.length < cs.length := by
  simp only [readString?, Option.map_eq_some_iff, Prod.mk.injEq, Prod.exists] at h
  obtain ⟨units, rest', read, _, rfl⟩ := h
  exact length_readUnits? read

theorem length_skipFraction? {cs rest : List Char} {found : Bool}
    (h : skipFraction? cs = some (found, rest)) : rest.length ≤ cs.length := by
  unfold skipFraction? at h
  split at h
  · split at h
    · simp only [Option.some.injEq, Prod.mk.injEq] at h
      rw [← h.2]
      have := Text.length_dropWhile_le Char.isDigit ‹List Char›
      simp only [List.length_cons]
      omega
    · simp at h
  · simp at h
  · simp only [Option.some.injEq, Prod.mk.injEq] at h
    exact Nat.le_of_eq (congrArg _ h.2.symm)

theorem length_skipSign_le (cs : List Char) : (skipSign cs).length ≤ cs.length := by
  unfold skipSign
  split <;> simp

theorem length_skipExponent? {cs rest : List Char} {found : Bool}
    (h : skipExponent? cs = some (found, rest)) : rest.length ≤ cs.length := by
  unfold skipExponent? at h
  split at h
  · next c after =>
    split at h
    · split at h
      · next d digits signed =>
        split at h
        · simp only [Option.some.injEq, Prod.mk.injEq] at h
          rw [← h.2]
          have shorter := Text.length_dropWhile_le Char.isDigit digits
          have signless := length_skipSign_le after
          rw [signed] at signless
          simp only [List.length_cons] at signless ⊢
          omega
        · simp at h
      · simp at h
    · simp only [Option.some.injEq, Prod.mk.injEq] at h
      exact Nat.le_of_eq (congrArg _ h.2.symm)
  · simp only [Option.some.injEq, Prod.mk.injEq] at h
    exact Nat.le_of_eq (congrArg _ h.2.symm)

theorem length_readNumber? {digit : Char} {cs rest : List Char} {token : Token}
    (h : readNumber? digit cs = some (token, rest)) : rest.length ≤ cs.length := by
  unfold readNumber? at h
  dsimp only at h
  generalize (if digit = '0' then [] else cs.takeWhile Char.isDigit) = digits at h
  split at h
  · simp at h
  · simp only [Option.pure_def, Option.bind_eq_bind] at h
    rcases fraction : skipFraction? (cs.drop digits.length) with _ | ⟨_, afterFraction⟩
    · simp [fraction] at h
    · rcases exponent : skipExponent? afterFraction with _ | ⟨_, afterExponent⟩
      · simp [fraction, exponent] at h
      · have first := length_skipFraction? fraction
        have second := length_skipExponent? exponent
        have third : (cs.drop digits.length).length ≤ cs.length := by simp
        have same : rest = afterExponent := by
          simp only [fraction, exponent, Option.bind_some] at h
          split at h <;> simp at h <;> exact h.2.symm
        subst same
        omega

theorem length_readWord? {cs rest : List Char} {token : Token}
    (h : readWord? cs = some (token, rest)) : rest.length < cs.length := by
  obtain ⟨⟨word, value⟩, known, found⟩ := List.exists_of_findSome?_eq_some h
  simp only [Option.map_eq_some_iff, Prod.mk.injEq] at found
  obtain ⟨rest', read, _, rfl⟩ := found
  rw [Text.afterPrefix?_eq_some_iff.1 read]
  simp only [words, List.mem_cons, Prod.mk.injEq, List.not_mem_nil, or_false] at known
  rcases known with ⟨rfl, _⟩ | ⟨rfl, _⟩ | ⟨rfl, _⟩ <;> simp <;> omega

/-- A token takes at least one character. -/
theorem length_readToken? {cs rest : List Char} {token : Token}
    (h : readToken? cs = some (token, rest)) : rest.length < cs.length := by
  unfold readToken? at h
  split at h
  case h_1 => simp at h
  case h_8 =>
    have := length_readString? h
    simp only [List.length_cons]
    omega
  case h_9 =>
    split at h
    · simp only [Option.map_eq_some_iff, Prod.mk.injEq, Prod.exists] at h
      obtain ⟨token', rest', read, _, rfl⟩ := h
      have := length_readNumber? read
      simp only [List.length_cons]
      omega
    · simp at h
  case h_10 =>
    split at h
    · have := length_readNumber? h
      simp only [List.length_cons]
      omega
    · exact length_readWord? h
  all_goals
    simp only [Option.some.injEq, Prod.mk.injEq] at h
    rw [← h.2]
    simp

/-- The tokens of a text; absent if a part of it is none. -/
def tokens? (cs : List Char) : Option (List Token) :=
  match _blank : cs.dropWhile isSpace with
  | [] => some []
  | c :: rest =>
    match _read : readToken? (c :: rest) with
    | none => none
    | some (token, after) => (tokens? after).map (token :: ·)
termination_by cs.length
decreasing_by
  have shorter := length_readToken? _read
  have skipped := Text.length_dropWhile_le isSpace cs
  rw [_blank] at skipped
  omega

end PugContracts.Json
