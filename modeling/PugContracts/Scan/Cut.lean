import PugContracts.Text.Blank
import PugContracts.Scan.Basic

/-!
# Cutting expression text

A text is cut at the bracket that closes its first one (`group?`), at each separator outside all
brackets (`pieces`), at the first such place that satisfies a condition (`breakAt?`), or at a line
comment (`withoutLineComment`). No cut falls into a string literal.
-/

namespace PugContracts.Scan

/-! ### Groups -/

/-- Read on from the state `s`, in which a group is open, to the bracket that closes it. -/
def closeGroup? (s : State) : List Char → Option (List Char × List Char)
  | [] => none
  | c :: rest =>
    let (depth?, after) := step false s c rest.head?
    if depth? = some 0 ∧ isCloser c = true then some ([], rest)
    else (closeGroup? after rest).map fun (inner, tail) => (c :: inner, tail)

/-- For a text that starts with an opening bracket: what stands between it and the bracket that
closes it, and what follows that. -/
def group? : List Char → Option (List Char × List Char)
  | [] => none
  | c :: rest => if isOpener c then closeGroup? ⟨.code, 1⟩ rest else none

theorem length_closeGroup? {s : State} {cs inner tail : List Char}
    (h : closeGroup? s cs = some (inner, tail)) : inner.length + tail.length + 1 = cs.length := by
  induction cs generalizing s inner with
  | nil => simp [closeGroup?] at h
  | cons c rest ih =>
    simp only [closeGroup?] at h
    split at h
    · simp only [Option.some.injEq, Prod.mk.injEq] at h
      obtain ⟨rfl, rfl⟩ := h
      simp
    · simp only [Option.map_eq_some_iff, Prod.mk.injEq, Prod.exists] at h
      obtain ⟨inner', tail', found, rfl, rfl⟩ := h
      have := ih found
      simp only [List.length_cons]
      omega

/-- A group takes at least its two brackets. -/
theorem length_group? {cs inner tail : List Char} (h : group? cs = some (inner, tail)) :
    inner.length + tail.length + 2 = cs.length := by
  cases cs with
  | nil => simp [group?] at h
  | cons c rest =>
    simp only [group?] at h
    split at h
    · have := length_closeGroup? h
      simp only [List.length_cons]
      omega
    · simp at h

/-- The byte offset of the bracket that closes the one at the byte offset `start`. -/
def matching? (cs : List Char) (start : Nat) : Option Nat :=
  ((Text.dropBytes? start cs).bind group?).map fun (inner, _) => start + 1 + Text.byteLength inner

/-- The text after a leading group in parentheses; the text itself if there is none. -/
def afterArguments (cs : List Char) : List Char :=
  match cs with
  | '(' :: _ =>
    match group? cs with
    | some (_, tail) => tail
    | none => cs
  | _ => cs

/-! ### Separators -/

/-- The pieces of `cs` between the occurrences of `sep` that are code at depth zero. -/
def piecesFrom (comments : Bool) (sep : Char) (s : State) : List Char → List (List Char)
  | [] => [[]]
  | c :: rest =>
    let (depth?, after) := step comments s c rest.head?
    if depth? = some 0 ∧ c = sep then [] :: piecesFrom comments sep after rest
    else
      match piecesFrom comments sep after rest with
      | [] => [[c]]
      | piece :: pieces => (c :: piece) :: pieces

/-- The pieces of `cs` between the occurrences of `sep` outside all brackets and strings. -/
def pieces (comments : Bool) (sep : Char) (cs : List Char) : List (List Char) :=
  piecesFrom comments sep .start cs

/-! ### Conditions -/

/-- Cut before the first code character at depth zero at which the remaining text satisfies `p`. -/
def breakFrom? (p : List Char → Bool) (s : State) : List Char → Option (List Char × List Char)
  | [] => none
  | c :: rest =>
    let (depth?, after) := step false s c rest.head?
    if depth? = some 0 ∧ p (c :: rest) = true then some ([], c :: rest)
    else (breakFrom? p after rest).map fun (before, tail) => (c :: before, tail)

/-- Cut `cs` before the first place outside all brackets and strings at which the remaining text
satisfies `p`. -/
def breakAt? (p : List Char → Bool) (cs : List Char) : Option (List Char × List Char) :=
  breakFrom? p .start cs

theorem append_of_breakFrom? {p : List Char → Bool} {s : State} {cs before tail : List Char}
    (h : breakFrom? p s cs = some (before, tail)) : before ++ tail = cs := by
  induction cs generalizing s before with
  | nil => simp [breakFrom?] at h
  | cons c rest ih =>
    simp only [breakFrom?] at h
    split at h
    · simp only [Option.some.injEq, Prod.mk.injEq] at h
      obtain ⟨rfl, rfl⟩ := h
      rfl
    · simp only [Option.map_eq_some_iff, Prod.mk.injEq, Prod.exists] at h
      obtain ⟨before', tail', found, rfl, rfl⟩ := h
      simp [ih found]

/-! ### Line comments -/

/-- What precedes the first two slashes in a row that are code. -/
def beforeSlashes? (s : State) : List Char → Option (List Char)
  | [] => none
  | c :: rest =>
    let (depth?, after) := step false s c rest.head?
    if depth?.isSome = true ∧ c = '/' ∧ rest.head? = some '/' then some []
    else (beforeSlashes? after rest).map (c :: ·)

/-- `cs` without a trailing line comment and the blanks before it. -/
def withoutLineComment (cs : List Char) : List Char :=
  match beforeSlashes? .start cs with
  | some before => Text.trimEnd before
  | none => cs

end PugContracts.Scan
