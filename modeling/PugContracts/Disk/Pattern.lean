import PugContracts.Disk.Basic

/-!
# Path patterns

A pattern names many files at once: `*` stands for any part of a name, `?` for one character,
brackets for one character of a set, and `**` as a whole component for any number of directories.

A pattern is checked as a whole and then cut into components, each of which is a pattern of its own;
a bracket can therefore not reach over a slash.
-/

namespace PugContracts

/-- What one place of a pattern accepts. -/
inductive PatternToken where
  /-- This character. -/
  | char (c : Char)
  /-- Any character. -/
  | anyChar
  /-- Any text. -/
  | anyText
  /-- Any number of directories. -/
  | anyDepth
  /-- A character in one of the ranges. -/
  | oneOf (ranges : List (Char × Char))
  /-- A character in none of the ranges. -/
  | noneOf (ranges : List (Char × Char))
  deriving DecidableEq, Repr

/-- Why a text is no pattern, and where. -/
inductive PatternError where
  /-- More than two stars in a row. -/
  | stars (position : Nat)
  /-- Two stars that are not a whole component. -/
  | depth (position : Nat)
  /-- A bracket that is not closed, or closed at once. -/
  | range (position : Nat)
  deriving DecidableEq, Repr

/-- The wording of an error. -/
def PatternError.message (e : PatternError) : String :=
  let (position, reason) :=
    match e with
    | stars position => (position, "wildcards are either regular `*` or recursive `**`")
    | depth position => (position, "recursive wildcards must form a single path component")
    | range position => (position, "invalid range pattern")
  "Pattern syntax error near position " ++ toString position ++ ": " ++ reason

/-- A pattern. -/
abbrev Pattern := List PatternToken

namespace Pattern

/-! ### Reading -/

/-- The ranges in a pair of brackets; a character for itself is a range of one. -/
def ranges : List Char → List (Char × Char)
  | first :: '-' :: last :: rest => (first, last) :: ranges rest
  | c :: rest => (c, c) :: ranges rest
  | [] => []

/-- The set after an opening bracket, and what follows the closing one. -/
def readSet? (cs : List Char) : Option (PatternToken × List Char) :=
  match cs with
  | '!' :: c :: rest =>
    (Text.cutAtChar? ']' rest).map fun (more, after) => (.noneOf (ranges (c :: more)), after)
  | '!' :: [] => none
  | c :: rest =>
    (Text.cutAtChar? ']' rest).map fun (more, after) => (.oneOf (ranges (c :: more)), after)
  | [] => none

theorem length_readSet? {cs after : List Char} {token : PatternToken}
    (h : readSet? cs = some (token, after)) : after.length < cs.length := by
  unfold readSet? at h
  split at h
  · simp only [Option.map_eq_some_iff, Prod.mk.injEq, Prod.exists] at h
    obtain ⟨more, after', found, -, rfl⟩ := h
    have := Text.length_cutAtChar? found
    simp only [List.length_cons]
    omega
  · simp at h
  · simp only [Option.map_eq_some_iff, Prod.mk.injEq, Prod.exists] at h
    obtain ⟨more, after', found, -, rfl⟩ := h
    have := Text.length_cutAtChar? found
    simp only [List.length_cons]
    omega
  · simp at h

/-- Read a pattern from the given position on; `before` is the character before it. -/
def readFrom (position : Nat) (before : Option Char) (cs : List Char) :
    Except PatternError Pattern :=
  match cs with
  | [] => .ok []
  | '*' :: '*' :: '*' :: _ => .error (.stars (position + 2))
  | '*' :: '*' :: rest =>
    if before.all (· == '/') then
      match rest with
      | [] => .ok [.anyDepth]
      | c :: after =>
        if c = '/' then (readFrom (position + 3) (some '/') after).map (.anyDepth :: ·)
        else .error (.depth (position + 2))
    else .error (.depth (position - 1))
  | '*' :: rest => (readFrom (position + 1) (some '*') rest).map (.anyText :: ·)
  | '?' :: rest => (readFrom (position + 1) (some '?') rest).map (.anyChar :: ·)
  | '[' :: rest =>
    match _set : readSet? rest with
    | none => .error (.range position)
    | some (token, after) =>
      (readFrom (position + 1 + (rest.length - after.length)) (some ']') after).map (token :: ·)
  | c :: rest => (readFrom (position + 1) (some c) rest).map (.char c :: ·)
termination_by cs.length
decreasing_by
  all_goals simp_wf
  · omega
  · have := length_readSet? _set
    omega

/-- Read a pattern. -/
def read (text : List Char) : Except PatternError Pattern :=
  readFrom 0 none text

/-- The components of a pattern with a leading slash, which is left out, and no component after a
slash at the end. -/
def components (text : List Char) : List (List Char) :=
  let pieces := Text.splitAtEach (· == '/') (text.drop 1)
  if pieces.getLast? = some [] then pieces.dropLast else pieces

/-- Several `**` in a row mean the same as one. -/
def collapse : List Pattern → List Pattern
  | [.anyDepth] :: [.anyDepth] :: rest => collapse ([.anyDepth] :: rest)
  | pattern :: rest => pattern :: collapse rest
  | [] => []

/-- The patterns of the components. -/
def readComponents (text : List Char) : Except PatternError (List Pattern) :=
  match read text with
  | .error e => .error e
  | .ok _ => ((components text).mapM read).map collapse

/-! ### Matching -/

/-- Whether a token accepts a character. -/
def accepts (c : Char) : PatternToken → Bool
  | .char d => c == d
  | .anyChar => true
  | .anyText | .anyDepth => false
  | .oneOf ranges => ranges.any fun (first, last) => first ≤ c && c ≤ last
  | .noneOf ranges => !ranges.any fun (first, last) => first ≤ c && c ≤ last

/-- Whether a pattern accepts a name. -/
def accepted : Pattern → List Char → Bool
  | [], name => name.isEmpty
  | .anyText :: rest, name | .anyDepth :: rest, name =>
    (List.range (name.length + 1)).any fun n => accepted rest (name.drop n)
  | _ :: _, [] => false
  | token :: rest, c :: name => accepts c token && accepted rest name

/-- The name that a pattern without wildcards stands for. -/
def literal? : Pattern → Option (List Char)
  | [] => some []
  | .char c :: rest => (literal? rest).map (c :: ·)
  | _ => none

/-! ### Expansion -/

/-- A component that leads to the directory itself or to the one above. -/
def isSpecial (name : List Char) : Bool :=
  name == ['.'] || name == ['.', '.']

/-- The entries that a list of component patterns leads to from the directory `p`. -/
def expand (d : Disk) : List Pattern → Path → List Path
  | [], p => [p]
  | pattern :: rest, p =>
    match literal? pattern with
    | some name =>
      let next := p.child (String.ofList name)
      if (if isSpecial name then d.isDirectory p else d.holds next) then expand d rest next else []
    | none =>
      match d.isDirectory p, d.locate p with
      | true, .ok key =>
        if pattern = [.anyDepth] then
          match rest with
          | [] => []
          | first :: rest =>
            (d.descendants key).flatMap fun q =>
              if accepted first q.fileName.toList then expand d rest q else []
        else
          let listed := (d.children key).flatMap fun q =>
            if accepted pattern q.fileName.toList then expand d rest q else []
          let special (name : String) : List Path :=
            if pattern.head? = some (.char '.') ∧ accepted pattern name.toList = true then
              expand d rest (p.child name)
            else []
          listed ++ special "." ++ special ".."
      | _, _ => []

end Pattern

end PugContracts
