import PugContracts.Scan.Cut
import PugContracts.Template.Fault
import PugContracts.Template.Node

/-!
# Attribute lists

The list between the parentheses of a tag holds attributes separated by commas or by blanks. A value
is an expression, so a blank inside it ends the attribute only where something that looks like the
next attribute follows.
-/

namespace PugContracts.Template

/-- Why a tag cannot be read. -/
inductive TagFault where
  /-- Something opened in the text is not closed in it; a further line may close it. -/
  | unclosed
  /-- The text is wrong however it continues. -/
  | invalid (fault : Fault)
  deriving DecidableEq, Repr

/-! ### Names -/

/-- A quotation mark that may surround an attribute name. -/
def isNameQuote (c : Char) : Bool :=
  c == '"' || c == '\''

/-- Cut off an unquoted attribute name: it ends before a blank, a comma, `=` or `!=`. -/
def splitAttributeName : List Char → List Char × List Char
  | [] => ([], [])
  | c :: rest =>
    if Text.isBlank c || c == ',' || c == '=' || (c == '!' && rest.head? == some '=') then
      ([], c :: rest)
    else
      let (name, after) := splitAttributeName rest
      (c :: name, after)

theorem append_splitAttributeName (cs : List Char) :
    (splitAttributeName cs).1 ++ (splitAttributeName cs).2 = cs := by
  induction cs with
  | nil => rfl
  | cons c rest ih =>
    unfold splitAttributeName
    split
    · rfl
    · simp [ih]

/-- Cut off an attribute name, quoted or not. -/
def attributeName (cs : List Char) : Except TagFault (List Char × List Char) :=
  match cs with
  | [] => .ok ([], [])
  | c :: rest =>
    if isNameQuote c then
      match Text.cutAtChar? c rest with
      | none => .error .unclosed
      | some split => .ok split
    else .ok (splitAttributeName (c :: rest))

/-- A name takes at least one character. -/
theorem length_attributeName {cs name after : List Char}
    (h : attributeName cs = .ok (name, after)) (named : name ≠ []) :
    after.length < cs.length := by
  unfold attributeName at h
  split at h
  · simp only [Except.ok.injEq, Prod.mk.injEq] at h
    exact absurd h.1.symm named
  · split at h
    · split at h
      · simp at h
      · next found =>
        simp only [Except.ok.injEq] at h
        subst h
        have := Text.length_cutAtChar? found
        simp only [List.length_cons]
        omega
    · next c rest _ =>
      simp only [Except.ok.injEq] at h
      have all := append_splitAttributeName (c :: rest)
      rw [h] at all
      have := congrArg List.length all
      have := List.length_pos_iff.2 named
      simp only [List.length_append] at *
      omega

/-! ### Values -/

/-- A character that may follow in what looks like an attribute name. -/
def isLikelyNameChar (c : Char) : Bool :=
  c.isAlphanum || "_-:@.[]()".toList.contains c

/-- A character that may start what looks like an attribute name. -/
def isLikelyNameStart (c : Char) : Bool :=
  c.isAlpha || "_:@[(".toList.contains c

/-- Whether an attribute name can end before this text. -/
def endsAttributeName (cs : List Char) : Bool :=
  match Text.trimStart cs with
  | [] => true
  | ',' :: _ => true
  | '!' :: '=' :: _ => true
  | '=' :: '=' :: _ => false
  | '=' :: _ => true
  | _ => false

/-- Whether `cs` looks like the start of a further attribute, or holds nothing more. -/
def startsAttribute (cs : List Char) : Bool :=
  match Text.trimStart cs with
  | [] => true
  | c :: rest =>
    if isNameQuote c then
      match Text.cutAtChar? c rest with
      | none => false
      | some (_, after) => endsAttributeName after
    else if isLikelyNameStart c then endsAttributeName ((c :: rest).dropWhile isLikelyNameChar)
    else false

/-- Whether an attribute value ends before this text. -/
def endsAttributeValue : List Char → Bool
  | [] => false
  | c :: rest => c == ',' || (Text.isBlank c && startsAttribute (c :: rest))

/-- Cut off an attribute value. -/
def splitAttributeValue (cs : List Char) : List Char × List Char :=
  (Scan.breakAt? endsAttributeValue cs).getD (cs, [])

theorem length_splitAttributeValue (cs : List Char) :
    (splitAttributeValue cs).2.length ≤ cs.length := by
  unfold splitAttributeValue
  cases h : Scan.breakAt? endsAttributeValue cs with
  | none => simp
  | some split =>
    have := congrArg List.length (Scan.append_of_breakFrom? h)
    simp only [List.length_append] at this
    simp only [Option.getD_some]
    omega

/-- What follows the sign that gives an attribute its value, and whether the value is escaped. -/
def afterEquals? (cs : List Char) : Option (List Char × Bool) :=
  match Text.trimStart cs with
  | '!' :: '=' :: value => some (Text.trimStart value, false)
  | '=' :: value => some (Text.trimStart value, true)
  | _ => none

theorem length_afterEquals? {cs value : List Char} {escaped : Bool}
    (h : afterEquals? cs = some (value, escaped)) : value.length < cs.length := by
  have bound := Text.length_trimStart_le cs
  unfold afterEquals? at h
  split at h
  · next value' found =>
    simp only [Option.some.injEq, Prod.mk.injEq] at h
    have := Text.length_trimStart_le value'
    rw [found] at bound
    simp only [List.length_cons, ← h.1] at *
    omega
  · next value' found =>
    simp only [Option.some.injEq, Prod.mk.injEq] at h
    have := Text.length_trimStart_le value'
    rw [found] at bound
    simp only [List.length_cons, ← h.1] at *
    omega
  · simp at h

/-! ### Lists -/

/-- A character between attributes. -/
def separatesAttributes (c : Char) : Bool :=
  Text.isBlank c || c == ','

/-- The attributes in `rest`, which is what remains of the list `all`. -/
def attributesFrom (all : List Char) (rest : List Char) : Except TagFault (List Attribute) :=
  match _start : rest.dropWhile separatesAttributes with
  | [] => .ok []
  | c :: cs =>
    match _named : attributeName (c :: cs) with
    | .error fault => .error fault
    | .ok ([], _) => .error (.invalid (.malformedAttributes (String.ofList all)))
    | .ok (n :: name, after) =>
      match _valued : afterEquals? after with
      | none =>
        (attributesFrom all after).map (⟨String.ofList (n :: name), "true", true⟩ :: ·)
      | some (source, escaped) =>
        let split := splitAttributeValue source
        let value := Text.trim split.1
        if value.isEmpty then
          .error (.invalid (.missingValue (String.ofList (n :: name))))
        else
          (attributesFrom all split.2).map
            (⟨String.ofList (n :: name), String.ofList value, escaped⟩ :: ·)
termination_by rest.length
decreasing_by
  all_goals
    have bound := Text.length_dropWhile_le separatesAttributes rest
    rw [_start] at bound
    have short := length_attributeName _named (by simp)
  · omega
  · have := length_afterEquals? _valued
    have := length_splitAttributeValue source
    omega

/-- The attributes of a list, in order. -/
def attributes (list : List Char) : Except TagFault (List Attribute) :=
  attributesFrom list list

end PugContracts.Template
