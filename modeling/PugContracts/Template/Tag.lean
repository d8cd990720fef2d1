import PugContracts.Template.Attribute

/-!
# Tags

A tag is a name, or a class or id shorthand that stands for a `div`, followed by shorthands,
attribute lists and attribute blocks in any order. What follows these says how the element gets its
content.
-/

namespace PugContracts.Template

/-- How an element gets its content, according to what follows its tag. -/
inductive TagRest where
  /-- Nothing follows; the content is the block below. -/
  | empty
  /-- Text on the same line, before the block below. -/
  | text (inline : List Char)
  /-- An expression on the same line, before the block below. -/
  | code (value : List Char) (escaped : Bool)
  /-- A dot: the block below is plain text. -/
  | dotBlock
  /-- A colon and the statement that is the only content. -/
  | expansion (inner : List Char)
  /-- A slash: there is no content. -/
  | selfClosing
  deriving DecidableEq, Repr

/-- What a tag says of its element. -/
structure TagHead where
  /-- The name of the element. -/
  name : List Char
  /-- The attributes, in order. -/
  attributes : List Attribute
  /-- The expressions passed through `&attributes`. -/
  spreads : List String
  /-- What follows. -/
  rest : TagRest
  deriving DecidableEq, Repr

/-! ### Names -/

/-- A character that may start a class or id shorthand. -/
def isShorthandStart (c : Char) : Bool :=
  c.isAlpha || c == '_' || c == '-'

/-- A character of a class or id shorthand. -/
def isShorthandChar (c : Char) : Bool :=
  c.isAlphanum || c == '_' || c == '-'

/-- Cut off the name of a tag. A colon belongs to it when a letter or digit follows. -/
def splitTagName : List Char → List Char × List Char
  | [] => ([], [])
  | c :: rest =>
    if c.isAlphanum || c == '-' || c == '_' || (c == ':' && rest.head?.any Char.isAlphanum) then
      let (name, after) := splitTagName rest
      (c :: name, after)
    else ([], c :: rest)

theorem length_splitTagName (cs : List Char) : (splitTagName cs).2.length ≤ cs.length := by
  induction cs with
  | nil => simp [splitTagName]
  | cons c rest ih =>
    unfold splitTagName
    split
    · simp only [List.length_cons]
      omega
    · simp

/-- The attribute that a shorthand stands for. -/
def shorthand (sign : Char) (name : List Char) : Attribute :=
  ⟨if sign = '.' then "class" else "id", "\"" ++ String.ofList name ++ "\"", true⟩

/-- Whether a text is a shorthand after the sign that starts one. -/
def startsShorthand (sign : Char) (rest : List Char) : Bool :=
  (sign == '.' || sign == '#') && rest.head?.any isShorthandStart

theorem startsShorthand_of_isAlpha {c : Char} (hc : c.isAlpha = true) (rest : List Char) :
    startsShorthand c rest = false := by
  have hdot : c ≠ '.' := by rintro rfl; cases hc
  have hhash : c ≠ '#' := by rintro rfl; cases hc
  simp [startsShorthand, hdot, hhash]

/-! ### Parts -/

/-- One part of a tag after its name. -/
inductive TagPart where
  /-- A shorthand or an attribute list. -/
  | list (attributes : List Attribute)
  /-- An expression passed through `&attributes`. -/
  | spread (expression : String)
  deriving DecidableEq, Repr

namespace TagPart

/-- The attributes that a part adds. -/
def attributes : TagPart → List Attribute
  | list attributes => attributes
  | spread _ => []

/-- The expression that a part passes through `&attributes`. -/
def spread? : TagPart → Option String
  | list _ => none
  | spread expression => some expression

/-- Read the part that a text starts with, if it starts with one, and what follows it. -/
def read? (cs : List Char) : Except TagFault (Option (TagPart × List Char)) :=
  match cs with
  | [] => .ok none
  | c :: rest =>
    if startsShorthand c rest then
      .ok (some (.list [shorthand c (rest.takeWhile isShorthandChar)],
        rest.dropWhile isShorthandChar))
    else if c = '(' then
      match Scan.group? (c :: rest) with
      | none => .error .unclosed
      | some (inner, after) =>
        match Template.attributes inner with
        | .error fault => .error fault
        | .ok attributes => .ok (some (.list attributes, after))
    else
      match Text.afterPrefix? "&attributes".toList (c :: rest) with
      | some ('(' :: arguments) =>
        match Scan.group? ('(' :: arguments) with
        | none => .error .unclosed
        | some (inner, after) => .ok (some (.spread (String.ofList (Text.trim inner)), after))
      | _ => .ok none

theorem length_read? {cs after : List Char} {part : TagPart}
    (h : read? cs = .ok (some (part, after))) : after.length < cs.length := by
  unfold read? at h
  split at h
  · simp at h
  · next c rest =>
    split at h
    · simp only [Except.ok.injEq, Option.some.injEq, Prod.mk.injEq] at h
      have := Text.length_dropWhile_le isShorthandChar rest
      rw [← h.2, List.length_cons]
      omega
    · split at h
      · split at h
        · simp at h
        · next found =>
          split at h
          · simp at h
          · simp only [Except.ok.injEq, Option.some.injEq, Prod.mk.injEq] at h
            have := Scan.length_group? found
            rw [← h.2]
            omega
      · split at h
        · next arguments marked =>
          split at h
          · simp at h
          · next found =>
            simp only [Except.ok.injEq, Option.some.injEq, Prod.mk.injEq] at h
            have := Scan.length_group? found
            have := congrArg List.length (Text.afterPrefix?_eq_some_iff.1 marked)
            simp only [List.length_append] at this
            rw [← h.2]
            omega
        · simp at h

/-- Read all parts that a text starts with, and what follows them. -/
def readAll (cs : List Char) : Except TagFault (List TagPart × List Char) :=
  match _read : read? cs with
  | .error fault => .error fault
  | .ok none => .ok ([], cs)
  | .ok (some (part, after)) =>
    match readAll after with
    | .error fault => .error fault
    | .ok (parts, tail) => .ok (part :: parts, tail)
termination_by cs.length
decreasing_by exact length_read? _read

theorem length_readAll {cs tail : List Char} {parts : List TagPart}
    (h : readAll cs = .ok (parts, tail)) : tail.length ≤ cs.length := by
  fun_induction readAll cs generalizing parts with
  | case1 => simp at h
  | case2 cs =>
    simp only [Except.ok.injEq, Prod.mk.injEq] at h
    exact Nat.le_of_eq (congrArg List.length h.2.symm)
  | case3 => simp at h
  | case4 cs part after read parts' tail' below ih =>
    simp only [Except.ok.injEq, Prod.mk.injEq] at h
    have := ih (by rw [below, h.2])
    have := length_read? read
    omega

end TagPart

/-! ### Heads -/

/-- What a text says that follows a tag and its parts. -/
def TagRest.ofText (name : List Char) : List Char → Except TagFault TagRest
  | [] => .ok .empty
  | ':' :: rest =>
    match Text.trimStart rest with
    | [] => .error (.invalid .missingNestedTag)
    | inner => .ok (.expansion inner)
  | '!' :: '=' :: rest => .ok (.code (Text.trim rest) false)
  | '=' :: rest => .ok (.code (Text.trim rest) true)
  | '/' :: _ => .ok .selfClosing
  | c :: rest =>
    if c = '.' ∧ Text.isAllBlank rest = true then .ok .dotBlock
    else if c = ' ' ∨ c = '\t' then
      .ok (if Text.isAllBlank rest then .empty else .text rest)
    else .error (.invalid (.unexpectedCharacter c (String.ofList name)))

/-- Read what follows the name of a tag. -/
def TagHead.ofTail (name tail : List Char) : Except TagFault TagHead :=
  match TagPart.readAll tail with
  | .error fault => .error fault
  | .ok (parts, after) =>
    match TagRest.ofText name after with
    | .error fault => .error fault
    | .ok rest =>
      .ok ⟨name, parts.flatMap TagPart.attributes, parts.filterMap TagPart.spread?, rest⟩

/-- Read the tag that a text starts with. -/
def TagHead.ofText (text : List Char) : Except TagFault TagHead :=
  match text with
  | [] => .error (.invalid (.unexpectedText ""))
  | c :: rest =>
    if startsShorthand c rest then TagHead.ofTail "div".toList (c :: rest)
    else if c.isAlpha then
      TagHead.ofTail (splitTagName (c :: rest)).1 (splitTagName (c :: rest)).2
    else .error (.invalid (.unexpectedText (String.ofList ((c :: rest).take 20))))

/-! ### Block expansion -/

theorem TagRest.length_expansion {name cs inner : List Char}
    (h : TagRest.ofText name cs = .ok (.expansion inner)) : inner.length < cs.length := by
  unfold TagRest.ofText at h
  split at h
  · simp at h
  · next rest =>
    have := Text.length_trimStart_le rest
    split at h
    · simp at h
    · simp only [Except.ok.injEq, TagRest.expansion.injEq] at h
      rw [← h, List.length_cons]
      omega
  · simp at h
  · simp at h
  · simp at h
  · split at h
    · simp at h
    · split at h
      · simp only [Except.ok.injEq] at h
        split at h <;> simp at h
      · simp at h

theorem TagHead.length_expansion_tail {name tail inner : List Char} {head : TagHead}
    (h : TagHead.ofTail name tail = .ok head) (expands : head.rest = .expansion inner) :
    inner.length < tail.length := by
  unfold TagHead.ofTail at h
  split at h
  · simp at h
  · next read =>
    split at h
    · simp at h
    · next found =>
      simp only [Except.ok.injEq] at h
      subst h
      have := TagRest.length_expansion (found.trans (congrArg Except.ok expands))
      have := TagPart.length_readAll read
      omega

/-- The statement after the colon of a block expansion is shorter than the whole text. -/
theorem TagHead.length_expansion {text inner : List Char} {head : TagHead}
    (h : TagHead.ofText text = .ok head) (expands : head.rest = .expansion inner) :
    inner.length < text.length := by
  unfold TagHead.ofText at h
  split at h
  · simp at h
  · next c rest =>
    split at h
    · exact TagHead.length_expansion_tail h expands
    · split at h
      · have short := TagHead.length_expansion_tail h expands
        exact Nat.lt_of_lt_of_le short (length_splitTagName (c :: rest))
      · simp at h

end PugContracts.Template
