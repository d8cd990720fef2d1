import PugContracts.Proofs.Template.Operand

/-!
# Tags with an attribute list

A tag is a name with shorthands behind it, or shorthands alone. It ends where a character stands
that can go on neither a name nor a shorthand, and so before a parenthesis. A text that starts with
a tag and an attribute list is no statement that starts with a word, whatever comes after the list,
unless the tag is one of the words that a parenthesis may follow.

What such a text says depends on the attributes of the list alone. As long as the list is not
closed, the tag is not either.

## Main definitions

* `IsTagText`: the tags.
* `IsElementTag`: the tags that may stand before a list.

## Main results

* `IsElementTag.simple?_eq_none`: a tag with a list is an element.
* `IsTagText.exists_ofText`: how a tag is read.
* `TagPart.readAll_list`, `TagPart.readAll_open`: how a list is read, and one that is not closed.
-/

namespace PugContracts.Template

open Scan (Through)
open Statement (isTagChar isTagChar_of_splitTagName not_isBlank_of_isTagChar parenthesizedWords)

variable {tag name body text more inner rest tail : List Char} {c sign : Char} {number indent : Nat}
  {lines : List SourceLine}

/-! ### Tags -/

/-- A name with shorthands behind it, or shorthands alone. -/
inductive IsTagText : List Char → Prop
  /-- A name. -/
  | name {c : Char} {rest : List Char} (hc : c.isAlpha = true)
      (hname : splitTagName (c :: rest) = (c :: rest, [])) : IsTagText (c :: rest)
  /-- A shorthand that stands for a `div`. -/
  | short {sign : Char} {body : List Char} (hstart : startsShorthand sign body = true)
      (hbody : ∀ c ∈ body, isShorthandChar c = true) : IsTagText (sign :: body)
  /-- A further shorthand. -/
  | more {tag : List Char} {sign : Char} {body : List Char} (htag : IsTagText tag)
      (hstart : startsShorthand sign body = true)
      (hbody : ∀ c ∈ body, isShorthandChar c = true) : IsTagText (tag ++ sign :: body)

/-- A tag that is an element where an attribute list follows it. -/
structure IsElementTag (tag : List Char) : Prop where
  /-- It is a tag. -/
  isTagText : IsTagText tag
  /-- It is no condition in parentheses. -/
  word : ∀ word ∈ parenthesizedWords, tag ≠ word.toList
  /-- It is no file that is included through a filter. -/
  inclusion : ¬ "include:".toList <+: tag

theorem startsShorthand_iff : startsShorthand sign body = true ↔
    (sign = '.' ∨ sign = '#') ∧ ∃ c rest, body = c :: rest ∧ isShorthandStart c = true := by
  cases body <;> simp [startsShorthand]

theorem isTagChar_of_isShorthandChar (h : isShorthandChar c = true) : isTagChar c = true := by
  simp only [isShorthandChar, Bool.or_eq_true] at h
  rcases h with (h | h) | h <;> simp [isTagChar, h]

theorem IsTagText.chars (h : IsTagText tag) :
    ∀ c ∈ tag, isTagChar c = true ∨ c = '.' ∨ c = '#' := by
  have hshort : ∀ {sign body}, startsShorthand sign body = true →
      (∀ c ∈ body, isShorthandChar c = true) →
        ∀ c ∈ sign :: body, isTagChar c = true ∨ c = '.' ∨ c = '#' := by
    intro sign body hstart hbody c hc
    rcases List.mem_cons.mp hc with rfl | hc
    · exact Or.inr (startsShorthand_iff.mp hstart).1
    · exact Or.inl (isTagChar_of_isShorthandChar (hbody c hc))
  induction h with
  | name _ hname => exact fun c hc => Or.inl (isTagChar_of_splitTagName hname c hc)
  | short hstart hbody => exact hshort hstart hbody
  | more _ hstart hbody ih =>
    exact fun c hc => (List.mem_append.mp hc).elim (ih c) (hshort hstart hbody c)

theorem IsTagText.not_isBlank (h : IsTagText tag) : ∀ c ∈ tag, Text.isBlank c = false := by
  intro c hc
  rcases h.chars c hc with hchar | rfl | rfl
  · exact not_isBlank_of_isTagChar hchar
  · decide
  · decide

theorem IsTagText.single (h : IsTagText tag) : '\n' ∉ tag := fun hmem => by
  cases h.not_isBlank _ hmem

theorem IsTagText.notMem (h : IsTagText tag) : '(' ∉ tag := by
  intro hmem
  rcases h.chars _ hmem with hchar | hchar | hchar <;> cases hchar

/-- A tag starts with a letter or with the sign of a shorthand. -/
theorem IsTagText.head (h : IsTagText tag) :
    ∃ c rest, tag = c :: rest ∧ c ∉ "/|<-!=:+".toList := by
  induction h with
  | @name c rest hc => exact ⟨c, rest, rfl, Statement.notMem_of_isAlpha hc⟩
  | @short sign body hstart =>
    refine ⟨sign, body, rfl, ?_⟩
    rcases (startsShorthand_iff.mp hstart).1 with rfl | rfl <;> decide
  | more _ _ _ ih =>
    obtain ⟨c, rest, rfl, hc⟩ := ih
    exact ⟨c, _, rfl, hc⟩

/-! ### Words -/

/-- No keyword ends before a parenthesis, save those that are followed by one. -/
theorem afterKeyword?_list {word : String} {extra : List Char}
    (hname : ∀ c ∈ name, Text.isBlank c = false) (hword : '(' ∉ word.toList)
    (hextra : ∀ c ∈ extra, ¬ word.toList ++ [c] <+: name)
    (hparenthesis : '(' ∈ extra → name ≠ word.toList) (rest : List Char) :
    afterKeyword? word extra (name ++ '(' :: rest) = none := by
  have hsame : ∀ c tail, name = word.toList → '(' :: rest = c :: tail →
      (Text.isBlank c || extra.contains c) = false := by
    intro c tail heq hcons
    obtain ⟨rfl, -⟩ := List.cons.inj hcons
    simpa [show Text.isBlank '(' = false by decide] using fun hmem => hparenthesis hmem heq
  rw [afterKeyword?]
  split
  · next hafter =>
    have htext := Text.afterPrefix?_eq_some_iff.mp hafter
    rw [List.append_nil] at htext
    exact absurd (by rw [← htext]; simp) hword
  · next c tail hafter =>
    have htext := Text.afterPrefix?_eq_some_iff.mp hafter
    rw [if_neg]
    rw [Bool.not_eq_true]
    rcases List.append_eq_append_iff.mp htext with ⟨between, hlong, htail⟩ | ⟨between, hlong, htail⟩
    · cases between with
      | nil => exact hsame c tail (by simpa using hlong.symm) htail
      | cons d between =>
        obtain ⟨rfl, -⟩ := List.cons.inj htail
        exact absurd (by rw [hlong]; simp) hword
    · cases between with
      | nil => exact hsame c tail (by simpa using hlong) htail.symm
      | cons d between =>
        obtain ⟨rfl, -⟩ := List.cons.inj htail
        have hc := hname c (by rw [hlong]; simp)
        have hstart : word.toList ++ [c] <+: name := ⟨between, by simp [hlong]⟩
        simpa [hc] using fun hmem => hextra c hmem hstart
  · rfl

/-- **A tag with a list** is an element. -/
theorem IsElementTag.simple?_eq_none (h : IsElementTag tag) (rest : List Char) :
    Statement.simple? number indent (tag ++ '(' :: rest) lines = none := by
  have hblank := h.isTagText.not_isBlank
  have hword : ∀ word ∈ keywords, '(' ∉ word.toList := by decide
  have hplain : ∀ word : String, '(' ∉ word.toList →
      afterKeyword? word [] (tag ++ '(' :: rest) = none := fun word hword =>
    afterKeyword?_list hblank hword (by simp) (by simp) rest
  have hkeyword : Statement.ofKeyword? number (tag ++ '(' :: rest) = none := by
    refine Statement.ofKeyword?_eq_none (fun word hmem => hplain word (hword word hmem)) ?_ ?_ ?_
    · intro mode
      rw [Statement.shortRegion?, hplain mode.label (by cases mode <;> decide)]
    · refine afterKeyword?_list hblank (by decide) (fun c hc hopens => ?_) (by simp) rest
      rw [List.mem_singleton.mp hc] at hopens
      exact h.inclusion hopens
    · intro word hmem
      have hsub : parenthesizedWords ⊆ keywords := by decide
      refine afterKeyword?_list hblank (hword word (hsub hmem)) (fun c hc hopens => ?_)
        (fun _ => h.word word hmem) rest
      have hparenthesis := hopens.subset (List.mem_append_right _ List.mem_cons_self)
      rw [List.mem_singleton.mp hc] at hparenthesis
      exact h.isTagText.notMem hparenthesis
  obtain ⟨c, more, rfl, hc⟩ := h.isTagText.head
  rw [List.cons_append, Statement.simple?_of_notMem hc, ← List.cons_append, hkeyword]
  rfl

/-! ### Reading a tag -/

theorem splitTagName_append (h : splitTagName name = (name, []))
    (htail : ∀ c ∈ tail.head?, isTagChar c = false) :
    splitTagName (name ++ tail) = (name, tail) := by
  induction name with
  | nil =>
    cases tail with
    | nil => rfl
    | cons c rest =>
      have hc := htail c rfl
      simp only [isTagChar, Bool.or_eq_false_iff] at hc
      simp [splitTagName, hc]
  | cons c rest ih =>
    rw [splitTagName] at h
    split at h
    · next hc =>
      obtain ⟨hname, hafter⟩ := Prod.mk.inj h
      have hrest := ih (Prod.ext (List.cons.inj hname).2 hafter)
      rw [List.cons_append, splitTagName, hrest, if_pos]
      cases rest with
      | nil =>
        simp only [List.head?_nil, Option.any_none, Bool.and_false, Bool.or_false] at hc
        simp [hc]
      | cons d rest => exact hc
    · cases h

/-- The head of a tag with the given parts, and what follows them. -/
def TagHead.ofParts (name : List Char) (parts : List TagPart) (after : List Char) :
    Except TagFault TagHead :=
  (TagRest.ofText name after).map fun rest =>
    ⟨name, parts.flatMap TagPart.attributes, parts.filterMap TagPart.spread?, rest⟩

theorem TagHead.ofTail_eq_bind (name tail : List Char) :
    TagHead.ofTail name tail =
      (TagPart.readAll tail).bind fun read => TagHead.ofParts name read.1 read.2 := by
  rw [TagHead.ofTail]
  cases TagPart.readAll tail with
  | error fault => rfl
  | ok read =>
    dsimp only [Except.bind]
    rw [TagHead.ofParts]
    cases TagRest.ofText name read.2 <;> rfl

namespace TagPart

theorem readAll_of_read? {part : TagPart} (h : read? text = .ok (some (part, rest))) :
    readAll text = (readAll rest).map (Prod.map (part :: ·) id) := by
  rw [readAll]
  split
  · next heq => rw [h] at heq; cases heq
  · next heq => rw [h] at heq; cases heq
  · next heq =>
    rw [h] at heq
    obtain ⟨rfl, rfl⟩ := Prod.mk.inj (Option.some.inj (Except.ok.inj heq))
    cases readAll rest <;> rfl

theorem readAll_of_error {fault : TagFault} (h : read? text = .error fault) :
    readAll text = .error fault := by
  rw [readAll]
  split
  · next heq => rw [h] at heq; rw [Except.error.inj heq]
  · next heq => rw [h] at heq; cases heq
  · next heq => rw [h] at heq; cases heq

theorem readAll_nil : readAll [] = .ok ([], []) := by
  rw [readAll]
  rfl

/-- A shorthand ends before what can go on no name. -/
theorem readAll_shorthand (hstart : startsShorthand sign body = true)
    (hbody : ∀ c ∈ body, isShorthandChar c = true)
    (htail : ∀ c ∈ tail.head?, isTagChar c = false) :
    readAll (sign :: (body ++ tail)) =
      (readAll tail).map (Prod.map (.list [shorthand sign body] :: ·) id) := by
  refine readAll_of_read? ?_
  have hends : tail.takeWhile isShorthandChar = [] ∧ tail.dropWhile isShorthandChar = tail := by
    cases tail with
    | nil => exact ⟨rfl, rfl⟩
    | cons c rest =>
      have hc : ¬ isShorthandChar c = true := fun hc =>
        Bool.false_ne_true ((htail c rfl).symm.trans (isTagChar_of_isShorthandChar hc))
      exact ⟨List.takeWhile_cons_of_neg hc, List.dropWhile_cons_of_neg hc⟩
  obtain ⟨hsign, c, rest, rfl, hc⟩ := startsShorthand_iff.mp hstart
  have hstarts : startsShorthand sign (c :: rest ++ tail) = true :=
    startsShorthand_iff.mpr ⟨hsign, c, rest ++ tail, rfl, hc⟩
  rw [read?, if_pos hstarts, List.takeWhile_append_of_pos hbody, List.dropWhile_append_of_pos hbody,
    hends.1, hends.2, List.append_nil]

/-- **A list** is read up to the parenthesis that closes it. -/
theorem readAll_list (hinner : Through (fun _ => true) .start inner .start) (rest : List Char) :
    readAll ('(' :: (inner ++ ')' :: rest)) =
      (Template.attributes inner).bind fun attributes =>
        (readAll rest).map (Prod.map (.list attributes :: ·) id) := by
  have hgroup : Scan.group? ('(' :: (inner ++ ')' :: rest)) = some (inner, rest) :=
    hinner.group? rfl rfl rest
  have hread : read? ('(' :: (inner ++ ')' :: rest)) =
      (Template.attributes inner).map fun attributes => some (.list attributes, rest) := by
    rw [read?, hgroup]
    cases hlist : Template.attributes inner <;> simp [hlist, startsShorthand, Except.map]
  cases hlist : Template.attributes inner with
  | error fault => exact readAll_of_error (by rw [hread, hlist]; rfl)
  | ok attributes => exact readAll_of_read? (by rw [hread, hlist]; rfl)

/-- **A list that is not closed** may be closed by a further line. -/
theorem readAll_open (hinner : Through (fun _ => true) .start inner .start) :
    readAll ('(' :: inner) = .error .unclosed := by
  have hgroup : Scan.group? ('(' :: inner) = none := by
    have hread := hinner.closeGroup? trivial []
    rw [List.append_nil] at hread
    exact hread
  refine readAll_of_error ?_
  rw [read?, hgroup]
  simp [startsShorthand]

end TagPart

/-- **How a tag is read**: its name and its shorthands do not depend on what follows it. -/
theorem IsTagText.exists_ofText (h : IsTagText tag) :
    ∃ name parts, ∀ tail : List Char, (∀ c ∈ tail.head?, isTagChar c = false) →
      TagHead.ofText (tag ++ tail) =
        (TagPart.readAll tail).bind fun read => TagHead.ofParts name (parts ++ read.1) read.2 := by
  induction h with
  | @name c rest hc hname =>
    refine ⟨c :: rest, [], fun tail htail => ?_⟩
    rw [List.cons_append, TagHead.ofText, startsShorthand_of_isAlpha hc, hc, ← List.cons_append,
      splitTagName_append hname htail]
    exact TagHead.ofTail_eq_bind _ _
  | @short sign body hstart hbody =>
    refine ⟨"div".toList, [.list [shorthand sign body]], fun tail htail => ?_⟩
    obtain ⟨hsign, c, rest, rfl, hc⟩ := startsShorthand_iff.mp hstart
    have hstarts : startsShorthand sign (c :: rest ++ tail) = true :=
      startsShorthand_iff.mpr ⟨hsign, c, rest ++ tail, rfl, hc⟩
    rw [List.cons_append, TagHead.ofText, if_pos hstarts, TagHead.ofTail_eq_bind,
      TagPart.readAll_shorthand hstart hbody htail]
    cases TagPart.readAll tail <;> rfl
  | @more tag sign body _ hstart hbody ih =>
    obtain ⟨name, parts, hread⟩ := ih
    refine ⟨name, parts ++ [.list [shorthand sign body]], fun tail htail => ?_⟩
    have hsign : isTagChar sign = false := by
      rcases (startsShorthand_iff.mp hstart).1 with rfl | rfl <;> decide
    rw [List.append_assoc, List.cons_append, hread _ (by simpa using hsign),
      TagPart.readAll_shorthand hstart hbody htail]
    cases TagPart.readAll tail with
    | error fault => rfl
    | ok read =>
      show TagHead.ofParts name (parts ++ _ :: read.1) read.2 = TagHead.ofParts name _ read.2
      rw [List.append_assoc]
      rfl

end PugContracts.Template
