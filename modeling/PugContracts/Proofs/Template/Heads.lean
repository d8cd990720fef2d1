import PugContracts.Proofs.Template.Headers

/-!
# Reading the heads of nodes

The line on which a node is printed is read as a statement that says that node (`lineOf_head`), and
so are the lines between the branches of a node. For most kinds the head starts with a word or a
sign of its own, and what follows is taken as it stands. Text must not be taken for an
interpolation, and the name of a tag must not be taken for a keyword.

## Main results

* `lineOf_head`: the head of a node is read as that node, and takes no further lines.
* `lineOf_else`, `lineOf_elseIf`: the lines between the branches of a node.
-/

namespace PugContracts.Template

open Text (EndsUnblank)

variable {text : List Char} {number indent : Nat} {lines : List SourceLine}

namespace Statement

theorem read_of_simple? {reading : StatementReading} (hlast : EndsUnblank text)
    (h : simple? number indent text lines = some reading) :
    read number indent text lines = reading :=
  read_eq_of_simple? (by rwa [Text.trimEnd_eq_self hlast])

theorem read_of_element {reading : StatementReading} (hlast : EndsUnblank text)
    (hsimple : simple? number indent text lines = none)
    (h : element number indent text lines = .done reading) :
    read number indent text lines = reading := by
  rw [← Text.trimEnd_eq_self hlast] at hsimple h
  exact read_eq_of_done hsimple h

/-! ### Text -/

/-- Text without the start of an interpolation is one piece. -/
theorem splitFrom_plain (hhash : Text.hasPiece ['#', '{'] text = false)
    (hbang : Text.hasPiece ['!', '{'] text = false) (offset : Nat) (literal : List Char) :
    Segment.splitFrom offset literal text =
      .ok (Segment.consLiteral (literal.reverse ++ text) []) := by
  have hmarker : ∀ {marker : Char} {tail : List Char},
      Text.hasPiece ['#', '{'] (marker :: '{' :: tail) = false →
      Text.hasPiece ['!', '{'] (marker :: '{' :: tail) = false →
      Segment.isMarker marker = false := by
    intro marker tail hhash hbang
    simp only [Text.hasPiece, Bool.or_eq_false_iff] at hhash hbang
    have hnothash : marker ≠ '#' := by
      rintro rfl
      exact absurd hhash.1 (by simp [List.isPrefixOf])
    have hnotbang : marker ≠ '!' := by
      rintro rfl
      exact absurd hbang.1 (by simp [List.isPrefixOf])
    simp [Segment.isMarker, hnothash, hnotbang]
  have htail : ∀ {piece : List Char} {c : Char} {tail : List Char},
      Text.hasPiece piece (c :: tail) = false → Text.hasPiece piece tail = false := by
    intro piece c tail h
    rw [Text.hasPiece, Bool.or_eq_false_iff] at h
    exact h.2
  induction offset, literal, text using Segment.splitFrom.induct with
  | case1 => rw [Segment.splitFrom, List.append_nil]
  | case2 offset literal marker rest hmark =>
    rw [hmarker (htail hhash) (htail hbang)] at hmark
    cases hmark
  | case3 offset literal marker rest hmark ih =>
    rw [Segment.splitFrom, if_neg hmark, ih (htail hhash) (htail hbang)]
    simp
  | case4 offset literal marker rest hpair hmark =>
    rw [hmarker hhash hbang] at hmark
    cases hmark
  | case5 offset literal marker rest hpair hmark =>
    rw [hmarker hhash hbang] at hmark
    cases hmark
  | case6 offset literal marker rest hpair hmark ih =>
    rw [Segment.splitFrom.eq_3 _ _ _ _ hpair, if_neg hmark, ih (htail hhash) (htail hbang)]
    simp
  | case7 offset literal c rest hescape hbrace ih =>
    rw [Segment.splitFrom.eq_4 _ _ _ _ hescape hbrace, ih (htail hhash) (htail hbang)]
    simp

theorem isPlainText_iff : isPlainText text = true ↔
    text ≠ [] ∧ '\n' ∉ text ∧ EndsUnblank text ∧ Text.hasPiece ['#', '{'] text = false ∧
      Text.hasPiece ['!', '{'] text = false := by
  have hend : Text.trimEnd text = text ↔ EndsUnblank text :=
    ⟨fun h => h ▸ Text.endsUnblank_trimEnd text, Text.trimEnd_eq_self⟩
  simp only [isPlainText, Bool.and_eq_true, Bool.not_eq_true', List.isEmpty_eq_false_iff,
    List.contains_eq_mem, decide_eq_false_iff_not, beq_iff_eq, hend, and_assoc]
  exact Iff.rfl

theorem textNodes_plain (h : isPlainText text = true) :
    textNodes number text = ([.leaf (.text (String.ofList text)) number], []) := by
  obtain ⟨hne, -, -, hhash, hbang⟩ := isPlainText_iff.mp h
  have hsplit : Segment.split text = .ok [.literal text] := by
    rw [Segment.split, splitFrom_plain hhash hbang]
    simp [Segment.consLiteral, hne]
  rw [textNodes, hsplit]
  rfl

/-! ### Tags -/

/-- A character that a tag name may hold. -/
def isTagChar (c : Char) : Bool :=
  c.isAlphanum || c == '-' || c == '_' || c == ':'

theorem not_isBlank_of_isTagChar {c : Char} (h : isTagChar c = true) : Text.isBlank c = false := by
  change ((((decide (c.val ≥ 65 ∧ c.val ≤ 90) || decide (c.val ≥ 97) && decide (c.val ≤ 122)) ||
    decide (c.val ≥ 48) && decide (c.val ≤ 57)) || c == '-' || c == '_' || c == ':') : Bool) = true
    at h
  simp only [Bool.or_eq_true, Bool.and_eq_true, decide_eq_true_eq, beq_iff_eq,
    UInt32.le_iff_toNat_le, ge_iff_le] at h
  have hcode : ((65 ≤ c.toNat ∧ c.toNat ≤ 90) ∨ (97 ≤ c.toNat ∧ c.toNat ≤ 122)) ∨
      (48 ≤ c.toNat ∧ c.toNat ≤ 57) ∨ c.toNat = 45 ∨ c.toNat = 95 ∨ c.toNat = 58 := by
    rcases h with (((h | h) | rfl) | rfl) | rfl
    · exact Or.inl h
    · exact Or.inr (Or.inl h)
    · exact Or.inr (Or.inr (Or.inl rfl))
    · exact Or.inr (Or.inr (Or.inr (Or.inl rfl)))
    · exact Or.inr (Or.inr (Or.inr (Or.inr rfl)))
  simp only [Text.isBlank, Bool.or_eq_false_iff, Bool.and_eq_false_iff, decide_eq_false_iff_not,
    beq_eq_false_iff_ne]
  omega

theorem isTagChar_of_splitTagName (h : splitTagName text = (text, [])) :
    ∀ c ∈ text, isTagChar c = true := by
  induction text with
  | nil => simp
  | cons c rest ih =>
    rw [splitTagName] at h
    split at h
    · next hc =>
      obtain ⟨hname, hafter⟩ := Prod.mk.inj h
      refine List.forall_mem_cons.mpr ⟨?_, ih (Prod.ext (List.cons.inj hname).2 hafter)⟩
      simp only [Bool.or_eq_true, Bool.and_eq_true] at hc
      simp only [isTagChar, Bool.or_eq_true]
      exact hc.imp id And.left
    · cases h

/-- A plain tag starts with no keyword. -/
theorem afterKeyword?_plain {word : String} {extra : List Char}
    (h : ∀ c ∈ text, isTagChar c = true) (hextra : ∀ c ∈ extra, ¬ word.toList ++ [c] <+: text)
    (hne : text ≠ word.toList) : afterKeyword? word extra text = none := by
  rw [afterKeyword?]
  split
  · next hafter =>
    have := Text.afterPrefix?_eq_some_iff.mp hafter
    rw [List.append_nil] at this
    exact absurd this hne
  · next c rest hafter =>
    have htext := Text.afterPrefix?_eq_some_iff.mp hafter
    have hc := h c (by rw [htext]; simp)
    rw [if_neg]
    simp only [Bool.or_eq_true, not_isBlank_of_isTagChar hc, List.contains_eq_mem,
      decide_eq_true_eq]
    rintro (hfalse | hmem)
    · cases hfalse
    · exact hextra c hmem ⟨rest, by rw [htext, List.append_assoc, List.singleton_append]⟩
  · rfl

/-- The keywords that a parenthesis may follow at once. -/
def parenthesizedWords : List String :=
  ["while", "if", "unless"]

/-- A text that no keyword ends in is no statement that starts with a word. -/
theorem ofKeyword?_eq_none (hword : ∀ word ∈ keywords, afterKeyword? word [] text = none)
    (hshort : ∀ mode, shortRegion? number mode text = none)
    (hcolon : afterKeyword? "include" [':'] text = none)
    (hparenthesis : ∀ word ∈ parenthesizedWords, afterKeyword? word ['('] text = none) :
    ofKeyword? number text = none := by
  rw [ofKeyword?, hword "doctype" (by decide), hword "extends" (by decide),
    hword "extend" (by decide), hcolon,
    hword "block" (by decide), hshort .append, hshort .prepend, hword "mixin" (by decide),
    hword "each" (by decide), hword "for" (by decide), hparenthesis "while" (by decide),
    hparenthesis "if" (by decide), hparenthesis "unless" (by decide), hword "else" (by decide)]
  rfl

theorem ofKeyword?_plain {name : String} (hchars : ∀ c ∈ name.toList, isTagChar c = true)
    (hname : name ∉ keywords) (hinclude : ¬ "include:".toList <+: name.toList) :
    ofKeyword? number name.toList = none := by
  have hnone : ∀ word ∈ keywords, ∀ extra : List Char,
      (∀ c ∈ extra, ¬ word.toList ++ [c] <+: name.toList) →
      afterKeyword? word extra name.toList = none := fun word hword extra hextra =>
    afterKeyword?_plain hchars hextra fun heq =>
      hname (String.toList_inj.mp heq ▸ hword)
  have hshort : ∀ mode, shortRegion? number mode name.toList = none := by
    intro mode
    by_cases hmode : name.toList = mode.label.toList
    · have hnothing : Text.afterPrefix? mode.label.toList name.toList = some [] :=
        Text.afterPrefix?_eq_some_iff.mpr (by rw [hmode, List.append_nil])
      rw [shortRegion?, afterKeyword?, hnothing]
    · rw [shortRegion?, afterKeyword?_plain hchars (by simp) hmode]
  have hword : ∀ word ∈ keywords, afterKeyword? word [] name.toList = none := fun word hword =>
    hnone word hword [] (by simp)
  have hkeyword : parenthesizedWords ⊆ keywords := by decide
  have hparenthesis : ∀ word ∈ parenthesizedWords, afterKeyword? word ['('] name.toList = none :=
    fun word hword => hnone word (hkeyword hword) ['('] fun c hc hopens => by
      have hmem := hchars c (hopens.subset (by simp))
      rw [List.mem_singleton.mp hc] at hmem
      cases hmem
  have hcolon : afterKeyword? "include" [':'] name.toList = none :=
    hnone "include" (by decide) [':'] fun c hc hopens => by
      rw [List.mem_singleton.mp hc] at hopens
      exact hinclude hopens
  exact ofKeyword?_eq_none hword hshort hcolon hparenthesis

/-- A text that starts with none of the signs starts with a word, or it is an element. -/
theorem simple?_of_notMem {c : Char} (hc : c ∉ "/|<-!=:+".toList) (rest : List Char) :
    simple? number indent (c :: rest) lines =
      (ofKeyword? number (c :: rest)).map fun (statement, faults) =>
        ⟨statement, faults.map (⟨number, ·⟩), lines⟩ := by
  have hsign : ∀ d ∈ "/|<-!=:+".toList, c ≠ d := by
    rintro d hd rfl
    exact hc hd
  unfold simple?
  split
  all_goals first
    | rfl
    | next heq => exact absurd (List.cons.inj heq).1 (hsign _ (by decide))

/-- No letter is one of the signs. -/
theorem notMem_of_isAlpha {c : Char} (hc : c.isAlpha = true) : c ∉ "/|<-!=:+".toList := by
  intro hmem
  have hsign : ("/|<-!=:+".toList.all fun d => !d.isAlpha) = true := rfl
  simpa [hc] using List.all_eq_true.mp hsign c hmem

theorem simple?_of_isAlpha {c : Char} (hc : c.isAlpha = true) (rest : List Char) :
    simple? number indent (c :: rest) lines =
      (ofKeyword? number (c :: rest)).map fun (statement, faults) =>
        ⟨statement, faults.map (⟨number, ·⟩), lines⟩ :=
  simple?_of_notMem (notMem_of_isAlpha hc) rest

theorem isPlainTag_iff {name : String} : isPlainTag name = true ↔
    (∃ c rest, name.toList = c :: rest ∧ c.isAlpha = true) ∧
      splitTagName name.toList = (name.toList, []) ∧ name ∉ keywords ∧
        ¬ "include:".toList <+: name.toList := by
  have hfirst : name.toList.head?.any Char.isAlpha = true ↔
      ∃ c rest, name.toList = c :: rest ∧ c.isAlpha = true := by
    cases name.toList with
    | nil => simp
    | cons c rest => simp
  simp only [isPlainTag, Bool.and_eq_true, hfirst, beq_iff_eq, Bool.not_eq_true',
    List.contains_eq_mem, Bool.eq_false_iff, ne_eq, List.isPrefixOf_iff_prefix, and_assoc,
    decide_eq_true_eq]

/-- The name of a tag is read as an element without attributes. -/
theorem read_tag {name : String} (h : isPlainTag name = true) :
    read number indent name.toList lines =
      ⟨.heading (.leaf (.element name [] []) number), [], lines⟩ := by
  obtain ⟨⟨c, rest, hname, hc⟩, hsplit, hkeyword, hinclude⟩ := isPlainTag_iff.mp h
  have hchars := isTagChar_of_splitTagName hsplit
  have hlast : EndsUnblank name.toList := fun c hc =>
    not_isBlank_of_isTagChar (hchars c (List.mem_of_getLast? hc))
  have hsimple : simple? number indent name.toList lines = none := by
    rw [hname, simple?_of_isAlpha hc, ← hname, ofKeyword?_plain hchars hkeyword hinclude]
    rfl
  have hhead : TagHead.ofText name.toList = .ok ⟨name.toList, [], [], .empty⟩ := by
    have hparts : TagPart.readAll [] = .ok ([], []) := by
      rw [TagPart.readAll]
      rfl
    rw [hname, TagHead.ofText, startsShorthand_of_isAlpha hc, hc, ← hname, hsplit]
    show TagHead.ofTail name.toList [] = _
    rw [TagHead.ofTail, hparts]
    rfl
  have htag : readTag name.toList lines = (.ok ⟨name.toList, [], [], .empty⟩, lines) := by
    unfold readTag
    split
    · next hunclosed =>
      rw [hhead] at hunclosed
      cases hunclosed
    · rw [hhead]
  have helement : element number indent name.toList lines =
      .done ⟨.heading (.leaf (.element name [] []) number), [], lines⟩ := by
    rw [element, htag]
    simp [elementNode, Node.leaf, Node.addChildren, String.ofList_toList]
  exact read_of_element hlast hsimple helement

end Statement

/-! ### Heads -/

open Statement

variable {spelling : Spelling} {kind : NodeKind}

/-- The statement that a printed kind is read as. -/
def NodeKind.statement (kind : NodeKind) (number : Nat) : Statement :=
  if kind.isLeaf then .complete [.leaf kind number] else .heading (.leaf kind number)

/-- A text that can stand on a line, where it is read as the statement and takes no more lines. -/
structure LineOf (statement : Nat → Statement) (text : List Char) : Prop where
  /-- It can stand on a line. -/
  legible : Legible text
  /-- It is read as the statement. -/
  reads : ∀ number indent lines, Statement.read number indent text lines =
    ⟨statement number, [], lines⟩

variable {statement : Nat → Statement} {word : String} {phrase : String}

theorem Legible.lineOf (h : Legible text) (hsimple : ∀ number indent lines,
    simple? number indent text lines = some ⟨statement number, [], lines⟩) :
    LineOf statement text :=
  ⟨h, fun number indent lines => read_of_simple? h.last (hsimple number indent lines)⟩

/-- A phrase after a word. -/
theorem lineOf_word
    (hword : word.toList.contains '\n' = false ∧ word.toList.head?.any (!Text.isBlank ·) = true)
    (h : Legible phrase.toList) (hsimple : ∀ number indent lines,
      simple? number indent (word.toList ++ phrase.toList) lines =
        some ⟨statement number, [], lines⟩) : LineOf statement (word ++ phrase).toList := by
  rw [String.toList_append]
  exact (h.after hword).lineOf hsimple

/-- A phrase after a word that says what statement it is. -/
theorem lineOf_keyword (word : String)
    (hword : word.toList.contains '\n' = false ∧ word.toList.head?.any Char.isAlpha = true)
    (h : Legible phrase.toList) (hkeyword : ∀ number,
      ofKeyword? number (word.toList ++ phrase.toList) = some (statement number, [])) :
    LineOf statement (word ++ phrase).toList := by
  obtain ⟨hsingle, hhead⟩ := hword
  cases hletters : word.toList with
  | nil => simp [hletters] at hhead
  | cons c rest =>
    have hc : c.isAlpha = true := by simpa [hletters] using hhead
    have hblank : Text.isBlank c = false :=
      not_isBlank_of_isTagChar (by simp [isTagChar, Char.isAlphanum, hc])
    refine lineOf_word ⟨hsingle, by simp [hletters, hblank]⟩ h fun number indent lines => ?_
    have hread := hkeyword number
    rw [hletters, List.cons_append] at hread ⊢
    rw [simple?_of_isAlpha hc, hread]
    rfl

theorem lineOf_text {value : String} (h : isPlainText value.toList = true) :
    LineOf (NodeKind.statement (.text value)) ("| " ++ value).toList := by
  obtain ⟨hne, hsingle, hlast, -⟩ := isPlainText_iff.mp h
  rw [String.toList_append]
  refine (Legible.append (by decide) ⟨'|', rfl, by decide⟩ hsingle hne hlast).lineOf
    fun number indent lines => ?_
  show some (textStatement number value.toList lines) = _
  rw [textStatement, textNodes_plain h, String.ofList_toList]
  rfl

section Phrase

variable (h : Legible phrase.toList)
include h

theorem ofList_trim_space : String.ofList (Text.trim (' ' :: phrase.toList)) = phrase := by
  rw [h.trim_space, String.ofList_toList]

theorem lineOf_buffered (escaped : Bool) :
    LineOf (NodeKind.statement (.code phrase true escaped))
      ((if escaped then "= " else "!= ") ++ phrase).toList := by
  have hcode : ∀ number, bufferedCode number (' ' :: phrase.toList) escaped =
      .leaf (.code phrase true escaped) number := fun number => by
    rw [bufferedCode, ofList_trim_space h]
  cases escaped with
  | true =>
    refine lineOf_word ⟨rfl, rfl⟩ h fun number indent lines => ?_
    show some (StatementReading.mk (.complete [bufferedCode number (' ' :: phrase.toList) true])
      [] lines) = _
    rw [hcode]
    rfl
  | false =>
    refine lineOf_word ⟨rfl, rfl⟩ h fun number indent lines => ?_
    show some (StatementReading.mk (.complete [bufferedCode number (' ' :: phrase.toList) false])
      [] lines) = _
    rw [hcode]
    rfl

theorem lineOf_code :
    LineOf (NodeKind.statement (.code phrase false false)) ("- " ++ phrase).toList := by
  refine lineOf_word ⟨rfl, rfl⟩ h fun number indent lines => ?_
  have hcode : Text.isAllBlank (' ' :: phrase.toList) = false := by
    obtain ⟨c, hc, hblank⟩ := h.head
    obtain ⟨rest, hphrase⟩ := List.head?_eq_some_iff.mp hc
    rw [hphrase]
    simp [Text.isAllBlank, hblank]
  show some (codeStatement number indent (' ' :: phrase.toList) lines) = _
  rw [codeStatement, hcode, plainCode, ofList_trim_space h]
  rfl

theorem lineOf_while : LineOf (NodeKind.statement (.loop phrase)) ("while " ++ phrase).toList := by
  refine lineOf_keyword _ ⟨rfl, rfl⟩ h fun number => ?_
  show some (headingOf number (.loop (String.ofList (Text.trim (' ' :: phrase.toList))))) = _
  rw [ofList_trim_space h]
  rfl

theorem lineOf_conditional (negated : Bool) :
    LineOf (NodeKind.statement (.conditional phrase negated))
      ((if negated then "unless " else "if ") ++ phrase).toList := by
  have hread : ∀ number keyword,
      conditionalStatement number keyword negated (' ' :: phrase.toList) =
        (.heading (.leaf (.conditional phrase negated) number), []) := fun number keyword => by
    simp only [conditionalStatement, h.trim_space, String.ofList_toList]
    rw [if_neg (by simpa using h.ne_nil)]
  cases negated with
  | true => exact lineOf_keyword _ ⟨rfl, rfl⟩ h fun number => congrArg some (hread number _)
  | false => exact lineOf_keyword _ ⟨rfl, rfl⟩ h fun number => congrArg some (hread number _)

theorem lineOf_include :
    LineOf (NodeKind.statement (.inclusion phrase none)) ("include " ++ phrase).toList := by
  refine lineOf_keyword _ ⟨rfl, rfl⟩ h fun number => ?_
  show some (includeDirective number (' ' :: phrase.toList)) = _
  rw [includeDirective, h.trim_space, nonempty?_legible h, String.ofList_toList]
  · rfl
  · -- The target follows a blank, and therefore no filter does.
    simp

theorem lineOf_block (hmode : startsWithMode phrase.toList = false) :
    LineOf (NodeKind.statement (.region phrase .replace)) ("block " ++ phrase).toList := by
  refine lineOf_keyword _ ⟨rfl, rfl⟩ h fun number => ?_
  simp only [startsWithMode, Bool.or_eq_false_iff, Option.isSome_eq_false_iff,
    Option.isNone_iff_eq_none] at hmode
  have happend : afterKeyword? "append" [] phrase.toList = none := hmode.1
  have hprepend : afterKeyword? "prepend" [] phrase.toList = none := hmode.2
  show some (regionStatement number (' ' :: phrase.toList)) = _
  rw [regionStatement, h.trim_space, happend, hprepend]
  show some (headingOf number (.region (String.ofList phrase.toList) .replace)) = _
  rw [String.ofList_toList]
  rfl

theorem lineOf_mode (short : Bool) {mode : RegionMode} (hmode : mode ≠ .replace) :
    LineOf (NodeKind.statement (.region phrase mode))
      ((if short then "" else "block ") ++ mode.label ++ " " ++ phrase).toList := by
  have hregion : ∀ number,
      some (headingOf number (.region (String.ofList (Text.trim (' ' :: phrase.toList))) mode)) =
        some ((NodeKind.region phrase mode).statement number, []) := fun number => by
    rw [ofList_trim_space h]
    rfl
  cases mode with
  | replace => exact absurd rfl hmode
  | append =>
    cases short with
    | true => exact lineOf_keyword "append " ⟨rfl, rfl⟩ h hregion
    | false =>
      refine lineOf_keyword "block append " ⟨rfl, rfl⟩ h fun number => ?_
      have hlegible : Legible ("append ".toList ++ phrase.toList) := h.after ⟨rfl, rfl⟩
      show some (regionStatement number (' ' :: ("append ".toList ++ phrase.toList))) = _
      rw [regionStatement, hlegible.trim_space]
      exact hregion number
  | prepend =>
    cases short with
    | true => exact lineOf_keyword "prepend " ⟨rfl, rfl⟩ h hregion
    | false =>
      refine lineOf_keyword "block prepend " ⟨rfl, rfl⟩ h fun number => ?_
      have hlegible : Legible ("prepend ".toList ++ phrase.toList) := h.after ⟨rfl, rfl⟩
      show some (regionStatement number (' ' :: ("prepend ".toList ++ phrase.toList))) = _
      rw [regionStatement, hlegible.trim_space]
      exact hregion number

theorem lineOf_loop (forLoops : Bool) (hheader : loopHeader? phrase.toList = some kind)
    (hkind : kind.isLeaf = false) :
    LineOf kind.statement ((if forLoops then "for " else "each ") ++ phrase).toList := by
  have hread : ∀ number keyword, loopStatement number keyword (' ' :: phrase.toList) =
      (kind.statement number, []) := fun number keyword => by
    rw [loopStatement, h.trim_space, hheader]
    simp [headingOf, NodeKind.statement, hkind]
  cases forLoops with
  | true => exact lineOf_keyword _ ⟨rfl, rfl⟩ h fun number => congrArg some (hread number _)
  | false => exact lineOf_keyword _ ⟨rfl, rfl⟩ h fun number => congrArg some (hread number _)

theorem lineOf_mixin {name : String} (hname : callName phrase.toList = name.toList)
    (hne : name.toList ≠ []) :
    LineOf (NodeKind.statement (.mixin name (callArguments? phrase.toList)))
      ("mixin " ++ phrase).toList := by
  refine lineOf_keyword _ ⟨rfl, rfl⟩ h fun number => ?_
  show some (mixinStatement number (' ' :: phrase.toList)) = _
  rw [mixinStatement, h.trim_space, hname, nonempty?, if_neg (by simpa using hne),
    String.ofList_toList]
  rfl

theorem lineOf_elseIf : LineOf (fun number => .elseIf (.leaf (.conditional phrase false) number))
    ("else if " ++ phrase).toList := by
  refine lineOf_keyword _ ⟨rfl, rfl⟩ h fun number => ?_
  have hlegible : Legible ("if ".toList ++ phrase.toList) := h.after ⟨rfl, rfl⟩
  have htest : afterKeyword? "if" ['('] ("if ".toList ++ phrase.toList) =
      some (' ' :: phrase.toList) := rfl
  show some (elseStatement number (' ' :: ("if ".toList ++ phrase.toList))) = _
  rw [elseStatement, hlegible.trim_space, htest]
  dsimp only
  rw [ofList_trim_space h]

end Phrase

theorem lineOf_else : LineOf (fun _ => .elseBranch) "else".toList := by
  have hlegible : Legible "else".toList := isPhrase_iff.mp rfl
  exact hlegible.lineOf fun number indent lines => rfl

theorem lineOf_tag {name : String} (h : isPlainTag name = true) :
    LineOf (NodeKind.statement (.element name [] [])) name.toList := by
  obtain ⟨⟨c, rest, hname, hc⟩, hsplit, -⟩ := isPlainTag_iff.mp h
  have hblank : ∀ c ∈ name.toList, Text.isBlank c = false := fun c hc =>
    not_isBlank_of_isTagChar (isTagChar_of_splitTagName hsplit c hc)
  refine ⟨⟨fun hnewline => ?_, ⟨c, by rw [hname]; rfl, ?_⟩, fun c hc => ?_⟩,
    fun _ _ _ => read_tag h⟩
  · exact absurd (hblank _ hnewline) (by decide)
  · exact hblank c (by rw [hname]; exact List.mem_cons_self)
  · exact hblank c (List.mem_of_getLast? hc)

/-- **A printed head is read as its node.** -/
theorem lineOf_head (spelling : Spelling) (h : kind.isPrintable = true) :
    LineOf kind.statement (kind.head spelling).toList := by
  cases kind with
  | element name attributes spreads =>
    simp only [NodeKind.isPrintable, Bool.and_eq_true, List.isEmpty_iff] at h
    obtain ⟨⟨hname, rfl⟩, rfl⟩ := h
    exact lineOf_tag hname
  | text value => exact lineOf_text h
  | code value buffered escaped =>
    simp only [NodeKind.isPrintable, Bool.and_eq_true, isPhrase_iff] at h
    obtain ⟨hvalue, hescaped⟩ := h
    cases buffered with
    | true => exact lineOf_buffered hvalue escaped
    | false =>
      obtain rfl : escaped = false := by simpa using hescaped
      exact lineOf_code hvalue
  | each item key collection =>
    simp only [NodeKind.isPrintable, Bool.and_eq_true, isPhrase_iff] at h
    obtain ⟨⟨⟨hitem, hkey⟩, hbindings⟩, hcollection⟩ := h
    have hnames : Legible (NodeKind.bindings item key).toList := by
      refine legible_bindings (isLoopVariable_iff.mp hitem).1 fun name hname => ?_
      rw [hname, Option.all_some] at hkey
      exact (isLoopVariable_iff.mp hkey).1
    have hin : Legible (NodeKind.bindings item key ++ (" in " ++ collection)).toList := by
      rw [String.toList_append, String.toList_append]
      exact .append hnames.single hnames.head (by simpa using hcollection.single) (by simp)
        (hcollection.last.append_left _ hcollection.ne_nil)
    have hheader : loopHeader? (NodeKind.bindings item key ++ (" in " ++ collection)).toList =
        some (.each item key collection) := by
      rw [String.toList_append, String.toList_append]
      exact loopHeader?_bindings hitem hkey hbindings hcollection
    rw [NodeKind.head, String.append_assoc, String.append_assoc]
    exact lineOf_loop hin spelling.forLoops hheader rfl
  | loop test => exact lineOf_while (isPhrase_iff.mp h)
  | conditional test negated => exact lineOf_conditional (isPhrase_iff.mp h) negated
  | inclusion target through =>
    simp only [NodeKind.isPrintable, Bool.and_eq_true, isPhrase_iff, Option.isNone_iff_eq_none] at h
    obtain ⟨htarget, rfl⟩ := h
    exact lineOf_include htarget
  | region name mode =>
    simp only [NodeKind.isPrintable, Bool.and_eq_true, isPhrase_iff, Bool.or_eq_true,
      bne_iff_ne] at h
    obtain ⟨hname, hmode⟩ := h
    cases mode with
    | replace => exact lineOf_block hname (by simpa using hmode)
    | append => exact lineOf_mode hname spelling.shortRegions (by decide)
    | prepend => exact lineOf_mode hname spelling.shortRegions (by decide)
  | mixin name args =>
    simp only [NodeKind.isPrintable, Bool.and_eq_true] at h
    obtain ⟨hname, hargs⟩ := h
    cases args with
    | none =>
      obtain ⟨hcall, hnone⟩ := callArguments?_name hname
      have hmixin := lineOf_mixin (legible_mixinName hname) hcall (isMixinName_iff.mp hname).1
      rwa [hnone] at hmixin
    | some args =>
      obtain ⟨hcall, hsome⟩ := callArguments?_append hname hargs
      obtain ⟨hsingle, -⟩ := isArguments_iff.mp hargs
      have hlegible := legible_mixinName hname
      have hjoined : (name ++ "(" ++ args ++ ")").toList =
          name.toList ++ '(' :: (args.toList ++ [')']) := by simp
      have hhead : NodeKind.head spelling (.mixin name (some args)) =
          "mixin " ++ (name ++ "(" ++ args ++ ")") := by simp [NodeKind.head, String.append_assoc]
      rw [← hjoined] at hcall hsome
      have hsignature : Legible (name ++ "(" ++ args ++ ")").toList := by
        rw [hjoined]
        refine .append hlegible.single hlegible.head (by simp [hsingle]) (by simp) fun c hc => ?_
        rw [← List.cons_append, List.getLast?_concat] at hc
        exact Option.some.inj hc ▸ by decide
      have hmixin := lineOf_mixin hsignature hcall hlegible.ne_nil
      rwa [hsome, String.ofList_toList, ← hhead] at hmixin
  | _ => cases h

end PugContracts.Template
