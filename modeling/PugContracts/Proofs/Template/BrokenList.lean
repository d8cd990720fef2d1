import PugContracts.Proofs.Template.ElementLine
import PugContracts.Proofs.Template.Indentation
import PugContracts.Proofs.Template.Numbering
import PugContracts.Proofs.Template.Renumbering
import PugContracts.Proofs.Template.Respelling

/-!
# Attribute lists over several lines

A tag whose list is not closed on its line takes the next line, however deep that is, and the text
is read again from its start. So a list that is broken is read over and over, each time with one
more line, and each time but the last the reading ends in the middle of the list. The last time the
text is the one that would have stood on one line, except for newlines between the attributes.

Then the statement is the same, with the same lines left, and these have other numbers. That these
numbers are the only difference in the whole template holds for two reasons: reading commutes with
a change of numbers (`Reads.renumber`), and it does not see which lines a statement was read from
(`Reads.respell`).

## Main results

* `ElementLine.exists_respells`: the lines of a broken list say what the one line says.
* `parse_broken`: breaking an attribute list changes nothing but the numbers of later lines.
-/

namespace PugContracts.Template

open Scan (Through)
open Statement (isTagChar)

variable {more : List Char}

/-! ### Lines -/

/-- The text of a line that is read behind its indentation. -/
theorem trimEnd_ofText {blanks : List Char} (hblanks : ∀ c ∈ blanks, isIndentation c = true)
    (hhead : ∃ c rest, more = c :: rest ∧ Text.isBlank c = false) (number : Nat) :
    (SourceLine.ofText number (blanks ++ more)).number = number ∧
      (SourceLine.ofText number (blanks ++ more)).indent = blanks.length ∧
      (SourceLine.ofText number (blanks ++ more)).isBlank = false ∧
      Text.trimEnd (SourceLine.ofText number (blanks ++ more)).text = Text.trimEnd more := by
  obtain ⟨c, rest, rfl, hc⟩ := hhead
  have hindent : isIndentation c = false := Bool.eq_false_iff.mpr fun h =>
    Bool.false_ne_true (hc.symm.trans (isBlank_of_isIndentation h))
  have hreturn : '\r' ∉ [c] := by
    rintro hmem
    rw [← List.mem_singleton.mp hmem] at hc
    cases hc
  rw [ofText_append hblanks (by simpa using hindent)]
  refine ⟨rfl, rfl, ?_, Text.trimEnd_dropReturn _⟩
  rw [SourceLine.isBlank, ← List.singleton_append, Text.dropReturn_append hreturn]
  simp [Text.isAllBlank, hc]

namespace Statement

variable {acc cur text joined : List Char} {count : Nat}

/-- A tag whose list is not closed. -/
def IsOpenTag (text : List Char) : Prop :=
  ∃ tag inner, IsTagText tag ∧ Through (fun _ => true) .start inner .start ∧
    text = tag ++ '(' :: inner

theorem IsOpenTag.append (h : IsOpenTag text) (hmore : Through (fun _ => true) .start more .start) :
    IsOpenTag (text ++ more) := by
  obtain ⟨tag, inner, htag, hinner, rfl⟩ := h
  exact ⟨tag, inner ++ more, htag, hinner.append hmore, by simp⟩

theorem IsOpenTag.ofText_eq (h : IsOpenTag text) : TagHead.ofText text = .error .unclosed := by
  obtain ⟨tag, inner, htag, hinner, rfl⟩ := h
  obtain ⟨name, parts, hread⟩ := htag.exists_ofText
  rw [hread _ (by simp [show isTagChar '(' = false from rfl]), TagPart.readAll_open hinner]
  rfl

/-- Reading on behind `acc`, the lines of `text` are all taken, and `joined` is then what was read
of them. -/
def Absorbs (acc text joined : List Char) (count : Nat) : Prop :=
  ∃ first others, Text.newlinePieces text = first :: others ∧ others.length = count ∧
    ∀ number after,
      readTag (acc ++ Text.trimEnd first) (SourceLine.numberFrom number others ++ after) =
        readTag (acc ++ joined) after

/-- A text on one line. -/
theorem absorbs_single (acc : List Char) (hsingle : '\n' ∉ text) :
    Absorbs acc text (Text.trimEnd text) 0 :=
  ⟨text, [], Text.newlinePieces_eq_singleton hsingle, rfl, fun _ _ => rfl⟩

/-- The lines before were read as `acc`, and `cur` is the line up to a place where the list may be
broken. -/
structure Pending (acc cur : List Char) : Prop where
  /-- The list is not closed. -/
  isOpenTag : IsOpenTag (acc ++ cur)
  /-- The line does not end in a blank. -/
  ends : Text.EndsUnblank cur
  /-- It is one line. -/
  single : '\n' ∉ cur

namespace Pending

theorem comma (h : Pending acc cur) : Pending acc (cur ++ [',']) := by
  have hcomma : Through (fun _ => true) .start [','] .start :=
    Scan.through_of_all rfl (Int.le_refl 0)
  refine ⟨by simpa using h.isOpenTag.append hcomma, ?_, by simp [h.single]⟩
  exact Text.EndsUnblank.append_left cur (by simp) fun c hc => by cases hc; rfl

/-- The next attribute stands on the same line. -/
theorem stay (h : Pending acc cur) {kept : List Char} (hkept : ∀ c ∈ kept, c = ' ')
    (assignment : Assignment) : Pending acc (cur ++ (kept ++ assignment.text)) := by
  have hassignment := assignment.enclosable
  have hblank : ∀ c ∈ kept, Text.isBlank c = true := fun c hc => by rw [hkept c hc]; rfl
  have hline : '\n' ∉ kept := fun hmem => by cases hkept _ hmem
  have hopen := h.isOpenTag.append ((through_of_blank hblank).append hassignment.through)
  have hends := assignment.last.append_left kept (by simp [Assignment.text])
  exact ⟨by simpa using hopen, hends.append_left cur (by simp [Assignment.text]),
    by simp [h.single, hline, hassignment.single]⟩

/-- The next attribute stands on the next line. -/
theorem next (h : Pending acc cur) (assignment : Assignment) :
    Pending (acc ++ cur ++ ['\n']) assignment.text := by
  have hnewline : Through (fun _ => true) .start ['\n'] .start :=
    Scan.through_of_all rfl (Int.le_refl 0)
  have hassignment := assignment.enclosable
  exact ⟨(h.isOpenTag.append hnewline).append hassignment.through, assignment.last,
    hassignment.single⟩

/-- A line that ends in a tag that is not closed takes the next line. -/
theorem absorbs_break (h : Pending acc cur) (lineBreak : Break)
    (hhead : ∃ c rest, text = c :: rest ∧ Text.isBlank c = false)
    (hnext : Absorbs (acc ++ cur ++ ['\n']) text joined count) :
    Absorbs acc (cur ++ (lineBreak.text ++ text)) (cur ++ '\n' :: joined) (count + 1) := by
  obtain ⟨first, others, hpieces, hlength, hread⟩ := hnext
  obtain ⟨ending, hending, hblank, htext⟩ : ∃ ending : List Char, '\n' ∉ ending ∧
      (∀ c ∈ ending, Text.isBlank c = true) ∧
        lineBreak.text = ending ++ '\n' :: lineBreak.indentation := by
    refine ⟨if lineBreak.crlf then ['\r'] else [], ?_, ?_, rfl⟩
    · split <;> decide
    · split
      · exact List.forall_mem_singleton.mpr rfl
      · exact List.forall_mem_nil _
  have hindentation : '\n' ∉ lineBreak.indentation := fun hmem => by
    cases lineBreak.blanks _ hmem
  have hfirst : ∃ c rest, first = c :: rest ∧ Text.isBlank c = false := by
    obtain ⟨c, rest, rfl, hc⟩ := hhead
    have hline : '\n' ∉ [c] := by
      rintro hmem
      rw [← List.mem_singleton.mp hmem] at hc
      cases hc
    obtain ⟨piece, pieces, hcut⟩ := Text.exists_newlinePieces_append hline rest
    exact ⟨c, piece, (List.cons.inj (hpieces.symm.trans hcut)).1, hc⟩
  refine ⟨cur ++ ending, (lineBreak.indentation ++ first) :: others, ?_, by simp [hlength],
    fun number after => ?_⟩
  · rw [htext, List.append_assoc, ← List.append_assoc, List.cons_append,
      Text.newlinePieces_append_newline, Text.newlinePieces_append hindentation, hpieces,
      Text.newlinePieces_eq_singleton (by simp [h.single, hending])]
    rfl
  · obtain ⟨-, -, -, hline⟩ := trimEnd_ofText lineBreak.blanks hfirst number
    rw [Text.trimEnd_append_blanks hblank, Text.trimEnd_eq_self h.ends, SourceLine.numberFrom,
      List.cons_append, readTag, hline]
    · simpa only [List.append_assoc, List.singleton_append] using hread (number + 1) after
    · exact h.isOpenTag.ofText_eq

/-- A place where the list may be broken. -/
theorem absorbs (h : Pending acc cur) {kept : List Char} (lineBreak? : Option Break)
    (hhead : ∃ c rest, text = c :: rest ∧ Text.isBlank c = false)
    (hstay : Absorbs acc (cur ++ (kept ++ text)) (cur ++ (kept ++ joined)) count)
    (hnext : Absorbs (acc ++ cur ++ ['\n']) text joined count) :
    Absorbs acc (cur ++ (Filling.broken kept lineBreak? ++ text))
      (cur ++ (Filling.joined kept lineBreak? ++ joined))
      (count + if lineBreak?.isSome then 1 else 0) := by
  cases lineBreak? with
  | none => exact hstay
  | some lineBreak => exact h.absorbs_break lineBreak hhead hnext

/-- A place where the list may be broken, and the attribute behind it. -/
theorem absorbs_attribute (h : Pending acc cur) {kept : List Char} (hkept : ∀ c ∈ kept, c = ' ')
    (lineBreak? : Option Break) (assignment : Assignment)
    (hrest : ∀ {acc cur}, Pending acc cur → Absorbs acc (cur ++ text) (cur ++ joined) count) :
    Absorbs acc (cur ++ (Filling.broken kept lineBreak? ++ (assignment.text ++ text)))
      (cur ++ (Filling.joined kept lineBreak? ++ (assignment.text ++ joined)))
      (count + if lineBreak?.isSome then 1 else 0) := by
  obtain ⟨c, more, htext, hc⟩ := assignment.head
  have hstay := hrest (h.stay hkept assignment)
  simp only [List.append_assoc] at hstay
  exact h.absorbs lineBreak? ⟨c, _, by rw [htext]; rfl, hc⟩ hstay (hrest (h.next assignment))

/-- The lines from an attribute on are all taken. -/
theorem absorbs_further (h : Pending acc cur) (closing : Option Break) {rest : List Char}
    (hrest : '\n' ∉ rest) (others : List (Option Break × Assignment)) :
    Absorbs acc
      (cur ++ (others.flatMap (furtherAttribute .broken) ++
        (Filling.broken [] closing ++ ')' :: rest)))
      (cur ++ (others.flatMap (furtherAttribute .joined) ++
        (Filling.joined [] closing ++ ')' :: Text.trimEnd rest)))
      ((others.map Prod.fst ++ [closing]).countP Option.isSome) := by
  induction others generalizing acc cur with
  | nil =>
    have hclose : ∀ before : List Char, Text.trimEnd (before ++ ')' :: rest) =
        before ++ ')' :: Text.trimEnd rest := fun before =>
      Text.trimEnd_append_cons (by decide) before rest
    have hline : '\n' ∉ cur ++ ([] ++ ')' :: rest) := by simp [h.single, hrest]
    have hlast : '\n' ∉ [] ++ ')' :: rest := by simp [hrest]
    have hstay := absorbs_single acc hline
    have hnext := absorbs_single (acc ++ cur ++ ['\n']) hlast
    rw [List.nil_append, hclose] at hstay
    rw [hclose] at hnext
    simpa using h.absorbs closing ⟨')', rest, rfl, by decide⟩ hstay hnext
  | cons other others ih =>
    have hother := h.comma.absorbs_attribute (List.forall_mem_singleton.mpr rfl) other.1 other.2 ih
    simpa [furtherAttribute, List.countP_cons] using hother

end Pending

/-- **All lines of a broken list are taken.** -/
theorem absorbs_text (line : ElementLine) :
    Absorbs [] (line.text .broken)
      (line.tag ++ '(' :: (line.list .joined ++ ')' :: Text.trimEnd line.rest)) line.breaks := by
  have htag := line.isElementTag.isTagText
  have hpending : Pending [] (line.tag ++ ['(']) :=
    ⟨⟨line.tag, [], htag, .nil _, rfl⟩,
      Text.EndsUnblank.append_left line.tag (by simp) fun c hc => by cases hc; rfl,
      by simp [htag.single]⟩
  have hfirst := hpending.absorbs_attribute (List.forall_mem_nil _) line.opening line.first fun h =>
    h.absorbs_further line.closing line.single line.others
  simpa [ElementLine.text, ElementLine.list, ElementLine.breaks, List.countP_cons] using hfirst

/-- Tags that are read alike whatever follows them are so over several lines, too. -/
theorem readTag_congr {other : List Char}
    (h : ∀ more, TagHead.ofText (text ++ more) = TagHead.ofText (other ++ more))
    (more : List Char) (lines : List SourceLine) :
    readTag (text ++ more) lines = readTag (other ++ more) lines := by
  induction lines generalizing more with
  | nil =>
    rw [(readTag_cases _ []).resolve_right (Nat.not_lt_zero _),
      (readTag_cases _ []).resolve_right (Nat.not_lt_zero _), h]
  | cons next rest ih =>
    have hnext := ih (more ++ '\n' :: Text.trimEnd next.text)
    rw [← List.append_assoc, ← List.append_assoc] at hnext
    by_cases hopen : TagHead.ofText (text ++ more) = .error .unclosed
    · rw [readTag, readTag]
      · exact hnext
      · rw [← h, hopen]
      · exact hopen
    · rw [readTag_of_closed hopen, readTag_of_closed (h more ▸ hopen), h]

/-- **A tag with a list** is the same tag however the list is filled. -/
theorem ofText_list_congr (line : ElementLine) {fill fill' : Filling} (hfill : fill.Neutral)
    (hfill' : fill'.Neutral) (more : List Char) :
    TagHead.ofText (line.tag ++ '(' :: (line.list fill ++ ')' :: more)) =
      TagHead.ofText (line.tag ++ '(' :: (line.list fill' ++ ')' :: more)) := by
  obtain ⟨name, parts, hread⟩ := line.isElementTag.isTagText.exists_ofText
  have hends : ∀ tail : List Char, ∀ c ∈ ('(' :: tail).head?, isTagChar c = false := by
    simp [show isTagChar '(' = false from rfl]
  rw [hread _ (hends _), hread _ (hends _), TagPart.readAll_list (line.through_list hfill),
    TagPart.readAll_list (line.through_list hfill'), line.attributes_list hfill,
    line.attributes_list hfill']

/-- Elements with the same tag are the same statement. -/
theorem read_congr {number indent : Nat} {other : List Char} {lines lines' : List SourceLine}
    (hsimple : simple? number indent (Text.trimEnd text) lines = none)
    (hother : simple? number indent (Text.trimEnd other) lines' = none)
    (h : readTag (Text.trimEnd text) lines = readTag (Text.trimEnd other) lines') :
    read number indent text lines = read number indent other lines' := by
  have helement : element number indent (Text.trimEnd text) lines =
      element number indent (Text.trimEnd other) lines' := by
    rw [element, element, h]
  cases hresult : element number indent (Text.trimEnd other) lines' with
  | done reading =>
    rw [read_eq_of_done hsimple (helement.trans hresult), read_eq_of_done hother hresult]
  | expansion node inner rest =>
    rw [read_eq_of_expansion hsimple (helement.trans hresult), read_eq_of_expansion hother hresult]

end Statement

/-! ### Templates -/

/-- A template without one of its lines. -/
structure Frame where
  /-- The lines before it. -/
  before : List (List Char)
  /-- How far the line is indented. -/
  indentation : List Char
  /-- The lines after it. -/
  after : List (List Char)
  /-- The lines before it are lines. -/
  single : ∀ text ∈ before, '\n' ∉ text
  /-- The indentation is spaces and tabs. -/
  blanks : ∀ c ∈ indentation, isIndentation c = true

namespace Frame

variable (frame : Frame)

/-- The template in which the text is the line that is missing. -/
def source (text : List Char) : String :=
  String.ofList (['\n'].intercalate
    (frame.before ++ (frame.indentation ++ text) :: frame.after))

/-- The number of the line. -/
def number : Nat :=
  frame.before.length + 1

/-- The number of a line if the line that is missing is broken `count` times. -/
def shift (count n : Nat) : Nat :=
  if n ≤ frame.number then n else n + count

/-- The lines after the one that is missing. -/
def linesAfter (count : Nat) : List SourceLine :=
  SourceLine.numberFrom (frame.number + 1 + count) (frame.after.flatMap Text.newlinePieces)

/-- The lines of a template. -/
theorem ofSource_source {text first : List Char} {others : List (List Char)}
    (h : Text.newlinePieces text = first :: others) :
    SourceLine.ofSource (frame.source text).toList =
      SourceLine.numberFrom 1 frame.before ++
        SourceLine.ofText frame.number (frame.indentation ++ first) ::
          (SourceLine.numberFrom (frame.number + 1) others ++ frame.linesAfter others.length) := by
  have hindentation : '\n' ∉ frame.indentation := fun hmem => by cases frame.blanks _ hmem
  rw [SourceLine.ofSource, source, String.toList_ofList, Text.newlinePieces_intercalate (by simp),
    List.flatMap_append, Text.flatMap_newlinePieces frame.single, List.flatMap_cons,
    Text.newlinePieces_append hindentation, h, List.modifyHead_cons,
    SourceLine.numberFrom_append, List.cons_append, SourceLine.numberFrom,
    SourceLine.numberFrom_append, linesAfter, Nat.add_comm 1]
  rfl

end Frame

/-- A statement starts on the line of a template. -/
def StartsOn (source : String) (number : Nat) : Prop :=
  ∃ starts, Passes none 0 (SourceLine.ofSource source.toList) starts [] ∧
    ∃ start ∈ starts, start.line.number = number

/-- A line is where its number says. -/
theorem eq_of_number_eq {before after taken : List SourceLine} {line : SourceLine} {start : Start}
    (hbefore : ∀ other ∈ before, other.number < line.number)
    (hafter : ∀ other ∈ after, line.number < other.number)
    (h : before ++ line :: after = taken ++ start.line :: start.after)
    (hnumber : start.line.number = line.number) :
    taken = before ∧ start = ⟨line, after⟩ := by
  rcases List.append_eq_append_iff.mp h with ⟨between, htaken, hline⟩ | ⟨between, hlong, hline⟩
  · cases between with
    | nil =>
      obtain ⟨hfirst, hrest⟩ := List.cons.inj hline
      exact ⟨by simpa using htaken, by rw [hfirst, hrest]⟩
    | cons other between =>
      obtain ⟨-, hrest⟩ := List.cons.inj hline
      have := hafter start.line (by rw [hrest]; simp)
      omega
  · cases between with
    | nil =>
      obtain ⟨hfirst, hrest⟩ := List.cons.inj hline
      exact ⟨by simpa using hlong.symm, by rw [← hfirst, ← hrest]⟩
    | cons other between =>
      obtain ⟨hfirst, -⟩ := List.cons.inj hline
      have := hbefore start.line (by rw [hlong, hfirst]; simp)
      omega

theorem ElementLine.single_oneLine (line : ElementLine) : '\n' ∉ line.text .oneLine := by
  have hothers : '\n' ∉ line.others.flatMap (furtherAttribute .oneLine) := by
    intro hmem
    obtain ⟨other, -, hmem⟩ := List.mem_flatMap.mp hmem
    simp [furtherAttribute, Filling.oneLine, other.2.enclosable.single] at hmem
  simp [ElementLine.text, ElementLine.list, Filling.oneLine, hothers, line.single,
    line.isElementTag.isTagText.single, line.first.enclosable.single]

/-- The end of a line that has been opened with the tag and the parenthesis. -/
theorem ElementLine.trimEnd_open (line : ElementLine) (tail : List Char) :
    Text.trimEnd (line.tag ++ '(' :: tail) = line.tag ++ '(' :: Text.trimEnd tail :=
  Text.trimEnd_append_cons (by decide) line.tag tail

/-- A tag whose lines have been joined by newlines is that of the one line. -/
theorem ElementLine.readTag_joined (line : ElementLine) (after : List SourceLine) :
    Statement.readTag
        (line.tag ++ '(' :: (line.list .joined ++ ')' :: Text.trimEnd line.rest)) after =
      Statement.readTag (Text.trimEnd (line.text .oneLine)) after := by
  have htags : ∀ more : List Char,
      TagHead.ofText (line.tag ++ '(' :: (line.list .joined ++ [')']) ++ more) =
        TagHead.ofText (line.tag ++ '(' :: (line.list .oneLine ++ [')']) ++ more) := by
    intro more
    simpa using Statement.ofText_list_congr line Filling.neutral_joined Filling.neutral_oneLine more
  have htrim : Text.trimEnd (line.list .oneLine ++ ')' :: line.rest) =
      line.list .oneLine ++ ')' :: Text.trimEnd line.rest :=
    Text.trimEnd_append_cons (by decide) _ _
  rw [ElementLine.text, line.trimEnd_open, htrim]
  simpa using Statement.readTag_congr htags (Text.trimEnd line.rest) after

/-- **The lines of a broken list** say what the one line says. -/
theorem ElementLine.exists_respells (line : ElementLine) :
    ∃ first others, Text.newlinePieces (line.text .broken) = first :: others ∧
      others.length = line.breaks ∧
      ∀ (number : Nat) (blanks : List Char) (after : List SourceLine),
        (∀ c ∈ blanks, isIndentation c = true) →
        let whole := SourceLine.ofText number (blanks ++ line.text .oneLine) :: after
        let broken := SourceLine.ofText number (blanks ++ first) ::
          (SourceLine.numberFrom (number + 1) others ++ after)
        SameStart whole broken ∧ Respells whole broken := by
  obtain ⟨first, others, hpieces, hlength, hread⟩ := Statement.absorbs_text line
  refine ⟨first, others, hpieces, hlength, fun number blanks after hblanks => ?_⟩
  have htag := line.isElementTag.isTagText
  obtain ⟨c, more, hcons, -⟩ := htag.head
  have hc : Text.isBlank c = false := htag.not_isBlank c (hcons ▸ List.mem_cons_self)
  have hsingle : '\n' ∉ line.tag ++ ['('] := by simp [htag.single]
  obtain ⟨piece, pieces, hcut⟩ :=
    Text.exists_newlinePieces_append hsingle (line.list .broken ++ ')' :: line.rest)
  obtain rfl : line.tag ++ '(' :: piece = first := by
    rw [List.append_assoc] at hcut
    simpa using (List.cons.inj (hcut.symm.trans hpieces)).1
  -- both texts start with the tag and the parenthesis
  have hhead : ∀ tail : List Char, ∃ d rest, line.tag ++ '(' :: tail = d :: rest ∧
      Text.isBlank d = false := fun tail => ⟨c, _, by rw [hcons]; rfl, hc⟩
  have hwhole : ∃ d rest, line.text .oneLine = d :: rest ∧ Text.isBlank d = false := hhead _
  obtain ⟨hnumber, hindent, hblank, htext⟩ := trimEnd_ofText hblanks hwhole number
  obtain ⟨hnumber', hindent', hblank', htext'⟩ := trimEnd_ofText hblanks (hhead piece) number
  have hsame : Statement.readTag (Text.trimEnd (line.tag ++ '(' :: piece))
      (SourceLine.numberFrom (number + 1) others ++ after) =
        Statement.readTag (Text.trimEnd (line.text .oneLine)) after :=
    (hread (number + 1) after).trans (line.readTag_joined after)
  refine ⟨.cons (hindent'.trans hindent.symm) (hblank'.trans hblank.symm),
    .statement (hnumber'.trans hnumber.symm) (hindent'.trans hindent.symm) hblank hblank' ?_
      (.refl _)⟩
  unfold Start.reading
  dsimp only
  rw [hnumber, hnumber', hindent, hindent']
  refine Statement.read_congr ?_ ?_ ?_
  · rw [htext', line.trimEnd_open]
    exact line.isElementTag.simple?_eq_none _
  · rw [htext, ElementLine.text, line.trimEnd_open]
    exact line.isElementTag.simple?_eq_none _
  · rw [htext', htext]
    exact hsame

/-! ### Main result -/

/-- A template that says the same as another one, on other lines, is read alike. -/
theorem parse_of_respells {source source' : String} {f : Nat → Nat}
    (h : Respells ((SourceLine.ofSource source.toList).map (.renumber f))
      (SourceLine.ofSource source'.toList)) :
    parse source' = (parse source).renumber f := by
  obtain ⟨left, -, hreads⟩ :=
    ((reads_siblings none (firstIndent (SourceLine.ofSource source.toList)) []
      (SourceLine.ofSource source.toList)).renumber f).respell h
  have hindent := h.firstIndent_eq
  rw [firstIndent_renumber] at hindent
  rw [parse, block, hindent, (reads_siblings none _ [] _).unique hreads]
  rfl

/-- The lines of a template, numbered as if one of them were broken. -/
theorem Frame.renumber_ofSource (frame : Frame) {text : List Char} (hsingle : '\n' ∉ text)
    (count : Nat) :
    (SourceLine.ofSource (frame.source text).toList).map (.renumber (frame.shift count)) =
      SourceLine.numberFrom 1 frame.before ++
        SourceLine.ofText frame.number (frame.indentation ++ text) :: frame.linesAfter count := by
  have hbefore : (SourceLine.numberFrom 1 frame.before).map (.renumber (frame.shift count)) =
      SourceLine.numberFrom (1 + 0) frame.before :=
    SourceLine.renumber_numberFrom fun n _ hlt => if_pos (by rw [Frame.number]; omega)
  have hafter : (SourceLine.numberFrom (frame.number + 1)
        (frame.after.flatMap Text.newlinePieces)).map (.renumber (frame.shift count)) =
      frame.linesAfter count :=
    SourceLine.renumber_numberFrom fun n hle _ => if_neg (by omega)
  have hline : (SourceLine.ofText frame.number (frame.indentation ++ text)).renumber
      (frame.shift count) = SourceLine.ofText frame.number (frame.indentation ++ text) := by
    rw [SourceLine.renumber, SourceLine.ofText, Frame.shift, if_pos (Nat.le_refl _)]
  rw [frame.ofSource_source (Text.newlinePieces_eq_singleton hsingle), List.map_append,
    List.map_cons, hline, SourceLine.numberFrom, List.nil_append, Frame.linesAfter, hbefore]
  exact congrArg (_ ++ _ :: ·) hafter

/-- In a template, the line on which a statement starts can be replaced by lines that say the
same. -/
theorem Frame.respells (frame : Frame) {text text' first : List Char} {others : List (List Char)}
    (h : StartsOn (frame.source text) frame.number) (hsingle : '\n' ∉ text)
    (hpieces : Text.newlinePieces text' = first :: others)
    (hspelled : let after := frame.linesAfter others.length
      let whole := SourceLine.ofText frame.number (frame.indentation ++ text) :: after
      let broken := SourceLine.ofText frame.number (frame.indentation ++ first) ::
        (SourceLine.numberFrom (frame.number + 1) others ++ after)
      SameStart whole broken ∧ Respells whole broken) :
    Respells
      ((SourceLine.ofSource (frame.source text).toList).map
        (.renumber (frame.shift others.length)))
      (SourceLine.ofSource (frame.source text').toList) := by
  obtain ⟨starts, hpasses, start, hstart, hnumber⟩ := h
  obtain ⟨taken, htaken, hreplace⟩ :=
    (hpasses.renumber (frame.shift others.length)).respells (List.mem_map_of_mem hstart)
  rw [frame.renumber_ofSource hsingle] at htaken
  have hnumber' : (start.renumber (frame.shift others.length)).line.number = frame.number := by
    show frame.shift others.length start.line.number = frame.number
    rw [hnumber, Frame.shift, if_pos (Nat.le_refl _)]
  obtain ⟨rfl, heq⟩ := eq_of_number_eq (fun other hother => by
      have := SourceLine.number_of_mem_numberFrom hother
      show other.number < frame.number
      rw [Frame.number]
      omega) (fun other hother => by
      rw [Frame.linesAfter] at hother
      have := SourceLine.number_of_mem_numberFrom hother
      show frame.number < other.number
      omega) htaken hnumber'
  rw [heq] at hreplace
  rw [frame.ofSource_source hpieces]
  exact hreplace _ hspelled.1 hspelled.2

/-- **Breaking an attribute list over lines changes nothing else.** -/
theorem parse_broken (frame : Frame) (line : ElementLine)
    (h : StartsOn (frame.source (line.text .oneLine)) frame.number) :
    parse (frame.source (line.text .broken)) =
      (parse (frame.source (line.text .oneLine))).renumber (frame.shift line.breaks) := by
  obtain ⟨first, others, hpieces, hlength, hrespells⟩ := line.exists_respells
  rw [← hlength]
  exact parse_of_respells (frame.respells h line.single_oneLine hpieces
    (hrespells frame.number frame.indentation (frame.linesAfter others.length) frame.blanks))

/-- The line `a(href=f(x, y), title=t) z`, of which the list is broken behind the parenthesis and
behind the first attribute. -/
def linkLine : ElementLine where
  tag := "a".toList
  opening := some ⟨false, "      ".toList, List.all_eq_true.mp rfl⟩
  first :=
    { name := "href".toList
      value := "f(x, y)".toList
      named := ⟨by decide, List.all_eq_true.mp rfl⟩
      balanced := by
        have hword : IsOperand ['f'] := .word ⟨by decide, List.all_eq_true.mp rfl⟩
        have hinner : IsBalancedText "x, y".toList :=
          .char (by decide) (by decide) (.char (by decide) (by decide)
            (.char (by decide) (by decide) (.char (by decide) (by decide) .nil)))
        have hgroup : IsGroup ('(' :: ("x, y".toList ++ [')'])) := .bracketed rfl rfl hinner
        exact (hword.call hgroup).unbroken.through
      ne_nil := by decide
      single := by decide }
  others :=
    [(some ⟨true, "\t".toList, List.all_eq_true.mp rfl⟩,
      { name := "title".toList
        value := "t".toList
        named := ⟨by decide, List.all_eq_true.mp rfl⟩
        balanced := (IsOperand.word ⟨by decide, List.all_eq_true.mp rfl⟩).unbroken.through
        ne_nil := by decide
        single := by decide })]
  closing := none
  rest := " z".toList
  isElementTag := ⟨.name rfl rfl, by decide, by decide⟩
  single := by decide

/-- A list with a link and its content, and a paragraph after it. -/
def linkFrame : Frame where
  before := ["ul".toList]
  indentation := "  ".toList
  after := ["    b".toList, "p".toList]
  single := by decide
  blanks := List.all_eq_true.mp rfl

example : linkFrame.source (linkLine.text .oneLine) =
    "ul\n  a(href=f(x, y), title=t) z\n    b\np" := by
  decide

example : linkFrame.source (linkLine.text .broken) =
    "ul\n  a(\n      href=f(x, y),\r\n\ttitle=t) z\n    b\np" := by
  decide

/-- The list of a nested element is broken. -/
theorem parse_broken_link :
    StartsOn (linkFrame.source (linkLine.text .oneLine)) linkFrame.number ∧
      parse (linkFrame.source (linkLine.text .broken)) =
        (parse (linkFrame.source (linkLine.text .oneLine))).renumber
          (linkFrame.shift linkLine.breaks) := by
  have hstarts : StartsOn (linkFrame.source (linkLine.text .oneLine)) linkFrame.number := by
    have hlines : SourceLine.ofSource (linkFrame.source (linkLine.text .oneLine)).toList =
        [⟨1, 0, "ul".toList⟩, ⟨2, 2, "a(href=f(x, y), title=t) z".toList⟩, ⟨3, 4, "b".toList⟩,
          ⟨4, 0, "p".toList⟩] := by decide +kernel
    -- the first line leaves the others, and then the element starts
    have hfirst : ∀ after, (Start.mk ⟨1, 0, "ul".toList⟩ after).reading.rest = after := by
      intro after
      have hread : Statement.read 1 0 "ul".toList after = _ := Statement.read_tag (by decide)
      exact congrArg StatementReading.rest hread
    have hsecond : ∀ after, ∃ starts, Passes none 0
        (⟨2, 2, "a(href=f(x, y), title=t) z".toList⟩ :: after)
        (⟨⟨2, 2, "a(href=f(x, y), title=t) z".toList⟩, after⟩ :: starts) [] := fun after => by
      obtain ⟨starts, hpasses⟩ := exists_passes (Start.mk _ after).reading.rest
      exact ⟨starts, .statement rfl rfl hpasses⟩
    obtain ⟨starts, hpasses⟩ := hsecond [⟨3, 4, "b".toList⟩, ⟨4, 0, "p".toList⟩]
    rw [← hfirst (_ :: _)] at hpasses
    rw [StartsOn, hlines]
    exact ⟨_, .statement rfl rfl hpasses, _, List.mem_cons_of_mem _ List.mem_cons_self, rfl⟩
  exact ⟨hstarts, parse_broken linkFrame linkLine hstarts⟩

end PugContracts.Template
