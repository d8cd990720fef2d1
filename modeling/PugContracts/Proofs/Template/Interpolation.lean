import PugContracts.Proofs.Scan.Group
import PugContracts.Template.Interpolation

/-!
# Interpolated text

Splitting a text goes from left to right, with the literal text since the last expression in hand.
Whether a marker starts an expression is seen from the text alone, though: it does if a brace
follows it, no backslash stands before it, and it is not inside of an expression that started before
it (`StartsAt`). So the result can be said without going through the text, both ways: segments that
are written out are found again, and what is refused is the first expression that is not closed.

## Main results

* `splitFrom_written`: segments in normal form are found again.
* `splitFrom_eq_error_iff`: where a text is refused.
* `splits_or_locates`: both, for whole texts.
-/

namespace PugContracts

namespace Template

namespace Segment

variable {text literal value after rest : List Char} {c : Char} {segments : List Segment}
  {offset i j k : Nat}

/-! ### Reading -/

/-- Whether an interpolation could start with the text: a marker and a brace. -/
def opens : List Char → Bool
  | marker :: '{' :: _ => isMarker marker
  | _ => false

theorem exists_of_opens (h : opens text = true) :
    ∃ marker tail, text = marker :: '{' :: tail ∧ isMarker marker = true := by
  rw [opens.eq_def] at h
  split at h
  · exact ⟨_, _, rfl, h⟩
  · cases h

@[simp] theorem opens_brace (marker : Char) (tail : List Char) :
    opens (marker :: '{' :: tail) = isMarker marker := rfl

theorem opens_cons_of_not_isMarker (h : isMarker c = false) (rest : List Char) :
    opens (c :: rest) = false := by
  rw [opens.eq_def]
  split
  · next heq =>
    cases heq
    exact h
  · rfl

/-- A character that starts no interpolation and takes away no marker's meaning is literal. -/
theorem splitFrom_cons (h : opens (c :: rest) = false) (hescape : c = '\\' → opens rest = false)
    (offset : Nat) (literal : List Char) :
    splitFrom offset literal (c :: rest) =
      splitFrom (offset + c.utf8Size) (c :: literal) rest := by
  rw [splitFrom.eq_def]
  split
  · next heq => cases heq
  · next marker tail heq =>
    cases heq
    have hmarker := hescape rfl
    rw [opens_brace] at hmarker
    rw [if_neg (Bool.eq_false_iff.mp hmarker)]
    rfl
  · next marker tail hnot heq =>
    cases heq
    rw [opens_brace] at h
    rw [if_neg (Bool.eq_false_iff.mp h)]
  · next heq =>
    cases heq
    rfl

/-- The backslash before a marker is dropped. -/
theorem splitFrom_escaped (h : opens (c :: rest) = true) (offset : Nat) (literal : List Char) :
    splitFrom offset literal ('\\' :: c :: rest) = splitFrom (offset + 2) (c :: literal) rest := by
  obtain ⟨marker, tail, heq, hmarker⟩ := exists_of_opens h
  cases heq
  rw [splitFrom, if_pos hmarker, splitFrom_cons (opens_cons_of_not_isMarker rfl tail)
    (fun heq => absurd heq (by decide))]
  rfl

/-- What comes of a marker without a backslash before it. -/
theorem splitFrom_opens (h : opens (c :: rest) = true) (offset : Nat) (literal : List Char) :
    splitFrom offset literal (c :: rest) =
      match Scan.group? rest with
      | none => .error offset
      | some (value, after) =>
        (splitFrom (offset + 3 + Text.byteLength value) [] after).map fun segments =>
          consLiteral literal.reverse (.expression (Text.trim value) (c == '#') :: segments) := by
  obtain ⟨marker, tail, heq, hmarker⟩ := exists_of_opens h
  cases heq
  have hslash : c ≠ '\\' := by
    rintro rfl
    cases hmarker
  rw [splitFrom.eq_3 _ _ _ _ fun _ heq => absurd heq hslash, if_pos hmarker]
  cases Scan.group? ('{' :: tail) <;> rfl

/-! ### Segments in normal form -/

/-- Literal text with a backslash before each marker. -/
def escapeMarkers : List Char → List Char
  | [] => []
  | c :: rest =>
    if opens (c :: rest) then '\\' :: c :: escapeMarkers rest else c :: escapeMarkers rest

/-- How a segment is written. -/
def written : Segment → List Char
  | .literal text => escapeMarkers text
  | .expression value escaped => (if escaped then '#' else '!') :: '{' :: (value ++ ['}'])

/-- Segments as splitting finds them. A literal is not empty, and an expression or nothing follows
it, an expression only if the literal does not end with a backslash; an expression is trimmed, and
the brace before it is closed by the one behind it. -/
def IsNormal : List Segment → Prop
  | [] => True
  | .literal text :: rest =>
    text ≠ [] ∧
      (∀ next ∈ rest.head?, (∃ value escaped, next = .expression value escaped) ∧
        text.getLast? ≠ some '\\') ∧
      IsNormal rest
  | .expression value _ :: rest =>
    Text.trim value = value ∧ Scan.group? ('{' :: (value ++ ['}'])) = some (value, []) ∧
      IsNormal rest

/-- What may follow a literal: nothing, or an interpolation that no backslash stands before. -/
def Follows (text after : List Char) : Prop :=
  after ≠ [] → opens after = true ∧ text.getLast? ≠ some '\\'

theorem Follows.tail (h : Follows (c :: rest) after) : Follows rest after := fun hafter => by
  obtain ⟨hopens, hlast⟩ := h hafter
  refine ⟨hopens, fun hrest => hlast ?_⟩
  rw [List.getLast?_cons, hrest]
  rfl

theorem opens_cons (c : Char) (cs : List Char) :
    opens (c :: cs) = (isMarker c && cs.head? == some '{') := by
  cases cs with
  | nil => simp [opens]
  | cons d tail =>
    by_cases hd : d = '{'
    · simp [hd]
    · simp [opens, hd]

theorem head?_escapeMarkers (h : Follows text after) :
    (escapeMarkers text ++ after).head? = some '{' ↔ text.head? = some '{' := by
  cases text with
  | nil =>
    cases after with
    | nil => rfl
    | cons c tail =>
      have hopens := (h (List.cons_ne_nil c tail)).1
      rw [opens_cons, Bool.and_eq_true] at hopens
      simp only [escapeMarkers, List.nil_append, List.head?_cons, Option.some.injEq,
        List.head?_nil, reduceCtorEq, iff_false]
      rintro rfl
      cases hopens.1
  | cons c rest =>
    rw [escapeMarkers]
    split_ifs with hopens
    · rw [opens_cons, Bool.and_eq_true] at hopens
      simp only [List.cons_append, List.head?_cons, Option.some.injEq]
      constructor
      · intro hslash
        cases hslash
      · rintro rfl
        cases hopens.1
    · rfl

theorem opens_cons_escapeMarkers (h : Follows rest after) (c : Char) :
    opens (c :: (escapeMarkers rest ++ after)) = opens (c :: rest) := by
  rw [opens_cons, opens_cons, Bool.eq_iff_iff]
  simp only [Bool.and_eq_true, beq_iff_eq, head?_escapeMarkers h]

/-- No marker without a backslash before it is left in what is written. -/
theorem opens_escapeMarkers (h : Follows text after) (htext : text ≠ []) :
    opens (escapeMarkers text ++ after) = false := by
  cases text with
  | nil => exact absurd rfl htext
  | cons c rest =>
    rw [escapeMarkers]
    split_ifs with hopens
    · exact opens_cons_of_not_isMarker rfl _
    · rw [List.cons_append, opens_cons_escapeMarkers h.tail]
      exact Bool.eq_false_iff.mpr hopens

/-- **A literal that is written out** is taken up again. -/
theorem splitFrom_escapeMarkers (h : Follows text after) (offset : Nat) (literal : List Char) :
    ∃ offset', splitFrom offset literal (escapeMarkers text ++ after) =
      splitFrom offset' (text.reverse ++ literal) after := by
  induction text generalizing offset literal with
  | nil => exact ⟨offset, rfl⟩
  | cons c rest ih =>
    have hcons := opens_cons_escapeMarkers h.tail c
    rw [escapeMarkers]
    split_ifs with hopens
    · obtain ⟨offset', hread⟩ := ih h.tail (offset + 2) (c :: literal)
      refine ⟨offset', ?_⟩
      rw [List.cons_append, List.cons_append, splitFrom_escaped (hcons.trans hopens), hread,
        List.reverse_cons, List.append_assoc]
      rfl
    · have hescape : c = '\\' → opens (escapeMarkers rest ++ after) = false := by
        rintro rfl
        cases rest with
        | nil =>
          cases after with
          | nil => rfl
          | cons d tail => exact absurd rfl (h (List.cons_ne_nil d tail)).2
        | cons d tail => exact opens_escapeMarkers h.tail (List.cons_ne_nil d tail)
      obtain ⟨offset', hread⟩ := ih h.tail (offset + c.utf8Size) (c :: literal)
      refine ⟨offset', ?_⟩
      rw [List.cons_append, splitFrom_cons (hcons.trans (Bool.eq_false_iff.mpr hopens)) hescape,
        hread, List.reverse_cons, List.append_assoc]
      rfl

/-- What splitting makes of the segments behind a literal text. -/
theorem splitFrom_expression (hgroup : Scan.group? ('{' :: (value ++ ['}'])) = some (value, []))
    (escaped : Bool) (offset : Nat) (literal : List Char) :
    splitFrom offset literal (written (.expression value escaped) ++ after) =
      (splitFrom (offset + 3 + Text.byteLength value) [] after).map fun segments =>
        consLiteral literal.reverse (.expression (Text.trim value) escaped :: segments) := by
  have hopens : ∀ marker, isMarker marker = true → (marker == '#') = escaped →
      splitFrom offset literal (marker :: '{' :: (value ++ ['}']) ++ after) =
        (splitFrom (offset + 3 + Text.byteLength value) [] after).map fun segments =>
          consLiteral literal.reverse (.expression (Text.trim value) escaped :: segments) := by
    intro marker hmarker hescaped
    rw [List.cons_append, List.cons_append,
      splitFrom_opens ((opens_brace marker (value ++ ['}'] ++ after)).trans hmarker),
      ← List.cons_append, Scan.group?_append_right hgroup after, hescaped]
    rfl
  cases escaped with
  | true => exact hopens '#' rfl rfl
  | false => exact hopens '!' rfl rfl

theorem follows_of_isNormal (h : IsNormal (.literal text :: segments)) :
    Follows text (segments.flatMap written) := fun hafter => by
  cases segments with
  | nil => exact absurd rfl hafter
  | cons next rest =>
    obtain ⟨⟨value, escaped, rfl⟩, hlast⟩ := h.2.1 next rfl
    refine ⟨?_, hlast⟩
    cases escaped <;> rfl

/-- **Segments in normal form that are written out** are found again, behind a literal text only if
they do not start with a literal themselves. -/
theorem splitFrom_written (h : IsNormal segments)
    (hliteral : (∃ text, segments.head? = some (.literal text)) → literal = []) (offset : Nat) :
    splitFrom offset literal (segments.flatMap written) =
      .ok (consLiteral literal.reverse segments) := by
  induction segments generalizing offset literal with
  | nil => rw [List.flatMap_nil, splitFrom]
  | cons segment rest ih =>
    cases segment with
    | literal text =>
      obtain rfl := hliteral ⟨text, rfl⟩
      obtain ⟨offset', hread⟩ := splitFrom_escapeMarkers (follows_of_isNormal h) offset []
      obtain ⟨htext, hnext, hrest⟩ := h
      have hexpression : (∃ other, rest.head? = some (.literal other)) → text.reverse = [] := by
        rintro ⟨other, hother⟩
        obtain ⟨⟨value, escaped, heq⟩, -⟩ := hnext _ hother
        cases heq
      have hfound := ih hrest hexpression offset'
      rw [List.flatMap_cons, written, hread, List.append_nil, hfound, List.reverse_reverse,
        consLiteral, if_neg (by simpa using htext)]
      rfl
    | expression value escaped =>
      obtain ⟨htrim, hgroup, hrest⟩ := h
      have hfound : ∀ offset, splitFrom offset [] (rest.flatMap written) = .ok rest :=
        ih hrest fun _ => rfl
      rw [List.flatMap_cons, splitFrom_expression hgroup, hfound, htrim]
      rfl

/-! ### Where an interpolation starts -/

/-- Where the group ends that the brace after the marker at `i` starts: the place behind its closing
bracket. -/
def closeAt? (text : List Char) (i : Nat) : Option Nat :=
  (Scan.group? (text.drop (i + 1))).map fun (value, _) => i + 3 + value.length

/-- An interpolation starts at `i`: a marker and a brace stand there, no backslash stands before
them, and every interpolation that started further ahead is closed by then. -/
def StartsAt (text : List Char) (i : Nat) : Prop :=
  opens (text.drop i) = true ∧ (text.take i).getLast? ≠ some '\\' ∧
    ∀ j, (_ahead : j < i) → StartsAt text j → ∀ k, closeAt? text j = some k → k ≤ i
termination_by i

theorem StartsAt.lt_length (h : StartsAt text i) : i < text.length := by
  rw [StartsAt] at h
  by_contra hle
  rw [List.drop_eq_nil_of_le (by omega)] at h
  cases h.1

/-- The first interpolation that is not closed starts at `i`. -/
structure FirstUnclosed (text : List Char) (i : Nat) : Prop where
  /-- An interpolation starts there. -/
  starts : StartsAt text i
  /-- Its brace has no match. -/
  unclosed : closeAt? text i = none
  /-- Every interpolation that starts further ahead is closed. -/
  first : ∀ j < i, StartsAt text j → closeAt? text j ≠ none

theorem FirstUnclosed.unique (hi : FirstUnclosed text i) (hj : FirstUnclosed text j) : i = j := by
  rcases Nat.lt_trichotomy i j with hlt | heq | hlt
  · exact absurd hi.unclosed (hj.first i hlt hi.starts)
  · exact heq
  · exact absurd hj.unclosed (hi.first j hlt hj.starts)

/-- A place of `text` that splitting comes to, with `before` ahead of it. -/
structure Settled (text before rest : List Char) : Prop where
  /-- The place stands in the text. -/
  eq : text = before ++ rest
  /-- Every interpolation that started ahead of it is closed ahead of it. -/
  closed : ∀ j < before.length, StartsAt text j →
    ∃ k, closeAt? text j = some k ∧ k ≤ before.length
  /-- No backslash ahead of it takes away its meaning. -/
  apart : opens rest = true → before.getLast? ≠ some '\\'

namespace Settled

variable {before : List Char}

theorem drop (h : Settled text before rest) : text.drop before.length = rest := by
  rw [h.eq, List.drop_left]

theorem drop_cons (h : Settled text before (c :: rest)) :
    text.drop (before.length + 1) = rest := by
  rw [← List.drop_drop, h.drop]
  rfl

theorem take (h : Settled text before rest) : text.take before.length = before := by
  rw [h.eq, List.take_left]

theorem start (text : List Char) : Settled text [] text where
  eq := rfl
  closed := fun _ hj => absurd hj (Nat.not_lt_zero _)
  apart := fun _ hlast => by cases hlast

/-- At a place that splitting comes to, an interpolation starts where a marker and a brace stand. -/
theorem startsAt_iff (h : Settled text before rest) :
    StartsAt text before.length ↔ opens rest = true := by
  rw [StartsAt, h.drop, h.take]
  refine ⟨And.left, fun hopens => ⟨hopens, h.apart hopens, fun j hj hstarts k hk => ?_⟩⟩
  obtain ⟨k', hk', hle⟩ := h.closed j hj hstarts
  rw [hk] at hk'
  cases hk'
  exact hle

/-- The first interpolation that is not closed is not ahead of a place that splitting comes to. -/
theorem le_of_firstUnclosed (h : Settled text before rest) (hi : FirstUnclosed text i) :
    before.length ≤ i := by
  by_contra hlt
  obtain ⟨k, hk, -⟩ := h.closed i (by omega) hi.starts
  rw [hi.unclosed] at hk
  cases hk

/-- Past a literal character. -/
theorem cons (h : Settled text before (c :: rest)) (hc : opens (c :: rest) = false)
    (hescape : c = '\\' → opens rest = false) : Settled text (before ++ [c]) rest where
  eq := by rw [h.eq, List.append_assoc]; rfl
  closed := fun j hj hstarts => by
    rw [List.length_append, List.length_singleton] at hj ⊢
    rcases Nat.lt_succ_iff_lt_or_eq.mp hj with hlt | rfl
    · obtain ⟨k, hk, hle⟩ := h.closed j hlt hstarts
      exact ⟨k, hk, by omega⟩
    · rw [h.startsAt_iff, hc] at hstarts
      cases hstarts
  apart := fun hopens => by
    rw [List.getLast?_concat, ne_eq, Option.some.injEq]
    intro hslash
    rw [hescape hslash] at hopens
    cases hopens

/-- Past a marker that a backslash stands before. -/
theorem escaped (h : Settled text before ('\\' :: c :: rest)) (hc : opens (c :: rest) = true) :
    Settled text (before ++ ['\\', c]) rest where
  eq := by rw [h.eq, List.append_assoc]; rfl
  closed := fun j hj hstarts => by
    rw [List.length_append, List.length_cons, List.length_singleton] at hj ⊢
    rcases Nat.lt_trichotomy j before.length with hlt | rfl | hgt
    · obtain ⟨k, hk, hle⟩ := h.closed j hlt hstarts
      exact ⟨k, hk, by omega⟩
    · rw [h.startsAt_iff, opens_cons_of_not_isMarker rfl] at hstarts
      cases hstarts
    · obtain rfl : j = before.length + 1 := by omega
      rw [StartsAt, h.eq, List.take_length_add_append, List.take_succ_cons, List.take_zero,
        List.getLast?_concat] at hstarts
      exact absurd rfl hstarts.2.1
  apart := fun hopens => by
    obtain ⟨marker, tail, heq, -⟩ := exists_of_opens hc
    cases heq
    rw [opens_cons_of_not_isMarker rfl] at hopens
    cases hopens

theorem closeAt?_eq (h : Settled text before (c :: rest))
    (hgroup : Scan.group? rest = some (value, after)) :
    closeAt? text before.length = some (before.length + 3 + value.length) := by
  rw [closeAt?, h.drop_cons, hgroup]
  rfl

/-- Past an interpolation. -/
theorem group {closer : Char} (h : Settled text before (c :: '{' :: (value ++ closer :: after)))
    (hmarker : isMarker c = true) (hcloser : Scan.isCloser closer = true)
    (hgroup : Scan.group? ('{' :: (value ++ closer :: after)) = some (value, after)) :
    Settled text (before ++ (c :: '{' :: (value ++ [closer]))) after where
  eq := by rw [h.eq]; simp
  closed := fun j hj hstarts => by
    have hclose := h.closeAt?_eq hgroup
    have hlength : (before ++ (c :: '{' :: (value ++ [closer]))).length =
        before.length + 3 + value.length := by
      simp only [List.length_append, List.length_cons, List.length_nil]
      omega
    rw [hlength] at hj ⊢
    rcases Nat.lt_trichotomy j before.length with hlt | rfl | hgt
    · obtain ⟨k, hk, hle⟩ := h.closed j hlt hstarts
      exact ⟨k, hk, by omega⟩
    · exact ⟨_, hclose, Nat.le_refl _⟩
    · rw [StartsAt] at hstarts
      have := hstarts.2.2 before.length hgt (h.startsAt_iff.mpr hmarker) _ hclose
      omega
  apart := fun _ hlast => by
    have heq : before ++ (c :: '{' :: (value ++ [closer])) =
        (before ++ c :: '{' :: value) ++ [closer] := by
      simp
    rw [heq, List.getLast?_concat, Option.some.injEq] at hlast
    subst hlast
    cases hcloser

/-- Splitting is refused where the interpolation is not closed. -/
theorem firstUnclosed_iff (h : Settled text before (c :: rest)) (hc : opens (c :: rest) = true)
    (hgroup : Scan.group? rest = none) : FirstUnclosed text i ↔ i = before.length := by
  have hfirst : FirstUnclosed text before.length :=
    { starts := h.startsAt_iff.mpr hc
      unclosed := by rw [closeAt?, h.drop_cons, hgroup]; rfl
      first := fun j hj hstarts => by
        obtain ⟨k, hk, -⟩ := h.closed j hj hstarts
        exact Option.ne_none_iff_exists'.mpr ⟨k, hk⟩ }
  constructor
  · intro hi
    exact hi.unique hfirst
  · rintro rfl
    exact hfirst

end Settled

theorem map_eq_error_iff {α β : Type} {f : α → β} {result : Except Nat α} :
    result.map f = .error offset ↔ result = .error offset := by
  cases result <;> simp [Except.map]

theorem utf8Size_of_isMarker (h : isMarker c = true) : c.utf8Size = 1 := by
  rw [isMarker, Bool.or_eq_true, beq_iff_eq, beq_iff_eq] at h
  rcases h with rfl | rfl <;> rfl

/-- **Where a text is refused**: at the first interpolation that is not closed. -/
theorem splitFrom_eq_error_iff {before : List Char} (h : Settled text before rest)
    (literal : List Char) :
    splitFrom (Text.byteLength before) literal rest = .error offset ↔
      ∃ i, FirstUnclosed text i ∧ Text.byteLength (text.take i) = offset := by
  induction hn : rest.length using Nat.strong_induction_on generalizing before rest literal with
  | h n ih =>
    subst hn
    -- from the next place on that splitting comes to
    have hnext : ∀ (piece left literal : List Char) (width : Nat),
        Settled text (before ++ piece) left → Text.byteLength piece = width →
        left.length < rest.length →
        (splitFrom (Text.byteLength before + width) literal left = .error offset ↔
          ∃ i, FirstUnclosed text i ∧ Text.byteLength (text.take i) = offset) := by
      rintro piece left literal _ hsettled rfl hlt
      rw [← Text.byteLength_append]
      exact ih left.length hlt hsettled literal rfl
    cases rest with
    | nil =>
      rw [splitFrom]
      simp only [reduceCtorEq, false_iff, not_exists, not_and]
      intro i hi
      exact absurd hi.starts.lt_length (by
        have := h.le_of_firstUnclosed hi
        rw [h.eq, List.append_nil]
        omega)
    | cons c rest =>
      cases hc : opens (c :: rest) with
      | true =>
        rw [splitFrom_opens hc]
        cases hgroup : Scan.group? rest with
        | none =>
          simp only [h.firstUnclosed_iff hc hgroup, exists_eq_left, h.take, Except.error.injEq]
        | some found =>
          obtain ⟨value, after⟩ := found
          obtain ⟨marker, tail, heq, hmarker⟩ := exists_of_opens hc
          cases heq
          obtain ⟨closer, hcloser, rfl⟩ := Scan.exists_of_group? hgroup
          have hwidth : Text.byteLength (c :: '{' :: (value ++ [closer])) =
              3 + Text.byteLength value := by
            simp only [Text.byteLength, Text.byteLength_append, utf8Size_of_isMarker hmarker,
              Scan.utf8Size_of_isCloser hcloser]
            rw [show ('{').utf8Size = 1 from rfl]
            omega
          dsimp only
          rw [map_eq_error_iff, Nat.add_assoc]
          refine hnext _ after [] _ (h.group hmarker hcloser hgroup) hwidth ?_
          simp only [List.length_cons, List.length_append]
          omega
      | false =>
        by_cases hescape : c = '\\' → opens rest = false
        · rw [splitFrom_cons hc hescape]
          exact hnext [c] rest _ _ (h.cons hc hescape) rfl (Nat.lt_succ_self _)
        · rw [Classical.not_imp, Bool.not_eq_false] at hescape
          obtain ⟨rfl, hopens⟩ := hescape
          obtain ⟨marker, tail, rfl, hmarker⟩ := exists_of_opens hopens
          rw [splitFrom_escaped hopens]
          refine hnext ['\\', marker] ('{' :: tail) _ 2 (h.escaped hopens) ?_ ?_
          · rw [Text.byteLength, Text.byteLength, utf8Size_of_isMarker hmarker]
            rfl
          · simp only [List.length_cons]
            omega

/-- The brace behind the marker of an interpolation that is not closed has no match. -/
theorem matching?_of_firstUnclosed (h : FirstUnclosed text i) :
    Scan.matching? text (Text.byteLength (text.take i) + 1) = none := by
  have hopens := h.starts
  rw [StartsAt] at hopens
  obtain ⟨marker, tail, hdrop, hmarker⟩ := exists_of_opens hopens.1
  have hgroup := h.unclosed
  rw [closeAt?, Option.map_eq_none_iff, ← List.drop_drop, hdrop] at hgroup
  have hfound : Text.dropBytes? (Text.byteLength (text.take i) + 1) text = some ('{' :: tail) := by
    have happend := Text.dropBytes?_append (text.take i) (text.drop i) 1
    rw [List.take_append_drop, hdrop] at happend
    rw [happend, Text.dropBytes?, utf8Size_of_isMarker hmarker]
    rfl
  rw [Scan.matching?, hfound, Option.bind_some]
  exact Option.map_eq_none_iff.mpr hgroup

/-- **Splitting inverts writing and locates failures.** Segments in normal form are found again from
what is written of them. A text is refused with the byte offset of its first interpolation that is
not closed, and the brace behind that has no match. -/
theorem splits_or_locates :
    (∀ segments, IsNormal segments → split (segments.flatMap written) = .ok segments) ∧
    (∀ text offset, split text = .error offset ↔
      ∃ i, FirstUnclosed text i ∧ Text.byteLength (text.take i) = offset) ∧
    ∀ text offset, split text = .error offset → Scan.matching? text (offset + 1) = none := by
  refine ⟨fun segments h => ?_, fun text offset => ?_, fun text offset h => ?_⟩
  · exact splitFrom_written h (fun _ => rfl) 0
  · exact splitFrom_eq_error_iff (.start text) []
  · obtain ⟨i, hi, rfl⟩ := (splitFrom_eq_error_iff (.start text) []).mp h
    exact matching?_of_firstUnclosed hi

/-- An escaped marker, and a brace in a string of an expression. -/
theorem split_quoted_brace :
    split "a\\#\x7bb#\x7bx + \"\x7d\"\x7d!\x7bz\x7d".toList =
      .ok [.literal "a#\x7bb".toList, .expression "x + \"\x7d\"".toList true,
        .expression ['z'] false] :=
  splits_or_locates.1
    [.literal "a#\x7bb".toList, .expression "x + \"\x7d\"".toList true, .expression ['z'] false]
    ⟨by decide,
      fun _ hnext => ⟨⟨_, _, (Option.some.inj (Option.mem_def.mp hnext)).symm⟩, by decide⟩,
      by decide, by decide, by decide, by decide, trivial⟩

end Segment

end Template

end PugContracts
