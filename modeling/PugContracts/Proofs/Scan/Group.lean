import Mathlib.Order.Bounds.Basic
import PugContracts.Proofs.Scan.Through

/-!
# Where a group ends

The search for the end of a group goes on until a closing bracket takes the depth back to zero. What
it looks for can be said without following it: the shortest text from the opening bracket on that
closes all it opens. Up to the end of the group the depth is positive, so no shorter text does, and
closing brackets behind the end, of which there may be too many, are not looked at.

## Main results

* `advance_of_open`: a character closes the group that is open, or leaves it open.
* `of_closeGroup?`, `closeGroup?_eq_none_iff`: what was read when the search ends.
* `matching_is_shortest`: the end of a group, by byte offsets.
-/

namespace PugContracts

namespace Text

variable {cs : List Char} {c : Char} {n : Nat}

/-- The character `c` starts at the byte offset `n` of the text. -/
def StandsAt (cs : List Char) (n : Nat) (c : Char) : Prop :=
  ∃ before after, cs = before ++ c :: after ∧ byteLength before = n

theorem standsAt_iff : StandsAt cs n c ↔ ∃ after, dropBytes? n cs = some (c :: after) := by
  simp only [StandsAt, dropBytes?_eq_some_iff]
  exact exists_comm

end Text

namespace Scan

variable {s : State} {c opener : Char} {cs inner tail rest text : List Char} {start stop : Nat}

/-! ### Characters -/

theorem utf8Size_of_isCloser (h : isCloser c = true) : c.utf8Size = 1 := by
  rw [isCloser, Bool.or_eq_true, Bool.or_eq_true, beq_iff_eq, beq_iff_eq, beq_iff_eq] at h
  rcases h with (rfl | rfl) | rfl <;> rfl

theorem utf8Size_of_isOpener (h : isOpener c = true) : c.utf8Size = 1 := by
  rw [isOpener, Bool.or_eq_true, Bool.or_eq_true, beq_iff_eq, beq_iff_eq, beq_iff_eq] at h
  rcases h with (rfl | rfl) | rfl <;> rfl

/-- Only a closing bracket in code lowers the depth. -/
theorem depth_le_depth_advance (hs : s.Plain) (h : ¬ (s.mode = .code ∧ isCloser c = true)) :
    s.depth ≤ (advance s c).depth := by
  obtain ⟨mode, depth⟩ := s
  cases mode with
  | code =>
    rw [advance_code, stepCode, if_neg fun hcloser => h ⟨rfl, hcloser⟩]
    split_ifs <;> dsimp only <;> omega
  | quoted mark =>
    rw [advance_quoted]
    split_ifs <;> exact Int.le_refl depth
  | escaped mark => exact Int.le_refl depth
  | _ => exact hs.elim

/-- **A character closes the group that is open**, and then all is closed, or leaves it open. -/
theorem advance_of_open (hs : s.Plain) (hopen : 0 < s.depth) (c : Char) :
    ((step false s c none).1 = some 0 ∧ isCloser c = true) ∧ advance s c = .start ∨
      ¬ ((step false s c none).1 = some 0 ∧ isCloser c = true) ∧ 0 < (advance s c).depth := by
  by_cases hlower : s.mode = .code ∧ isCloser c = true
  · obtain ⟨hmode, hcloser⟩ := hlower
    rw [fst_step_eq_zero_iff, if_pos hcloser, advance_of_isCloser hmode hcloser]
    rcases Int.lt_or_eq_of_le hopen with hmore | hlast
    · right
      dsimp only
      omega
    · exact Or.inl ⟨⟨⟨hmode, hlast.symm.le⟩, hcloser⟩, by rw [← hlast]; rfl⟩
  · have hcloses : ¬ ((step false s c none).1 = some 0 ∧ isCloser c = true) := fun hcloses =>
      hlower ⟨(fst_step_eq_zero_iff.mp hcloses.1).1, hcloses.2⟩
    exact Or.inr ⟨hcloses, hopen.trans_le (depth_le_depth_advance hs hlower)⟩

/-! ### Groups that stay open -/

theorem endState_cons (hs : s.Plain) (c : Char) (cs : List Char) :
    endState false s (c :: cs) = endState false (advance s c) cs := by
  rw [endState, step_false hs]
  rfl

/-- The group that is open before the text is so at every place of it. -/
def StaysOpen (s : State) (cs : List Char) : Prop :=
  ∀ before, before <+: cs → 0 < (endState false s before).depth

theorem staysOpen_nil : StaysOpen s [] ↔ 0 < s.depth := by
  simp [StaysOpen, endState]

theorem staysOpen_cons (hs : s.Plain) :
    StaysOpen s (c :: cs) ↔ 0 < s.depth ∧ StaysOpen (advance s c) cs := by
  simp only [StaysOpen, List.prefix_cons_iff, forall_eq_or_imp]
  refine and_congr_right fun _ => ⟨fun h before hbefore => ?_, ?_⟩
  · rw [← endState_cons hs]
    exact h _ ⟨before, rfl, hbefore⟩
  · rintro h _ ⟨before, rfl, hbefore⟩
    rw [endState_cons hs]
    exact h before hbefore

/-- A text within which the group is open does not close all it opens. -/
theorem StaysOpen.not_isBalanced (h : StaysOpen s cs) {before : List Char}
    (hbefore : before <+: cs) : ¬ (endState false s before).isBalanced = true := by
  have hdepth := h before hbefore
  simp only [State.isBalanced, Bool.and_eq_true, beq_iff_eq]
  omega

/-- A text that closes all it opens does not end within the group. -/
theorem StaysOpen.isPrefix (h : StaysOpen s inner) {inner' after : List Char} {last : Char}
    (hcut : inner ++ tail = inner' ++ last :: after)
    (hbalanced : (endState false s (inner' ++ [last])).isBalanced = true) : inner <+: inner' := by
  have hlong : ¬ inner' ++ [last] <+: inner := fun hshort => h.not_isBalanced hshort hbalanced
  have hpart : inner' ++ [last] <+: inner ++ tail :=
    ⟨after, by rw [hcut, List.append_assoc]; rfl⟩
  have hwhole : inner <+: inner' ++ [last] :=
    (List.prefix_or_prefix_of_prefix hpart (List.prefix_append inner tail)).resolve_left hlong
  exact (List.prefix_concat_iff.mp hwhole).resolve_left fun heq =>
    hlong (heq ▸ List.prefix_refl inner)

/-- **Where the search ends** all is closed, and the group is open at every place before. -/
theorem of_closeGroup? (hs : s.Plain) (hopen : 0 < s.depth)
    (h : closeGroup? s cs = some (inner, tail)) :
    ∃ closer, isCloser closer = true ∧ cs = inner ++ closer :: tail ∧
      endState false s (inner ++ [closer]) = .start ∧ StaysOpen s inner := by
  induction cs generalizing s inner with
  | nil => cases h
  | cons c rest ih =>
    rw [closeGroup?_cons hs] at h
    rcases advance_of_open hs hopen c with ⟨hcloses, hstart⟩ | ⟨hcloses, hdepth⟩
    · rw [if_pos hcloses] at h
      cases h
      exact ⟨c, hcloses.2, rfl, hstart, staysOpen_nil.mpr hopen⟩
    · rw [if_neg hcloses] at h
      obtain ⟨⟨inner', tail'⟩, hfound, heq⟩ := Option.map_eq_some_iff.mp h
      cases heq
      obtain ⟨closer, hcloser, rfl, hend, hstays⟩ := ih (hs.advance c) hdepth hfound
      refine ⟨closer, hcloser, rfl, ?_, (staysOpen_cons hs).mpr ⟨hopen, hstays⟩⟩
      rw [List.cons_append, endState_cons hs, hend]

/-- **The search finds no end** if the group is open to the end of the text. -/
theorem closeGroup?_eq_none_iff (hs : s.Plain) (hopen : 0 < s.depth) :
    closeGroup? s cs = none ↔ StaysOpen s cs := by
  induction cs generalizing s with
  | nil => exact iff_of_true rfl (staysOpen_nil.mpr hopen)
  | cons c rest ih =>
    rw [closeGroup?_cons hs, staysOpen_cons hs]
    rcases advance_of_open hs hopen c with ⟨hcloses, hstart⟩ | ⟨hcloses, hdepth⟩
    · rw [if_pos hcloses, hstart]
      refine iff_of_false (by simp) fun hstays => ?_
      exact absurd (hstays.2 [] List.nil_prefix) (Int.lt_irrefl 0)
    · rw [if_neg hcloses, Option.map_eq_none_iff]
      exact (ih (hs.advance c) hdepth).trans (and_iff_right hopen).symm

/-! ### Groups in a text -/

/-- What follows a group plays no part in finding its end. -/
theorem closeGroup?_append_right (hs : s.Plain) (h : closeGroup? s cs = some (inner, tail))
    (more : List Char) : closeGroup? s (cs ++ more) = some (inner, tail ++ more) := by
  induction cs generalizing s inner with
  | nil => cases h
  | cons c rest ih =>
    rw [closeGroup?_cons hs] at h
    rw [List.cons_append, closeGroup?_cons hs]
    split_ifs at h ⊢ with hcloses
    · cases h
      rfl
    · obtain ⟨⟨inner', tail'⟩, hfound, heq⟩ := Option.map_eq_some_iff.mp h
      cases heq
      rw [ih (hs.advance c) hfound]
      rfl

theorem group?_append_right (h : group? cs = some (inner, tail)) (more : List Char) :
    group? (cs ++ more) = some (inner, tail ++ more) := by
  cases cs with
  | nil => cases h
  | cons c rest =>
    rw [group?] at h
    rw [List.cons_append, group?]
    split_ifs at h ⊢
    have hplain : State.Plain ⟨.code, 1⟩ := trivial
    exact closeGroup?_append_right hplain h more

/-- A group is what stands in it, a closing bracket and what follows. -/
theorem exists_of_group? (h : group? (c :: cs) = some (inner, tail)) :
    ∃ closer, isCloser closer = true ∧ cs = inner ++ closer :: tail := by
  rw [group?] at h
  split_ifs at h
  obtain ⟨closer, hcloser, heq, -⟩ := of_closeGroup? (s := ⟨.code, 1⟩) trivial Int.one_pos h
  exact ⟨closer, hcloser, heq⟩

/-! ### Groups by byte offsets -/

/-- What stands from the byte offset `start` of the text up to and with the character at the byte
offset `stop`, which is not the first one, closes all it opens. -/
def BalancedBetween (text : List Char) (start stop : Nat) : Prop :=
  ∃ before group last after, text = before ++ (group ++ last :: after) ∧
    Text.byteLength before = start ∧ Text.byteLength (before ++ group) = stop ∧ start < stop ∧
    isBalanced false (group ++ [last]) = true

/-- From an opening bracket on, this is about the text in the group that it opens. -/
theorem balancedBetween_iff (hopener : isOpener opener = true)
    (hrest : Text.dropBytes? start text = some (opener :: rest)) :
    BalancedBetween text start stop ↔ ∃ inner last after, rest = inner ++ last :: after ∧
      start + 1 + Text.byteLength inner = stop ∧
      (endState false ⟨.code, 1⟩ (inner ++ [last])).isBalanced = true := by
  have hplain : State.start.Plain := trivial
  have hread (cs : List Char) :
      isBalanced false (opener :: cs) = (endState false ⟨.code, 1⟩ cs).isBalanced := by
    rw [isBalanced, endState_cons hplain, advance_of_isOpener rfl hopener]
    rfl
  have hwidth (inner : List Char) :
      Text.byteLength (opener :: inner) = 1 + Text.byteLength inner := by
    rw [Text.byteLength, utf8Size_of_isOpener hopener]
  constructor
  · rintro ⟨before, group, last, after, htext, rfl, rfl, hlt, hbalanced⟩
    have hgroup := Text.dropBytes?_eq_some_iff.mpr ⟨before, htext, rfl⟩
    rw [hrest, Option.some.injEq] at hgroup
    cases group with
    | nil => simp at hlt
    | cons d inner =>
      obtain ⟨rfl, rfl⟩ := List.cons.inj hgroup
      refine ⟨inner, last, after, rfl, ?_, (hread _).symm.trans hbalanced⟩
      rw [Text.byteLength_append, hwidth, Nat.add_assoc]
  · rintro ⟨inner, last, after, rfl, rfl, hbalanced⟩
    obtain ⟨before, rfl, rfl⟩ := Text.dropBytes?_eq_some_iff.mp hrest
    refine ⟨before, opener :: inner, last, after, rfl, rfl, ?_, by omega,
      (hread _).trans hbalanced⟩
    rw [Text.byteLength_append, hwidth, Nat.add_assoc]

/-- What is found is the first place up to which the text is balanced, and a closing bracket. -/
theorem isLeast_of_matching? (hopener : isOpener opener = true)
    (hrest : Text.dropBytes? start text = some (opener :: rest))
    (h : matching? text start = some stop) :
    IsLeast {stop | BalancedBetween text start stop} stop ∧
      ∃ closer, Text.StandsAt text stop closer ∧ isCloser closer = true := by
  rw [matching?, hrest, Option.bind_some, group?, if_pos hopener] at h
  obtain ⟨⟨inner, tail⟩, hgroup, rfl⟩ := Option.map_eq_some_iff.mp h
  obtain ⟨closer, hcloser, rfl, hend, hstays⟩ :=
    of_closeGroup? (s := ⟨.code, 1⟩) trivial Int.one_pos hgroup
  refine ⟨⟨?_, fun stop hstop => ?_⟩, closer, ?_, hcloser⟩
  · refine (balancedBetween_iff hopener hrest).mpr ⟨inner, closer, tail, rfl, rfl, ?_⟩
    rw [hend]
    rfl
  · obtain ⟨inner', last, after, hcut, rfl, hbalanced⟩ :=
      (balancedBetween_iff hopener hrest).mp hstop
    obtain ⟨more, rfl⟩ := hstays.isPrefix hcut hbalanced
    dsimp only
    rw [Text.byteLength_append]
    omega
  · obtain ⟨before, rfl, rfl⟩ := Text.dropBytes?_eq_some_iff.mp hrest
    refine ⟨before ++ opener :: inner, tail, by simp, ?_⟩
    rw [Text.byteLength_append, Text.byteLength, utf8Size_of_isOpener hopener, ← Nat.add_assoc]

/-- Nothing is found where nothing that starts there is balanced. -/
theorem matching?_eq_none_iff (hopener : isOpener opener = true)
    (hrest : Text.dropBytes? start text = some (opener :: rest)) :
    matching? text start = none ↔ ∀ stop, ¬ BalancedBetween text start stop := by
  constructor
  · intro hnone stop hstop
    rw [matching?, hrest, Option.bind_some, group?, if_pos hopener, Option.map_eq_none_iff,
      closeGroup?_eq_none_iff (s := ⟨.code, 1⟩) trivial Int.one_pos] at hnone
    obtain ⟨inner, last, after, rfl, -, hbalanced⟩ := (balancedBetween_iff hopener hrest).mp hstop
    exact hnone.not_isBalanced ⟨after, by simp⟩ hbalanced
  · intro hopen
    by_contra hfound
    obtain ⟨stop, hstop⟩ := Option.ne_none_iff_exists'.mp hfound
    exact hopen stop (isLeast_of_matching? hopener hrest hstop).1.1

/-- No group starts where no opening bracket does. -/
theorem matching?_of_no_opener
    (h : ¬ ∃ opener, Text.StandsAt text start opener ∧ isOpener opener = true) :
    matching? text start = none := by
  rw [matching?, Option.map_eq_none_iff]
  cases hrest : Text.dropBytes? start text with
  | none => rfl
  | some found =>
    cases found with
    | nil => rfl
    | cons c rest =>
      have hopener : ¬ isOpener c = true := fun hopener =>
        h ⟨c, Text.standsAt_iff.mpr ⟨rest, hrest⟩, hopener⟩
      rw [Option.bind_some, group?, if_neg hopener]

/-- **A group is the shortest text that closes all it opens.** Of an opening bracket at the byte
offset `start`, `matching?` finds the least offset up to which the text from there on is balanced,
and finds nothing only if there is none; a closing bracket stands where it finds one. From an offset
at which no opening bracket starts, be it past the end, inside of a character or at another one,
nothing is found. -/
theorem matching_is_shortest (text : List Char) (start : Nat) :
    (∀ opener, Text.StandsAt text start opener → isOpener opener = true →
      (∀ stop, matching? text start = some stop ↔
        IsLeast {stop | BalancedBetween text start stop} stop) ∧
      (matching? text start = none ↔ ∀ stop, ¬ BalancedBetween text start stop) ∧
      ∀ stop, matching? text start = some stop →
        ∃ closer, Text.StandsAt text stop closer ∧ isCloser closer = true) ∧
    ((¬ ∃ opener, Text.StandsAt text start opener ∧ isOpener opener = true) →
      matching? text start = none) := by
  refine ⟨fun opener hstands hopener => ?_, matching?_of_no_opener⟩
  obtain ⟨rest, hrest⟩ := Text.standsAt_iff.mp hstands
  have hfound : ∀ stop, matching? text start = some stop → _ := fun stop =>
    isLeast_of_matching? hopener hrest
  have hnone := matching?_eq_none_iff hopener hrest
  refine ⟨fun stop => ⟨fun h => (hfound stop h).1, fun hleast => ?_⟩, hnone,
    fun stop h => (hfound stop h).2⟩
  cases hstop : matching? text start with
  | none => exact absurd hleast.1 (hnone.mp hstop stop)
  | some other => rw [(hfound other hstop).1.unique hleast]

/-- A closing bracket in a string does not count, one of another sort does, and what follows the
group plays no part. No group starts inside of a character. -/
theorem matching_is_shortest_quoted :
    IsLeast {stop | BalancedBetween "é(\"ü)\\\"\", [b\x7d)))".toList 2 stop} 15 ∧
      matching? "é(\"ü)\\\"\", [b\x7d)))".toList 1 = none :=
  ⟨(((matching_is_shortest _ 2).1 '(' ⟨['é'], _, rfl, rfl⟩ rfl).1 15).mp (by decide),
    (matching_is_shortest _ 1).2 fun ⟨_, hstands, _⟩ => by
      obtain ⟨after, hafter⟩ := Text.standsAt_iff.mp hstands
      exact absurd (Option.isSome_of_eq_some hafter) (by decide)⟩

end Scan

end PugContracts
