import PugContracts.Proofs.Template.Legible

/-!
# Ends of texts

A text is *bare* if no blank stands at its ends: trimming gives it back from among blanks. What is
cut from a text at a character or at one of its ends is part of it.

## Main results

* `Bare.trim_eq`: blanks around a bare text are trimmed.
-/

namespace PugContracts.Text

variable {a b text : List Char} {c d : Char}

/-- The text starts and ends with characters that are no blanks. -/
structure Bare (text : List Char) : Prop where
  /-- It starts with none. -/
  head : ∃ c, text.head? = some c ∧ isBlank c = false
  /-- It ends with none. -/
  last : EndsUnblank text

theorem Bare.ne_nil (h : Bare text) : text ≠ [] := by
  rintro rfl
  obtain ⟨c, hc, -⟩ := h.head
  cases hc

/-- Two bare texts make one, whatever stands between them. -/
theorem Bare.join (ha : Bare a) (hb : Bare b) (between : List Char) :
    Bare (a ++ (between ++ b)) := by
  refine ⟨?_, (hb.last.append_left between hb.ne_nil).append_left a (by simp [hb.ne_nil])⟩
  obtain ⟨c, hc, hblank⟩ := ha.head
  exact ⟨c, by rw [List.head?_append, hc, Option.some_or], hblank⟩

theorem bare_singleton (hc : isBlank c = false) : Bare [c] :=
  ⟨⟨c, rfl, hc⟩, fun last hlast => by cases hlast; exact hc⟩

theorem bare_of_all (hne : text ≠ []) (h : ∀ c ∈ text, isBlank c = false) : Bare text := by
  obtain ⟨c, rest, rfl⟩ := List.exists_cons_of_ne_nil hne
  exact ⟨⟨c, rfl, h c List.mem_cons_self⟩,
    fun last hlast => h last (List.mem_of_mem_getLast? hlast)⟩

theorem bare_of_ends (hhead : text.head? = some c) (hc : isBlank c = false)
    (hlast : text.getLast? = some d) (hd : isBlank d = false) : Bare text := by
  refine ⟨⟨c, hhead, hc⟩, fun last hmem => ?_⟩
  obtain rfl : d = last := Option.some.inj (hlast.symm.trans hmem)
  exact hd

theorem trimEnd_append_blanks (hb : ∀ c ∈ b, isBlank c = true) (a : List Char) :
    trimEnd (a ++ b) = trimEnd a := by
  have hreverse : ∀ c ∈ b.reverse, isBlank c = true := fun c hc => hb c (List.mem_reverse.mp hc)
  rw [trimEnd, trimEnd, dropTrailing, dropTrailing, List.reverse_append,
    List.dropWhile_append_of_pos hreverse]

/-- What stands before a character that is no blank is not trimmed. -/
theorem trimEnd_append_cons (hc : isBlank c = false) (a b : List Char) :
    trimEnd (a ++ c :: b) = a ++ c :: trimEnd b := by
  rw [trimEnd, trimEnd, dropTrailing, dropTrailing, List.reverse_append, List.reverse_cons,
    List.append_assoc, List.dropWhile_append]
  split
  · next hnone =>
    rw [List.singleton_append, List.dropWhile_cons_of_neg (by simp [hc]),
      List.isEmpty_iff.mp hnone]
    simp
  · simp

theorem trimStart_blanks_append (ha : ∀ c ∈ a, isBlank c = true) (b : List Char) :
    trimStart (a ++ b) = trimStart b :=
  List.dropWhile_append_of_pos ha

/-- **Blanks around a bare text** are trimmed. -/
theorem Bare.trim_eq (h : Bare text) (ha : ∀ c ∈ a, isBlank c = true)
    (hb : ∀ c ∈ b, isBlank c = true) : trim (a ++ (text ++ b)) = text := by
  obtain ⟨c, hc, hblank⟩ := h.head
  obtain ⟨rest, rfl⟩ := List.head?_eq_some_iff.mp hc
  rw [trim, trimStart_blanks_append ha, List.cons_append, trimStart_of_not_isBlank hblank,
    ← List.cons_append, trimEnd_append_blanks hb, trimEnd_eq_self h.last]

theorem Bare.trim (h : Bare text) : Text.trim text = text := by
  have htrim := h.trim_eq (a := []) (b := []) (by simp) (by simp)
  rwa [List.nil_append, List.append_nil] at htrim

/-! ### Cutting at the ends -/

theorem mem_of_mem_trimEnd (hc : c ∈ trimEnd text) : c ∈ text := by
  rw [trimEnd, dropTrailing, List.mem_reverse] at hc
  exact List.mem_reverse.mp ((List.dropWhile_suffix _).mem hc)

theorem mem_of_mem_trim (hc : c ∈ trim text) : c ∈ text :=
  (List.dropWhile_suffix _).mem (mem_of_mem_trimEnd hc)

theorem dropTrailing_append_singleton {p : Char → Bool} (hc : p c = false) (text : List Char) :
    dropTrailing p (text ++ [c]) = text ++ [c] := by
  rw [dropTrailing, List.reverse_append, List.reverse_singleton, List.singleton_append,
    List.dropWhile_cons_of_neg (by simp [hc]), List.reverse_cons, List.reverse_reverse]

theorem afterPrefix?_eq_none {piece cs : List Char} (h : c ∈ piece) (hc : c ∉ cs) :
    afterPrefix? piece cs = none := by
  rw [Option.eq_none_iff_forall_ne_some]
  intro rest hrest
  rw [afterPrefix?_eq_some_iff.mp hrest] at hc
  exact hc (List.mem_append_left rest h)

theorem eq_of_beforeSuffix? {piece before : List Char}
    (h : beforeSuffix? piece text = some before) : text = before ++ piece := by
  obtain ⟨reversed, hreversed, rfl⟩ := Option.map_eq_some_iff.mp h
  rw [← List.reverse_reverse text, afterPrefix?_eq_some_iff.mp hreversed, List.reverse_append,
    List.reverse_reverse]

theorem beforeSuffix?_singleton (c d : Char) (text : List Char) :
    beforeSuffix? [c] (text ++ [d]) = if c = d then some text else none := by
  rw [beforeSuffix?, List.reverse_append, List.reverse_singleton, List.reverse_singleton,
    List.singleton_append, afterPrefix?]
  split <;> simp [afterPrefix?]

theorem cutAtChar?_append (h : c ∉ a) (after : List Char) :
    cutAtChar? c (a ++ c :: after) = some (a, after) := by
  induction a with
  | nil => simp [cutAtChar?]
  | cons d a ih =>
    obtain ⟨hd, hrest⟩ := not_or.mp (mt List.mem_cons.mpr h)
    rw [List.cons_append, cutAtChar?, if_neg (Ne.symm hd), ih hrest]
    rfl

theorem cutAtChar?_eq_none (hc : c ∉ text) : cutAtChar? c text = none := by
  rw [Option.eq_none_iff_forall_ne_some]
  rintro ⟨before, after⟩ hcut
  rw [eq_of_cutAtChar? hcut] at hc
  exact hc (by simp)

end PugContracts.Text
