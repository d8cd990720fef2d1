import PugContracts.Proofs.Text.Ends
import PugContracts.Text.Lines

/-!
# Pieces between newlines

A text is cut at its newlines, so a text that is put together has the pieces of its parts; where two
parts meet without a newline, the last piece of the first part goes on with the first piece of the
second. A carriage return at the end of a piece is a blank there.

## Main results

* `newlinePieces_append`: a text before the first newline goes on with the first piece.
* `newlinePieces_intercalate`: the pieces of texts that are joined by newlines.
-/

namespace PugContracts.Text

variable {p : Char → Bool} {before text part : List Char}

theorem splitAtEach_cons_of_neg {c : Char} (hc : p c = false) (cs : List Char) :
    splitAtEach p (c :: cs) = (splitAtEach p cs).modifyHead (c :: ·) := by
  obtain ⟨first, more, hcs⟩ := List.exists_cons_of_ne_nil (splitAtEach_ne_nil p cs)
  rw [splitAtEach, hcs]
  simp [hc]

/-- A part before the first cut goes on with the first piece. -/
theorem splitAtEach_append (hpart : ∀ c ∈ part, p c = false) (after : List Char) :
    splitAtEach p (part ++ after) = (splitAtEach p after).modifyHead (part ++ ·) := by
  induction part with
  | nil =>
    obtain ⟨first, more, hafter⟩ := List.exists_cons_of_ne_nil (splitAtEach_ne_nil p after)
    rw [List.nil_append, hafter]
    rfl
  | cons c part ih =>
    obtain ⟨hc, hpart⟩ := List.forall_mem_cons.mp hpart
    rw [List.cons_append, splitAtEach_cons_of_neg hc, ih hpart, List.modifyHead_modifyHead]
    rfl

theorem newlinePieces_eq_singleton (h : '\n' ∉ text) : newlinePieces text = [text] :=
  splitAtEach_eq_singleton fun _ hc => beq_eq_false_iff_ne.mpr fun heq => h (heq ▸ hc)

theorem newlinePieces_append_newline (before after : List Char) :
    newlinePieces (before ++ '\n' :: after) = newlinePieces before ++ newlinePieces after :=
  splitAtEach_append_cons rfl before after

/-- **A text before the first newline** goes on with the first piece. -/
theorem newlinePieces_append (h : '\n' ∉ before) (text : List Char) :
    newlinePieces (before ++ text) = (newlinePieces text).modifyHead (before ++ ·) := by
  have hnone : ∀ c ∈ before, (c == '\n') = false := fun c hc =>
    beq_eq_false_iff_ne.mpr fun heq => h (heq ▸ hc)
  exact splitAtEach_append hnone text

theorem exists_newlinePieces_append (h : '\n' ∉ before) (text : List Char) :
    ∃ piece pieces, newlinePieces (before ++ text) = (before ++ piece) :: pieces := by
  obtain ⟨piece, pieces, hpieces⟩ :=
    List.exists_cons_of_ne_nil (splitAtEach_ne_nil (· == '\n') text)
  exact ⟨piece, pieces, by rw [newlinePieces_append h, newlinePieces, hpieces]; rfl⟩

/-- **Texts that are joined by newlines** have the pieces of all of them. -/
theorem newlinePieces_intercalate {texts : List (List Char)} (hne : texts ≠ []) :
    newlinePieces (['\n'].intercalate texts) = texts.flatMap newlinePieces := by
  induction texts with
  | nil => exact absurd rfl hne
  | cons text rest ih =>
    cases rest with
    | nil => simp [List.intercalate]
    | cons next rest =>
      rw [List.intercalate_cons_cons, List.append_assoc, List.singleton_append,
        newlinePieces_append_newline, ih (by simp)]
      rfl

theorem flatMap_newlinePieces {texts : List (List Char)} (h : ∀ text ∈ texts, '\n' ∉ text) :
    texts.flatMap newlinePieces = texts := by
  induction texts with
  | nil => rfl
  | cons text rest ih =>
    obtain ⟨htext, hrest⟩ := List.forall_mem_cons.mp h
    rw [List.flatMap_cons, newlinePieces_eq_singleton htext, ih hrest, List.singleton_append]

/-! ### Carriage returns -/

/-- A carriage return at the end of a text is none of what stands before it. -/
theorem dropReturn_append (h : '\r' ∉ before) (text : List Char) :
    dropReturn (before ++ text) = before ++ dropReturn text := by
  rw [dropReturn, dropReturn, List.reverse_append]
  cases hreverse : text.reverse with
  | nil =>
    obtain rfl : text = [] := by simpa using hreverse
    rw [List.nil_append]
    split
    · next rest hlast =>
      exact absurd (List.mem_reverse.mp (hlast ▸ List.mem_cons_self)) h
    · rfl
  | cons last others =>
    rw [List.cons_append]
    by_cases hlast : last = '\r'
    · subst hlast
      simp
    · split
      · next rest heq => exact absurd (List.cons.inj heq).1 hlast
      · split
        · next rest heq => exact absurd (List.cons.inj heq).1 hlast
        · rfl

theorem trimEnd_dropReturn (text : List Char) : trimEnd (dropReturn text) = trimEnd text := by
  rw [dropReturn]
  split
  · next rest hreverse =>
    rw [← List.reverse_reverse text, hreverse, List.reverse_cons,
      trimEnd_append_blanks (List.forall_mem_singleton.mpr rfl)]
  · rfl

end PugContracts.Text
