import Mathlib.Data.List.Infix
import PugContracts.Proofs.Text.Pieces

/-!
# Parts of pieces, and lines of parts

A part of a text in which no cut is made lies in one of the pieces, and each piece is a part of the
text. A text that is put together of blocks with newlines between them has the lines of the blocks;
what stands on the first line of a block and on the further ones is the block.

## Main results

* `exists_mem_splitAtEach`: where a part of a text lies.
* `lines_append_newline`: the lines of a block and of what follows it.
-/

namespace PugContracts.Text

variable {p : Char → Bool} {cs text part piece first : List Char} {more : List (List Char)}

/-! ### Parts -/

/-- The first piece stands at the start of the text, and the others stand within it. -/
theorem splitAtEach_parts (p : Char → Bool) (cs : List Char) :
    (∀ piece ∈ (splitAtEach p cs).head?, piece <+: cs) ∧
      ∀ piece ∈ splitAtEach p cs, piece <:+: cs := by
  induction cs with
  | nil => simp [splitAtEach]
  | cons c rest ih =>
    obtain ⟨hfirst, hall⟩ := ih
    cases hc : p c with
    | true =>
      rw [splitAtEach, if_pos hc]
      refine ⟨by simp, List.forall_mem_cons.mpr ⟨List.nil_infix, fun piece hpiece => ?_⟩⟩
      exact List.infix_cons (hall piece hpiece)
    | false =>
      rw [splitAtEach_cons_of_neg hc]
      obtain ⟨first, more, hrest⟩ := List.exists_cons_of_ne_nil (splitAtEach_ne_nil p rest)
      rw [hrest] at hfirst hall ⊢
      have hstart : c :: first <+: c :: rest := List.cons_prefix_cons.mpr ⟨rfl, hfirst first rfl⟩
      rw [List.modifyHead_cons]
      refine ⟨by simpa using hstart, List.forall_mem_cons.mpr ⟨hstart.isInfix, ?_⟩⟩
      exact fun piece hpiece => List.infix_cons (hall piece (List.mem_cons_of_mem _ hpiece))

theorem isInfix_of_mem_splitAtEach (h : piece ∈ splitAtEach p cs) : piece <:+: cs :=
  (splitAtEach_parts p cs).2 piece h

/-- **A part in which no cut is made** lies in one piece. -/
theorem exists_mem_splitAtEach (hpart : ∀ c ∈ part, p c = false) (h : part <:+: cs) :
    ∃ piece ∈ splitAtEach p cs, part <:+: piece := by
  obtain ⟨before, after, rfl⟩ := h
  induction before with
  | nil =>
    obtain ⟨first, more, hafter⟩ := List.exists_cons_of_ne_nil (splitAtEach_ne_nil p after)
    refine ⟨part ++ first, ?_, (List.prefix_append part first).isInfix⟩
    rw [List.nil_append, splitAtEach_append hpart, hafter]
    exact List.mem_cons_self
  | cons c before ih =>
    obtain ⟨piece, hpiece, hin⟩ := ih
    rw [List.append_assoc, List.cons_append, ← List.append_assoc]
    cases hc : p c with
    | true =>
      rw [splitAtEach, if_pos hc]
      exact ⟨piece, List.mem_cons_of_mem _ hpiece, hin⟩
    | false =>
      rw [splitAtEach_cons_of_neg hc]
      obtain ⟨first, more, hsplit⟩ :=
        List.exists_cons_of_ne_nil (splitAtEach_ne_nil p (before ++ part ++ after))
      rw [hsplit] at hpiece ⊢
      rw [List.modifyHead_cons]
      rcases List.mem_cons.mp hpiece with rfl | hpiece
      · exact ⟨c :: piece, List.mem_cons_self, List.infix_cons hin⟩
      · exact ⟨piece, List.mem_cons_of_mem _ hpiece, hin⟩

/-! ### Lines -/

/-- A text is its first line and the further ones, each after a newline. -/
theorem flatMap_newline (h : newlinePieces text = first :: more) :
    first ++ more.flatMap ('\n' :: ·) = text := by
  induction text generalizing first more with
  | nil =>
    obtain ⟨rfl, rfl⟩ := List.cons.inj h
    rfl
  | cons c rest ih =>
    obtain ⟨next, others, hrest⟩ := List.exists_cons_of_ne_nil (splitAtEach_ne_nil (· == '\n') rest)
    rw [newlinePieces] at h
    by_cases hc : c = '\n'
    · rw [splitAtEach, if_pos (by simpa using hc), hrest] at h
      obtain ⟨rfl, rfl⟩ := List.cons.inj h
      rw [List.nil_append, List.flatMap_cons, hc, List.cons_append, ih hrest]
    · rw [splitAtEach_cons_of_neg (by simpa using hc), hrest] at h
      obtain ⟨rfl, rfl⟩ := List.cons.inj h
      rw [List.cons_append, ih hrest]

theorem linesOfPieces_append {pieces : List (List Char)} (hmore : more ≠ []) :
    linesOfPieces (pieces ++ more) = pieces.map dropReturn ++ linesOfPieces more := by
  induction pieces with
  | nil => rfl
  | cons piece pieces ih =>
    have hne : pieces ++ more ≠ [] := List.append_ne_nil_of_right_ne_nil _ hmore
    rw [List.cons_append, linesOfPieces, ih]
    · rfl
    · exact hne

/-- **The lines of a block** come before the lines of what follows it. -/
theorem lines_append_newline (block rest : List Char) :
    lines (block ++ '\n' :: rest) = (newlinePieces block).map dropReturn ++ lines rest := by
  have hrest : newlinePieces rest ≠ [] := splitAtEach_ne_nil _ rest
  rw [lines, newlinePieces_append_newline, linesOfPieces_append hrest, lines]

theorem dropReturn_isPrefix (cs : List Char) : dropReturn cs <+: cs := by
  rw [dropReturn]
  split
  · next rest hreverse =>
    exact ⟨['\r'], by rw [← List.reverse_cons, ← hreverse, List.reverse_reverse]⟩
  · exact List.prefix_refl cs

theorem dropReturn_eq_self (h : ∀ c ∈ cs.getLast?, c ≠ '\r') : dropReturn cs = cs := by
  rw [dropReturn]
  split
  · next rest hreverse =>
    exact absurd rfl (h '\r' (by rw [← List.head?_reverse, hreverse]; rfl))
  · rfl

theorem EndsUnblank.ne_return (h : EndsUnblank cs) : ∀ c ∈ cs.getLast?, c ≠ '\r' := by
  rintro c hc rfl
  exact absurd (h '\r' hc) (by decide)

theorem EndsUnblank.dropReturn_eq_self (h : EndsUnblank cs) : dropReturn cs = cs :=
  Text.dropReturn_eq_self h.ne_return

end PugContracts.Text
