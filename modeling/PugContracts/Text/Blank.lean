/-!
# Blank characters and trimming

Templates, directives and compiler output are read as lists of characters, so that a position in a
text is simply the list of characters that remain. This module fixes which characters are blank and
what it means to trim a text and to look for a word or a piece of text in it.

A character is blank exactly when it has the Unicode property `White_Space`. `Char.isWhitespace`
of the core library knows only four of those twenty-five characters.
-/

namespace PugContracts.Text

/-- The characters with the Unicode property `White_Space`. -/
def isBlank (c : Char) : Bool :=
  let n := c.toNat
  (0x09 ≤ n && n ≤ 0x0D) || n == 0x20 || n == 0x85 || n == 0xA0 || n == 0x1680 ||
    (0x2000 ≤ n && n ≤ 0x200A) || n == 0x2028 || n == 0x2029 || n == 0x202F || n == 0x205F ||
    n == 0x3000

/-! ### Trimming -/

/-- `cs` without the longest run of characters at its end that satisfy `p`. -/
def dropTrailing (p : Char → Bool) (cs : List Char) : List Char :=
  (cs.reverse.dropWhile p).reverse

/-- `cs` without its leading blanks. -/
def trimStart (cs : List Char) : List Char :=
  cs.dropWhile isBlank

/-- `cs` without its trailing blanks. -/
def trimEnd (cs : List Char) : List Char :=
  dropTrailing isBlank cs

/-- `cs` without its leading and trailing blanks. -/
def trim (cs : List Char) : List Char :=
  trimEnd (trimStart cs)

theorem trimStart_of_not_isBlank {c : Char} {rest : List Char} (h : isBlank c = false) :
    trimStart (c :: rest) = c :: rest :=
  List.dropWhile_cons_of_neg (by simp [h])

theorem length_dropWhile_le (p : Char → Bool) (cs : List Char) :
    (cs.dropWhile p).length ≤ cs.length :=
  (List.dropWhile_suffix p).length_le

theorem length_dropTrailing_le (p : Char → Bool) (cs : List Char) :
    (dropTrailing p cs).length ≤ cs.length := by
  simpa [dropTrailing] using length_dropWhile_le p cs.reverse

theorem length_trimStart_le (cs : List Char) : (trimStart cs).length ≤ cs.length :=
  length_dropWhile_le isBlank cs

theorem length_trimEnd_le (cs : List Char) : (trimEnd cs).length ≤ cs.length :=
  length_dropTrailing_le isBlank cs

/-- Whether `cs` holds nothing but blanks. -/
def isAllBlank (cs : List Char) : Bool :=
  cs.all isBlank

/-! ### Words and pieces -/

/-- The first maximal run of characters that are not blank. -/
def firstWord (cs : List Char) : List Char :=
  (trimStart cs).takeWhile (!isBlank ·)

/-- Whether `piece` occurs in `cs`. -/
def hasPiece (piece : List Char) : List Char → Bool
  | [] => piece.isEmpty
  | c :: rest => piece.isPrefixOf (c :: rest) || hasPiece piece rest

/-- What follows `piece` in a text that starts with it. -/
def afterPrefix? : List Char → List Char → Option (List Char)
  | [], cs => some cs
  | _ :: _, [] => none
  | p :: piece, c :: cs => if p = c then afterPrefix? piece cs else none

theorem afterPrefix?_eq_some_iff {piece cs rest : List Char} :
    afterPrefix? piece cs = some rest ↔ cs = piece ++ rest := by
  induction piece generalizing cs with
  | nil => simp [afterPrefix?]
  | cons p piece ih =>
    cases cs with
    | nil => simp [afterPrefix?]
    | cons c cs =>
      by_cases h : p = c
      · simp [afterPrefix?, h, ih]
      · simp [afterPrefix?, h, Ne.symm h]

/-- What precedes `piece` in a text that ends with it. -/
def beforeSuffix? (piece cs : List Char) : Option (List Char) :=
  (afterPrefix? piece.reverse cs.reverse).map List.reverse

/-- The text before the first occurrence of `piece`, and the text after it. -/
def cutAt? (piece : List Char) : List Char → Option (List Char × List Char)
  | [] => if piece.isEmpty then some ([], []) else none
  | c :: rest =>
    match afterPrefix? piece (c :: rest) with
    | some after => some ([], after)
    | none => (cutAt? piece rest).map fun (before, after) => (c :: before, after)

/-- The text before the first `mark`, and the text after it. -/
def cutAtChar? (mark : Char) : List Char → Option (List Char × List Char)
  | [] => none
  | c :: rest =>
    if c = mark then some ([], rest)
    else (cutAtChar? mark rest).map fun (before, after) => (c :: before, after)

theorem eq_of_cutAtChar? {mark : Char} {cs before after : List Char}
    (h : cutAtChar? mark cs = some (before, after)) : cs = before ++ mark :: after := by
  induction cs generalizing before with
  | nil => simp [cutAtChar?] at h
  | cons c rest ih =>
    simp only [cutAtChar?] at h
    split at h
    · next same =>
      simp only [Option.some.injEq, Prod.mk.injEq] at h
      rw [← h.1, ← h.2, same]
      rfl
    · simp only [Option.map_eq_some_iff, Prod.mk.injEq, Prod.exists] at h
      obtain ⟨before', after', found, rfl, rfl⟩ := h
      rw [ih found]
      rfl

theorem length_cutAtChar? {mark : Char} {cs before after : List Char}
    (h : cutAtChar? mark cs = some (before, after)) : after.length < cs.length := by
  rw [eq_of_cutAtChar? h]
  simp only [List.length_append, List.length_cons]
  omega

/-- The text before the last `mark`, and the text after it. -/
def cutAtLast? (mark : Char) (cs : List Char) : Option (List Char × List Char) :=
  (cutAtChar? mark cs.reverse).map fun (after, before) => (before.reverse, after.reverse)

/-- The pieces of `cs` between the characters that satisfy `p`; one more than there are such
characters. -/
def splitAtEach (p : Char → Bool) : List Char → List (List Char)
  | [] => [[]]
  | c :: rest =>
    if p c then [] :: splitAtEach p rest
    else
      match splitAtEach p rest with
      | [] => [[c]]
      | piece :: pieces => (c :: piece) :: pieces

theorem splitAtEach_ne_nil (p : Char → Bool) (cs : List Char) : splitAtEach p cs ≠ [] := by
  cases cs with
  | nil => simp [splitAtEach]
  | cons c rest =>
    unfold splitAtEach
    split
    · simp
    · split <;> simp

/-- What stands in a piece stands in the whole, and no cut is made at it. -/
theorem of_mem_splitAtEach {p : Char → Bool} {cs piece : List Char}
    (hpiece : piece ∈ splitAtEach p cs) {c : Char} (hc : c ∈ piece) : c ∈ cs ∧ p c = false := by
  induction cs generalizing piece with
  | nil =>
    rw [List.mem_singleton.mp hpiece] at hc
    cases hc
  | cons d rest ih =>
    rw [splitAtEach] at hpiece
    split at hpiece
    · rcases List.mem_cons.mp hpiece with rfl | hpiece
      · cases hc
      · exact (ih hpiece hc).imp_left (List.mem_cons_of_mem d)
    · next hd =>
      cases hrest : splitAtEach p rest with
      | nil => exact absurd hrest (splitAtEach_ne_nil p rest)
      | cons first pieces =>
        rw [hrest] at hpiece ih
        rcases List.mem_cons.mp hpiece with rfl | hpiece
        · rcases List.mem_cons.mp hc with rfl | hc
          · exact ⟨List.mem_cons_self, Bool.eq_false_iff.mpr hd⟩
          · exact (ih List.mem_cons_self hc).imp_left (List.mem_cons_of_mem d)
        · exact (ih (List.mem_cons_of_mem first hpiece) hc).imp_left (List.mem_cons_of_mem d)

theorem splitAtEach_append_cons {p : Char → Bool} {c : Char} (hc : p c = true)
    (before after : List Char) :
    splitAtEach p (before ++ c :: after) = splitAtEach p before ++ splitAtEach p after := by
  induction before with
  | nil => simp [splitAtEach, hc]
  | cons d before ih =>
    rw [List.cons_append, splitAtEach, splitAtEach, ih]
    split
    · rfl
    · cases hpieces : splitAtEach p before with
      | nil => exact absurd hpieces (splitAtEach_ne_nil p before)
      | cons piece pieces => rfl

theorem splitAtEach_eq_singleton {p : Char → Bool} {cs : List Char} (h : ∀ c ∈ cs, p c = false) :
    splitAtEach p cs = [cs] := by
  induction cs with
  | nil => rfl
  | cons c rest ih =>
    rw [splitAtEach, h c List.mem_cons_self, ih fun d hd => h d (List.mem_cons_of_mem c hd)]
    rfl

/-- Every `mark` in `cs` replaced by the text `by_`. -/
def replaceChar (mark : Char) (by_ : List Char) (cs : List Char) : List Char :=
  cs.flatMap fun c => if c = mark then by_ else [c]

/-! ### Bytes

Offsets and columns that a user sees are counted in bytes of UTF-8. -/

/-- The number of bytes of `cs` in UTF-8. -/
def byteLength : List Char → Nat
  | [] => 0
  | c :: rest => c.utf8Size + byteLength rest

/-- `cs` from the byte offset `n` on, if a character starts there or the text ends there. -/
def dropBytes? : Nat → List Char → Option (List Char)
  | 0, cs => some cs
  | _ + 1, [] => none
  | n + 1, c :: rest => if c.utf8Size ≤ n + 1 then dropBytes? (n + 1 - c.utf8Size) rest else none

theorem byteLength_append (before after : List Char) :
    byteLength (before ++ after) = byteLength before + byteLength after := by
  induction before with
  | nil => exact (Nat.zero_add _).symm
  | cons c rest ih => rw [List.cons_append, byteLength, byteLength, ih, Nat.add_assoc]

/-- What follows a text is found at its length. -/
theorem dropBytes?_append (before after : List Char) (n : Nat) :
    dropBytes? (byteLength before + n) (before ++ after) = dropBytes? n after := by
  induction before with
  | nil => rw [byteLength, Nat.zero_add, List.nil_append]
  | cons c rest ih =>
    have hpos : 0 < c.utf8Size := c.utf8Size_pos
    obtain ⟨m, hm⟩ : ∃ m, byteLength (c :: rest) + n = m + 1 :=
      ⟨byteLength (c :: rest) + n - 1, by rw [byteLength]; omega⟩
    have hrest : m + 1 - c.utf8Size = byteLength rest + n := by
      rw [← hm, byteLength]
      omega
    rw [hm, List.cons_append, dropBytes?, if_pos (by rw [← hm, byteLength]; omega), hrest, ih]

/-- What is found at a byte offset follows a text of that length. -/
theorem dropBytes?_eq_some_iff {n : Nat} {cs tail : List Char} :
    dropBytes? n cs = some tail ↔ ∃ before, cs = before ++ tail ∧ byteLength before = n := by
  constructor
  · intro h
    induction cs generalizing n with
    | nil =>
      cases n with
      | zero => exact ⟨[], Option.some.inj h, rfl⟩
      | succ n => cases h
    | cons c rest ih =>
      cases n with
      | zero => exact ⟨[], Option.some.inj h, rfl⟩
      | succ n =>
        rw [dropBytes?] at h
        split at h
        · obtain ⟨before, rfl, hlength⟩ := ih h
          exact ⟨c :: before, rfl, by rw [byteLength]; omega⟩
        · cases h
  · rintro ⟨before, rfl, rfl⟩
    have hdrop := dropBytes?_append before tail 0
    rwa [Nat.add_zero, dropBytes?] at hdrop

end PugContracts.Text
