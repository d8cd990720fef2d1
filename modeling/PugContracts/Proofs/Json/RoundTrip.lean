import Mathlib.Data.List.Basic
import PugContracts.Json.Reader

/-!
# Reading what was printed

A printed value is read back as it was (`Value.read?_print`). The proof follows the two steps of
reading at once: `Reader.run` takes the tokens of a text, and each piece that the printer writes has
one lemma that says which reader is left after it. A number is the one token without an end of its
own, so it needs a character after it that cannot belong to it (`Delimited`); the printer only ever
puts a comma or a line end there.

A string that is no text is printed as a replacement character and does not come back, which is why
the statement is about values that are `Legible`.

## Main results

* `Reader.run_printValue` — after a printed value the reader stands as after that value
* `Value.read?_print` — reading undoes printing
-/

namespace PugContracts.Json

/-! ### Strings -/

theorem hexValue?_hexDigit : ∀ n < 16, hexValue? (hexDigit n) = some n := by decide

theorem hexNumber?_control {n : Nat} (hn : n < 0x20) :
    hexNumber? '0' '0' (hexDigit (n / 16)) (hexDigit (n % 16)) = some n := by
  have hzero : hexValue? '0' = some 0 := by decide
  rw [hexNumber?, hzero, hexValue?_hexDigit _ (by omega), hexValue?_hexDigit _ (by omega)]
  simp only [Option.pure_def, Option.bind_eq_bind, Option.bind_some, Option.some.injEq]
  omega

/-- A character that needs no escape is read as it stands. -/
theorem readUnits?_cons {c : Char} (cs : List Char) (hquote : c ≠ '"') (hslash : c ≠ '\\')
    (hcontrol : ¬ c.toNat < 0x20) :
    readUnits? (c :: cs) =
      (readUnits? cs).map fun (units, after) => (.char c :: units, after) := by
  rw [readUnits?.eq_def]
  split
  case h_5 heq =>
    obtain ⟨rfl, rfl⟩ := List.cons.inj heq
    exact if_neg (by simp [hcontrol, hslash])
  all_goals simp_all

/-- **A character is read back from its escape.** -/
theorem readUnits?_escape (c : Char) (cs : List Char) :
    readUnits? (escape c ++ cs) =
      (readUnits? cs).map fun (units, after) => (.char c :: units, after) := by
  rw [escape]
  split
  · next h => subst h; simp [readUnits?, escaped?]
  split
  · next h => subst h; simp [readUnits?, escaped?]
  split
  · next h => subst h; simp [readUnits?, escaped?]
  split
  · next h => subst h; simp [readUnits?, escaped?]
  split
  · next h => subst h; simp [readUnits?, escaped?]
  split
  · next h => subst h; simp [readUnits?, escaped?]
  split
  · next h => subst h; simp [readUnits?, escaped?]
  split
  · next hcontrol =>
    have hunit : CodeUnit.ofNat c.toNat = .char c := by
      rw [CodeUnit.ofNat, if_neg (by simp; omega), if_neg (by simp; omega), Char.ofNat_toNat]
    simp only [List.cons_append, List.nil_append, readUnits?, hexNumber?_control hcontrol, hunit]
  · next hquote hslash _ _ _ _ _ hcontrol => exact readUnits?_cons cs hquote hslash hcontrol

theorem readUnits?_flatMap_escape (text rest : List Char) :
    readUnits? (text.flatMap escape ++ '"' :: rest) = some (text.map .char, rest) := by
  induction text with
  | nil => simp [readUnits?]
  | cons c text ih => rw [List.flatMap_cons, List.append_assoc, readUnits?_escape, ih]; rfl

theorem textOfUnits?_map_char (text : List Char) :
    textOfUnits? (text.map .char) = some text := by
  induction text with
  | nil => rfl
  | cons c text ih => rw [List.map_cons, textOfUnits?, ih, Option.map_some]

theorem readToken?_quoted (text : String) (rest : List Char) :
    readToken? (quoted text ++ rest) = some (.text (some text), rest) := by
  have hunits := readUnits?_flatMap_escape text.toList rest
  rw [quoted, List.append_assoc, List.cons_append, List.cons_append, List.nil_append, readToken?,
    readString?, hunits, Option.map_some]
  show some (Token.text ((textOfUnits? (text.toList.map .char)).map String.ofList), rest) = _
  rw [textOfUnits?_map_char, Option.map_some, String.ofList_toList]

/-! ### Numbers -/

/-- A text that cannot belong to a number before it. -/
def Delimited (rest : List Char) : Prop :=
  ∀ c ∈ rest.head?, c.isDigit = false ∧ c ≠ '.' ∧ c ≠ 'e' ∧ c ≠ 'E'

theorem delimited_nil : Delimited [] := by simp [Delimited]

theorem delimited_comma (rest : List Char) : Delimited (',' :: rest) := by
  simp [Delimited]

theorem delimited_lineBreak (level : Nat) (rest : List Char) :
    Delimited (lineBreak level ++ rest) := by
  simp [Delimited, lineBreak]

/-- Only zero is written with a zero in front. -/
theorem head_toDigits_ne_zero {n : Nat} (hn : 0 < n) :
    (Nat.toDigits 10 n).head? ≠ some '0' := by
  induction n using Nat.strongRecOn with
  | ind n ih =>
    rcases Nat.lt_or_ge n 10 with hsmall | hlarge
    · rw [Nat.toDigits_of_lt_base hsmall]
      have hdigits : ∀ n < 10, 0 < n → [n.digitChar].head? ≠ some '0' := by decide
      exact hdigits n hsmall hn
    · rw [Nat.toDigits_of_base_le (by decide) hlarge,
        List.head?_append_of_ne_nil _ Nat.toDigits_ne_nil]
      exact ih (n / 10) (by omega) (by omega)

theorem readToken?_digit {c : Char} (cs : List Char) (hc : c.isDigit = true) :
    readToken? (c :: cs) = readNumber? c cs := by
  rw [readToken?.eq_def]
  split <;> simp_all

/-- A run of digits ends where no digit follows. -/
theorem takeWhile_append_delimited {digits rest : List Char}
    (hdigits : ∀ c ∈ digits, c.isDigit = true) (hrest : Delimited rest) :
    (digits ++ rest).takeWhile Char.isDigit = digits := by
  rw [List.takeWhile_append_of_pos hdigits]
  cases rest with
  | nil => simp
  | cons c rest =>
    have hc := (hrest c rfl).1
    rw [List.takeWhile_cons_of_neg (by simp [hc]), List.append_nil]

/-- Nothing of a number is left in a text that is delimited. -/
theorem readNumber?_of_delimited {digit : Char} {digits rest : List Char}
    (hdigits : ∀ c ∈ digits, c.isDigit = true) (hzero : digit = '0' → digits = [])
    (hrest : Delimited rest) :
    readNumber? digit (digits ++ rest) =
      some (.count (Text.digitsValue (digit :: digits)), rest) := by
  have htaken : (if digit = '0' then [] else (digits ++ rest).takeWhile Char.isDigit) = digits := by
    split
    · next h => exact (hzero h).symm
    · exact takeWhile_append_delimited hdigits hrest
  rw [readNumber?, htaken, List.drop_left]
  cases rest with
  | nil => simp [skipFraction?, skipExponent?]
  | cons c rest =>
    obtain ⟨hdigit, hpoint, hlower, hupper⟩ := hrest c rfl
    simp [skipFraction?, skipExponent?, hdigit, hpoint, hlower, hupper]

/-- **A number is read back from its digits.** -/
theorem readToken?_toString (n : Nat) {rest : List Char} (hrest : Delimited rest) :
    readToken? ((toString n).toList ++ rest) = some (.count n, rest) := by
  have htext : (toString n).toList = Nat.toDigits 10 n := by
    rw [Nat.toString_eq_ofList_toDigits, String.toList_ofList]
  rw [htext]
  obtain ⟨digit, digits, hcons⟩ :=
    List.exists_cons_of_ne_nil (Nat.toDigits_ne_nil (b := 10) (n := n))
  have hall : ∀ c ∈ digit :: digits, c.isDigit = true := by
    intro c hc
    rw [← hcons] at hc
    exact Nat.isDigit_of_mem_toDigits (by decide) (by decide) hc
  have hzero : digit = '0' → digits = [] := by
    rintro rfl
    rcases Nat.eq_zero_or_pos n with rfl | hn
    · rw [Nat.toDigits_zero] at hcons
      exact (List.cons.inj hcons).2.symm
    · exact absurd (by rw [hcons]; rfl) (head_toDigits_ne_zero hn)
  have hvalue : Text.digitsValue (digit :: digits) = n := by
    rw [← hcons]
    exact Nat.ofDigitChars_ten_toDigits
  rw [hcons, List.cons_append, readToken?_digit _ (hall digit List.mem_cons_self),
    readNumber?_of_delimited (fun c hc => hall c (List.mem_cons_of_mem _ hc)) hzero hrest, hvalue]

/-! ### Taking the tokens of a text -/

/-- Blanks before a token do not count. -/
theorem tokens?_blanks {blanks : List Char} (cs : List Char)
    (hblank : ∀ c ∈ blanks, isSpace c = true) : tokens? (blanks ++ cs) = tokens? cs := by
  have hdrop : (blanks ++ cs).dropWhile isSpace = cs.dropWhile isSpace :=
    List.dropWhile_append_of_pos hblank
  rw [tokens?.eq_def, tokens?.eq_def cs, hdrop]

/-- No token starts with a blank. -/
theorem isSpace_of_readToken? {c : Char} {cs after : List Char} {token : Token}
    (hread : readToken? (c :: cs) = some (token, after)) : isSpace c = false := by
  by_contra hspace
  simp only [Bool.not_eq_false, isSpace, Bool.or_eq_true, beq_iff_eq] at hspace
  rcases hspace with ((rfl | rfl) | rfl) | rfl <;>
    simp [readToken?, readWord?, words, Text.afterPrefix?] at hread

/-- A token at the start of a text is the first of its tokens. -/
theorem tokens?_of_readToken? {cs after : List Char} {token : Token}
    (hread : readToken? cs = some (token, after)) :
    tokens? cs = (tokens? after).map (token :: ·) := by
  cases cs with
  | nil => exact absurd hread (by simp [readToken?])
  | cons c cs =>
    have hstart : (c :: cs).dropWhile isSpace = c :: cs :=
      List.dropWhile_cons_of_neg (by simp [isSpace_of_readToken? hread])
    rw [tokens?.eq_def]
    split
    · next hblank => exact absurd (hstart.symm.trans hblank) (List.cons_ne_nil _ _)
    · next c' rest hcons =>
      rw [hstart] at hcons
      obtain ⟨rfl, rfl⟩ := List.cons.inj hcons
      split
      · next hnone => exact absurd (hread.symm.trans hnone) (by simp)
      · next token' after' hsome =>
        obtain ⟨rfl, rfl⟩ := Prod.mk.inj (Option.some.inj (hread.symm.trans hsome))
        rfl

namespace Reader

/-- The reader after all tokens of a text. -/
def run (reader : Reader) (cs : List Char) : Option Reader :=
  (tokens? cs).bind fun tokens => tokens.foldlM step reader

@[simp] theorem run_nil (reader : Reader) : reader.run [] = some reader := by
  rw [run, tokens?.eq_def]
  rfl

/-- **The tokens of a text are taken one after the other.** -/
theorem run_of_readToken? (reader : Reader) {cs after : List Char} {token : Token}
    (hread : readToken? cs = some (token, after)) :
    reader.run cs = (reader.step token).bind fun reader => reader.run after := by
  rw [run, tokens?_of_readToken? hread]
  cases htokens : tokens? after with
  | none => cases reader.step token <;> simp [run, htokens]
  | some tokens => simp [run, htokens]

theorem run_comma (reader : Reader) (cs : List Char) :
    reader.run (',' :: cs) = (reader.step .comma).bind fun reader => reader.run cs :=
  reader.run_of_readToken? rfl

theorem run_colon (reader : Reader) (cs : List Char) :
    reader.run (':' :: cs) = (reader.step .colon).bind fun reader => reader.run cs :=
  reader.run_of_readToken? rfl

theorem run_blanks (reader : Reader) {blanks : List Char} (cs : List Char)
    (hblank : ∀ c ∈ blanks, isSpace c = true) : reader.run (blanks ++ cs) = reader.run cs := by
  rw [run, run, tokens?_blanks cs hblank]

theorem run_lineBreak (reader : Reader) (level : Nat) (cs : List Char) :
    reader.run (lineBreak level ++ cs) = reader.run cs := by
  refine reader.run_blanks cs fun c hc => ?_
  rcases List.mem_cons.mp hc with rfl | hc
  · decide
  · rw [List.eq_of_mem_replicate hc]
    decide

end Reader

/-! ### Values -/

/-- No string of the value, at any depth, is anything but text. -/
inductive Legible : Value → Prop
  | null : Legible .null
  | truth (value : Bool) : Legible (.truth value)
  | count (value : Nat) : Legible (.count value)
  | otherNumber : Legible .otherNumber
  | text (value : String) : Legible (.text value)
  | list {items : List Value} : (∀ item ∈ items, Legible item) → Legible (.list items)
  | object {members : List (String × Value)} :
    (∀ member ∈ members, Legible member.2) → Legible (.object members)

theorem Legible.listOf {α : Type} {encode : α → Value} (h : ∀ x, Legible (encode x))
    (items : List α) : Legible (.listOf encode items) := by
  refine .list fun item hitem => ?_
  obtain ⟨x, -, rfl⟩ := List.mem_map.mp hitem
  exact h x

theorem Legible.optional {α : Type} {encode : α → Value} (h : ∀ x, Legible (encode x))
    (value : Option α) : Legible (.optional encode value) := by
  cases value with
  | none => exact .null
  | some x => exact h x

namespace Reader

/-- What may come next is a value. -/
def BeforeValue (awaiting : Awaiting) : Prop :=
  awaiting = .value ∨ awaiting = .firstItem

theorem step_of_beforeValue {awaiting : Awaiting} (hawaiting : BeforeValue awaiting)
    (frames : List Frame) {token : Token} (htoken : token ≠ .closeList) :
    step ⟨awaiting, frames⟩ token = begin frames token := by
  rcases hawaiting with rfl | rfl
  · rfl
  · exact if_neg htoken

/-- Printing a value and reading it leaves the reader that has the value complete. -/
def ReadsBack (value : Value) : Prop :=
  ∀ (level : Nat) (awaiting : Awaiting) (frames : List Frame) (rest : List Char),
    BeforeValue awaiting → Delimited rest →
      run ⟨awaiting, frames⟩ (printValue level value ++ rest) =
        (complete value frames).bind fun reader => reader.run rest

/-- A value that is written as one token is read back. -/
theorem readsBack_of_token {value : Value} (token : Token) (htoken : token ≠ .closeList)
    (hbegin : ∀ frames, begin frames token = complete value frames)
    (hread : ∀ level rest, Delimited rest →
      readToken? (printValue level value ++ rest) = some (token, rest)) : ReadsBack value := by
  intro level awaiting frames rest hawaiting hrest
  rw [run_of_readToken? _ (hread level rest hrest), step_of_beforeValue hawaiting frames htoken,
    hbegin]

theorem readsBack_null : ReadsBack .null :=
  readsBack_of_token .null (by decide) (fun _ => rfl) fun level rest _ => by
    simp [printValue, readToken?, readWord?, words, Text.afterPrefix?]

theorem readsBack_truth (value : Bool) : ReadsBack (.truth value) :=
  readsBack_of_token (.truth value) (by simp) (fun _ => rfl) fun level rest _ => by
    cases value <;> simp [printValue, readToken?, readWord?, words, Text.afterPrefix?]

theorem readsBack_count (n : Nat) : ReadsBack (.count n) :=
  readsBack_of_token (.count n) (by simp) (fun _ => rfl) fun level rest hrest => by
    rw [printValue, readToken?_toString n hrest]

theorem readsBack_text (value : String) : ReadsBack (.text value) :=
  readsBack_of_token (.text (some value)) (by simp) (fun _ => rfl) fun level rest _ => by
    rw [printValue, readToken?_quoted]

theorem readsBack_otherNumber : ReadsBack .otherNumber :=
  readsBack_of_token .otherNumber (by decide) (fun _ => rfl) fun level rest hrest => by
    rw [printValue, List.cons_append, readToken?_digit _ (by decide)]
    cases rest with
    | nil => rfl
    | cons c rest =>
      obtain ⟨hdigit, -, hlower, hupper⟩ := hrest c rfl
      simp [readNumber?, skipFraction?, skipExponent?, hdigit, hlower, hupper]

/-- The items of an array after the first one are read back. -/
theorem run_printItems {items : List Value} (hitems : ∀ item ∈ items, ReadsBack item) (level : Nat)
    (done : List Value) (frames : List Frame) {rest : List Char} (hrest : Delimited rest) :
    run ⟨.separator, .list done :: frames⟩ (printItems level items ++ rest) =
      run ⟨.separator, .list (items.reverse ++ done) :: frames⟩ rest := by
  induction items generalizing done with
  | nil => rfl
  | cons item items ih =>
    have hdelimited : Delimited (printItems level items ++ rest) := by
      cases items with
      | nil => exact hrest
      | cons next items => rw [printItems]; exact delimited_comma _
    have htext : printItems level (item :: items) ++ rest =
        ',' :: (lineBreak level ++
          (printValue level item ++ (printItems level items ++ rest))) := by
      simp only [printItems, List.cons_append, List.append_assoc]
    rw [htext, run_comma]
    show run ⟨.value, .list done :: frames⟩ _ = _
    rw [run_lineBreak, hitems item List.mem_cons_self level _ _ _ (Or.inl rfl) hdelimited]
    show run ⟨.separator, .list (item :: done) :: frames⟩ _ = _
    rw [ih (fun item hitem => hitems item (List.mem_cons_of_mem _ hitem)), List.reverse_cons,
      List.append_assoc, List.cons_append, List.nil_append]

/-- A member of an object, from its name on, is read back. -/
theorem run_member {value : Value} (hvalue : ReadsBack value) (name : String) (level : Nat)
    {awaiting : Awaiting} (hawaiting : awaiting = .name ∨ awaiting = .firstName)
    (done : List (String × Value)) (frames : List Frame) {rest : List Char}
    (hrest : Delimited rest) :
    run ⟨awaiting, .object done :: frames⟩
        (quoted name ++ (':' :: ' ' :: (printValue level value ++ rest))) =
      run ⟨.separator, .object ((name, value) :: done) :: frames⟩ rest := by
  have hname : step ⟨awaiting, .object done :: frames⟩ (.text (some name)) =
      some ⟨.colon, .member done name :: frames⟩ := by
    rcases hawaiting with rfl | rfl <;> simp [step, nameMember]
  rw [run_of_readToken? _ (readToken?_quoted name _), hname, Option.bind_some, run_colon]
  show run ⟨.value, .member done name :: frames⟩ ([' '] ++ (printValue level value ++ rest)) = _
  rw [run_blanks _ _ fun c hc => by rw [List.mem_singleton.mp hc]; rfl]
  exact hvalue level .value _ rest (Or.inl rfl) hrest

/-- The members of an object after the first one are read back. -/
theorem run_printMembers {members : List (String × Value)}
    (hmembers : ∀ member ∈ members, ReadsBack member.2) (level : Nat)
    (done : List (String × Value)) (frames : List Frame) {rest : List Char}
    (hrest : Delimited rest) :
    run ⟨.separator, .object done :: frames⟩ (printMembers level members ++ rest) =
      run ⟨.separator, .object (members.reverse ++ done) :: frames⟩ rest := by
  induction members generalizing done with
  | nil => rfl
  | cons member members ih =>
    obtain ⟨name, value⟩ := member
    have hdelimited : Delimited (printMembers level members ++ rest) := by
      cases members with
      | nil => exact hrest
      | cons next members => rw [printMembers]; exact delimited_comma _
    have htext : printMembers level ((name, value) :: members) ++ rest =
        ',' :: (lineBreak level ++ (quoted name ++ (':' :: ' ' ::
          (printValue level value ++ (printMembers level members ++ rest))))) := by
      simp only [printMembers, List.cons_append, List.append_assoc, List.nil_append]
    rw [htext, run_comma]
    show run ⟨.name, .object done :: frames⟩ _ = _
    rw [run_lineBreak, run_member (hmembers _ List.mem_cons_self) name level (Or.inl rfl) _ _
      hdelimited, ih (fun member hmember => hmembers member (List.mem_cons_of_mem _ hmember)),
      List.reverse_cons, List.append_assoc, List.cons_append, List.nil_append]

theorem readsBack_list {items : List Value} (hitems : ∀ item ∈ items, ReadsBack item) :
    ReadsBack (.list items) := by
  intro level awaiting frames rest hawaiting hrest
  cases items with
  | nil =>
    rw [printValue, List.cons_append, run_of_readToken? _ rfl,
      step_of_beforeValue hawaiting frames (by decide)]
    show run ⟨.firstItem, .list [] :: frames⟩ (']' :: rest) = _
    rw [run_of_readToken? _ rfl]
    rfl
  | cons item items =>
    have hdelimited : Delimited (printItems (level + 1) items ++
        (lineBreak level ++ (']' :: rest))) := by
      cases items with
      | nil => exact delimited_lineBreak level _
      | cons next items => rw [printItems]; exact delimited_comma _
    have htext : printValue level (.list (item :: items)) ++ rest =
        '[' :: (lineBreak (level + 1) ++ (printValue (level + 1) item ++
          (printItems (level + 1) items ++ (lineBreak level ++ (']' :: rest))))) := by
      simp only [printValue, List.cons_append, List.append_assoc, List.nil_append]
    rw [htext, run_of_readToken? _ rfl, step_of_beforeValue hawaiting frames (by decide)]
    show run ⟨.firstItem, .list [] :: frames⟩ _ = _
    rw [run_lineBreak, hitems item List.mem_cons_self _ _ _ _ (Or.inr rfl) hdelimited]
    show run ⟨.separator, .list [item] :: frames⟩ _ = _
    rw [run_printItems (fun item hitem => hitems item (List.mem_cons_of_mem _ hitem)) _ _ _
      (delimited_lineBreak level _), run_lineBreak, run_of_readToken? _ rfl]
    show (complete (.list (items.reverse ++ [item]).reverse) frames).bind _ = _
    rw [List.reverse_append, List.reverse_reverse]
    rfl

theorem readsBack_object {members : List (String × Value)}
    (hmembers : ∀ member ∈ members, ReadsBack member.2) : ReadsBack (.object members) := by
  intro level awaiting frames rest hawaiting hrest
  cases members with
  | nil =>
    rw [printValue, List.cons_append, run_of_readToken? _ rfl,
      step_of_beforeValue hawaiting frames (by decide)]
    show run ⟨.firstName, .object [] :: frames⟩ ('}' :: rest) = _
    rw [run_of_readToken? _ rfl]
    rfl
  | cons member members =>
    obtain ⟨name, value⟩ := member
    have hdelimited : Delimited (printMembers (level + 1) members ++
        (lineBreak level ++ ('}' :: rest))) := by
      cases members with
      | nil => exact delimited_lineBreak level _
      | cons next members => rw [printMembers]; exact delimited_comma _
    have htext : printValue level (.object ((name, value) :: members)) ++ rest =
        '{' :: (lineBreak (level + 1) ++ (quoted name ++ (':' :: ' ' ::
          (printValue (level + 1) value ++ (printMembers (level + 1) members ++
            (lineBreak level ++ ('}' :: rest))))))) := by
      simp only [printValue, List.cons_append, List.append_assoc, List.nil_append]
    rw [htext, run_of_readToken? _ rfl, step_of_beforeValue hawaiting frames (by decide)]
    show run ⟨.firstName, .object [] :: frames⟩ _ = _
    rw [run_lineBreak, run_member (hmembers _ List.mem_cons_self) name _ (Or.inr rfl) _ _
      hdelimited, run_printMembers (fun member hmember => hmembers member
      (List.mem_cons_of_mem _ hmember)) _ _ _ (delimited_lineBreak level _), run_lineBreak,
      run_of_readToken? _ rfl]
    show (complete (.object (members.reverse ++ [(name, value)]).reverse) frames).bind _ = _
    rw [List.reverse_append, List.reverse_reverse]
    rfl

/-- **After a printed value the reader stands as after that value.** -/
theorem run_printValue {value : Value} (hlegible : Legible value) : ReadsBack value := by
  induction hlegible with
  | null => exact readsBack_null
  | truth value => exact readsBack_truth value
  | count n => exact readsBack_count n
  | otherNumber => exact readsBack_otherNumber
  | text value => exact readsBack_text value
  | list _ ih => exact readsBack_list ih
  | object _ ih => exact readsBack_object ih

end Reader

/-- **Reading undoes printing.** -/
theorem Value.read?_print {value : Value} (hlegible : Legible value) :
    Value.read? value.print = some value := by
  have hrun : Reader.run .start (printValue 0 value ++ []) = some ⟨.nothing value, []⟩ := by
    rw [Reader.start, Reader.run_printValue hlegible 0 .value [] [] (Or.inl rfl) delimited_nil,
      Reader.complete, Option.bind_some, Reader.run_nil]
  rw [List.append_nil, Reader.run] at hrun
  obtain ⟨tokens, htokens, hfold⟩ := Option.bind_eq_some_iff.mp hrun
  rw [Value.read?, Value.print, String.toList_ofList, htokens, Option.bind_some, ofTokens?, hfold]

end PugContracts.Json
