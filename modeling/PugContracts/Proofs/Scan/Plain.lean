import Mathlib.Data.List.TakeWhile
import Mathlib.Tactic.SplitIfs
import PugContracts.Scan.Cut

/-!
# Text without comments

In a text in which no comment starts, the scanner reads one character after the other, and two texts
are read one after the other like one: `plain?` says what state is reached, if no comment starts on
the way. Only where two texts meet a slash at the end of the first might start a comment with the
second (`Apart`).

`Spans k` holds of texts that are read from code to code and raise the depth by `k`. That a text is
closed and free of comments, in the words of the scanner, is `Spans 0` (`closed_iff`).
-/

namespace PugContracts.Scan

variable {comments : Bool} {s s' : State} {c : Char} {next : Option Char} {j k depth : Int}
  {a b cs : List Char}

/-! ### Reading -/

namespace State

/-- The text so far ends inside a comment of either kind. -/
def commented (s : State) : Bool :=
  s.inComment || s.mode == .lineComment

/-- A state in code or in a string literal. -/
def Plain (s : State) : Prop :=
  match s.mode with
  | .code => True
  | .quoted mark | .escaped mark => isQuote mark = true
  | _ => False

theorem Plain.commented (h : s.Plain) : s.commented = false := by
  obtain ⟨mode, depth⟩ := s
  cases mode <;> first | rfl | exact h.elim

/-- The same state at another depth. -/
def raise (k : Int) (s : State) : State :=
  ⟨s.mode, s.depth + k⟩

end State

/-- The state after a character that starts no comment. -/
def advance (s : State) (c : Char) : State :=
  (step false s c none).2

theorem advance_code (depth : Int) (c : Char) :
    advance ⟨.code, depth⟩ c = (stepCode depth c).2 := by
  simp [advance, step]

theorem advance_quoted (mark : Char) (depth : Int) (c : Char) :
    advance ⟨.quoted mark, depth⟩ c =
      if c = '\\' then ⟨.escaped mark, depth⟩
      else if c = mark then ⟨.code, depth⟩
      else ⟨.quoted mark, depth⟩ := by
  simp only [advance, step]
  split_ifs <;> rfl

/-- Whether a character is read otherwise than as a part of code or of a string: it starts a comment
or is in one. -/
def isComment (s : State) (c : Char) (next : Option Char) : Bool :=
  match s.mode with
  | .code => c == '/' && (next == some '/' || next == some '*')
  | .quoted _ | .escaped _ => false
  | _ => true

/-- The state after a text, if no character of it belongs to a comment. -/
def plain? (s : State) : List Char → Option State
  | [] => some s
  | c :: rest => if isComment s c rest.head? then none else plain? (advance s c) rest

theorem step_of_not_isComment (h : isComment s c next = false) :
    (step comments s c next).2 = advance s c := by
  obtain ⟨mode, depth⟩ := s
  cases mode with
  | code =>
    have hslash : ¬ (c = '/' ∧ next = some '/') := by
      rintro ⟨rfl, rfl⟩
      simp [isComment] at h
    have hstar : ¬ (c = '/' ∧ next = some '*') := by
      rintro ⟨rfl, rfl⟩
      simp [isComment] at h
    simp [step, advance, hslash, hstar]
  | quoted mark => simp [step, advance]
  | escaped mark => simp [step, advance]
  | _ => simp [isComment] at h

/-- Where comments are not recognised, the next character does not matter. -/
theorem step_false (hs : s.Plain) (c : Char) (next : Option Char) :
    step false s c next = step false s c none := by
  obtain ⟨mode, depth⟩ := s
  cases mode <;> first | rfl | exact hs.elim

/-- What follows code and strings without a comment is code or a string. -/
theorem State.Plain.advance (h : s.Plain) (c : Char) : (advance s c).Plain := by
  obtain ⟨mode, depth⟩ := s
  cases mode with
  | code =>
    rw [advance_code, stepCode]
    split_ifs with hcloser hopener hquote
    · trivial
    · trivial
    · exact hquote
    · trivial
  | quoted mark =>
    rw [advance_quoted]
    split_ifs
    · exact h
    · trivial
    · exact h
  | escaped mark => exact h
  | _ => exact h.elim

/-- Read with or without comments, the text leads to the same state. -/
theorem endState_of_plain? (h : plain? s cs = some s') : endState comments s cs = s' := by
  induction cs generalizing s with
  | nil => exact Option.some.inj h
  | cons c rest ih =>
    rw [plain?] at h
    split at h
    · cases h
    · next hplain => rw [endState, step_of_not_isComment (Bool.eq_false_iff.mpr hplain), ih h]

theorem State.Plain.of_plain? (hs : s.Plain) (h : plain? s cs = some s') : s'.Plain := by
  induction cs generalizing s with
  | nil => exact Option.some.inj h ▸ hs
  | cons c rest ih =>
    rw [plain?] at h
    split at h
    · cases h
    · exact ih (hs.advance c) h

/-! ### One text after the other -/

/-- No comment starts where the two texts meet. -/
def Apart (a b : List Char) : Prop :=
  a.getLast? = some '/' → b.head? ≠ some '/' ∧ b.head? ≠ some '*'

theorem isComment_head?_append (hapart : Apart (c :: a) b) :
    isComment s c (a ++ b).head? = isComment s c a.head? := by
  cases a with
  | cons d rest => rfl
  | nil =>
    rw [List.nil_append, List.head?_nil]
    cases hmode : s.mode with
    | code =>
      by_cases hc : c = '/'
      · obtain ⟨hslash, hstar⟩ := hapart (by simp [hc])
        simp [isComment, hmode, hslash, hstar]
      · simp [isComment, hmode, hc]
    | _ => simp [isComment, hmode]

theorem plain?_append (hapart : Apart a b) :
    plain? s (a ++ b) = (plain? s a).bind fun s' => plain? s' b := by
  induction a generalizing s with
  | nil => rfl
  | cons c rest ih =>
    have hrest : Apart rest b := by
      intro hlast
      refine hapart ?_
      cases rest with
      | nil => simp at hlast
      | cons d rest => rwa [List.getLast?_cons_cons]
    rw [List.cons_append, plain?, plain?, isComment_head?_append hapart]
    split
    · rfl
    · exact ih hrest

theorem advance_raise (k : Int) (s : State) (c : Char) :
    advance (s.raise k) c = (advance s c).raise k := by
  obtain ⟨mode, depth⟩ := s
  cases mode with
  | code =>
    rw [State.raise, advance_code, advance_code, stepCode, stepCode]
    split_ifs <;> simp only [State.raise, State.mk.injEq, true_and] <;> omega
  | quoted mark =>
    rw [State.raise, advance_quoted, advance_quoted]
    split_ifs <;> rfl
  | lineComment =>
    simp only [State.raise, advance, step]
    split_ifs <;> rfl
  | blockComment => simp [State.raise, advance, step]
  | escaped | blockOpen | blockClose => rfl

/-- What is read at one depth is read at any other one. -/
theorem plain?_raise (k : Int) (s : State) (cs : List Char) :
    plain? (s.raise k) cs = (plain? s cs).map (State.raise k) := by
  induction cs generalizing s with
  | nil => rfl
  | cons c rest ih =>
    rw [plain?, plain?, advance_raise, show isComment (s.raise k) c = isComment s c from rfl]
    split
    · rfl
    · exact ih _

/-! ### Closed texts -/

/-- No comment starts in the text. -/
def CommentFree (cs : List Char) : Prop :=
  ∀ before, before <+: cs → (endState true .start before).commented = false

/-- The text closes all it opens, and has no comment. -/
def Closed (cs : List Char) : Prop :=
  isBalanced true cs = true ∧ CommentFree cs

theorem isComment_head?_of_isPrefix {before rest : List Char}
    (h : isComment s c rest.head? = false) (hbefore : before <+: rest) :
    isComment s c before.head? = false := by
  cases before with
  | cons d tail =>
    obtain ⟨more, rfl⟩ := hbefore
    exact h
  | nil =>
    obtain ⟨mode, depth⟩ := s
    cases mode <;> simp_all [isComment]

/-- The beginning of a text without comments has none. -/
theorem exists_plain?_of_isPrefix {before : List Char} (h : plain? s cs = some s')
    (hbefore : before <+: cs) : ∃ middle, plain? s before = some middle := by
  induction cs generalizing s before with
  | nil => exact ⟨s, by rw [List.prefix_nil.mp hbefore]; rfl⟩
  | cons c rest ih =>
    cases before with
    | nil => exact ⟨s, rfl⟩
    | cons d tail =>
      obtain ⟨rfl, htail⟩ := List.cons_prefix_cons.mp hbefore
      rw [plain?] at h
      split at h
      · cases h
      · next hplain =>
        rw [plain?, isComment_head?_of_isPrefix (Bool.eq_false_iff.mpr hplain) htail]
        exact ih h htail

theorem exists_commented_of_plain?_eq_none (hs : s.Plain) (h : plain? s cs = none) :
    ∃ before, before <+: cs ∧ (endState true s before).commented = true := by
  induction cs generalizing s with
  | nil => cases h
  | cons c rest ih =>
    rw [plain?] at h
    split at h
    · next hcomment =>
      obtain ⟨mode, depth⟩ := s
      cases mode with
      | code =>
        obtain ⟨rfl, hnext⟩ : c = '/' ∧ (rest.head? = some '/' ∨ rest.head? = some '*') := by
          simpa [isComment] using hcomment
        rcases hnext with hnext | hnext
        · obtain ⟨tail, rfl⟩ := List.head?_eq_some_iff.mp hnext
          exact ⟨['/', '/'], ⟨tail, rfl⟩, rfl⟩
        · obtain ⟨tail, rfl⟩ := List.head?_eq_some_iff.mp hnext
          exact ⟨['/', '*'], ⟨tail, rfl⟩, rfl⟩
      | quoted | escaped => simp [isComment] at hcomment
      | _ => exact hs.elim
    · next hplain =>
      obtain ⟨before, hbefore, hend⟩ := ih (hs.advance c) h
      refine ⟨c :: before, List.cons_prefix_cons.mpr ⟨rfl, hbefore⟩, ?_⟩
      rwa [endState, step_of_not_isComment
        (isComment_head?_of_isPrefix (Bool.eq_false_iff.mpr hplain) hbefore)]

/-- Outside of comments, what is balanced is code at depth zero. -/
theorem State.Plain.eq_start (hs : s.Plain) (h : s.isBalanced = true) : s = .start := by
  obtain ⟨mode, depth⟩ := s
  obtain ⟨⟨hdepth, hstring⟩, -⟩ : (depth = 0 ∧ State.inString ⟨mode, depth⟩ = false) ∧ _ := by
    simpa only [State.isBalanced, Bool.and_eq_true, beq_iff_eq, Bool.not_eq_true'] using h
  subst hdepth
  cases mode with
  | code => rfl
  | quoted | escaped => cases hstring
  | _ => exact hs.elim

/-- A text is free of comments if it is read as code and strings. -/
theorem commentFree_of_plain? (h : plain? .start cs = some s') : CommentFree cs := by
  intro before hbefore
  obtain ⟨middle, hmiddle⟩ := exists_plain?_of_isPrefix h hbefore
  rw [endState_of_plain? hmiddle]
  exact (State.Plain.of_plain? (s := .start) trivial hmiddle).commented

/-- **A text is closed and free of comments** if it is read from code to code without raising the
depth. -/
theorem closed_iff : Closed cs ↔ plain? .start cs = some .start := by
  constructor
  · rintro ⟨hbalanced, hfree⟩
    cases hplain : plain? .start cs with
    | none =>
      obtain ⟨before, hbefore, hcommented⟩ :=
        exists_commented_of_plain?_eq_none (s := .start) trivial hplain
      rw [hfree before hbefore] at hcommented
      cases hcommented
    | some final =>
      rw [isBalanced, endState_of_plain? hplain] at hbalanced
      rw [(State.Plain.of_plain? (s := .start) trivial hplain).eq_start hbalanced]
  · intro hplain
    exact ⟨by rw [isBalanced, endState_of_plain? hplain]; rfl, commentFree_of_plain? hplain⟩

/-! ### Texts from code to code -/

/-- The text is read from code to code, and it raises the depth by `k`. -/
def Spans (k : Int) (cs : List Char) : Prop :=
  ∀ depth, plain? ⟨.code, depth⟩ cs = some ⟨.code, depth + k⟩

/-- A fixed text that can stand beside any other: it neither starts nor ends a comment with it. -/
structure Fixed (k : Int) (cs : List Char) : Prop where
  /-- It is read from code to code. -/
  spans : Spans k cs
  /-- It starts with something else than a slash or a star. -/
  head : ∃ c, cs.head? = some c ∧ c ≠ '/' ∧ c ≠ '*'
  /-- It does not end with a slash. -/
  last : cs.getLast? ≠ some '/'

/-- A text that is read from code to code at one depth is so at any other one. -/
theorem spans_of_plain? (depth : Int) (h : plain? ⟨.code, depth⟩ cs = some ⟨.code, depth + k⟩) :
    Spans k cs := by
  intro other
  have hraise := plain?_raise (other - depth) ⟨.code, depth⟩ cs
  have hstart : depth + (other - depth) = other := by omega
  have hend : depth + k + (other - depth) = other + k := by omega
  rw [h, State.raise, Option.map_some, State.raise] at hraise
  dsimp only at hraise
  rwa [hstart, hend] at hraise

theorem Closed.spans (h : Closed cs) : Spans 0 cs :=
  spans_of_plain? 0 (closed_iff.mp h)

theorem spans_nil : Spans 0 [] := fun depth => by
  rw [Int.add_zero]
  rfl

theorem Spans.append_of_apart (ha : Spans j a) (hb : Spans k b) (hapart : Apart a b) :
    Spans (j + k) (a ++ b) := by
  intro depth
  rw [plain?_append hapart, ha, Option.bind_some, hb, Int.add_assoc]

/-- A text from code to code that any other may follow. -/
structure Whole (k : Int) (cs : List Char) : Prop where
  /-- It is read from code to code. -/
  spans : Spans k cs
  /-- It does not end with a slash. -/
  last : cs.getLast? ≠ some '/'

theorem Fixed.whole (h : Fixed k cs) : Whole k cs :=
  ⟨h.spans, h.last⟩

theorem Whole.append (ha : Whole j a) (hb : Spans k b) : Spans (j + k) (a ++ b) :=
  ha.spans.append_of_apart hb fun h => absurd h ha.last

theorem Spans.append_fixed (ha : Spans j a) (hb : Fixed k b) : Whole (j + k) (a ++ b) := by
  obtain ⟨c, hc, hslash, hstar⟩ := hb.head
  refine ⟨ha.append_of_apart hb.spans fun _ => by simp [hc, hslash, hstar], ?_⟩
  obtain ⟨tail, rfl⟩ := List.head?_eq_some_iff.mp hc
  obtain ⟨before, last, hlast⟩ := (List.eq_nil_or_concat (c :: tail)).resolve_left
    (List.cons_ne_nil c tail)
  have := hb.last
  rw [hlast] at this ⊢
  simpa [← List.append_assoc] using this

/-- Whether a text is `Fixed`, as it can be computed. -/
theorem fixed_of_plain? (h : (plain? .start cs == some ⟨.code, k⟩ &&
    cs.head?.any (fun c => c != '/' && c != '*') && cs.getLast? != some '/') = true) :
    Fixed k cs := by
  simp only [Bool.and_eq_true, beq_iff_eq, bne_iff_ne] at h
  obtain ⟨⟨hplain, hhead⟩, hlast⟩ := h
  refine ⟨spans_of_plain? 0 (by rw [Int.zero_add]; exact hplain), ?_, hlast⟩
  cases cs with
  | nil => cases hhead
  | cons c rest => exact ⟨c, rfl, by simpa using hhead⟩

/-! ### Characters without a meaning -/

/-- A character that the scanner passes over in code and in strings. -/
def isInert (c : Char) : Bool :=
  !(isOpener c || isCloser c || isQuote c || c == '\\' || c == '/' || c == '*')

/-- The characters with a meaning. -/
def meaningful : List Char :=
  ['(', '[', '{', ')', ']', '}', '"', '\'', '\x60', '\\', '/', '*']

theorem mem_meaningful (h : isInert c = false) : c ∈ meaningful := by
  simp only [isInert, isOpener, isCloser, isQuote, Bool.not_eq_false', Bool.or_eq_true, beq_iff_eq,
    or_assoc] at h
  simpa only [meaningful, List.mem_cons, List.not_mem_nil, or_false] using h

/-- A character is inert if it has a property that no character with a meaning has. -/
theorem isInert_of {p : Char → Bool} (hp : meaningful.all (!p ·) = true) (h : p c = true) :
    isInert c = true := by
  cases hc : isInert c with
  | true => rfl
  | false => simpa [h] using List.all_eq_true.mp hp c (mem_meaningful hc)

theorem isInert_of_isBlank (h : Text.isBlank c = true) : isInert c = true :=
  isInert_of rfl h

theorem ne_of_isInert (h : isInert c = true) : c ≠ '/' ∧ c ≠ '*' := by
  constructor <;> rintro rfl <;> exact absurd h (by decide)

theorem advance_code_of_isInert (h : isInert c = true) (depth : Int) :
    advance ⟨.code, depth⟩ c = ⟨.code, depth⟩ := by
  simp only [isInert, Bool.not_eq_true', Bool.or_eq_false_iff] at h
  rw [advance_code, stepCode, if_neg (by simp [h]), if_neg (by simp [h]), if_neg (by simp [h])]

theorem advance_quoted_of_isInert (h : isInert c = true) {mark : Char} (hmark : isQuote mark = true)
    (depth : Int) : advance ⟨.quoted mark, depth⟩ c = ⟨.quoted mark, depth⟩ := by
  simp only [isInert, Bool.not_eq_true', Bool.or_eq_false_iff, beq_eq_false_iff_ne] at h
  rw [advance_quoted, if_neg (by simp [h]), if_neg]
  rintro rfl
  simp [h] at hmark

theorem isComment_of_isInert (h : isInert c = true) (hs : s.Plain) (next : Option Char) :
    isComment s c next = false := by
  obtain ⟨mode, depth⟩ := s
  cases mode with
  | code => simp [isComment, (ne_of_isInert h).1]
  | quoted | escaped => rfl
  | _ => exact hs.elim

/-- The state with nothing left of a backslash at the end of the text. -/
def State.calm (s : State) : State :=
  match s.mode with
  | .escaped mark => ⟨.quoted mark, s.depth⟩
  | _ => s

@[simp] theorem State.calm_calm (s : State) : s.calm.calm = s.calm := by
  obtain ⟨mode, depth⟩ := s
  cases mode <;> rfl

theorem State.Plain.calm (hs : s.Plain) : s.calm.Plain := by
  obtain ⟨mode, depth⟩ := s
  cases mode <;> exact hs

theorem advance_of_isInert (h : isInert c = true) (hs : s.Plain) : advance s c = s.calm := by
  obtain ⟨mode, depth⟩ := s
  cases mode with
  | code => exact advance_code_of_isInert h depth
  | quoted mark => exact advance_quoted_of_isInert h hs depth
  | escaped mark => rfl
  | _ => exact hs.elim

/-- An inert character may be left out, save that it takes the meaning from a backslash. -/
theorem plain?_inert_cons (h : isInert c = true) (hs : s.Plain) (cs : List Char) :
    plain? s (c :: cs) = plain? s.calm cs := by
  rw [plain?, isComment_of_isInert h hs, advance_of_isInert h hs]
  rfl

/-- Inert characters may be left out where no backslash is before them. -/
theorem plain?_inert_append {inert : List Char} (h : ∀ c ∈ inert, isInert c = true) (hs : s.Plain)
    (hcalm : s.calm = s) (cs : List Char) : plain? s (inert ++ cs) = plain? s cs := by
  induction inert with
  | nil => rfl
  | cons c rest ih =>
    obtain ⟨hc, hrest⟩ := List.forall_mem_cons.mp h
    rw [List.cons_append, plain?_inert_cons hc hs, hcalm]
    exact ih hrest

theorem spans_inert (h : ∀ c ∈ cs, isInert c = true) : Spans 0 cs := fun depth => by
  have hplain := plain?_inert_append (s := ⟨.code, depth⟩) h trivial rfl []
  rw [List.append_nil] at hplain
  rw [hplain, Int.add_zero]
  rfl

theorem Spans.of_inert_append {inert : List Char} (h : Spans k (inert ++ cs))
    (hinert : ∀ c ∈ inert, isInert c = true) : Spans k cs := fun depth => by
  rw [← plain?_inert_append (s := ⟨.code, depth⟩) hinert trivial rfl, h]

/-- A text that ends in code with inert characters was in code before them. -/
theorem eq_of_plain?_inert {inert : List Char} (hs : s.Plain)
    (hinert : ∀ c ∈ inert, isInert c = true)
    (h : plain? s inert = some ⟨.code, depth⟩) : s = ⟨.code, depth⟩ := by
  induction inert generalizing s with
  | nil => exact Option.some.inj h
  | cons c rest ih =>
    obtain ⟨hc, hrest⟩ := List.forall_mem_cons.mp hinert
    rw [plain?_inert_cons hc hs] at h
    have hnext := ih hs.calm hrest h
    obtain ⟨mode, d⟩ := s
    cases mode with
    | escaped mark => cases hnext
    | _ => exact hnext

/-- Inert characters after code may be left out. -/
theorem Spans.of_append_inert {inert : List Char} (h : Spans k (cs ++ inert))
    (hinert : ∀ c ∈ inert, isInert c = true) : Spans k cs := fun depth => by
  have hapart : Apart cs inert := by
    intro _
    cases inert with
    | nil => simp
    | cons c rest => simpa using ne_of_isInert (hinert c List.mem_cons_self)
  have hplain := h depth
  rw [plain?_append hapart] at hplain
  obtain ⟨middle, hmiddle, hrest⟩ := Option.bind_eq_some_iff.mp hplain
  rw [hmiddle, eq_of_plain?_inert (State.Plain.of_plain? (s := ⟨.code, depth⟩) trivial hmiddle)
    hinert hrest]

theorem Spans.dropTrailing {p : Char → Bool} (h : Spans k cs)
    (hp : ∀ c, p c = true → isInert c = true) : Spans k (Text.dropTrailing p cs) := by
  have hcut : cs = Text.dropTrailing p cs ++ (cs.reverse.takeWhile p).reverse := by
    rw [Text.dropTrailing, ← List.reverse_append, List.takeWhile_append_dropWhile,
      List.reverse_reverse]
  rw [hcut] at h
  exact h.of_append_inert fun c hc => hp c (List.mem_takeWhile_imp (List.mem_reverse.mp hc))

theorem Spans.trimEnd (h : Spans k cs) : Spans k (Text.trimEnd cs) :=
  h.dropTrailing fun _ => isInert_of_isBlank

theorem Spans.trim (h : Spans k cs) : Spans k (Text.trim cs) := by
  refine Spans.trimEnd ?_
  rw [← List.takeWhile_append_dropWhile (p := Text.isBlank) (l := cs)] at h
  exact h.of_inert_append fun c hc => isInert_of_isBlank (List.mem_takeWhile_imp hc)

/-! ### Lists of texts -/

/-- Texts from code to code that raise the depth by `k` altogether. -/
inductive SpanAll : Int → List (List Char) → Prop
  | nil : SpanAll 0 []
  | cons {j k : Int} {text : List Char} {texts : List (List Char)} (head : Spans j text)
    (tail : SpanAll k texts) : SpanAll (j + k) (text :: texts)

theorem SpanAll.map {texts : List (List Char)} (h : SpanAll k texts) {f : List Char → List Char}
    (hf : ∀ {j text}, text ∈ texts → Spans j text → Spans j (f text)) :
    SpanAll k (texts.map f) := by
  induction h with
  | nil => exact .nil
  | cons head tail ih =>
    exact .cons (hf List.mem_cons_self head) (ih fun hmem => hf (List.mem_cons_of_mem _ hmem))

/-- Empty texts may be left out. -/
theorem SpanAll.filter {texts : List (List Char)} (h : SpanAll k texts) :
    SpanAll k (texts.filter (!·.isEmpty)) := by
  induction h with
  | nil => exact .nil
  | @cons j k text texts head tail ih =>
    cases text with
    | nil =>
      have hj : 0 = j := by simpa [plain?] using head 0
      simpa [← hj] using ih
    | cons c rest => exact .cons head ih

theorem SpanAll.append {texts more : List (List Char)} (h : SpanAll j texts)
    (hmore : SpanAll k more) : SpanAll (j + k) (texts ++ more) := by
  induction h with
  | nil => simpa using hmore
  | cons head tail ih =>
    rw [Int.add_assoc]
    exact .cons head ih

theorem spanAll_of_forall {texts : List (List Char)} (h : ∀ text ∈ texts, Spans 0 text) :
    SpanAll 0 texts := by
  induction texts with
  | nil => exact .nil
  | cons text rest ih =>
    obtain ⟨hhead, htail⟩ := List.forall_mem_cons.mp h
    exact .cons hhead (ih htail)

/-- Texts with a fixed text between any two of them. -/
theorem SpanAll.intercalate {texts : List (List Char)} {separator : List Char} (h : SpanAll k texts)
    (hseparator : Fixed 0 separator) : Spans k (separator.intercalate texts) := by
  induction h with
  | nil => exact spans_nil
  | @cons j k text texts head tail ih =>
    cases tail with
    | nil => simpa [List.intercalate] using head
    | cons head' tail' =>
      have := (head.append_fixed hseparator).append ih
      rw [List.intercalate_cons_cons, ← Int.add_zero j, List.append_assoc]
      simpa using this

/-! ### Pieces -/

theorem mode_of_step_isSome (h : (step comments s c next).1.isSome = true) : s.mode = .code := by
  obtain ⟨mode, depth⟩ := s
  cases mode with
  | code => rfl
  | _ =>
    simp only [step] at h
    first
      | cases h
      | split_ifs at h <;> cases h

/-- The first piece of a text goes on from the state before it, and the others are read from code to
code. -/
theorem exists_piecesFrom {sep : Char} {final : Int} (hsep : isInert sep = true)
    (h : plain? s cs = some ⟨.code, final⟩) :
    ∃ first others d k, piecesFrom false sep s cs = first :: others ∧
      first <+: cs ∧ plain? s first = some ⟨.code, d⟩ ∧ SpanAll k others ∧ d + k = final := by
  induction cs generalizing s with
  | nil => exact ⟨[], [], final, 0, rfl, List.nil_prefix, h, .nil, Int.add_zero final⟩
  | cons c rest ih =>
    rw [plain?] at h
    split at h
    · cases h
    · next hcomment =>
      have hplain := Bool.eq_false_iff.mpr hcomment
      obtain ⟨first, others, d, k, hpieces, hbefore, hfirst, hothers, hsum⟩ := ih h
      simp only [piecesFrom, step_of_not_isComment hplain, hpieces]
      split_ifs with hcut
      · obtain ⟨hdepth, rfl⟩ := hcut
        have hmode : s.mode = .code := mode_of_step_isSome (by rw [hdepth]; rfl)
        obtain ⟨mode, depth⟩ := s
        obtain rfl : mode = .code := hmode
        rw [advance_code_of_isInert hsep] at hfirst
        have hspans : Spans (d - depth) first := by
          refine spans_of_plain? depth ?_
          rw [hfirst]
          congr 2
          omega
        exact ⟨[], first :: others, depth, d - depth + k, rfl, List.nil_prefix, rfl,
          .cons hspans hothers, by omega⟩
      · refine ⟨c :: first, others, d, k, rfl, List.cons_prefix_cons.mpr ⟨rfl, hbefore⟩, ?_,
          hothers, hsum⟩
        rw [plain?, isComment_head?_of_isPrefix hplain hbefore]
        exact hfirst

/-- **The pieces of a text** are read from code to code, since no cut falls into a string, and they
raise the depth as the text does. -/
theorem Spans.pieces {sep : Char} (hsep : isInert sep = true) (h : Spans k cs) :
    SpanAll k (pieces false sep cs) := by
  obtain ⟨first, others, d, l, hpieces, -, hfirst, hothers, hsum⟩ :=
    exists_piecesFrom (s := .start) hsep (h 0)
  rw [Scan.pieces, hpieces]
  have hspans : Spans d first := spans_of_plain? 0 (by rw [Int.zero_add]; exact hfirst)
  have hk : d + l = k := by omega
  exact hk ▸ .cons hspans hothers

end PugContracts.Scan
