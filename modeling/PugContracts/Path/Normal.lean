import PugContracts.Path.Basic

/-!
# Normal paths

A path is *normal* when normalizing it gives it back, text included. Every path that the rest of
the library uses as a key is of this kind: normalizing is idempotent (`normalize_normalize`), and a
normal path stays normal when its extension is changed (`normalize_withExtension`). Two normal paths
with the same components are the same text (`eq_of_components_eq`).

## Implementation notes

Normalizing keeps the components that are read so far in reverse, as a stack. `Neat` says which
stacks occur: a root only at the bottom, each `..` above nothing but other `..`, and names that
read back as themselves. Both results are facts about neat stacks; the text of a path enters only
through `components_ofComponents_reverse`.
-/

namespace PugContracts

namespace Path

/-! ### Pieces

A text is cut at its slashes and put together again. -/

theorem splitAtEach_eq_splitOnP (p : Char → Bool) (cs : List Char) :
    Text.splitAtEach p cs = cs.splitOnP p := by
  induction cs with
  | nil => rfl
  | cons c cs ih =>
    rw [Text.splitAtEach, List.splitOnP_cons_eq_if_modifyHead, ih]
    split
    · rfl
    · cases hsplit : cs.splitOnP p with
      | nil => exact absurd hsplit (List.splitOnP_ne_nil p cs)
      | cons piece pieces => rfl

theorem pieces_eq_splitOn (p : Path) : p.pieces = p.text.toList.splitOn '/' := by
  rw [pieces, splitAtEach_eq_splitOnP, List.splitOn_eq_splitOnP]

/-- Pieces without slashes are the pieces of the text that they make. -/
theorem pieces_intercalate {texts : List String} (hne : texts ≠ [])
    (hslash : ∀ t ∈ texts, '/' ∉ t.toList) :
    (Path.mk ("/".intercalate texts)).pieces = texts.map String.toList := by
  rw [pieces_eq_splitOn, String.toList_intercalate,
    show "/".toList = ['/'] from rfl, List.splitOn_intercalate]
  · intro piece hpiece
    obtain ⟨t, ht, rfl⟩ := List.mem_map.mp hpiece
    exact hslash t ht
  · simpa using hne

/-- The pieces of a path make its text. -/
theorem intercalate_pieces (p : Path) : "/".intercalate (p.pieces.map String.ofList) = p.text := by
  rw [← String.toList_inj, String.toList_intercalate, pieces_eq_splitOn, List.map_map]
  simp [Function.comp_def]

/-- A path is the one made of its pieces. -/
theorem ofPieces_pieces {p : Path} (h : p.pieces ≠ [[]]) : ofPieces p.pieces = p := by
  rw [ofPieces]
  · rw [p.intercalate_pieces]
  · exact h

/-! ### Neat stacks -/

/-- A name that reads back as a component of its own. -/
def IsName (text : String) : Prop :=
  text.toList ≠ [] ∧ text.toList ≠ ['.'] ∧ text.toList ≠ ['.', '.'] ∧ '/' ∉ text.toList

/-- The components that can follow another one. -/
def IsInner : Component → Prop
  | .up => True
  | .name text => IsName text
  | _ => False

/-- The stacks of components that normalizing builds, the last component first. -/
def Neat : List Component → Prop
  | [] => True
  | .root :: below => below = []
  | .here :: _ => False
  | .up :: below => ∀ c ∈ below, c = .up
  | .name text :: below => IsName text ∧ Neat below

theorem Neat.tail {c : Component} {below : List Component} (h : Neat (c :: below)) :
    Neat below := by
  cases c with
  | root => rw [show below = [] from h]; trivial
  | here => exact h.elim
  | name text => exact h.2
  | up =>
    cases below with
    | nil => trivial
    | cons d deeper =>
      rw [show d = .up from h d List.mem_cons_self]
      exact fun c hc => h c (List.mem_cons_of_mem d hc)

/-- One component more keeps a stack neat. A root comes first, so it is never pushed on another
component. -/
theorem Neat.settle {below : List Component} {c : Component} (h : Neat below) (hc : IsInner c) :
    Neat (settle below c) := by
  cases c with
  | root => exact hc.elim
  | here => exact hc.elim
  | name text => cases below <;> exact ⟨hc, h⟩
  | up =>
    cases below with
    | nil => exact fun c hmem => by simp at hmem
    | cons top below =>
      cases top with
      | root => exact h
      | here => exact h.elim
      | name text => exact h.tail
      | up =>
        intro c hmem
        rcases List.mem_cons.mp hmem with rfl | hmem
        · rfl
        · exact h c hmem

theorem Neat.foldl_settle {below cs : List Component} (h : Neat below)
    (hcs : ∀ c ∈ cs, IsInner c) : Neat (cs.foldl Path.settle below) := by
  induction cs generalizing below with
  | nil => exact h
  | cons c cs ih =>
    exact ih (h.settle (hcs c List.mem_cons_self)) fun d hd => hcs d (List.mem_cons_of_mem c hd)

/-- Settling the components of a neat stack builds the stack again. -/
theorem Neat.foldl_settle_reverse {st : List Component} (h : Neat st) :
    st.reverse.foldl Path.settle [] = st := by
  induction st with
  | nil => rfl
  | cons c below ih =>
    rw [List.reverse_cons, List.foldl_append, ih h.tail]
    cases c with
    | root => rw [show below = [] from h]; rfl
    | here => exact h.elim
    | name text => cases below <;> rfl
    | up =>
      cases below with
      | nil => rfl
      | cons d deeper => rw [show d = .up from h d List.mem_cons_self]; rfl

/-! ### Reading components back -/

theorem component?_text {c : Component} (h : IsInner c) : component? c.text.toList = some c := by
  cases c with
  | root => exact h.elim
  | here => exact h.elim
  | up => rfl
  | name text =>
    obtain ⟨hne, hdot, hdots, -⟩ := h
    simp [component?, isIdle, Component.text, hdot, hdots, String.ofList_toList]
    simpa using hne

theorem slash_notMem_text {c : Component} (h : IsInner c) : '/' ∉ c.text.toList := by
  cases c with
  | root => exact h.elim
  | here => exact h.elim
  | up => decide
  | name text => exact h.2.2.2

theorem filterMap_component?_text {cs : List Component} (h : ∀ c ∈ cs, IsInner c) :
    (cs.map fun c => c.text.toList).filterMap component? = cs := by
  induction cs with
  | nil => rfl
  | cons c cs ih =>
    rw [List.map_cons, List.filterMap_cons_some (component?_text (h c List.mem_cons_self)),
      ih fun d hd => h d (List.mem_cons_of_mem c hd)]

theorem isInner_of_component? {piece : List Char} {c : Component} (hslash : '/' ∉ piece)
    (h : component? piece = some c) : IsInner c := by
  rw [component?] at h
  split at h
  · simp at h
  · next hidle =>
    split at h
    · cases h; trivial
    · next hdots =>
      cases h
      simp only [isIdle, Bool.or_eq_true, List.isEmpty_iff, beq_iff_eq, not_or] at hidle hdots
      exact ⟨by simpa using hidle.1, by simpa using hidle.2, by simpa using hdots,
        by simpa using hslash⟩

theorem slash_notMem_piece {p : Path} {piece : List Char} (h : piece ∈ p.pieces) :
    '/' ∉ piece := by
  have hall : ∀ (cs piece : List Char), piece ∈ Text.splitAtEach (· == '/') cs → '/' ∉ piece := by
    intro cs
    induction cs with
    | nil => intro piece hpiece; simp [Text.splitAtEach] at hpiece; simp [hpiece]
    | cons c cs ih =>
      intro piece hpiece
      rw [Text.splitAtEach] at hpiece
      split at hpiece
      · rcases List.mem_cons.mp hpiece with rfl | hpiece
        · simp
        · exact ih piece hpiece
      · next hc =>
        have hne : c ≠ '/' := by simpa using hc
        split at hpiece
        · next hnil => exact absurd hnil (Text.splitAtEach_ne_nil _ cs)
        · next first pieces hcons =>
          rcases List.mem_cons.mp hpiece with rfl | hpiece
          · have := ih first (by rw [hcons]; exact List.mem_cons_self)
            simpa [Ne.symm hne] using this
          · exact ih piece (by rw [hcons]; exact List.mem_cons_of_mem _ hpiece)
  exact hall _ _ h

/-- Only the first component of a path can be a root or a `.`. -/
theorem components_shape (p : Path) :
    ∃ inner, (∀ c ∈ inner, IsInner c) ∧
      (p.components = inner ∨ p.components = .root :: inner ∨ p.components = .here :: inner) := by
  have hinner : ∀ pieces : List (List Char), (∀ piece ∈ pieces, piece ∈ p.pieces) →
      ∀ c ∈ pieces.filterMap component?, IsInner c := by
    intro pieces hsub c hc
    obtain ⟨piece, hpiece, hread⟩ := List.mem_filterMap.mp hc
    exact isInner_of_component? (slash_notMem_piece (hsub piece hpiece)) hread
  rw [components]
  split
  · exact ⟨[], by simp, Or.inl rfl⟩
  · exact ⟨[], by simp, Or.inl rfl⟩
  · next rest _ hp =>
    exact ⟨rest.filterMap component?, hinner rest (by simp +contextual [hp]), Or.inr (Or.inl rfl)⟩
  · next rest hp =>
    exact ⟨rest.filterMap component?, hinner rest (by simp +contextual [hp]), Or.inr (Or.inr rfl)⟩
  · exact ⟨p.pieces.filterMap component?, hinner p.pieces fun _ h => h, Or.inl rfl⟩

/-- Normalizing builds a neat stack. -/
theorem neat_reverse_settled (p : Path) : Neat p.settled.reverse := by
  rw [settled, List.reverse_reverse]
  obtain ⟨inner, hinner, h | h | h⟩ := p.components_shape <;> rw [h]
  · exact Neat.foldl_settle trivial hinner
  · show Neat (inner.foldl settle [.root])
    exact Neat.foldl_settle rfl hinner
  · show Neat (inner.foldl settle [])
    exact Neat.foldl_settle trivial hinner

/-- A neat stack read from its bottom: perhaps a root, and then components that can follow
another one. -/
theorem Neat.reverse_cases {st : List Component} (h : Neat st) :
    ∃ inner, (∀ c ∈ inner, IsInner c) ∧ (st.reverse = inner ∨ st.reverse = .root :: inner) := by
  induction st with
  | nil => exact ⟨[], by simp, Or.inl rfl⟩
  | cons c below ih =>
    cases c with
    | root => exact ⟨[], by simp, Or.inr (by rw [show below = [] from h]; rfl)⟩
    | here => exact h.elim
    | up =>
      refine ⟨(Component.up :: below).reverse, fun c hc => ?_, Or.inl rfl⟩
      rcases List.mem_cons.mp (List.mem_reverse.mp hc) with rfl | hc
      · trivial
      · rw [show c = .up from h c hc]; trivial
    | name text =>
      obtain ⟨inner, hinner, hrev⟩ := ih h.2
      refine ⟨inner ++ [.name text], fun c hc => ?_, ?_⟩
      · rcases List.mem_append.mp hc with hc | hc
        · exact hinner c hc
        · rw [List.mem_singleton.mp hc]; exact h.1
      · rw [List.reverse_cons]
        rcases hrev with hrev | hrev <;> simp [hrev]

theorem pieces_ofComponents {inner : List Component} (hne : inner ≠ [])
    (h : ∀ c ∈ inner, IsInner c) :
    (ofComponents inner).pieces = inner.map fun c => c.text.toList := by
  have hof : ofComponents inner = ⟨"/".intercalate (inner.map Component.text)⟩ := by
    rw [ofComponents]
    intro rest hrest
    rw [hrest] at h
    exact h .root List.mem_cons_self
  rw [hof, pieces_intercalate (by simpa using hne)]
  · simp [Function.comp_def]
  · intro t ht
    obtain ⟨c, hc, rfl⟩ := List.mem_map.mp ht
    exact slash_notMem_text (h c hc)

theorem pieces_ofComponents_root {inner : List Component} (hne : inner ≠ [])
    (h : ∀ c ∈ inner, IsInner c) :
    (ofComponents (.root :: inner)).pieces = [] :: inner.map fun c => c.text.toList := by
  have hof : ofComponents (.root :: inner) =
      ⟨"/".intercalate ("" :: inner.map Component.text)⟩ := by
    rw [ofComponents, String.intercalate_cons_of_ne_nil (by simpa using hne)]
    simp
  rw [hof, pieces_intercalate (by simp)]
  · simp [Function.comp_def]
  · intro t ht
    rcases List.mem_cons.mp ht with rfl | ht
    · simp
    · obtain ⟨c, hc, rfl⟩ := List.mem_map.mp ht
      exact slash_notMem_text (h c hc)

theorem components_ofComponents {inner : List Component} (h : ∀ c ∈ inner, IsInner c) :
    (ofComponents inner).components = inner := by
  cases inner with
  | nil => rfl
  | cons c rest =>
    have hp := pieces_ofComponents (List.cons_ne_nil c rest) h
    rw [components, hp]
    have hread := component?_text (h c List.mem_cons_self)
    have hne : c.text.toList ≠ [] := by
      intro hnil
      simp [hnil, component?, isIdle] at hread
    have hdot : c.text.toList ≠ ['.'] := by
      intro hdot
      simp [hdot, component?, isIdle] at hread
    rw [List.map_cons]
    split
    · next heq => simp at heq
    · next heq => simp at heq; exact absurd heq.1 (by simpa using hne)
    · next heq => simp at heq; exact absurd heq.1 (by simpa using hne)
    · next heq => simp at heq; exact absurd heq.1 hdot
    · exact filterMap_component?_text h

theorem components_ofComponents_root {inner : List Component} (h : ∀ c ∈ inner, IsInner c) :
    (ofComponents (.root :: inner)).components = .root :: inner := by
  cases inner with
  | nil => decide
  | cons c rest =>
    rw [components, pieces_ofComponents_root (List.cons_ne_nil c rest) h]
    exact congrArg _ (filterMap_component?_text h)

/-- The components of the path that is made of a neat stack are those of the stack. -/
theorem components_ofComponents_reverse {st : List Component} (h : Neat st) :
    (ofComponents st.reverse).components = st.reverse := by
  obtain ⟨inner, hinner, hrev | hrev⟩ := h.reverse_cases <;> rw [hrev]
  · exact components_ofComponents hinner
  · exact components_ofComponents_root hinner

/-! ### Normal paths -/

/-- The path that is made of a neat stack is normal. -/
theorem normalize_ofComponents_reverse {st : List Component} (h : Neat st) :
    (ofComponents st.reverse).normalize = ofComponents st.reverse := by
  rw [normalize, settled, components_ofComponents_reverse h, h.foldl_settle_reverse]

theorem normalize_eq_ofComponents_reverse (p : Path) :
    p.normalize = ofComponents p.settled.reverse.reverse := by
  rw [List.reverse_reverse, normalize]

@[simp] theorem normalize_normalize (p : Path) : p.normalize.normalize = p.normalize := by
  rw [p.normalize_eq_ofComponents_reverse]
  exact normalize_ofComponents_reverse p.neat_reverse_settled

theorem settled_normalize (p : Path) : p.normalize.settled = p.settled := by
  rw [p.normalize_eq_ofComponents_reverse, settled,
    components_ofComponents_reverse p.neat_reverse_settled,
    p.neat_reverse_settled.foldl_settle_reverse, List.reverse_reverse]

/-- Normal paths that compare equal are equal. -/
theorem eq_of_components_eq {p q : Path} (hp : p.normalize = p) (hq : q.normalize = q)
    (h : p.components = q.components) : p = q := by
  rw [← hp, ← hq, normalize, normalize, settled, settled, h]

instance : Std.LawfulEqOrd Component where
  eq_of_compare {c d} h := by
    obtain ⟨hrank, htext⟩ := compareLex_eq_eq.mp h
    have hrank : c.rank = d.rank := Std.LawfulEqCmp.eq_of_compare hrank
    have htext : c.text = d.text := Std.LawfulEqCmp.eq_of_compare htext
    cases c <;> cases d <;> simp_all [Component.rank, Component.text]

theorem components_eq_of_compare {p q : Path} (h : compare p q = .eq) :
    p.components = q.components := by
  have hcomponents : compare p.components q.components = .eq := h
  exact Std.LawfulEqCmp.eq_of_compare hcomponents

/-- Spellings of one path have one normal form. -/
theorem normalize_eq_of_compare {p q : Path} (h : compare p q = .eq) :
    p.normalize = q.normalize := by
  rw [normalize, normalize, settled, settled, components_eq_of_compare h]

theorem compare_eq_iff {p q : Path} (hp : p.normalize = p) (hq : q.normalize = q) :
    compare p q = .eq ↔ p = q := by
  constructor
  · intro h
    exact eq_of_components_eq hp hq (components_eq_of_compare h)
  · rintro rfl
    exact Std.ReflCmp.compare_self

/-! ### Joining -/

/-- An absolute path starts with an empty piece, and goes on. -/
theorem isAbsolute_iff (p : Path) :
    p.isAbsolute = true ↔ ∃ rest, rest ≠ [] ∧ p.pieces = [] :: rest := by
  rw [isAbsolute, pieces]
  cases p.text.toList with
  | nil => simp [Text.splitAtEach]
  | cons c cs =>
    by_cases hc : c = '/'
    · simp [Text.splitAtEach, hc, Text.splitAtEach_ne_nil]
    · cases hcs : Text.splitAtEach (· == '/') cs <;> simp [Text.splitAtEach, hc, hcs]

/-- Settling the components of a path is settling its pieces, on a root if there is one. -/
theorem foldl_settle_components (p : Path) :
    p.components.foldl settle [] =
      (p.pieces.filterMap component?).foldl settle (if p.isAbsolute then [.root] else []) := by
  have habsolute := p.isAbsolute_iff
  rw [components]
  split
  · next hp => rw [if_neg (by simp [habsolute, hp]), hp]; rfl
  · next hp => rw [if_neg (by simp [habsolute, hp]), hp]; rfl
  · next rest hrest hp =>
    rw [if_pos (habsolute.mpr ⟨rest, fun hnil => hrest hnil, hp⟩), hp]
    rfl
  · next rest hp => rw [if_neg (by simp [habsolute, hp]), hp]; rfl
  · next hnil _ hrooted _ =>
    rw [if_neg]
    rintro h
    obtain ⟨rest, hrest, hp⟩ := habsolute.mp h
    exact hrooted rest hp

/-- A path that is joined to another one is read after it, unless it is absolute. -/
theorem join_spec (p : Path) {q : Path} (hq : q.isAbsolute = false) :
    (p.join q).pieces.filterMap component? =
        p.pieces.filterMap component? ++ q.pieces.filterMap component? ∧
      (p.join q).isAbsolute = p.isAbsolute := by
  have hcut : ∀ before after : List Char, (Text.splitAtEach (· == '/') (before ++ '/' :: after)) =
      Text.splitAtEach (· == '/') before ++ Text.splitAtEach (· == '/') after :=
    fun _ _ => Text.splitAtEach_append_cons rfl _ _
  obtain ⟨text⟩ := p
  rw [join, if_neg (by simp [hq])]
  rcases List.eq_nil_or_concat text.toList with hnil | ⟨before, last, hp⟩
  · simp [hnil, pieces, isAbsolute, Text.splitAtEach, component?, isIdle] at hq ⊢
    exact hq
  · rw [List.concat_eq_append] at hp
    by_cases hlast : last = '/'
    · subst hlast
      rw [if_pos (by simp [hp])]
      constructor
      · simp [pieces, hp, hcut, Text.splitAtEach, component?, isIdle]
      · simp [isAbsolute, hp]
    · rw [if_neg (by simp [hp, hlast])]
      constructor
      · simp only [pieces, String.toList_append]
        rw [show "/".toList = ['/'] from rfl, List.append_assoc, List.singleton_append, hcut,
          List.filterMap_append]
      · simp [isAbsolute, hp]

/-- What is settled of a joined path depends on what is settled of the directory. -/
theorem settled_join (p : Path) {q : Path} (hq : q.isAbsolute = false) :
    (p.join q).settled =
      ((q.pieces.filterMap component?).foldl settle p.settled.reverse).reverse := by
  obtain ⟨hpieces, habsolute⟩ := p.join_spec hq
  rw [settled, settled, List.reverse_reverse, foldl_settle_components, foldl_settle_components,
    hpieces, habsolute, List.foldl_append]

/-- The directory that a path is read from may be normalized before. -/
theorem normalize_join_normalize (p q : Path) :
    (p.normalize.join q).normalize = (p.join q).normalize := by
  cases hq : q.isAbsolute with
  | true => rw [join, join, if_pos hq, if_pos hq]
  | false =>
    have hsettled : (p.normalize.join q).settled = (p.join q).settled := by
      rw [settled_join _ hq, settled_join _ hq, settled_normalize]
    exact congrArg ofComponents hsettled

/-! ### Extensions

The extension is added to the text of a normal path, so its pieces have to be followed. -/

/-- A path that does not end in an idle piece keeps all its pieces. -/
theorem solidPieces_eq_pieces {p : Path} {before : List (List Char)} {last : List Char}
    (hp : p.pieces = before ++ [last]) (hlast : isIdle last = false) :
    p.solidPieces = p.pieces := by
  rw [solidPieces, hp]
  cases before with
  | nil => rfl
  | cons first before => simp [hlast]

/-- The pieces of a path that ends in a name: those before it do not depend on the name. -/
theorem exists_pieces_ofComponents {st : List Component} (h : Neat st) :
    ∃ before, ∀ text, IsName text →
      (ofComponents (Component.name text :: st).reverse).pieces = before ++ [text.toList] := by
  obtain ⟨inner, hinner, hrev⟩ := h.reverse_cases
  have hall : ∀ text, IsName text → ∀ c ∈ inner ++ [.name text], IsInner c := by
    intro text htext c hc
    rcases List.mem_append.mp hc with hc | hc
    · exact hinner c hc
    · rw [List.mem_singleton.mp hc]
      exact htext
  rcases hrev with hrev | hrev
  · refine ⟨inner.map fun c => c.text.toList, fun text htext => ?_⟩
    rw [List.reverse_cons, hrev, pieces_ofComponents (by simp) (hall text htext), List.map_append]
    rfl
  · refine ⟨[] :: inner.map fun c => c.text.toList, fun text htext => ?_⟩
    rw [List.reverse_cons, hrev, List.cons_append,
      pieces_ofComponents_root (by simp) (hall text htext), List.map_append]
    rfl

theorem isIdle_of_isName {text : String} (h : IsName text) : isIdle text.toList = false := by
  obtain ⟨hne, hdot, -, -⟩ := h
  simp only [isIdle, Bool.or_eq_false_iff, List.isEmpty_eq_false_iff, beq_eq_false_iff_ne]
  exact ⟨hne, hdot⟩

/-- The stem of a name is a part of it. -/
theorem subset_splitExtension (name : String) :
    (splitExtension name).1.toList ⊆ name.toList := by
  rw [splitExtension]
  split
  · exact List.Subset.refl _
  · exact List.Subset.refl _
  · next stem extension _ hcut =>
    simp only [Text.cutAtLast?, Option.map_eq_some_iff, Prod.mk.injEq, Prod.exists] at hcut
    obtain ⟨after, before, hcut, rfl, rfl⟩ := hcut
    have hname := congrArg List.reverse (Text.eq_of_cutAtChar? hcut)
    rw [List.reverse_reverse] at hname
    intro c hc
    rw [hname]
    simp only [String.toList_ofList] at hc
    simp [List.mem_reverse.mp hc]

/-- A name with another extension is a name, if the extension has at least two characters. -/
theorem isName_append_extension {name extension : String} (hname : IsName name)
    (hslash : '/' ∉ extension.toList) (hlong : 2 ≤ extension.toList.length) :
    IsName ((splitExtension name).1 ++ "." ++ extension) := by
  have hlength : 3 ≤ ((splitExtension name).1 ++ "." ++ extension).toList.length := by
    simp only [String.toList_append, List.length_append, show ".".toList = ['.'] from rfl,
      List.length_singleton]
    omega
  have hnotin : '/' ∉ (splitExtension name).1.toList :=
    fun hmem => hname.2.2.2 (subset_splitExtension name hmem)
  refine ⟨?_, ?_, ?_, ?_⟩
  · intro heq; rw [heq] at hlength; simp at hlength
  · intro heq; rw [heq] at hlength; simp at hlength
  · intro heq; rw [heq] at hlength; simp at hlength
  · simp [hnotin, hslash]

/-- Changing the extension of a normal path gives a normal path. -/
theorem normalize_withExtension {p : Path} {extension : String} (hp : p.normalize = p)
    (hslash : '/' ∉ extension.toList) (hlong : 2 ≤ extension.toList.length) :
    (p.withExtension extension).normalize = p.withExtension extension := by
  have hneat := p.neat_reverse_settled
  have hof : p = ofComponents p.settled.reverse.reverse :=
    hp.symm.trans p.normalize_eq_ofComponents_reverse
  have hcomponents : p.components = p.settled.reverse.reverse :=
    (congrArg components hof).trans (components_ofComponents_reverse hneat)
  rw [withExtension]
  split
  · exact hp
  · next name hfile =>
    rw [fileName?, hcomponents, List.getLast?_reverse] at hfile
    cases hst : p.settled.reverse with
    | nil => simp [hst] at hfile
    | cons c st =>
      have hc : c = .name name := by
        rw [hst, List.head?_cons] at hfile
        cases c with
        | name text => exact congrArg _ (Option.some.inj hfile)
        | _ => simp at hfile
      rw [hst, hc] at hneat hof
      obtain ⟨before, hpieces⟩ := exists_pieces_ofComponents hneat.tail
      have hname := hneat.1
      have hold : p.pieces = before ++ [name.toList] := by rw [hof]; exact hpieces name hname
      have hrenamed := isName_append_extension hname hslash hlong
      rw [solidPieces_eq_pieces hold (isIdle_of_isName hname), hold, List.dropLast_concat]
      dsimp only
      generalize (splitExtension name).1 ++ "." ++ extension = renamed at hrenamed ⊢
      have hresult : ofPieces (before ++ [renamed.toList]) =
          ofComponents (Component.name renamed :: st).reverse := by
        rw [← hpieces renamed hrenamed]
        refine ofPieces_pieces fun hempty => hrenamed.1 ?_
        rw [hpieces renamed hrenamed] at hempty
        simpa using congrArg List.getLast? hempty
      rw [hresult]
      exact normalize_ofComponents_reverse ⟨hrenamed, hneat.tail⟩

end Path

end PugContracts
