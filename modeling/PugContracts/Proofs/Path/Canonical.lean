import Mathlib.Data.List.TakeWhile
import Mathlib.Logic.Relation
import PugContracts.Path.Normal

/-!
# The shape of normal paths

A normal path is written as names with single slashes between them. They stand after a slash, or
after a run of `..` that the text of a relative path does not resolve; in an absolute path there is
no `..`, since nothing is above the root. `stack` is what normalizing holds at any time, the last
component first, and each component of a path turns one stack into another.

Redundant pieces of a path make no difference to any stack: a `.` or a repeated slash leaves it as
it is, and so does a name with a `..` after it. Paths that differ only in such pieces (`SameWay`)
therefore lead from any directory to the same normal path.

## Main results

* `normalize_canonical`: the text and the components of a normal path.
* `isAbsolute_normalize`, `isAbsolute_join`, `isAbsolute_parent`: what stays absolute.
* `SameWay.normalize_join`: detours do not matter.
-/

namespace PugContracts

namespace Path

variable {p q : Path} {c : Component} {cs : List Component} {rooted : Bool} {ups : Nat}
  {names : List String}

/-! ### Stacks -/

/-- The components that normalizing holds, the last one first: names, above a run of `..` or above
the root. -/
def stack (rooted : Bool) (ups : Nat) (names : List String) : List Component :=
  names.map .name ++ (List.replicate ups .up ++ if rooted then [.root] else [])

/-- Above the root there is nothing to go up to, and names are names. -/
def Stacks (rooted : Bool) (st : List Component) : Prop :=
  ∃ ups names, (rooted = true → ups = 0) ∧ (∀ name ∈ names, IsName name) ∧
    st = stack rooted ups names

/-- **One component turns a stack into a stack.** -/
theorem Stacks.settle {st : List Component} (h : Stacks rooted st) (hc : IsInner c) :
    Stacks rooted (Path.settle st c) := by
  obtain ⟨ups, names, hups, hnames, rfl⟩ := h
  cases c with
  | root | here => exact hc.elim
  | name text =>
    refine ⟨ups, text :: names, hups, List.forall_mem_cons.mpr ⟨hc, hnames⟩, ?_⟩
    generalize hst : stack rooted ups names = st
    rw [stack, List.map_cons, List.cons_append, ← stack, hst]
    cases st <;> rfl
  | up =>
    cases names with
    | cons name names => exact ⟨ups, names, hups, (List.forall_mem_cons.mp hnames).2, rfl⟩
    | nil =>
      cases rooted with
      | true =>
        obtain rfl := hups rfl
        exact ⟨0, [], fun _ => rfl, by simp, rfl⟩
      | false =>
        refine ⟨ups + 1, [], by simp, by simp, ?_⟩
        cases ups <;> rfl

theorem Stacks.foldl_settle {st : List Component} (h : Stacks rooted st)
    (hcs : ∀ c ∈ cs, IsInner c) : Stacks rooted (cs.foldl Path.settle st) := by
  induction cs generalizing st with
  | nil => exact h
  | cons c cs ih =>
    obtain ⟨hc, hcs⟩ := List.forall_mem_cons.mp hcs
    exact ih (h.settle hc) hcs

theorem isInner_of_mem_pieces (p : Path) : ∀ c ∈ p.pieces.filterMap component?, IsInner c := by
  intro c hc
  obtain ⟨piece, hpiece, hread⟩ := List.mem_filterMap.mp hc
  exact isInner_of_component? (slash_notMem_piece hpiece) hread

theorem stacks_settled (p : Path) : Stacks p.isAbsolute p.settled.reverse := by
  have hempty : Stacks p.isAbsolute (if p.isAbsolute then [.root] else []) :=
    ⟨0, [], fun _ => rfl, by simp, rfl⟩
  rw [settled, List.reverse_reverse, foldl_settle_components]
  exact hempty.foldl_settle p.isInner_of_mem_pieces

theorem reverse_stack (rooted : Bool) (ups : Nat) (names : List String) :
    (stack rooted ups names).reverse =
      (if rooted then [.root] else []) ++ (List.replicate ups .up ++ names.reverse.map .name) := by
  rw [stack, List.reverse_append, List.reverse_append, List.reverse_replicate, List.map_reverse,
    List.append_assoc]
  cases rooted <;> rfl

/-! ### Absolute paths -/

theorem isAbsolute_iff_head? (p : Path) :
    p.isAbsolute = true ↔ p.components.head? = some .root := by
  rw [isAbsolute_iff]
  constructor
  · rintro ⟨rest, hrest, hpieces⟩
    obtain ⟨piece, more, rfl⟩ := List.exists_cons_of_ne_nil hrest
    rw [components, hpieces]
    rfl
  · intro h
    rw [components] at h
    split at h
    · cases h
    · cases h
    · next rest hrest hpieces => exact ⟨rest, fun hnil => hrest hnil, hpieces⟩
    · cases h
    · exact (isInner_of_mem_pieces p .root (List.mem_of_mem_head? h)).elim

theorem components_normalize (p : Path) : p.normalize.components = p.settled := by
  have hneat := components_ofComponents_reverse p.neat_reverse_settled
  rwa [List.reverse_reverse] at hneat

/-- Normalizing keeps a path absolute or relative. -/
@[simp] theorem isAbsolute_normalize (p : Path) : p.normalize.isAbsolute = p.isAbsolute := by
  obtain ⟨ups, names, -, -, hst⟩ := p.stacks_settled
  rw [List.reverse_eq_iff, reverse_stack] at hst
  rw [Bool.eq_iff_iff, isAbsolute_iff_head?, components_normalize, hst]
  cases p.isAbsolute with
  | true => simp
  | false =>
    generalize names.reverse = names
    cases ups <;> cases names <;> simp [List.replicate_succ]

/-- A path that is joined to an absolute one is absolute. -/
theorem isAbsolute_join (hp : p.isAbsolute = true) (q : Path) : (p.join q).isAbsolute = true := by
  cases hq : q.isAbsolute with
  | true => rw [join, if_pos hq, hq]
  | false => rw [(p.join_spec hq).2, hp]

theorem isAbsolute_absolutize {base : Path} (hbase : base.isAbsolute = true) (p : Path) :
    (p.absolutize base).isAbsolute = true := by
  rw [absolutize]
  split
  · next hp => rw [isAbsolute_normalize, hp]
  · rw [isAbsolute_normalize, isAbsolute_join hbase]

/-- An absolute path is not read from anywhere else, so it stays what it is. -/
theorem absolutize_absolutize {base : Path} (hbase : base.isAbsolute = true) (p other : Path) :
    (p.absolutize base).absolutize other = p.absolutize base := by
  rw [absolutize, if_pos (isAbsolute_absolutize hbase p), absolutize]
  split
  · exact p.normalize_normalize
  · exact (base.join p).normalize_normalize

theorem isAbsolute_ofPieces {pieces : List (List Char)} :
    (ofPieces ([] :: pieces)).isAbsolute = true := by
  cases pieces with
  | nil => rfl
  | cons piece pieces => simp [ofPieces, isAbsolute]

/-- The path is in a directory: it is no root and not empty. -/
def HasDirectory (p : Path) : Prop :=
  p.parent?.isSome = true

instance (p : Path) : Decidable p.HasDirectory :=
  inferInstanceAs (Decidable (_ = true))

/-- The directory that an absolute path is in is absolute. -/
theorem isAbsolute_parent (hp : p.isAbsolute = true) (hdirectory : p.HasDirectory) :
    p.parent.isAbsolute = true := by
  obtain ⟨directory, hparent⟩ := Option.isSome_iff_exists.mp hdirectory
  obtain ⟨rest, hrest, hpieces⟩ := p.isAbsolute_iff.mp hp
  rw [parent, hparent, Option.getD_some]
  rw [parent?, solidPieces, hpieces] at hparent
  dsimp only at hparent
  generalize (rest.reverse.dropWhile isIdle).reverse = solid at hparent
  cases solid with
  | nil => cases hparent
  | cons piece solid =>
    obtain rfl := Option.some.inj hparent
    exact isAbsolute_ofPieces

/-- Changing the extension keeps a path absolute. -/
theorem isAbsolute_withExtension (hp : p.isAbsolute = true) (extension : String) :
    (p.withExtension extension).isAbsolute = true := by
  obtain ⟨rest, hrest, hpieces⟩ := p.isAbsolute_iff.mp hp
  rw [withExtension]
  split
  · exact hp
  · next name hfile =>
    -- The file name is a piece after the slash, so the slash is not what is left out.
    have hsolid : (rest.reverse.dropWhile isIdle).reverse ≠ [] := by
      intro hnil
      have hidle : ∀ piece ∈ rest, isIdle piece = true := by
        intro piece hpiece
        exact List.dropWhile_eq_nil_iff.mp (List.reverse_eq_nil_iff.mp hnil) piece
          (List.mem_reverse.mpr hpiece)
      have hcomponents : p.components = [.root] := by
        have hnone : rest.filterMap component? = [] :=
          List.filterMap_eq_nil_iff.mpr fun piece hpiece => if_pos (hidle piece hpiece)
        obtain ⟨piece, more, rfl⟩ := List.exists_cons_of_ne_nil hrest
        rw [components, hpieces]
        exact congrArg _ hnone
      rw [fileName?, hcomponents] at hfile
      cases hfile
    obtain ⟨piece, solid, heq⟩ := List.exists_cons_of_ne_nil hsolid
    rw [solidPieces, hpieces]
    dsimp only
    rw [heq, List.dropLast_cons_of_ne_nil (List.cons_ne_nil _ _), List.cons_append]
    exact isAbsolute_ofPieces

/-! ### Normal paths -/

/-- The path is written as the given number of `..` and then the names, with single slashes between
them and one before them if the path is absolute. -/
structure Canonical (p : Path) (ups : Nat) (names : List String) : Prop where
  /-- There is no `..` in an absolute path. -/
  ups_eq_zero : p.isAbsolute = true → ups = 0
  /-- The names are neither empty nor `.` nor `..`, and have no slash. -/
  isName : ∀ name ∈ names, IsName name
  /-- The path is read as the root, if it is absolute, the `..` and the names. -/
  components_eq : p.components =
    (if p.isAbsolute then [.root] else []) ++ (List.replicate ups .up ++ names.map .name)
  /-- And this is how it is written. -/
  text_eq : p.text =
    (if p.isAbsolute then "/" else "") ++ "/".intercalate (List.replicate ups ".." ++ names)

/-- **A normal path** is absolute or not as the path is, and it is written in the canonical way. -/
theorem normalize_canonical (p : Path) : ∃ ups names, p.normalize.Canonical ups names := by
  obtain ⟨ups, names, hups, hnames, hst⟩ := p.stacks_settled
  rw [List.reverse_eq_iff, reverse_stack] at hst
  refine ⟨ups, names.reverse, by rwa [isAbsolute_normalize], by simpa using hnames, ?_, ?_⟩
  · rw [components_normalize, isAbsolute_normalize, hst]
  · have htexts :
        (List.replicate ups Component.up ++ names.reverse.map Component.name).map Component.text =
          List.replicate ups ".." ++ names.reverse := by
      rw [List.map_append, List.map_replicate, List.map_map]
      simp [Function.comp_def, Component.text]
    rw [isAbsolute_normalize, normalize, hst, ← htexts]
    cases p.isAbsolute with
    | true => rfl
    | false =>
      rw [show (if false = true then [Component.root] else []) = [] from rfl, List.nil_append,
        ofComponents]
      · rfl
      · generalize names.reverse = names
        cases ups <;> cases names <;> simp [List.replicate_succ]

/-! ### Detours -/

/-- A redundant piece is left out: a `.` or a repeated slash, or a name with a `..` after it. -/
inductive Detour : List (List Char) → List (List Char) → Prop
  /-- The piece is no component. -/
  | idle {before after : List (List Char)} {piece : List Char} (hidle : isIdle piece = true) :
      Detour (before ++ piece :: after) (before ++ after)
  /-- The path goes to a directory and back. -/
  | back {before after : List (List Char)} {name : List Char} (hidle : isIdle name = false)
      (hname : name ≠ ['.', '.']) :
      Detour (before ++ name :: ['.', '.'] :: after) (before ++ after)

/-- Two relative paths whose texts differ in redundant pieces only. -/
def SameWay (a b : List Char) : Prop :=
  Relation.EqvGen Detour (Text.splitAtEach (· == '/') a) (Text.splitAtEach (· == '/') b)

/-- What pieces make of a stack. -/
def follow (st : List Component) (pieces : List (List Char)) : List Component :=
  (pieces.filterMap component?).foldl settle st

theorem follow_append (st : List Component) (before after : List (List Char)) :
    follow st (before ++ after) = follow (follow st before) after := by
  rw [follow, List.filterMap_append, List.foldl_append]
  rfl

/-- **A detour leads back to where it starts**, whatever is held there. -/
theorem Detour.follow_eq {pieces others : List (List Char)} (h : Detour pieces others)
    (st : List Component) : follow st pieces = follow st others := by
  cases h with
  | @idle before after piece hidle =>
    have hnone : component? piece = none := if_pos hidle
    rw [follow_append, follow_append, follow, List.filterMap_cons_none hnone]
    rfl
  | @back before after name hidle hname =>
    have hsome : component? name = some (.name (String.ofList name)) := by
      rw [component?, if_neg (by simp [hidle]), if_neg (by simpa using hname)]
    have hup : component? ['.', '.'] = some .up := rfl
    rw [follow_append, follow_append, follow, List.filterMap_cons_some hsome,
      List.filterMap_cons_some hup, List.foldl_cons, List.foldl_cons]
    generalize follow st before = middle
    have hback : settle (settle middle (.name (String.ofList name))) .up = middle := by
      cases middle <;> rfl
    rw [hback]
    rfl

theorem SameWay.follow_eq {a b : List Char} (h : SameWay a b) (st : List Component) :
    follow st (Text.splitAtEach (· == '/') a) = follow st (Text.splitAtEach (· == '/') b) := by
  rw [SameWay] at h
  generalize Text.splitAtEach (· == '/') a = pieces, Text.splitAtEach (· == '/') b = others at h ⊢
  induction h with
  | rel _ _ h => exact h.follow_eq st
  | refl => rfl
  | symm _ _ _ ih => exact ih.symm
  | trans _ _ _ _ _ ih ih' => exact ih.trans ih'

/-- **Detours do not matter**: from every directory, two relative paths that differ only in
redundant pieces lead to the same normal path. -/
theorem SameWay.normalize_join {a b : List Char} (h : SameWay a b) (ha : a.head? ≠ some '/')
    (hb : b.head? ≠ some '/') (p : Path) :
    (p.join ⟨String.ofList a⟩).normalize = (p.join ⟨String.ofList b⟩).normalize := by
  have hrelative : ∀ cs : List Char, cs.head? ≠ some '/' →
      (Path.mk (String.ofList cs)).isAbsolute = false := by
    intro cs hcs
    simpa [isAbsolute] using hcs
  have hsettled : ∀ cs : List Char, cs.head? ≠ some '/' → (p.join ⟨String.ofList cs⟩).settled =
      (follow p.settled.reverse (Text.splitAtEach (· == '/') cs)).reverse := by
    intro cs hcs
    rw [settled_join p (hrelative cs hcs), pieces, String.toList_ofList]
    rfl
  rw [normalize, normalize, hsettled a ha, hsettled b hb, h.follow_eq]

end Path

end PugContracts
