import PugContracts.Contract.Reference
import PugContracts.Proofs.Path.Canonical

/-!
# What a target stands for

Templates are known by the paths that targets stand for: in the graph, in what is remembered of
resolved templates and in the cache. Keys are compared by their components, so one file has one key
only if its path is always spelled in one way. A target stands for a normal path, and for the same
one however it gets there.

A template has a directory unless it is the root itself, which has no directory that holds it; what
is looked up from there is relative. The blanks and quotation marks around a target are no part of
it: a quotation mark at its start is taken off even where it was the name of a directory.

## Main results

* `normalize_resolveTarget`, `isAbsolute_resolveTarget`: targets stand for normal, absolute paths.
* `SameTarget.resolveTarget_eq`: redundant pieces of a target do not matter.
* `one_key_per_file`: paths and targets in all their spellings.
-/

namespace PugContracts.Contract

open PugContracts.Path

variable {target : String} {source viewsRoot : Path} {a b : List Char}

/-! ### Normal paths -/

@[simp] theorem normalize_resolveTarget (target : String) (source viewsRoot : Path) :
    (resolveTarget target source viewsRoot).normalize = resolveTarget target source viewsRoot := by
  have hdefault : ∀ joined : Path, (withDefaultExtension joined.normalize).normalize =
      withDefaultExtension joined.normalize := by
    intro joined
    rw [withDefaultExtension]
    split
    · exact Path.normalize_withExtension joined.normalize_normalize (by decide) (by decide)
    · exact joined.normalize_normalize
  exact hdefault _

/-- The root of all views may be normalized before. -/
@[simp] theorem resolveTarget_normalize (target : String) (source viewsRoot : Path) :
    resolveTarget target source viewsRoot.normalize = resolveTarget target source viewsRoot := by
  rw [resolveTarget, resolveTarget]
  split
  · exact congrArg withDefaultExtension (Path.normalize_join_normalize _ _)
  · rfl

/-! ### Absolute paths -/

/-- A target that is looked up below the root of all views. -/
def IsRooted (target : String) : Prop :=
  (bareTarget target).head? = some '/'

theorem isAbsolute_withDefaultExtension {p : Path} (hp : p.isAbsolute = true) :
    (withDefaultExtension p).isAbsolute = true := by
  rw [withDefaultExtension]
  split
  · exact isAbsolute_withExtension hp _
  · exact hp

/-- **A target stands for an absolute path** if the template is in a directory or the target is
looked up below the root of all views. -/
theorem isAbsolute_resolveTarget (hroot : viewsRoot.isAbsolute = true)
    (hsource : source.isAbsolute = true) (h : source.HasDirectory ∨ IsRooted target) :
    (resolveTarget target source viewsRoot).isAbsolute = true := by
  have hjoined : ∀ directory q : Path, directory.isAbsolute = true →
      (withDefaultExtension (directory.join q).normalize).isAbsolute = true := by
    intro directory q hdirectory
    refine isAbsolute_withDefaultExtension ?_
    rw [isAbsolute_normalize, isAbsolute_join hdirectory]
  rw [resolveTarget]
  split
  · exact hjoined _ _ hroot
  · next hrelative =>
    rcases h with hdirectory | hrooted
    · exact hjoined _ _ (isAbsolute_parent hsource hdirectory)
    · obtain ⟨rooted, htarget⟩ := List.head?_eq_some_iff.mp hrooted
      exact absurd htarget (hrelative rooted)

/-! ### Spellings -/

/-- Two spellings of a target that differ in redundant pieces only. Slashes at the very start mean
more than one: the text after the first of them must not start with another. -/
inductive SameTarget : List Char → List Char → Prop
  /-- Both are looked up below the root of all views. -/
  | rooted {a b : List Char} (ha : a.head? ≠ some '/') (hb : b.head? ≠ some '/')
      (hway : SameWay a b) : SameTarget ('/' :: a) ('/' :: b)
  /-- Both are looked up in the directory of the template. -/
  | relative {a b : List Char} (ha : a.head? ≠ some '/') (hb : b.head? ≠ some '/')
      (hway : SameWay a b) : SameTarget a b

/-- The path that a target without blanks and quotation marks around it is looked up under. -/
def lookedUp (source viewsRoot : Path) : List Char → Path
  | '/' :: rooted => viewsRoot.join ⟨String.ofList rooted⟩
  | relative => source.parent.join ⟨String.ofList relative⟩

theorem resolveTarget_eq (target : String) (source viewsRoot : Path) :
    resolveTarget target source viewsRoot =
      withDefaultExtension (lookedUp source viewsRoot (bareTarget target)).normalize :=
  rfl

theorem lookedUp_of_head? (ha : a.head? ≠ some '/') (source viewsRoot : Path) :
    lookedUp source viewsRoot a = source.parent.join ⟨String.ofList a⟩ := by
  rw [lookedUp]
  rintro rooted rfl
  exact ha rfl

/-- **Redundant pieces of a target do not matter.** -/
theorem SameTarget.resolveTarget_eq {target other : String}
    (h : SameTarget (bareTarget target) (bareTarget other)) (source viewsRoot : Path) :
    resolveTarget target source viewsRoot = resolveTarget other source viewsRoot := by
  rw [Contract.resolveTarget_eq, Contract.resolveTarget_eq]
  generalize bareTarget target = bare, bareTarget other = bare' at h
  refine congrArg withDefaultExtension ?_
  cases h with
  | rooted ha hb hway => exact hway.normalize_join ha hb viewsRoot
  | relative ha hb hway =>
    rw [lookedUp_of_head? ha, lookedUp_of_head? hb]
    exact hway.normalize_join ha hb source.parent

/-! ### One key for each file -/

/-- **One file, one key.** A normal path is canonical, normalizing it again changes nothing, and two
of them are one key exactly if they are one text. Directories may be normalized before something is
looked up in them, and what is absolute does not depend on where it is read. A target of a template
that is in a directory stands for an absolute and normal path, and for the same one in all spellings
that differ in redundant pieces. -/
theorem one_key_per_file :
    (∀ p : Path, p.normalize.normalize = p.normalize ∧ p.normalize.isAbsolute = p.isAbsolute ∧
        ∃ ups names, p.normalize.Canonical ups names) ∧
      (∀ p q : Path, compare p.normalize q.normalize = .eq ↔ p.normalize = q.normalize) ∧
      (∀ p q : Path, (p.join q).normalize = (p.normalize.join q).normalize) ∧
      (∀ p base other : Path, base.isAbsolute = true →
        (p.absolutize base).absolutize other = p.absolutize base) ∧
      (∀ (target : String) (source viewsRoot : Path), viewsRoot.isAbsolute = true →
        source.isAbsolute = true → source.HasDirectory ∨ IsRooted target →
        (resolveTarget target source viewsRoot).isAbsolute = true ∧
          (resolveTarget target source viewsRoot).normalize =
            resolveTarget target source viewsRoot) ∧
      (∀ (target other : String) (source viewsRoot : Path),
        SameTarget (bareTarget target) (bareTarget other) →
        resolveTarget target source viewsRoot = resolveTarget other source viewsRoot) := by
  refine ⟨fun p => ⟨p.normalize_normalize, p.isAbsolute_normalize, p.normalize_canonical⟩,
    fun p q => compare_eq_iff p.normalize_normalize q.normalize_normalize,
    fun p q => (normalize_join_normalize p q).symm, fun p base other hbase => ?_,
    fun target source viewsRoot hroot hsource h =>
      ⟨isAbsolute_resolveTarget hroot hsource h, normalize_resolveTarget _ _ _⟩,
    fun target other source viewsRoot h => h.resolveTarget_eq source viewsRoot⟩
  exact absolutize_absolutize hbase p other

/-- A target with a directory and back, a repeated slash and a dot, and the same file in quotation
marks. -/
theorem one_key_per_file_card :
    let home : Path := ⟨"/v/pages/home.pug"⟩
    let views : Path := ⟨"/v"⟩
    (views.isAbsolute = true ∧
        ((Path.mk "a/../b").absolutize views).absolutize ⟨"w"⟩ =
          (Path.mk "a/../b").absolutize views) ∧
      (home.isAbsolute = true ∧ home.HasDirectory ∧
        (resolveTarget "x/..//./card" home views).isAbsolute = true) ∧
      SameTarget (bareTarget "x/..//./card") (bareTarget "'card'") ∧
        resolveTarget "x/..//./card" home views = resolveTarget "'card'" home views := by
  intro home views
  have hdirectory : home.HasDirectory := by decide +kernel
  have hsame : SameTarget (bareTarget "x/..//./card") (bareTarget "'card'") := by
    have hback : Detour [['x'], ['.', '.'], [], ['.'], "card".toList] [[], ['.'], "card".toList] :=
      @Detour.back [] _ _ rfl (by decide)
    have hslash : Detour [[], ['.'], "card".toList] [['.'], "card".toList] :=
      @Detour.idle [] _ _ rfl
    have hdot : Detour [['.'], "card".toList] ["card".toList] := @Detour.idle [] _ _ rfl
    exact .relative (by decide) (by decide)
      (.trans _ _ _ (.rel _ _ hback) (.trans _ _ _ (.rel _ _ hslash) (.rel _ _ hdot)))
  obtain ⟨-, -, -, habsolutize, htarget, hspelling⟩ := one_key_per_file
  exact ⟨⟨by decide, habsolutize _ views ⟨"w"⟩ (by decide)⟩,
    ⟨by decide, hdirectory, (htarget _ home views (by decide) (by decide) (Or.inl hdirectory)).1⟩,
    hsame, hspelling _ _ home views hsame⟩

/-- A template that is the root itself is in no directory, and its targets stand for relative paths.
A quotation mark that is the name of a directory is taken off at the start of a target, which is
then looked up below the root of all views. -/
theorem resolveTarget_without_directory :
    ((Path.mk "/").isAbsolute = true ∧ (Path.mk "/v").isAbsolute = true ∧
        (resolveTarget "x" ⟨"/"⟩ ⟨"/v"⟩).isAbsolute = false) ∧
      SameTarget "'/../b".toList "b".toList ∧
        resolveTarget "'/../b" ⟨"/v/pages/a.pug"⟩ ⟨"/v"⟩ ≠
          resolveTarget "b" ⟨"/v/pages/a.pug"⟩ ⟨"/v"⟩ := by
  have hback : Detour [['\''], ['.', '.'], ['b']] [['b']] := @Detour.back [] _ _ rfl (by decide)
  refine ⟨⟨by decide, by decide, by decide +kernel⟩,
    .relative (by decide) (by decide) (.rel _ _ hback), by decide +kernel⟩

end PugContracts.Contract
