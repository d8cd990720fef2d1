import PugContracts.Proofs.Resolution.Whole

/-!
# How a resolution ends

Templates may extend and include each other in any way, in cycles too, and targets may be missing.
A resolution ends nevertheless, and its outcome is all or nothing.

**It ends.** `resolveReference` is defined by recursion on the files that can still be entered. What
this comes to is said here without that measure: `followWithin` takes the same steps, but below a
given depth it follows references in some other way. At a depth of one more than there are files it
is `resolveReference` whatever the other way is (`followWithin_eq`), so no resolution ever goes as
deep as that.

**All or nothing.** There is either a tree, with errors about syntax and the shape of directives
only, or no tree, with one structural error after such errors.

## Main results

* `followWithin_eq` — following references never goes deeper than there are files
* `ofTemplate_outcome` — how the resolution of a template ends
-/

namespace PugContracts.Resolution

open Template Contract

/-! ### One step of following a reference -/

/-- Follow a reference, while the files `active` are being resolved. The references of the file that
is entered are followed by `below`, which is given the files that are being resolved then. -/
def stepReference (d : Disk) (viewsRoot : Path) (below : List Path → Follow) (active : List Path) :
    Follow := fun reference path =>
  let key := path.normalize
  if key ∈ active then
    let chain := ((active.takeWhile (· != key)) ++ [key]).reverse ++ [path]
    throw (.cycle reference.referrer reference.line reference.kind chain)
  else do
    match (← get).resolved.lookup key with
    | some nodes => return nodes
    | none =>
      match d.readText path with
      | .error .notFound =>
        throw (.missingFile reference.referrer (some reference.line) reference.kind reference.target
          path)
      | .error reason =>
        throw (.unreadable path (some (reference.referrer, reference.line)) reason)
      | .ok text =>
        let nodes ← resolveText d viewsRoot (below (key :: active)) path text
        remember key nodes
        return nodes

section

variable {d : Disk} {viewsRoot : Path} {active : List Path}

/-- The resolver takes one step and goes on in the same way below. -/
theorem resolveReference_eq_step : resolveReference d viewsRoot active =
    stepReference d viewsRoot (resolveReference d viewsRoot) active := by
  funext reference path
  rw [resolveReference, stepReference]
  by_cases hmem : path.normalize ∈ active
  · simp only [hmem, dite_true, if_true]
  · simp only [hmem, dite_false, if_false]
    congr 1
    funext s
    cases s.resolved.lookup path.normalize with
    | some nodes => rfl
    | none =>
      dsimp only
      split
      · next hread => rw [hread]
      · next reason hother hread =>
        rw [hread]
        cases reason <;> first | rfl | exact (hother rfl).elim
      · next text hread => rw [hread]

/-- A step depends on what is below only for a file of the disk that is not being resolved. -/
theorem stepReference_congr {below below' : List Path → Follow}
    (h : ∀ key ∈ d.filePaths, key ∉ active → below (key :: active) = below' (key :: active)) :
    stepReference d viewsRoot below active = stepReference d viewsRoot below' active := by
  funext reference path
  rw [stepReference, stepReference]
  by_cases hmem : path.normalize ∈ active
  · simp only [hmem, if_true]
  · simp only [hmem, if_false]
    cases hread : d.readText path with
    | error reason => cases reason <;> rfl
    | ok text => rw [h path.normalize (Disk.mem_filePaths_of_readText hread) hmem]

end

/-! ### Following references to a depth -/

/-- Follow references through at most `depth` files, one inside the other, and by `deeper` from
there. -/
def followWithin (d : Disk) (viewsRoot : Path) (deeper : Follow) : Nat → List Path → Follow
  | 0 => fun _ => deeper
  | depth + 1 => stepReference d viewsRoot (followWithin d viewsRoot deeper depth)

/-- **No reference is deeper than there are files to enter.** -/
theorem followWithin_eq {d : Disk} {viewsRoot : Path} (deeper : Follow) {depth : Nat}
    {active : List Path} (h : (unopened d active).length < depth) :
    followWithin d viewsRoot deeper depth active = resolveReference d viewsRoot active := by
  induction depth generalizing active with
  | zero => exact absurd h (Nat.not_lt_zero _)
  | succ depth ih =>
    rw [resolveReference_eq_step, followWithin]
    refine stepReference_congr fun key hkey hfresh => ih ?_
    have hless : (unopened d (key :: active)).length < (unopened d active).length :=
      length_filter_cons_lt hkey hfresh
    omega

/-- Resolve the root template, with its references followed in a given way. -/
def rootBy (d : Disk) (follow : Follow) (viewsRoot path : Path) (source : Option String) :
    Resolve (List Node) :=
  match source with
  | some text => resolveText d viewsRoot follow path text
  | none =>
    match d.readText path with
    | .ok text => resolveText d viewsRoot follow path text
    | .error .notFound => throw (.missingFile path none .root path.text path)
    | .error reason => throw (.unreadable path none reason)

theorem resolveRoot_eq_rootBy (d : Disk) (viewsRoot path : Path) (source : Option String) :
    resolveRoot d viewsRoot path source =
      rootBy d (resolveReference d viewsRoot [path]) viewsRoot path source := rfl

/-- Resolve a template, but go through at most `depth` files below it, one inside the other. -/
def ofTemplateWithin (deeper : Follow) (depth : Nat) (d : Disk) (graph : DependencyGraph)
    (viewsRoot path : Path) (source : Option String) : Resolution × DependencyGraph :=
  conclude (exec (rootBy d (followWithin d viewsRoot.normalize deeper depth [path.normalize])
    viewsRoot.normalize path.normalize source) ⟨graph, [], []⟩)

/-! ### Errors -/

/-- The error leaves a template without a tree: a file is missing or cannot be read, or files form
a cycle. -/
def Structural (error : TemplateError) : Prop :=
  error.kind = .missingFile ∨ error.kind = .cycle

/-- The error is collected while the resolution goes on. -/
def Collected (error : TemplateError) : Prop :=
  error.kind = .syntaxFault ∨ error.kind = .directiveShape

/-- A justified error is structural: no resolution stops at a node without a file. -/
theorem Explained.structural {viewsRoot : Path} {text? : Path → Option String}
    {g : DependencyGraph} {error : ResolveError} (h : Explained viewsRoot text? g error) :
    Structural error.toTemplateError := by
  cases error with
  | missingFile => exact Or.inl rfl
  | cycle => exact Or.inr rfl
  | missingOrigin => exact h.elim
  | unreadable file reference reason =>
    cases reference with
    | none => exact Or.inl rfl
    | some reference => exact Or.inl rfl

/-! ### The outcome -/

/-- **Every resolution ends, with all or nothing.** Nothing changes if references are followed
through no more files than there are, whatever is done beyond that depth. Then there is either a
tree, and all errors are collected ones, or there is no tree, and after collected errors comes one
that is structural. -/
theorem ofTemplate_outcome (d : Disk) (graph : DependencyGraph) (viewsRoot path : Path)
    (source : Option String) :
    (∀ deeper, ofTemplateWithin deeper (d.filePaths.length + 1) d graph viewsRoot path source =
        ofTemplate d graph viewsRoot path source) ∧
      ((∃ nodes, (ofTemplate d graph viewsRoot path source).1.tree = some nodes ∧
          ∀ error ∈ (ofTemplate d graph viewsRoot path source).1.errors, Collected error) ∨
        ((ofTemplate d graph viewsRoot path source).1.tree = none ∧
          ∃ before last, (ofTemplate d graph viewsRoot path source).1.errors = before ++ [last] ∧
            (∀ error ∈ before, Collected error) ∧ Structural last)) := by
  have hroot := viewsRoot.normalize_normalize
  have hpath := path.normalize_normalize
  constructor
  · intro deeper
    have hdepth : (unopened d [path.normalize]).length < d.filePaths.length + 1 :=
      Nat.lt_succ_of_le (List.length_filter_le _ _)
    rw [ofTemplateWithin, followWithin_eq deeper hdepth, ← resolveRoot_eq_rootBy, ofTemplate_eq]
  · have hcollected : ∀ error ∈ (exec (resolveRoot d viewsRoot.normalize path.normalize source)
        ⟨graph, [], []⟩).2.errors, Collected error := kind_of_mem_errors hroot hpath
    rw [ofTemplate_eq]
    cases hrun : (exec (resolveRoot d viewsRoot.normalize path.normalize source)
        ⟨graph, [], []⟩).1 with
    | ok nodes =>
      refine Or.inl ⟨nodes, conclude_tree_eq_some_iff.mpr hrun, ?_⟩
      rw [conclude, hrun]
      exact hcollected
    | error stop =>
      refine Or.inr ⟨conclude_tree_eq_none_iff.mpr ⟨stop, hrun⟩, _, stop.toTemplateError, ?_,
        hcollected, (explained_of_error hroot hpath hrun).structural⟩
      rw [conclude, hrun]

end PugContracts.Resolution
