import PugContracts.Resolution.Basic

/-!
# Resolution without a memo

The plain resolver is the resolver that forgets: it follows each reference anew, however often a
file has been resolved before, and keeps only the files on the way down, to notice a cycle. It says
what a resolution means; `resolveReference` is a faster way to compute it.
-/

namespace PugContracts.Resolution

open Template Contract

/-- Follow a reference, while the files `active` are being resolved, and keep no tree. -/
def plainReference (d : Disk) (viewsRoot : Path) (active : List Path) (reference : Reference)
    (path : Path) : Resolve (List Node) :=
  let key := path.normalize
  if _fresh : key ∈ active then
    let chain := ((active.takeWhile (· != key)) ++ [key]).reverse ++ [path]
    throw (.cycle reference.referrer reference.line reference.kind chain)
  else
    match _read : d.readText path with
    | .error .notFound =>
      throw (.missingFile reference.referrer (some reference.line) reference.kind reference.target
        path)
    | .error reason =>
      throw (.unreadable path (some (reference.referrer, reference.line)) reason)
    | .ok text =>
      let follow := fun next target => plainReference d viewsRoot (key :: active) next target
      resolveText d viewsRoot follow path text
termination_by (unopened d active).length
decreasing_by exact length_filter_cons_lt (Disk.mem_filePaths_of_readText _read) _fresh

/-- Resolve the root template, with the given text or its own, and keep no tree. -/
def plainRoot (d : Disk) (viewsRoot path : Path) (source : Option String) :
    Resolve (List Node) :=
  let follow := plainReference d viewsRoot [path]
  match source with
  | some text => resolveText d viewsRoot follow path text
  | none =>
    match d.readText path with
    | .ok text => resolveText d viewsRoot follow path text
    | .error .notFound => throw (.missingFile path none .root path.text path)
    | .error reason => throw (.unreadable path none reason)

/-- Resolve a template without a memo and record its directives in a graph. -/
def plainOfTemplate (d : Disk) (graph : DependencyGraph) (viewsRoot path : Path)
    (source : Option String) : Resolution × DependencyGraph :=
  let (result, final) :=
    (plainRoot d viewsRoot.normalize path.normalize source).run.run ⟨graph, [], []⟩
  match result with
  | .ok tree => (⟨some tree, final.errors⟩, final.graph)
  | .error error => (⟨none, final.errors ++ [error.toTemplateError]⟩, final.graph)

/-! ### Unfolding

A target is always a normal path, so these are the equations of both resolvers. -/

/-- The refusal to enter a file that is being resolved. -/
def cycleError (active : List Path) (reference : Reference) (path : Path) : ResolveError :=
  .cycle reference.referrer reference.line reference.kind
    (((active.takeWhile (· != path)) ++ [path]).reverse ++ [path])

/-- A file that is opened is no longer one of those that can be entered. -/
theorem length_unopened_lt {d : Disk} {path : Path} {active : List Path} {text : String}
    (hpath : path.normalize = path) (hmem : path ∉ active) (hread : d.readText path = .ok text) :
    (unopened d (path :: active)).length < (unopened d active).length :=
  length_filter_cons_lt (hpath ▸ Disk.mem_filePaths_of_readText hread) hmem

/-- The error for a file that cannot be read. -/
def readError (reference : Reference) (path : Path) : DiskError → ResolveError
  | .notFound =>
    .missingFile reference.referrer (some reference.line) reference.kind reference.target path
  | reason => .unreadable path (some (reference.referrer, reference.line)) reason

section

variable {d : Disk} {viewsRoot path : Path} {active : List Path} {reference : Reference}

theorem resolveReference_of_mem (hpath : path.normalize = path) (h : path ∈ active) :
    resolveReference d viewsRoot active reference path =
      throw (cycleError active reference path) := by
  rw [resolveReference]
  simp only [hpath, h, cycleError, dite_true]

theorem plainReference_of_mem (hpath : path.normalize = path) (h : path ∈ active) :
    plainReference d viewsRoot active reference path =
      throw (cycleError active reference path) := by
  rw [plainReference]
  simp only [hpath, h, cycleError, dite_true]

theorem resolveReference_of_notMem (hpath : path.normalize = path) (h : path ∉ active) :
    resolveReference d viewsRoot active reference path = (do
      match (← get).resolved.lookup path with
      | some nodes => return nodes
      | none =>
        match d.readText path with
        | .error reason => throw (readError reference path reason)
        | .ok text =>
          let nodes ←
            resolveText d viewsRoot (resolveReference d viewsRoot (path :: active)) path text
          remember path nodes
          return nodes) := by
  rw [resolveReference]
  simp only [hpath, h, dite_false]
  congr 1
  funext s
  cases s.resolved.lookup path with
  | some nodes => rfl
  | none =>
    dsimp only
    split
    · next hread => rw [hread]; rfl
    · next reason hother hread => rw [hread]; cases reason <;> first | rfl | exact (hother rfl).elim
    · next hread => rw [hread]

theorem plainReference_of_notMem (hpath : path.normalize = path) (h : path ∉ active) :
    plainReference d viewsRoot active reference path =
      match d.readText path with
      | .error reason => throw (readError reference path reason)
      | .ok text =>
        resolveText d viewsRoot (plainReference d viewsRoot (path :: active)) path text := by
  rw [plainReference]
  simp only [hpath, h, dite_false]
  split
  · next hread => rw [hread]; rfl
  · next reason hother hread => rw [hread]; cases reason <;> first | rfl | exact (hother rfl).elim
  · next hread => rw [hread]

end

end PugContracts.Resolution
