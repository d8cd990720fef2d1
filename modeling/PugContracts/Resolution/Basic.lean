import PugContracts.Contract.Reference
import PugContracts.Graph.Basic
import PugContracts.Resolution.Error
import PugContracts.Resolution.Region
import PugContracts.Template.Parser

/-!
# Resolving a template

Resolution turns a template into one flat tree that holds no directive and in which every node knows
the file and line it came from:

1. The template is read and its nodes are stamped.
2. If a top-level directive names a parent, the parent is resolved, the template's regions are
   applied to it, and the template's loose content comes before the result.
3. Every included template is resolved and takes the place of its directive. A target is read from
   the file that the directive was written in, wherever its node has got to.

Each directive is recorded as an edge of the dependency graph before its target is looked at, so the
edge is there also if the target is missing. A file that several directives lead to is resolved
once.

## Termination

Files may refer to each other in cycles. `resolveReference` carries the files that are being
resolved and refuses to enter one of them again; every file it does enter is one of the finitely
many files of the disk, so the number of files that can still be entered decreases.
-/

namespace PugContracts.Resolution

open Template Contract

/-- What the resolution of one template collects. -/
structure State where
  /-- The dependency graph. -/
  graph : DependencyGraph
  /-- The files that have been resolved, with their trees. -/
  resolved : List (Path × List Node)
  /-- The errors that do not stop the resolution, in the order in which they were found. -/
  errors : List TemplateError

/-- A step of a resolution: it may stop with a structural error. -/
abbrev Resolve (α : Type) := ExceptT ResolveError (StateM State) α

/-- Collect errors that do not stop the resolution. -/
def report (errors : List TemplateError) : Resolve Unit :=
  modify fun s => { s with errors := s.errors ++ errors }

/-- Record an edge of the dependency graph. -/
def depend (file dependency : Path) : Resolve Unit :=
  modify fun s => { s with graph := s.graph.add file dependency }

/-- Record the tree of a file that has been resolved. -/
def remember (file : Path) (nodes : List Node) : Resolve Unit :=
  modify fun s => { s with resolved := (file, nodes) :: s.resolved }

/-- How a reference to a template is followed: the directive and the path of its target. -/
abbrev Follow := Reference → Path → Resolve (List Node)

/-! ### Includes -/

/-- The nodes that take the place of a directive in `file` that includes a file. -/
def resolveInclude (d : Disk) (viewsRoot : Path) (follow : Follow) (file : Path) (line : Nat)
    (target : String) (filter : Option String) : Resolve (List Node) := do
  let path := resolveTarget target file viewsRoot
  depend file path
  if filter.isSome || !isTemplatePath path then
    if d.isFile path then return []
    else throw (.missingFile file (some line) .inclusion target path)
  else follow ⟨.inclusion, file, line, target⟩ path

mutual

/-- Resolve the directives in a tree of the template `current`. -/
def rewriteNode (d : Disk) (viewsRoot : Path) (follow : Follow) (current : Path) :
    Node → Resolve (List Node)
  | ⟨kind, line, none, _, _⟩ => throw (.missingOrigin current line kind.label)
  | ⟨.inherits _, line, some file, _, _⟩ => do
    report [.onLine .directiveShape file line
      "`extends` must appear at the top level of a template"]
    return []
  | ⟨.inclusion target filter, line, some file, _, _⟩ =>
    resolveInclude d viewsRoot follow file line target filter
  | ⟨kind, line, some file, children, alternate⟩ => do
    let alternate ← rewriteAll d viewsRoot follow current alternate
    let children ← rewriteAll d viewsRoot follow current children
    return [⟨kind, line, some file, children, alternate⟩]

/-- Resolve the directives in every tree of a list. -/
def rewriteAll (d : Disk) (viewsRoot : Path) (follow : Follow) (current : Path) :
    List Node → Resolve (List Node)
  | [] => return []
  | node :: rest => do
    let first ← rewriteNode d viewsRoot follow current node
    let more ← rewriteAll d viewsRoot follow current rest
    return first ++ more

end

/-! ### Parents -/

/-- The lines and targets of the top-level directives that name a parent. -/
def parentDirectives (nodes : List Node) : List (Nat × String) :=
  nodes.filterMap fun node =>
    match node.kind with
    | .inherits target => some (node.line, target)
    | _ => none

/-- The error for each further directive that names a parent. -/
def repeatedParents (file : Path) (first : Nat) (lines : List Nat) : List TemplateError :=
  lines.map fun line =>
    .onLine .directiveShape file line
      ("only one `extends` is allowed per template (first on line " ++ toString first ++ ")")

/-- The nodes of the template `file` together with those of its parent. -/
def inherit (viewsRoot : Path) (follow : Follow) (file : Path) (nodes : List Node) (line : Nat)
    (target : String) : Resolve (List Node) := do
  let path := resolveTarget target file viewsRoot
  depend file path
  let parent ← follow ⟨.parent, file, line, target⟩ path
  let parts := ChildParts.ofNodes nodes file
  return parts.loose ++ mergeAll parts parent

/-! ### Templates -/

/-- The syntax errors of the template `file`. -/
def syntaxErrors (file : Path) (parsed : ParsedTemplate) : List TemplateError :=
  parsed.errors.map fun error => .onLine .syntaxFault file error.line error.fault.message

/-- Resolve the template `file` with the given text. -/
def resolveText (d : Disk) (viewsRoot : Path) (follow : Follow) (file : Path) (text : String) :
    Resolve (List Node) := do
  let parsed := parse text
  report (syntaxErrors file parsed)
  let nodes := stampAll file parsed.nodes
  match parentDirectives nodes with
  | [] => rewriteAll d viewsRoot follow file nodes
  | (line, target) :: more => do
    report (repeatedParents file line (more.map Prod.fst))
    let merged ← inherit viewsRoot follow file nodes line target
    rewriteAll d viewsRoot follow file merged

/-- The files that are not being resolved. -/
def unopened (d : Disk) (active : List Path) : List Path :=
  d.filePaths.filter fun file => !active.contains file

theorem length_filter_cons_lt {files active : List Path} {key : Path} (known : key ∈ files)
    (fresh : key ∉ active) :
    (files.filter fun file => !(key :: active).contains file).length <
      (files.filter fun file => !active.contains file).length := by
  have fewer : ∀ files : List Path,
      (files.filter fun file => !(key :: active).contains file).length ≤
        (files.filter fun file => !active.contains file).length := by
    intro files
    rw [← List.countP_eq_length_filter, ← List.countP_eq_length_filter]
    refine List.countP_mono_left fun file _ h => ?_
    simp only [Bool.not_eq_true', List.contains_eq_mem, decide_eq_false_iff_not, List.mem_cons,
      not_or] at h ⊢
    exact h.2
  induction files with
  | nil => simp at known
  | cons file rest ih =>
    rcases List.mem_cons.1 known with rfl | inRest
    · have := fewer rest
      simp [fresh] at this ⊢
      omega
    · have := ih inRest
      by_cases opened : file ∈ active
      · simpa [List.filter_cons, opened] using this
      · by_cases same : file = key
        · have := fewer rest
          simp [List.filter_cons, same] at this ⊢
          simp only [same] at opened
          simp [opened]
          omega
        · simpa [List.filter_cons, opened, same] using this

/-- Follow a reference, while the files `active` are being resolved, the innermost first. -/
def resolveReference (d : Disk) (viewsRoot : Path) (active : List Path) (reference : Reference)
    (path : Path) : Resolve (List Node) :=
  let key := path.normalize
  if _fresh : key ∈ active then
    let chain := ((active.takeWhile (· != key)) ++ [key]).reverse ++ [path]
    throw (.cycle reference.referrer reference.line reference.kind chain)
  else do
    match (← get).resolved.lookup key with
    | some nodes => return nodes
    | none =>
      match _read : d.readText path with
      | .error .notFound =>
        throw (.missingFile reference.referrer (some reference.line) reference.kind reference.target
          path)
      | .error reason =>
        throw (.unreadable path (some (reference.referrer, reference.line)) reason)
      | .ok text =>
        let follow := fun next target => resolveReference d viewsRoot (key :: active) next target
        let nodes ← resolveText d viewsRoot follow path text
        remember key nodes
        return nodes
termination_by (unopened d active).length
decreasing_by exact length_filter_cons_lt (Disk.mem_filePaths_of_readText _read) _fresh

/-! ### Results -/

end Resolution

/-- What came of resolving a template. -/
structure Resolution where
  /-- The flat tree; absent if a structural error stopped the resolution. -/
  tree : Option (List Template.Node)
  /-- The errors; a structural error is the last one. -/
  errors : List TemplateError

namespace Resolution

/-- Resolve the root template, with the given text or its own. -/
def resolveRoot (d : Disk) (viewsRoot path : Path) (source : Option String) :
    Resolve (List Template.Node) :=
  let follow := resolveReference d viewsRoot [path]
  match source with
  | some text => resolveText d viewsRoot follow path text
  | none =>
    match d.readText path with
    | .ok text => resolveText d viewsRoot follow path text
    | .error .notFound => throw (.missingFile path none .root path.text path)
    | .error reason => throw (.unreadable path none reason)

/-- Resolve a template and record its directives in a graph. When its text is given, it is not read
from the disk. -/
def ofTemplate (d : Disk) (graph : DependencyGraph) (viewsRoot path : Path)
    (source : Option String) : Resolution × DependencyGraph :=
  let (result, final) :=
    (resolveRoot d viewsRoot.normalize path.normalize source).run.run ⟨graph, [], []⟩
  match result with
  | .ok tree => (⟨some tree, final.errors⟩, final.graph)
  | .error error => (⟨none, final.errors ++ [error.toTemplateError]⟩, final.graph)

end Resolution

end PugContracts
