import Mathlib.Logic.Relation
import PugContracts.Proofs.Contract.Target
import PugContracts.Proofs.Template.Forest
import PugContracts.Resolution.Basic

/-!
# Which file leads to which

A template leads to its parent and to the templates it includes. The parent is the target of its
first top-level `extends`. The includes that count are those that are left once its regions have
been applied to the tree of the parent (`assembled?`): one in a region that the parent does not
have, or that another override replaces, is dropped and leads nowhere.

All of this is said without the resolver: only the trees of parents are taken from outside, as a
function from paths to trees.

## Main definitions

* `Refers` — a directive of a template and the path that its target stands for
* `Follows` — one file leads to another
* `Reached` — a chain of files leads from the root to a file
* `Names` — the text of a file names a path in a directive, whether it is followed or not
-/

namespace PugContracts.Resolution

open Template Contract Relation

/-- The text that a file is resolved with: the root may be given a text that is not on the disk. -/
def textOf? (d : Disk) (root : Path) (source : Option String) (file : Path) : Option String :=
  if file = root then source.or (d.readText file).toOption else (d.readText file).toOption

/-- The nodes of a template in which includes are spliced: its own, or those of its parent with its
regions applied. -/
def assembled? (viewsRoot : Path) (tree : Path → Option (List Node)) (file : Path)
    (text : String) : Option (List Node) :=
  let nodes := stampAll file (parse text).nodes
  let parts := ChildParts.ofNodes nodes file
  match parentDirectives nodes with
  | [] => some nodes
  | (_, target) :: _ =>
    (tree (resolveTarget target file viewsRoot)).map fun parent =>
      parts.loose ++ mergeAll parts parent

/-- A node includes a template, without a filter. -/
inductive Includes (viewsRoot : Path) (node : Node) : Reference → Path → Prop
  | intro {target : String} {file : Path} (kind : node.kind = .inclusion target none)
    (origin : node.file = some file)
    (template : isTemplatePath (resolveTarget target file viewsRoot) = true) :
    Includes viewsRoot node ⟨.inclusion, file, node.line, target⟩
      (resolveTarget target file viewsRoot)

/-- The template `file` with the given text follows a reference to a path. -/
inductive Refers (viewsRoot : Path) (tree : Path → Option (List Node)) (file : Path)
    (text : String) : Reference → Path → Prop
  | parent {line : Nat} {target : String} {more : List (Nat × String)}
    (first : parentDirectives (stampAll file (parse text).nodes) = (line, target) :: more) :
    Refers viewsRoot tree file text ⟨.parent, file, line, target⟩
      (resolveTarget target file viewsRoot)
  | inclusion {nodes : List Node} {node : Node} {reference : Reference} {path : Path}
    (assembled : assembled? viewsRoot tree file text = some nodes)
    (live : node ∈ liveAll nodes) (includes : Includes viewsRoot node reference path) :
    Refers viewsRoot tree file text reference path

/-- A directive of the first file leads to the second. -/
def Follows (viewsRoot : Path) (tree : Path → Option (List Node)) (text? : Path → Option String)
    (file target : Path) : Prop :=
  ∃ text reference, text? file = some text ∧ Refers viewsRoot tree file text reference target

/-- A chain of directives leads from the root to a file. -/
def Reached (viewsRoot : Path) (tree : Path → Option (List Node)) (text? : Path → Option String)
    (root file : Path) : Prop :=
  ReflTransGen (Follows viewsRoot tree text?) root file

/-- The text of the referring file has a directive for the reference, which stands for a path. -/
def Cites (viewsRoot : Path) (text : String) (reference : Reference) (path : Path) : Prop :=
  resolveTarget reference.target reference.referrer viewsRoot = path ∧
    ∃ node ∈ walkAll (parse text).nodes, node.line = reference.line ∧
      (reference.kind = .parent ∧ node.kind = .inherits reference.target ∨
        reference.kind = .inclusion ∧ node.kind = .inclusion reference.target none)

/-- The text of the file names a path: it is the target of the first `extends` at its top level, or
that of an include. -/
inductive Names (viewsRoot : Path) (text : String) (file : Path) : Path → Prop
  | parent {line : Nat} {target : String} {more : List (Nat × String)}
    (first : parentDirectives (parse text).nodes = (line, target) :: more) :
    Names viewsRoot text file (resolveTarget target file viewsRoot)
  | inclusion {node : Node} {target : String} {filter : Option String}
    (written : node ∈ walkAll (parse text).nodes) (kind : node.kind = .inclusion target filter) :
    Names viewsRoot text file (resolveTarget target file viewsRoot)

/-! ### Targets -/

/-- References lead to normal paths. -/
theorem Refers.normal {viewsRoot file path : Path} {tree : Path → Option (List Node)}
    {text : String} {reference : Reference} (h : Refers viewsRoot tree file text reference path) :
    path.normalize = path := by
  cases h with
  | parent => exact normalize_resolveTarget _ _ _
  | inclusion _ _ hincludes => cases hincludes; exact normalize_resolveTarget _ _ _

/-! ### Directives that name a parent -/

@[simp] theorem parentDirectives_stampAll (file : Path) (nodes : List Node) :
    parentDirectives (stampAll file nodes) = parentDirectives nodes := by
  induction nodes with
  | nil => rfl
  | cons node rest ih =>
    obtain ⟨kind, line, origin, children, alternate⟩ := node
    simp only [parentDirectives] at ih
    simp only [parentDirectives, stampAll, Node.stamp, List.filterMap_cons, ih]

/-- The first top-level directive that names a parent stands in the text. -/
theorem cites_parent {viewsRoot file : Path} {text : String} {line : Nat} {target : String}
    {more : List (Nat × String)}
    (h : parentDirectives (stampAll file (parse text).nodes) = (line, target) :: more) :
    Cites viewsRoot text ⟨.parent, file, line, target⟩ (resolveTarget target file viewsRoot) := by
  rw [parentDirectives_stampAll] at h
  have hmem : (line, target) ∈ parentDirectives (parse text).nodes := by
    rw [h]
    exact List.mem_cons_self
  obtain ⟨node, hnode, heq⟩ := List.mem_filterMap.mp hmem
  refine ⟨rfl, node, mem_walkAll_of_mem hnode, ?_⟩
  split at heq
  · next hkind =>
    obtain ⟨rfl, rfl⟩ := Prod.mk.inj (Option.some.inj heq)
    exact ⟨rfl, Or.inl ⟨rfl, hkind⟩⟩
  · simp at heq

end PugContracts.Resolution
