import PugContracts.Graph.Basic

/-!
# Dependency trees

The tree below a file lists every chain of dependencies that starts there, each file one level below
the one that depends on it. A chain that comes back to a file it has passed is marked and followed
no further, so the tree of a cyclic graph is finite too.

One set holds the files that the chain has passed. It is handed from file to file as the tree is
written: a file is put in before what is below it is written, and taken out afterwards. Each walk
therefore hands on the set as it got it, up to the order of its members, which is part of the result
type: the walk over the files that come next could otherwise not be seen to end.
-/

namespace PugContracts.DependencyGraph

/-- The files of a graph that a chain has not passed. -/
def unvisited (g : DependencyGraph) (visited : List Path) : List Path :=
  g.nodes.filter fun file => !visited.contains file

theorem length_unvisited_congr {visited left : List Path} (g : DependencyGraph)
    (h : left.Perm visited) : (g.unvisited left).length = (g.unvisited visited).length := by
  have hsame : (fun file => !left.contains file) = fun file => !visited.contains file :=
    funext fun file => congrArg (!·) (h.contains_eq)
  rw [unvisited, unvisited, hsame]

theorem length_unvisited_lt {g : DependencyGraph} {visited : List Path} {file : Path}
    (hnode : file ∈ g.nodes) (hnew : file ∉ visited) :
    (g.unvisited (file :: visited)).length < (g.unvisited visited).length := by
  have hfile : file ∈ g.unvisited visited := List.mem_filter.mpr ⟨hnode, by simpa using hnew⟩
  have hrest : g.unvisited (file :: visited) =
      (g.unvisited visited).filter fun other => !(other == file) := by
    rw [unvisited, unvisited, List.filter_filter]
    simp only [List.contains_cons, Bool.not_or]
  rw [hrest, List.length_filter_lt_length_iff_exists]
  exact ⟨file, hfile, by simp⟩

/-- The tree lines below a file, for the dependencies still to be shown, and the files that the
chain down to here has passed. -/
def branches (g : DependencyGraph) (base : Path) (indent : String) (visited : List Path)
    (dependencies : List Path) (_known : dependencies ⊆ g.nodes) :
    String × { left : List Path // left.Perm visited } :=
  match dependencies with
  | [] => ("", ⟨visited, .refl visited⟩)
  | file :: rest =>
    let last := rest.isEmpty
    let line := indent ++ (if last then "└── " else "├── ") ++ file.shownFrom base ++ "\n"
    let deeper := indent ++ (if last then "    " else "│   ")
    let (content, below) : String × { left : List Path // left.Perm visited } :=
      if _seen : file ∈ visited then
        (deeper ++ "└── (circular reference)\n", ⟨visited, .refl visited⟩)
      else
        let (content, below) := branches g base deeper (file :: visited) (g.get file)
          (g.searchFrom_subset file _)
        (content, ⟨below.1.erase file, by simpa using below.2.erase file⟩)
    let (after, left) := branches g base indent below.1 rest
      fun _ hfile => _known (List.mem_cons_of_mem file hfile)
    (line ++ content ++ after, ⟨left.1, left.2.trans below.2⟩)
termination_by ((g.unvisited visited).length, dependencies.length)
decreasing_by
  · exact Prod.Lex.left _ _ (length_unvisited_lt (_known List.mem_cons_self) _seen)
  · rw [g.length_unvisited_congr below.2]
    exact Prod.Lex.right _ (Nat.lt_succ_self _)

/-- The tree of what `root` depends on, with paths as shown from the directory `base`. -/
def toTree (g : DependencyGraph) (root base : Path) : String :=
  let root := root.normalize
  root.shownFrom base ++ "\n" ++ (branches g base "" [root] (g.get root)
    (g.searchFrom_subset root _)).1

end PugContracts.DependencyGraph
