import Mathlib.Data.List.Chain
import PugContracts.Graph.Tree
import PugContracts.Proofs.Graph.Cycles

/-!
# What a dependency tree lists

The tree below a file has one line for each `Trail`: a chain of edges from the root of which only
the last file may be one that the chain has passed. The lines stand in the order of the trails as
lists of paths, where a trail stands before the longer ones that begin with it, and trails that part
stand in the order of the files to which they part. This is the order of a walk that goes to the
bottom first.

`ways` collects the trails with the files that the chain has not passed, which are its own for each
file. The walk that writes the tree has one set of files that have been passed, which it changes and
hands on. That this set holds exactly the files of the chain, whenever a file is written, is what
makes the marks right: `branches_cons` says that a file leaves it as it was for the files that come
next, and `branches_eq` that the tree therefore lists the ways.

## Main results

* `mem_ways_iff` and `pairwise_ways` — which ways there are, and their order
* `branches_eq` — the tree lists the ways
* `toTree_lists_trails` — the tree below a file lists its trails
-/

namespace PugContracts

namespace DependencyGraph

variable {g : DependencyGraph} {base file parent root : Path}
  {unseen visited deps rest before way trail : List Path}

/-- A chain of edges from `root`, at least one, whose files are all different but perhaps for the
last one. -/
structure Trail (g : DependencyGraph) (root : Path) (trail : List Path) : Prop where
  /-- It starts at the root. -/
  head : trail.head? = some root
  /-- It goes on. -/
  long : 2 ≤ trail.length
  /-- Each file depends on the next one. -/
  chain : trail.IsChain g.Edge
  /-- The files before the last one are different. -/
  nodup : trail.dropLast.Nodup

/-! ### Lines -/

/-- Whether a file is the last of those that another one depends on. -/
def isLast (g : DependencyGraph) (parent file : Path) : Bool :=
  (g.get parent).getLast? == some file

/-- The indentation below a trail: for each file after the root a bar, unless it is the last. -/
def margin (g : DependencyGraph) : List Path → String
  | parent :: file :: rest =>
    (if g.isLast parent file then "    " else "│   ") ++ g.margin (file :: rest)
  | _ => ""

/-- The line of a trail: the last file, at the indentation below the trail to the file before. -/
def trailLine (g : DependencyGraph) (base : Path) : List Path → String
  | [parent, file] => (if g.isLast parent file then "└── " else "├── ") ++ file.shownFrom base
  | parent :: file :: rest =>
    (if g.isLast parent file then "    " else "│   ") ++ g.trailLine base (file :: rest)
  | _ => ""

/-- Whether the last file of a trail is one that it has passed. -/
def closes (trail : List Path) : Bool :=
  trail.getLast?.any fun file => trail.dropLast.contains file

/-- The lines for a trail: its own, and the mark of a trail that comes back. -/
def trailLines (g : DependencyGraph) (base : Path) (trail : List Path) : List String :=
  g.trailLine base trail ::
    if closes trail then [g.margin trail ++ "└── (circular reference)"] else []

/-- Lines as a text. -/
def textOf (lines : List String) : String :=
  String.join (lines.map (· ++ "\n"))

@[simp] theorem textOf_nil : textOf [] = "" := rfl

@[simp] theorem textOf_cons (line : String) (lines : List String) :
    textOf (line :: lines) = line ++ "\n" ++ textOf lines :=
  String.join_cons

@[simp] theorem textOf_append (lines more : List String) :
    textOf (lines ++ more) = textOf lines ++ textOf more := by
  rw [textOf, List.map_append, String.join_append, textOf, textOf]

theorem margin_concat (g : DependencyGraph) (before : List Path) (parent file : Path) :
    g.margin (before ++ [parent, file]) =
      g.margin (before ++ [parent]) ++ if g.isLast parent file then "    " else "│   " := by
  induction before with
  | nil => simp [margin]
  | cons first before ih =>
    cases before with
    | nil => simp [margin]
    | cons second before =>
      simp only [List.cons_append, margin] at ih ⊢
      rw [ih, String.append_assoc]

theorem trailLine_concat (g : DependencyGraph) (base : Path) (before : List Path)
    (parent file : Path) : g.trailLine base (before ++ [parent, file]) =
      g.margin (before ++ [parent]) ++ (if g.isLast parent file then "└── " else "├── ") ++
        file.shownFrom base := by
  induction before with
  | nil => simp [margin, trailLine]
  | cons first before ih =>
    cases before with
    | nil => simp [margin, trailLine, String.append_assoc]
    | cons second before =>
      simp only [List.cons_append, margin] at ih ⊢
      rw [trailLine, ih, String.append_assoc, String.append_assoc, String.append_assoc]
      simp

theorem closes_concat (passed : List Path) (file : Path) :
    closes (passed ++ [file]) = passed.contains file := by
  simp [closes]

/-! ### Ways on -/

/-- The ways on from a file by some of the files that it depends on. `unseen` holds the files that
the chain down to here has not passed. -/
def ways (g : DependencyGraph) (unseen dependencies : List Path) : List (List Path) :=
  match dependencies with
  | [] => []
  | file :: rest =>
    let onward := if _new : file ∈ unseen then ways g (unseen.erase file) (g.get file) else []
    [file] :: onward.map (file :: ·) ++ ways g unseen rest
termination_by (unseen.length, dependencies.length)
decreasing_by
  · apply Prod.Lex.left
    rw [List.length_erase_of_mem _new]
    have := List.length_pos_of_mem _new
    omega
  · apply Prod.Lex.right
    simp

/-- The ways on by a file that the chain has not passed. -/
def waysBy (g : DependencyGraph) (unseen : List Path) (file : Path) : List (List Path) :=
  if file ∈ unseen then g.ways (unseen.erase file) (g.get file) else []

theorem ways_cons (g : DependencyGraph) (unseen : List Path) (file : Path) (rest : List Path) :
    g.ways unseen (file :: rest) =
      [file] :: (g.waysBy unseen file).map (file :: ·) ++ g.ways unseen rest := by
  rw [ways, waysBy]
  split <;> rfl

theorem mem_waysBy :
    way ∈ g.waysBy unseen file ↔ file ∈ unseen ∧ way ∈ g.ways (unseen.erase file) (g.get file) := by
  rw [waysBy]
  split <;> simp_all

/-- A way on starts with one of the given files. -/
theorem head_of_mem_ways (h : way ∈ g.ways unseen deps) : ∃ file ∈ deps, way.head? = some file := by
  induction deps with
  | nil => simp [ways] at h
  | cons file rest ih =>
    rw [ways_cons] at h
    rcases List.mem_append.mp h with h | h
    · refine ⟨file, List.mem_cons_self, ?_⟩
      rcases List.mem_cons.mp h with rfl | h
      · rfl
      · obtain ⟨onward, -, rfl⟩ := List.mem_map.mp h
        rfl
    · obtain ⟨next, hnext, hhead⟩ := ih h
      exact ⟨next, List.mem_cons_of_mem file hnext, hhead⟩

theorem ne_nil_of_mem_waysBy (h : way ∈ g.waysBy unseen file) : way ≠ [] := by
  rintro rfl
  obtain ⟨next, -, hhead⟩ := head_of_mem_ways (mem_waysBy.mp h).2
  cases hhead

/-- **The ways on** are the chains that start with one of the given files and of which the files
before the last one are different and unseen. -/
theorem mem_ways_iff (hunseen : unseen.Nodup) (hdeps : ∀ file ∈ deps, file.normalize = file) :
    way ∈ g.ways unseen deps ↔
      (∃ file ∈ deps, way.head? = some file) ∧ way.IsChain g.Edge ∧ way.dropLast.Nodup ∧
        way.dropLast ⊆ unseen := by
  induction unseen, deps using ways.induct g generalizing way with
  | case1 => simp [ways]
  | case2 unseen file rest ihbelow ihrest =>
    obtain ⟨hfile, hrest⟩ := List.forall_mem_cons.mp hdeps
    have hget : ∀ {next}, next ∈ g.get file ↔ g.Edge file next := by
      intro next
      rw [mem_get_iff, hfile]
    have hbelow := fun hseen onward => @ihbelow hseen onward (hunseen.erase file)
      fun next hnext => (hget.mp hnext).right_normal
    rw [ways_cons, List.mem_append, List.mem_cons, List.mem_map, ihrest hunseen hrest]
    constructor
    · rintro ((rfl | ⟨onward, honward, rfl⟩) | ⟨⟨next, hnext, hhead⟩, hway⟩)
      · simp
      · rw [List.dropLast_cons_of_ne_nil (ne_nil_of_mem_waysBy honward)]
        obtain ⟨hseen, honward⟩ := mem_waysBy.mp honward
        obtain ⟨⟨next, hnext, hhead⟩, hchain, hnodup, hsubset⟩ := (hbelow hseen onward).mp honward
        refine ⟨⟨file, List.mem_cons_self, rfl⟩,
          List.isChain_cons.mpr ⟨fun other hother => ?_, hchain⟩,
          List.nodup_cons.mpr ⟨fun hmem => hunseen.not_mem_erase (hsubset hmem), hnodup⟩,
          List.cons_subset.mpr ⟨hseen, fun other hmem => List.mem_of_mem_erase (hsubset hmem)⟩⟩
        rw [hhead] at hother
        exact hget.mp (Option.some.inj hother ▸ hnext)
      · exact ⟨⟨next, List.mem_cons_of_mem file hnext, hhead⟩, hway⟩
    · rintro ⟨⟨first, hfirst, hhead⟩, hchain, hnodup, hsubset⟩
      rcases List.mem_cons.mp hfirst with rfl | hfirst
      · obtain ⟨onward, rfl⟩ := List.head?_eq_some_iff.mp hhead
        cases onward with
        | nil => exact Or.inl (Or.inl rfl)
        | cons next onward =>
          obtain ⟨hedge, hchain⟩ := List.isChain_cons_cons.mp hchain
          rw [List.dropLast_cons_of_ne_nil (List.cons_ne_nil _ _)] at hnodup hsubset
          obtain ⟨hfresh, hnodup⟩ := List.nodup_cons.mp hnodup
          obtain ⟨hseen, hsubset⟩ := List.cons_subset.mp hsubset
          refine Or.inl (Or.inr ⟨_, mem_waysBy.mpr ⟨hseen, (hbelow hseen _).mpr
            ⟨⟨next, hget.mpr hedge, rfl⟩, hchain, hnodup, fun other hother => ?_⟩⟩, rfl⟩)
          have hne : other ≠ first := by
            rintro rfl
            exact hfresh hother
          exact (List.mem_erase_of_ne hne).mpr (hsubset hother)
      · exact Or.inr ⟨⟨first, hfirst, hhead⟩, hchain, hnodup, hsubset⟩

/-- A list of paths with a smaller first path is smaller. -/
theorem compare_eq_lt_of_head {paths others : List Path} {p q : Path}
    (hp : paths.head? = some p) (hq : others.head? = some q)
    (hlt : compare p q = .lt) : compare paths others = .lt := by
  obtain ⟨rest, rfl⟩ := List.head?_eq_some_iff.mp hp
  obtain ⟨rest', rfl⟩ := List.head?_eq_some_iff.mp hq
  rw [List.compare_cons_cons, hlt]
  rfl

/-- **The ways on stand in the order of lists of paths.** -/
theorem pairwise_ways (hdeps : Path.Increasing deps) :
    (g.ways unseen deps).Pairwise fun way other => compare way other = .lt := by
  induction unseen, deps using ways.induct g with
  | case1 =>
    rw [ways]
    exact List.Pairwise.nil
  | case2 unseen file rest ihbelow ihrest =>
    obtain ⟨hfirst, hrest⟩ := List.pairwise_cons.mp hdeps
    have hcons : ∀ way other : List Path,
        compare (file :: way) (file :: other) = compare way other := fun way other => by
      rw [List.compare_cons_cons, Std.ReflOrd.compare_self, Ordering.eq_then]
    have hbelow : (g.waysBy unseen file).Pairwise fun way other => compare way other = .lt := by
      rw [waysBy]
      split
      · next hseen => exact ihbelow hseen (g.increasing_searchFrom file _)
      · exact List.Pairwise.nil
    rw [ways_cons]
    refine List.pairwise_append.mpr ⟨List.pairwise_cons.mpr ⟨fun way hway => ?_, ?_⟩,
      ihrest hrest, fun way hway other hother => ?_⟩
    · obtain ⟨onward, honward, rfl⟩ := List.mem_map.mp hway
      obtain ⟨next, more, rfl⟩ := List.exists_cons_of_ne_nil (ne_nil_of_mem_waysBy honward)
      rw [hcons]
      rfl
    · exact List.pairwise_map.mpr (hbelow.imp fun hlt => (hcons _ _).trans hlt)
    · obtain ⟨next, hnext, hhead⟩ := head_of_mem_ways hother
      have hstart : way.head? = some file := by
        rcases List.mem_cons.mp hway with rfl | hway
        · rfl
        · obtain ⟨_, _, rfl⟩ := List.mem_map.mp hway
          rfl
      exact compare_eq_lt_of_head hstart hhead (hfirst next hnext)

/-! ### The tree -/

/-- A file is written with what is below it, and the files after it are written with the set that
is left, which holds the same files as before. -/
theorem branches_cons (base : Path) (indent : String) (visited : List Path)
    (known : file :: rest ⊆ g.nodes) :
    let deeper := indent ++ if rest.isEmpty then "    " else "│   "
    ∃ (left : List Path) (onward : rest ⊆ g.nodes), left.Perm visited ∧
      (g.branches base indent visited (file :: rest) known).1 =
        indent ++ (if rest.isEmpty then "└── " else "├── ") ++ file.shownFrom base ++ "\n" ++
          (if file ∈ visited then deeper ++ "└── (circular reference)\n"
            else (g.branches base deeper (file :: visited) (g.get file)
              (g.searchFrom_subset file _)).1) ++
          (g.branches base indent left rest onward).1 := by
  intro deeper
  have onward : rest ⊆ g.nodes := fun _ hfile => known (List.mem_cons_of_mem file hfile)
  rw [branches]
  dsimp only
  generalize hbelow : dite (file ∈ visited) _ _ = below
  have hcontent : below.1 =
      if file ∈ visited then deeper ++ "└── (circular reference)\n"
      else (g.branches base deeper (file :: visited) (g.get file)
        (g.searchFrom_subset file _)).1 := by
    rw [← hbelow]
    split <;> rfl
  exact ⟨below.2.1, onward, below.2.2, by rw [hcontent]⟩

/-- The last of the files that another one depends on is the one after which none is left. -/
theorem isLast_eq (h : file :: rest <:+ g.get parent) : g.isLast parent file = rest.isEmpty := by
  obtain ⟨earlier, hget⟩ := h
  have hnodup : (file :: rest).Nodup :=
    (g.increasing_searchFrom parent _).nodup.sublist (hget ▸ List.sublist_append_right earlier _)
  rw [isLast, ← hget]
  cases rest with
  | nil => simp
  | cons next rest =>
    have hlast : (next :: rest).getLast? ≠ some file := fun hlast =>
      (List.nodup_cons.mp hnodup).1 (List.mem_of_getLast? hlast)
    rw [List.getLast?_append_of_ne_nil _ (List.cons_ne_nil _ _), List.getLast?_cons_cons]
    simpa using hlast

/-- **The tree lists the ways on.** The chain down to here ends at `parent`, the set holds the files
that it has passed, and the nodes that are still unseen are the others. -/
theorem branches_eq {known : deps ⊆ g.nodes} (hdeps : deps <:+ g.get parent)
    (hunseen : unseen.Nodup) (hvisited : ∀ file, file ∈ visited ↔ file ∈ before ++ [parent])
    (hseen : ∀ file ∈ g.nodes, file ∈ unseen ↔ file ∉ visited) :
    (g.branches base (g.margin (before ++ [parent])) visited deps known).1 =
      textOf
        ((g.ways unseen deps).flatMap fun way => g.trailLines base (before ++ parent :: way)) := by
  induction unseen, deps using ways.induct g generalizing before parent visited with
  | case1 => simp [ways, branches]
  | case2 unseen file rest ihbelow ihrest =>
    obtain ⟨left, onward, hleft, hbranches⟩ :=
      branches_cons base (g.margin (before ++ [parent])) visited known
    -- The files that come next find the set as the first one did.
    have hrest : (g.branches base (g.margin (before ++ [parent])) left rest onward).1 = _ :=
      ihrest ((List.suffix_cons file rest).trans hdeps) hunseen
        (fun other => hleft.mem_iff.trans (hvisited other))
        fun other hother => (hseen other hother).trans (not_congr hleft.mem_iff.symm)
    have hlast := isLast_eq hdeps
    have hnode : file ∈ g.nodes := known List.mem_cons_self
    have hline := g.trailLine_concat base before parent file
    have hmargin := g.margin_concat before parent file
    have hcloses : closes (before ++ [parent, file]) = decide (file ∈ visited) := by
      rw [List.append_cons, closes_concat, Bool.eq_iff_iff, List.contains_iff_mem,
        decide_eq_true_iff, hvisited]
    rw [hlast] at hline hmargin
    rw [hbranches, ways_cons, hrest, ← hmargin, ← hline, waysBy]
    by_cases hfile : file ∈ unseen
    · have hnew : file ∉ visited := (hseen file hnode).mp hfile
      have hbelow : (g.branches base (g.margin (before ++ [parent] ++ [file])) (file :: visited)
          (g.get file) (g.searchFrom_subset file _)).1 = _ :=
        ihbelow hfile (List.suffix_refl _) (hunseen.erase file)
          (fun other => by rw [List.mem_cons, hvisited, List.mem_append (t := [file]),
            List.mem_singleton, or_comm])
          fun other hother => by
            rw [hunseen.mem_erase_iff, hseen other hother, List.mem_cons, not_or]
      simp only [List.append_assoc, List.singleton_append] at hbelow
      simp [hfile, hnew, hbelow, trailLines, hcloses, List.flatMap_map, String.append_assoc]
    · have hpassed : file ∈ visited := by_contra fun hnew => hfile ((hseen file hnode).mpr hnew)
      simp [hfile, hpassed, trailLines, hcloses, String.append_assoc]

/-! ### Trails -/

/-- The files of a chain of edges are nodes, but for the first. -/
theorem mem_nodes_of_isChain (h : (root :: way).IsChain g.Edge) : ∀ file ∈ way, file ∈ g.nodes := by
  induction way generalizing root with
  | nil => simp
  | cons next way ih =>
    obtain ⟨hedge, hchain⟩ := List.isChain_cons_cons.mp h
    exact List.forall_mem_cons.mpr ⟨hedge.right_mem, ih hchain⟩

/-- The trails of a file, in the order of the tree. -/
def trails (g : DependencyGraph) (root : Path) : List (List Path) :=
  (g.ways (g.nodes.erase root) (g.get root)).map (root :: ·)

/-- A trail is a way on by the root, as long as no file has been passed, that goes on. -/
theorem ways_singleton (g : DependencyGraph) (root : Path) :
    g.ways (root :: g.nodes.erase root) [root] = [root] :: g.trails root := by
  rw [ways_cons, waysBy, if_pos List.mem_cons_self, List.erase_cons_head, trails]
  simp [ways]

/-- **The trails are listed.** -/
theorem mem_trails_iff (hroot : root.normalize = root) :
    trail ∈ g.trails root ↔ g.Trail root trail := by
  have hunseen : (root :: g.nodes.erase root).Nodup :=
    List.nodup_cons.mpr ⟨g.nodup_nodes.not_mem_erase, g.nodup_nodes.erase root⟩
  have hways : trail ∈ g.ways (root :: g.nodes.erase root) [root] ↔ _ :=
    mem_ways_iff hunseen (List.forall_mem_singleton.mpr hroot)
  have hone : [root] ∉ g.trails root := by
    intro hmem
    obtain ⟨way, hway, heq⟩ := List.mem_map.mp hmem
    obtain ⟨next, -, hhead⟩ := head_of_mem_ways hway
    rw [(List.cons.inj heq).2] at hhead
    cases hhead
  rw [ways_singleton, List.mem_cons] at hways
  constructor
  · intro h
    obtain ⟨⟨first, hfirst, hhead⟩, hchain, hnodup, -⟩ := hways.mp (Or.inr h)
    rw [List.mem_singleton.mp hfirst] at hhead
    refine ⟨hhead, ?_, hchain, hnodup⟩
    obtain ⟨way, rfl⟩ := List.head?_eq_some_iff.mp hhead
    cases way with
    | nil => exact absurd h hone
    | cons next way => simp
  · rintro ⟨hhead, hlong, hchain, hnodup⟩
    refine (hways.mpr
      ⟨⟨root, List.mem_singleton_self root, hhead⟩, hchain, hnodup, ?_⟩).resolve_left ?_
    · obtain ⟨way, rfl⟩ := List.head?_eq_some_iff.mp hhead
      intro file hfile
      rcases List.mem_cons.mp (List.mem_of_mem_dropLast hfile) with rfl | hway
      · exact List.mem_cons_self
      · by_cases heq : file = root
        · exact heq ▸ List.mem_cons_self
        · exact List.mem_cons_of_mem _
            ((List.mem_erase_of_ne heq).mpr (mem_nodes_of_isChain hchain file hway))
    · rintro rfl
      simp at hlong

/-- A trail that comes back to a file that it has passed does not go on. -/
theorem Trail.eq_of_closes {longer : List Path} (h : g.Trail root longer)
    (hlonger : trail <+: longer) (hcloses : closes trail = true) : longer = trail := by
  obtain ⟨more, rfl⟩ := hlonger
  rcases List.eq_nil_or_concat trail with rfl | ⟨passed, file, rfl⟩
  · cases hcloses
  rw [List.concat_eq_append, closes_concat, List.contains_iff_mem] at hcloses
  rcases List.eq_nil_or_concat more with rfl | ⟨onward, last, rfl⟩
  · exact List.append_nil _
  -- The files before the last one would hold this one twice.
  have hnodup := h.nodup
  rw [List.concat_eq_append, List.concat_eq_append, ← List.append_assoc, List.dropLast_concat]
    at hnodup
  have hboth := (List.nodup_append.mp hnodup.of_append_left).2.2
  exact absurd rfl (hboth file hcloses file (List.mem_singleton_self file))

/-! ### Main results -/

/-- **The tree of a file lists its trails**, each once and in their order. The text is the line of
the root and, for each trail, the line of its last file at the place where the trail leads to; a
trail that comes back to a file that it has passed is marked on the next line and does not go on. -/
theorem toTree_lists_trails (g : DependencyGraph) (root base : Path) :
    let trails := g.trails root.normalize
    (∀ trail, trail ∈ trails ↔ g.Trail root.normalize trail) ∧
    trails.Pairwise (fun trail other => compare trail other = .lt) ∧
    g.toTree root base =
      textOf (root.normalize.shownFrom base :: trails.flatMap (g.trailLines base)) ∧
    ∀ trail ∈ trails, closes trail = true →
      ∀ longer ∈ trails, trail <+: longer → longer = trail := by
  intro trails
  have hmem : ∀ trail, trail ∈ trails ↔ g.Trail root.normalize trail :=
    fun _ => mem_trails_iff root.normalize_normalize
  refine ⟨hmem, ?_, ?_, fun trail _ hcloses longer hlonger hstart =>
    ((hmem longer).mp hlonger).eq_of_closes hstart hcloses⟩
  · have hways : (g.ways (root.normalize :: g.nodes.erase root.normalize) [root.normalize]).Pairwise
        fun way other => compare way other = .lt := pairwise_ways (List.pairwise_singleton _ _)
    rw [ways_singleton] at hways
    exact (List.pairwise_cons.mp hways).2
  · have hseen : ∀ file ∈ g.nodes,
        file ∈ g.nodes.erase root.normalize ↔ file ∉ [root.normalize] := fun file hfile => by
      rw [g.nodup_nodes.mem_erase_iff, List.mem_singleton, and_iff_left hfile]
    have hbranches : (g.branches base (g.margin ([] ++ [root.normalize])) [root.normalize] _
        (g.searchFrom_subset root.normalize _)).1 = _ :=
      branches_eq (List.suffix_refl (g.get root.normalize)) (g.nodup_nodes.erase root.normalize)
        (fun _ => Iff.rfl) hseen
    rw [toTree, textOf_cons]
    simp only [trails, DependencyGraph.trails, List.flatMap_map]
    exact congrArg (_ ++ ·) hbranches

/-- A tree with a cycle and a file that is reached twice. -/
example :
    let g := ofOperations [.add ⟨"/v/a"⟩ ⟨"/v/b"⟩, .add ⟨"/v/a"⟩ ⟨"/v/c"⟩, .add ⟨"/v/b"⟩ ⟨"/v/a"⟩,
      .add ⟨"/v/b"⟩ ⟨"/v/c"⟩]
    g.trails ⟨"/v/a"⟩ = [[⟨"/v/a"⟩, ⟨"/v/b"⟩], [⟨"/v/a"⟩, ⟨"/v/b"⟩, ⟨"/v/a"⟩],
      [⟨"/v/a"⟩, ⟨"/v/b"⟩, ⟨"/v/c"⟩], [⟨"/v/a"⟩, ⟨"/v/c"⟩]] := by
  cbv

end DependencyGraph

end PugContracts
