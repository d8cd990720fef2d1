import PugContracts.Proofs.Graph.Edges

/-!
# Who depends on whom

`dependentsOf` and `dependenciesOf` are the transitive closure of the edges, without the file itself
(`mem_dependentsOf_iff`, `mem_dependenciesOf_iff`). When a file is evicted, its own edges are
cleared. A chain of edges that is broken by that passes through the file, so its start depended on
the file: `transGen_clear_or` is why nothing is lost when several files are evicted one after the
other. A graph is made of its adjacency (`edge_ofAdjacency_adjacency`).
-/

namespace PugContracts

namespace DependencyGraph

open Relation

variable {g g' : DependencyGraph} {p q file : Path} {i : Nat}

/-! ### Searching against and along the edges -/

/-- A search that leaves its start out finds what a chain of steps leads to, except the start. -/
theorem mem_others_iff {search : Nat → List Nat} {step : Nat → Nat → Prop}
    (hsearch : ∀ {i}, i ∈ g.graph.nodes → ∀ {j}, j ∈ search i ↔ ReflTransGen step i j) :
    q ∈ g.searchFrom p (fun start => (search start).filter (· != start)) ↔
      q ≠ p.normalize ∧ ∃ i j, g.graph.weight? i = some p.normalize ∧
        g.graph.weight? j = some q ∧ TransGen step i j := by
  rw [mem_searchFrom_iff]
  constructor
  · rintro ⟨i, j, hj, hi, hq⟩
    obtain ⟨hj, hne⟩ := List.mem_filter.mp hj
    have hne : j ≠ i := bne_iff_ne.mp hne
    have hchain := (hsearch (mem_nodes_of_weight? hi)).mp hj
    refine ⟨fun heq => hne (weight?_inj (heq ▸ hq) hi), i, j, hi, hq, ?_⟩
    exact (reflTransGen_iff_eq_or_transGen.mp hchain).resolve_left hne
  · rintro ⟨hne, i, j, hi, hq, hchain⟩
    refine ⟨i, j, List.mem_filter.mpr ⟨?_, bne_iff_ne.mpr ?_⟩, hi, hq⟩
    · exact (hsearch (mem_nodes_of_weight? hi)).mpr hchain.to_reflTransGen
    · rintro rfl
      exact hne (Option.some.inj (hq.symm.trans hi))

/-- **The dependents of a file** are the other files from which a chain of edges leads to it. -/
theorem mem_dependentsOf_iff :
    q ∈ g.dependentsOf p ↔ q ≠ p.normalize ∧ TransGen g.Edge q p.normalize := by
  have habove : ∀ {i}, i ∈ g.graph.nodes → ∀ {j}, j ∈ g.graph.above i ↔
      ReflTransGen (Function.swap g.graph.Arc) i j := fun hi _ =>
    (NumberedGraph.mem_above_iff g.bounded hi).trans reflTransGen_swap.symm
  rw [dependentsOf, mem_others_iff habove, transGen_iff, exists_comm]
  simp only [transGen_swap, and_left_comm]

/-- **The dependencies of a file** are the other files to which a chain of edges leads from it. -/
theorem mem_dependenciesOf_iff :
    q ∈ g.dependenciesOf p ↔ q ≠ p.normalize ∧ TransGen g.Edge p.normalize q := by
  rw [dependenciesOf, mem_others_iff fun hi _ => NumberedGraph.mem_below_iff g.bounded hi,
    transGen_iff]

/-- One of two files depends on the other if the other is among its dependencies. -/
theorem mem_dependentsOf_of_mem_dependenciesOf (hp : p.normalize = p)
    (h : q ∈ g.dependenciesOf p) : p ∈ g.dependentsOf q := by
  rw [mem_dependenciesOf_iff, hp] at h
  rw [mem_dependentsOf_iff, right_normal_of_transGen h.2]
  exact ⟨fun heq => h.1 heq.symm, h.2⟩

/-- With more edges there are more dependents. -/
theorem mem_dependentsOf_mono (hedge : ∀ a b, g.Edge a b → g'.Edge a b)
    (h : q ∈ g.dependentsOf p) : q ∈ g'.dependentsOf p := by
  rw [mem_dependentsOf_iff] at h ⊢
  exact ⟨h.1, TransGen.mono hedge _ _ h.2⟩

/-! ### Clearing -/

/-- **A chain that is broken by clearing a file leads to the file.** -/
theorem transGen_clear_or (hp : p ≠ file.normalize) (h : TransGen g.Edge p q) :
    TransGen (g.clear file).Edge p q ∨ TransGen g.Edge p file.normalize := by
  induction h using TransGen.head_induction_on with
  | single h => exact Or.inl (.single (edge_clear.mpr ⟨hp, h⟩))
  | @head a c h _ ih =>
    by_cases hc : c = file.normalize
    · exact Or.inr (hc ▸ .single h)
    · exact (ih hc).imp (.head (edge_clear.mpr ⟨hp, h⟩)) (.head h)

/-- A file that was cleared depends on nothing. -/
theorem get_clear (g : DependencyGraph) (file : Path) : (g.clear file).get file = [] := by
  refine List.eq_nil_iff_forall_not_mem.mpr fun dependency h => ?_
  exact (edge_clear.mp (mem_get_iff.mp h)).1 rfl

/-- A dependent that clearing a file takes away was one of the file. -/
theorem mem_dependentsOf_clear_or (hq : q ≠ file.normalize) (h : q ∈ g.dependentsOf p) :
    q ∈ (g.clear file).dependentsOf p ∨ q ∈ g.dependentsOf file := by
  rw [mem_dependentsOf_iff] at h
  rw [mem_dependentsOf_iff, mem_dependentsOf_iff]
  exact (transGen_clear_or hq h.2).imp (⟨h.1, ·⟩) (⟨hq, ·⟩)

/-! ### Other spellings

Templates need not be known by normal paths. One that is spelled in another way counts as a
dependent if it has the components of one. -/

/-- The template is a dependent of the file, up to its spelling. -/
def affects (g : DependencyGraph) (file template : Path) : Bool :=
  (g.dependentsOf file).any fun dependent => compare dependent template == .eq

theorem affects_iff :
    g.affects file p = true ↔ ∃ dependent ∈ g.dependentsOf file, compare dependent p = .eq := by
  simp [affects]

theorem affects_of_mem (h : p ∈ g.dependentsOf file) : g.affects file p = true :=
  affects_iff.mpr ⟨p, h, Std.ReflCmp.compare_self⟩

/-- For a template that is known by its normal path, the spelling makes no difference. -/
theorem affects_iff_mem (hp : p.normalize = p) :
    g.affects file p = true ↔ p ∈ g.dependentsOf file := by
  constructor
  · intro h
    obtain ⟨dependent, hdependent, heq⟩ := affects_iff.mp h
    have hnormal := left_normal_of_transGen (mem_dependentsOf_iff.mp hdependent).2
    rw [← (Path.compare_eq_iff hnormal hp).mp heq]
    exact hdependent
  · exact affects_of_mem

theorem affects_trans {other : Path} (h : g.affects p q = true) (hp : g.affects other p = true)
    (hne : compare other.normalize q ≠ .eq) : g.affects other q = true := by
  obtain ⟨dependent, hdependent, heq⟩ := affects_iff.mp h
  obtain ⟨between, hbetween, heq'⟩ := affects_iff.mp hp
  obtain ⟨_, hchain⟩ := mem_dependentsOf_iff.mp hdependent
  obtain ⟨_, hchain'⟩ := mem_dependentsOf_iff.mp hbetween
  have hnormal : p.normalize = between := by
    rw [← Path.normalize_eq_of_compare heq', left_normal_of_transGen hchain']
  rw [hnormal] at hchain
  refine affects_iff.mpr ⟨dependent, mem_dependentsOf_iff.mpr ⟨?_, hchain.trans hchain'⟩, heq⟩
  rintro rfl
  exact hne heq

theorem affects_mono (hedge : ∀ a b, g.Edge a b → g'.Edge a b) (h : g.affects q p = true) :
    g'.affects q p = true := by
  obtain ⟨dependent, hdependent, heq⟩ := affects_iff.mp h
  exact affects_iff.mpr ⟨dependent, mem_dependentsOf_mono hedge hdependent, heq⟩

theorem affects_of_clear (h : (g.clear file).affects q p = true) : g.affects q p = true :=
  affects_mono (fun _ _ h => (edge_clear.mp h).2) h

/-- A dependent that clearing a file takes away was one of the file, unless it is the file. -/
theorem affects_clear_or (hp : compare file.normalize p ≠ .eq) (h : g.affects q p = true) :
    (g.clear file).affects q p = true ∨ g.affects file p = true := by
  obtain ⟨dependent, hdependent, heq⟩ := affects_iff.mp h
  have hne : dependent ≠ file.normalize := by
    rintro rfl
    exact hp heq
  refine (mem_dependentsOf_clear_or hne hdependent).imp ?_ ?_
  · exact fun hkept => affects_iff.mpr ⟨dependent, hkept, heq⟩
  · exact fun hlost => affects_iff.mpr ⟨dependent, hlost, heq⟩

/-! ### Adjacency -/

/-- The edges after all dependencies of a file were added. -/
theorem edge_foldl_add (g : DependencyGraph) (file : Path) (dependencies : List Path) :
    (dependencies.foldl (fun g dependency => g.add file dependency) g).Edge p q ↔
      g.Edge p q ∨
        ∃ dependency ∈ dependencies, (p, q) = (file.normalize, dependency.normalize) := by
  induction dependencies generalizing g with
  | nil => simp
  | cons dependency rest ih =>
    rw [List.foldl_cons, ih, edge_add, List.exists_mem_cons_iff, or_left_comm, or_assoc]

/-- The edges of the graph with a given adjacency. -/
theorem edge_ofAdjacency (adjacency : List (Path × List Path)) :
    (ofAdjacency adjacency).Edge p q ↔
      ∃ entry ∈ adjacency, ∃ dependency ∈ entry.2,
        (p, q) = (entry.1.normalize, dependency.normalize) := by
  have hall : ∀ g : DependencyGraph, (adjacency.foldl (fun g entry =>
      entry.2.foldl (fun g dependency => g.add entry.1 dependency) g) g).Edge p q ↔
        g.Edge p q ∨ ∃ entry ∈ adjacency, ∃ dependency ∈ entry.2,
          (p, q) = (entry.1.normalize, dependency.normalize) := by
    induction adjacency with
    | nil => simp
    | cons entry rest ih =>
      intro g
      rw [List.foldl_cons, ih, edge_foldl_add, List.exists_mem_cons_iff, or_assoc]
  have hempty : ¬ empty.Edge p q := List.not_mem_nil
  rw [ofAdjacency, hall, or_iff_right hempty]

/-- What is listed for a node is its file with what this depends on. -/
theorem listing?_eq_some_iff {entry : Path × List Path} : g.listing? i = some entry ↔
    g.graph.weight? i = some entry.1 ∧ entry.2 ≠ [] ∧ entry.2 = g.get entry.1 := by
  obtain ⟨file, dependencies⟩ := entry
  have hget : ∀ {file}, g.graph.weight? i = some file →
      g.get file = g.files (g.graph.successors i) := fun {file} hi => by
    rw [get, searchFrom, node?_eq_some_iff.mpr ((normal_of_weight? hi).symm ▸ hi)]
  rw [listing?]
  split
  · next other first rest hi hfirst =>
    rw [Option.some.injEq, Prod.mk.injEq, hi, Option.some.injEq]
    refine and_congr_right fun heq => ?_
    dsimp only at heq ⊢
    rw [← heq, hget hi, hfirst]
    constructor
    · rintro rfl
      exact ⟨List.cons_ne_nil _ _, rfl⟩
    · rintro ⟨-, hsame⟩
      exact hsame.symm
  · next hnone =>
    refine iff_of_false (Option.some_ne_none _).symm ?_
    rintro ⟨hi, hne, heq⟩
    obtain ⟨first, rest, hfirst⟩ := List.exists_cons_of_ne_nil hne
    exact hnone _ _ _ hi ((hget hi).symm.trans (heq.symm.trans hfirst))

theorem increasing_adjacency (g : DependencyGraph) :
    Path.Increasing (g.adjacency.map Prod.fst) :=
  List.pairwise_map.mpr (PathMap.ordered _)

/-- **The adjacency** lists each file from which an edge leads, with its direct dependencies. -/
theorem mem_adjacency_iff {entry : Path × List Path} :
    entry ∈ g.adjacency ↔ (∃ q, g.Edge entry.1 q) ∧ entry.2 = g.get entry.1 := by
  have hentry : ∀ {entry}, entry ∈ g.graph.nodes.filterMap g.listing? ↔
      ∃ i ∈ g.graph.nodes, g.graph.weight? i = some entry.1 ∧ entry.2 ≠ [] ∧
        entry.2 = g.get entry.1 := by
    intro entry
    rw [List.mem_filterMap]
    simp only [listing?_eq_some_iff]
  have hnormal : ∀ file ∈ (g.graph.nodes.filterMap g.listing?).map Prod.fst,
      file.normalize = file := by
    intro file hfile
    obtain ⟨entry, hmem, rfl⟩ := List.mem_map.mp hfile
    obtain ⟨_, -, hi, -⟩ := hentry.mp hmem
    exact normal_of_weight? hi
  have hnodup : ((g.graph.nodes.filterMap g.listing?).map Prod.fst).Nodup := by
    rw [List.Nodup, List.pairwise_map, List.pairwise_filterMap]
    refine List.Pairwise.imp ?_ List.nodup_range
    intro i j hne entry hi other hj heq
    exact hne (weight?_inj (listing?_eq_some_iff.mp hi).1 (heq ▸ (listing?_eq_some_iff.mp hj).1))
  rw [adjacency, PathMap.mem_ofList hnormal hnodup, hentry]
  constructor
  · rintro ⟨i, -, hi, hne, hget⟩
    obtain ⟨q, hq⟩ := List.exists_mem_of_ne_nil _ hne
    have hedge := mem_get_iff.mp (hget ▸ hq)
    rw [normal_of_weight? hi] at hedge
    exact ⟨⟨q, hedge⟩, hget⟩
  · rintro ⟨⟨q, hedge⟩, hget⟩
    obtain ⟨i, _, -, hi, -⟩ := edge_iff.mp hedge
    have hq : q ∈ g.get entry.1 := mem_get_iff.mpr (hedge.left_normal.symm ▸ hedge)
    exact ⟨i, mem_nodes_of_weight? hi, hi, hget ▸ List.ne_nil_of_mem hq, hget⟩

/-- Graphs with the same edges have the same adjacency. -/
theorem adjacency_congr (h : ∀ p q, g.Edge p q ↔ g'.Edge p q) : g.adjacency = g'.adjacency := by
  refine Path.eq_of_pairwise_compare Prod.fst (List.pairwise_map.mp g.increasing_adjacency)
    (List.pairwise_map.mp g'.increasing_adjacency) fun entry => ?_
  rw [mem_adjacency_iff, mem_adjacency_iff, get_congr (h entry.1.normalize)]
  simp only [h]

/-- **A graph has the edges of its adjacency.** -/
theorem edge_ofAdjacency_adjacency : (ofAdjacency g.adjacency).Edge p q ↔ g.Edge p q := by
  rw [edge_ofAdjacency]
  constructor
  · rintro ⟨entry, hentry, dependency, hdependency, heq⟩
    obtain ⟨⟨_, hedge⟩, hget⟩ := mem_adjacency_iff.mp hentry
    have hdependency := mem_get_iff.mp (hget ▸ hdependency)
    rw [hedge.left_normal] at hdependency
    rw [hedge.left_normal, hdependency.right_normal] at heq
    obtain ⟨rfl, rfl⟩ := Prod.mk.inj heq
    exact hdependency
  · intro h
    refine ⟨(p, g.get p), mem_adjacency_iff.mpr ⟨⟨q, h⟩, rfl⟩, q, ?_, ?_⟩
    · rw [mem_get_iff, h.left_normal]
      exact h
    · rw [h.left_normal, h.right_normal]

end DependencyGraph

end PugContracts
