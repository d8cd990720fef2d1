import PugContracts.Cache.Basic
import PugContracts.Proofs.Graph.Dependents

/-!
# What a sweep does

A sweep goes through the cache in several rounds: changed inputs, changed templates, evictions, and
last the dependents of what is stale by then. Each round looks at the graph that the evictions
before it have left. The result does not depend on that: it is one pass over the entries, with a
condition that is about the graph before the sweep alone (`outdated`).

The exception are templates that are cached in several spellings: with one of them the edges of all
go. Where templates are known by normal paths (`Normal`) that cannot happen.

## Main results

* `entries_evictAll`, `edge_evictAll` — what a list of evictions leaves
* `outdated_of_sweepFlag`, `sweepFlag_of_outdated` — what is flagged, whatever the order of
  evictions
* `entries_sweep` — the entries after a sweep of templates that are known by normal paths
-/

namespace PugContracts

open Relation

/-! ### Flags -/

namespace CacheEntry

/-- The entry, flagged as stale if there is a reason. -/
def flag (entry : CacheEntry) (reason : Bool) : CacheEntry :=
  { entry with stale := entry.stale || reason }

variable (entry : CacheEntry) (reason reason' : Bool)

@[simp] theorem stale_flag : (entry.flag reason).stale = (entry.stale || reason) := rfl

@[simp] theorem contract_flag : (entry.flag reason).contract = entry.contract := rfl

@[simp] theorem engine_flag : (entry.flag reason).engine = entry.engine := rfl

@[simp] theorem flag_false : entry.flag false = entry := by
  rw [flag, Bool.or_false]

@[simp] theorem flag_flag : (entry.flag reason).flag reason' = entry.flag (reason || reason') := by
  rw [flag, flag, flag, Bool.or_assoc]

/-- An entry that is stale is flagged already. -/
@[simp] theorem flag_stale_or : entry.flag (entry.stale || reason) = entry.flag reason := by
  rw [flag, flag, ← Bool.or_assoc, Bool.or_self]

end CacheEntry

namespace Cache

variable {cache : Cache} {d : Disk} {g : DependencyGraph} {file : Path} {files : List Path}

/-- Templates and inputs are known by normal paths. -/
structure Normal (cache : Cache) : Prop where
  /-- The templates are. -/
  entries : cache.entries.Normal
  /-- The inputs are. -/
  inputs : cache.inputs.Normal

/-- The entry for a file, up to its spelling, is flagged. -/
theorem entries_markStale (cache : Cache) (file : Path) :
    (cache.markStale file).entries =
      cache.entries.mapValues fun key entry => entry.flag (compare file key == .eq) := by
  simp only [markStale, PathMap.modify]
  refine PathMap.mapValues_congr fun entry _ => ?_
  by_cases h : compare file entry.1 = .eq
  · rw [if_pos h, h, CacheEntry.flag, beq_self_eq_true, Bool.or_true]
  · rw [if_neg h, beq_eq_false_iff_ne.mpr h, CacheEntry.flag_false]

@[simp] theorem inputs_markAll (cache : Cache) (files : List Path) :
    (cache.markAll files).inputs = cache.inputs := by
  induction files generalizing cache with
  | nil => rfl
  | cons file files ih => exact ih (cache.markStale file)

theorem entries_markAll (cache : Cache) (files : List Path) :
    (cache.markAll files).entries =
      cache.entries.mapValues fun key entry =>
        entry.flag (files.any fun file => compare file key == .eq) := by
  induction files generalizing cache with
  | nil => simp [markAll, PathMap.mapValues]
  | cons file files ih =>
    show ((cache.markStale file).markAll files).entries = _
    rw [ih, entries_markStale, PathMap.mapValues_mapValues]
    simp only [CacheEntry.flag_flag, List.any_cons]

/-- The dependents of some files are flagged. -/
theorem entries_markAll_dependents (cache : Cache) (g : DependencyGraph) (files : List Path) :
    (cache.markAll (files.flatMap g.dependentsOf)).entries =
      cache.entries.mapValues fun key entry =>
        entry.flag (files.any fun file => g.affects file key) := by
  rw [entries_markAll]
  simp only [List.any_flatMap, DependencyGraph.affects]

/-! ### Changed inputs and changed templates -/

/-- The template has changed since its result was recorded. -/
def changed (d : Disk) (file : Path) (entry : CacheEntry) : Bool :=
  match d.modified file with
  | .ok time => time != entry.time
  | .error _ => false

theorem changed_eq_true_iff {entry : CacheEntry} :
    changed d file entry = true ↔ ∃ time, d.modified file = .ok time ∧ time ≠ entry.time := by
  rw [changed]
  cases d.modified file <;> simp

theorem entries_sweepEntries (cache : Cache) (d : Disk) :
    (cache.sweepEntries d).entries =
      cache.entries.mapValues fun file entry => entry.flag (changed d file entry) := by
  simp only [sweepEntries]
  refine PathMap.mapValues_congr fun entry _ => ?_
  rw [changed]
  cases d.modified entry.1 with
  | ok time => by_cases h : time = entry.2.time <;> simp [h, CacheEntry.flag]
  | error _ => exact entry.2.flag_false.symm

/-- An input has changed on which the template depends. -/
def inputChanged (cache : Cache) (d : Disk) (g : DependencyGraph) (file : Path) : Bool :=
  cache.inputs.entries.any fun input =>
    d.inputTime input.1 != input.2 && g.affects input.1 file

theorem inputChanged_eq_true_iff :
    cache.inputChanged d g file = true ↔ ∃ input time,
      (input, time) ∈ cache.inputs.entries ∧ d.inputTime input ≠ time ∧
        g.affects input file = true := by
  simp [inputChanged]

theorem entries_sweepInputs (cache : Cache) (d : Disk) (g : DependencyGraph) :
    (cache.sweepInputs d g).entries =
      cache.entries.mapValues fun file entry => entry.flag (cache.inputChanged d g file) := by
  rw [sweepInputs, entries_markAll_dependents]
  refine PathMap.mapValues_congr fun entry _ => ?_
  congr 1
  rw [inputChanged, Bool.eq_iff_iff]
  simp only [PathMap.keys, PathMap.filter, List.any_eq_true, List.mem_map, List.mem_filter,
    Bool.and_eq_true]
  constructor
  · rintro ⟨_, ⟨input, ⟨⟨hinput, _⟩, htime⟩, rfl⟩, haffects⟩
    exact ⟨input, hinput, htime, haffects⟩
  · rintro ⟨input, hinput, htime, haffects⟩
    obtain ⟨dependent, hdependent, _⟩ := DependencyGraph.affects_iff.mp haffects
    have hne := List.ne_nil_of_mem hdependent
    exact ⟨input.1, ⟨input, ⟨⟨hinput, by simp [hne]⟩, htime⟩, rfl⟩, haffects⟩

/-- What a result is stale for before anything is evicted: it was stale, its template has changed,
or an input has changed on which the template depends. -/
def flagged (cache : Cache) (d : Disk) (g : DependencyGraph) (file : Path) (entry : CacheEntry) :
    Bool :=
  entry.stale || (cache.inputChanged d g file || changed d file entry)

theorem flagged_eq_true_iff {entry : CacheEntry} :
    cache.flagged d g file entry = true ↔
      entry.stale = true ∨ cache.inputChanged d g file = true ∨ changed d file entry = true := by
  rw [flagged, Bool.or_eq_true, Bool.or_eq_true]

theorem stale_or_flagged (entry : CacheEntry) :
    (entry.stale || cache.flagged d g file entry) = cache.flagged d g file entry := by
  rw [flagged, ← Bool.or_assoc, Bool.or_self]

/-- The entries before the evictions of a sweep. -/
theorem entries_before_evictions (cache : Cache) (d : Disk) (g : DependencyGraph) :
    ((cache.sweepInputs d g).sweepEntries d).entries =
      cache.entries.mapValues fun file entry => entry.flag (cache.flagged d g file entry) := by
  rw [entries_sweepEntries, entries_sweepInputs, PathMap.mapValues_mapValues]
  refine PathMap.mapValues_congr fun entry _ => ?_
  rw [flagged, CacheEntry.flag_stale_or, CacheEntry.flag_flag]
  rfl

/-! ### Evictions -/

theorem entries_evict (cache : Cache) (g : DependencyGraph) (file : Path) :
    (cache.evict g file).1.entries =
      (cache.entries.filter fun key _ => !(compare file key == .eq)).mapValues fun key entry =>
        entry.flag (g.affects file key) := by
  simp only [evict, erase, PathMap.erase, entries_markAll, PathMap.filter_mapValues]
  rfl

/-- One of the files affects the template at its turn, when those before it are cleared. -/
def affectsInTurn (g : DependencyGraph) : List Path → Path → Bool
  | [], _ => false
  | file :: files, template =>
    g.affects file template || affectsInTurn (g.clear file) files template

/-- **What evictions leave of the entries**: those of files that stay, flagged if they depended on
an evicted one at its turn. -/
theorem entries_evictAll (cache : Cache) (g : DependencyGraph) (files : List Path) :
    (cache.evictAll g files).1.entries =
      (cache.entries.filter fun key _ => !files.any fun file => compare file key == .eq).mapValues
        fun key entry => entry.flag (affectsInTurn g files key) := by
  induction files generalizing cache g with
  | nil => simp [evictAll, affectsInTurn, PathMap.mapValues, PathMap.filter]
  | cons file files ih =>
    show ((cache.evict g file).1.evictAll (g.clear file) files).1.entries = _
    rw [ih, entries_evict, PathMap.filter_mapValues, PathMap.mapValues_mapValues,
      PathMap.filter_filter]
    simp only [CacheEntry.flag_flag, List.any_cons, Bool.not_or, affectsInTurn]

/-- **What evictions leave of the graph** are the edges of files that stay. -/
theorem edge_evictAll {p q : Path} :
    (cache.evictAll g files).2.Edge p q ↔ (∀ file ∈ files, p ≠ file.normalize) ∧ g.Edge p q := by
  induction files generalizing cache g with
  | nil => simp [evictAll]
  | cons file files ih =>
    show ((cache.evict g file).1.evictAll (g.clear file) files).2.Edge p q ↔ _
    rw [ih, DependencyGraph.edge_clear, List.forall_mem_cons]
    tauto

theorem affects_of_evictAll {p q : Path} (h : (cache.evictAll g files).2.affects p q = true) :
    g.affects p q = true := by
  induction files generalizing cache g with
  | nil => exact h
  | cons file files ih =>
    exact DependencyGraph.affects_of_clear (@ih (cache.evict g file).1 (g.clear file) h)

/-- What depends on a file after evictions is no evicted file. -/
theorem compare_ne_of_affects_evictAll {p q : Path}
    (h : (cache.evictAll g files).2.affects p q = true) :
    ∀ file ∈ files, compare file.normalize q ≠ .eq := by
  intro file hfile heq
  obtain ⟨dependent, hdependent, hsame⟩ := DependencyGraph.affects_iff.mp h
  obtain ⟨_, hedge, _⟩ :=
    TransGen.head'_iff.mp (DependencyGraph.mem_dependentsOf_iff.mp hdependent).2
  refine (edge_evictAll.mp hedge).1 file hfile ?_
  rw [← hedge.left_normal, Path.normalize_eq_of_compare hsame,
    ← Path.normalize_eq_of_compare heq, Path.normalize_normalize]

/-- A dependent that evictions take away was one of an evicted file, unless it is evicted. -/
theorem affects_evictAll_or {p q : Path} (hq : ∀ file ∈ files, compare file.normalize q ≠ .eq)
    (h : g.affects p q = true) :
    (cache.evictAll g files).2.affects p q = true ∨ ∃ file ∈ files, g.affects file q = true := by
  induction files generalizing cache g with
  | nil => exact Or.inl h
  | cons file files ih =>
    obtain ⟨hfile, hrest⟩ := List.forall_mem_cons.mp hq
    rcases DependencyGraph.affects_clear_or hfile h with h | h
    · rcases @ih (cache.evict g file).1 (g.clear file) hrest h with h | ⟨other, hother, h⟩
      · exact Or.inl h
      · exact Or.inr ⟨other, List.mem_cons_of_mem _ hother, DependencyGraph.affects_of_clear h⟩
    · exact Or.inr ⟨file, List.mem_cons_self, h⟩

theorem exists_affects_of_affectsInTurn {q : Path} (h : affectsInTurn g files q = true) :
    ∃ file ∈ files, g.affects file q = true := by
  induction files generalizing g with
  | nil => exact absurd h (by simp [affectsInTurn])
  | cons file files ih =>
    rw [affectsInTurn, Bool.or_eq_true] at h
    rcases h with h | h
    · exact ⟨file, List.mem_cons_self, h⟩
    · obtain ⟨other, hother, h⟩ := ih h
      exact ⟨other, List.mem_cons_of_mem _ hother, DependencyGraph.affects_of_clear h⟩

/-- **The order of evictions makes no difference**: that a file may be cleared before another one is
evicted loses no dependent of the other one. -/
theorem affectsInTurn_of_affects {q : Path} (hq : ∀ file ∈ files, compare file.normalize q ≠ .eq)
    (h : ∃ file ∈ files, g.affects file q = true) : affectsInTurn g files q = true := by
  induction files generalizing g with
  | nil =>
    obtain ⟨_, hfile, _⟩ := h
    exact absurd hfile List.not_mem_nil
  | cons file files ih =>
    obtain ⟨hfile, hrest⟩ := List.forall_mem_cons.mp hq
    rw [affectsInTurn, Bool.or_eq_true]
    obtain ⟨other, hother, h⟩ := h
    rcases List.mem_cons.mp hother with rfl | hother
    · exact Or.inl h
    · rcases DependencyGraph.affects_clear_or hfile h with h | h
      · exact Or.inr (ih hrest ⟨other, hother, h⟩)
      · exact Or.inl h

/-! ### The whole sweep -/

/-- The dependents of the template are flagged: it is evicted, or it could be read and its result is
flagged before the evictions. -/
def spreads (cache : Cache) (d : Disk) (g : DependencyGraph) (file : Path) (entry : CacheEntry) :
    Bool :=
  !d.holds file || (entry.contract.isSome && cache.flagged d g file entry)

/-- What a result is stale for after a sweep. -/
def outdated (cache : Cache) (d : Disk) (g : DependencyGraph) (file : Path) (entry : CacheEntry) :
    Bool :=
  cache.flagged d g file entry || cache.entries.entries.any fun other =>
    cache.spreads d g other.1 other.2 && g.affects other.1 file

theorem spreads_eq_true_iff {entry : CacheEntry} :
    cache.spreads d g file entry = true ↔
      d.holds file = false ∨
        entry.contract.isSome = true ∧ cache.flagged d g file entry = true := by
  rw [spreads, Bool.or_eq_true, Bool.and_eq_true, Bool.not_eq_true']

theorem outdated_eq_true_iff {entry : CacheEntry} :
    cache.outdated d g file entry = true ↔
      cache.flagged d g file entry = true ∨ ∃ other e, (other, e) ∈ cache.entries.entries ∧
        cache.spreads d g other e = true ∧ g.affects other file = true := by
  simp [outdated]

/-- The templates that are evicted do not exist. -/
theorem mem_missing_iff :
    file ∈ cache.missing d ↔ file ∈ cache.entries.keys ∧ d.holds file = false := by
  rw [missing, PathMap.mem_keys_filter, PathMap.mem_keys_iff]
  simp only [Bool.not_eq_true']
  exact exists_and_right

theorem missing_before_evictions (cache : Cache) (d : Disk) (g : DependencyGraph) :
    ((cache.sweepInputs d g).sweepEntries d).missing d = cache.missing d := by
  rw [missing, missing, entries_before_evictions, PathMap.filter_mapValues, PathMap.keys_mapValues]

/-! ### In any order -/

/-- A sweep that evicts the given templates one after the other. -/
def sweepInOrder (cache : Cache) (d : Disk) (g : DependencyGraph) (order : List Path) :
    Cache × DependencyGraph × List Path :=
  let rest := ((cache.sweepInputs d g).sweepEntries d).evictAll g order
  (rest.1.markDependents rest.2, rest.2, order)

/-- A sweep evicts the templates that do not exist in the order in which they are cached. -/
theorem sweep_eq_sweepInOrder (cache : Cache) (d : Disk) (g : DependencyGraph) :
    cache.sweep d g = cache.sweepInOrder d g (cache.missing d) := by
  rw [sweep]
  dsimp only
  rw [missing_before_evictions]
  rfl

variable {order : List Path}

/-- The entries after the evictions of a sweep. -/
theorem entries_after_evictions (g : DependencyGraph) (horder : order.Perm (cache.missing d)) :
    (((cache.sweepInputs d g).sweepEntries d).evictAll g order).1.entries =
      (cache.entries.filter fun file _ => d.holds file).mapValues fun file entry =>
        entry.flag (cache.flagged d g file entry || affectsInTurn g order file) := by
  have hfilter : (cache.entries.filter fun file _ =>
      !order.any fun gone => compare gone file == .eq) =
        cache.entries.filter fun file _ => d.holds file := by
    refine PathMap.filter_congr fun entry hentry => ?_
    have hkey : entry.1 ∈ cache.entries.keys := List.mem_map_of_mem hentry
    rw [Bool.eq_iff_iff, Bool.not_eq_true', ← Bool.not_eq_true, List.any_eq_true,
      ← Bool.not_eq_false (d.holds entry.1), not_iff_not]
    constructor
    · rintro ⟨gone, hgone, heq⟩
      obtain ⟨hcached, hholds⟩ := mem_missing_iff.mp (horder.mem_iff.mp hgone)
      rw [← PathMap.eq_of_compare_keys hcached hkey (beq_iff_eq.mp heq)]
      exact hholds
    · intro hholds
      exact ⟨entry.1, horder.mem_iff.mpr (mem_missing_iff.mpr ⟨hkey, hholds⟩),
        beq_iff_eq.mpr Std.ReflCmp.compare_self⟩
  rw [entries_evictAll, entries_before_evictions, PathMap.filter_mapValues,
    PathMap.mapValues_mapValues, hfilter]
  exact PathMap.mapValues_congr fun entry _ => CacheEntry.flag_flag _ _ _

/-- What a sweep flags a result for, with the graph that each of its rounds sees. -/
def sweepFlag (cache : Cache) (d : Disk) (g : DependencyGraph) (order : List Path) (file : Path)
    (entry : CacheEntry) : Bool :=
  cache.flagged d g file entry || affectsInTurn g order file ||
    cache.entries.entries.any fun other =>
      d.holds other.1 && other.2.contract.isSome &&
        (cache.flagged d g other.1 other.2 || affectsInTurn g order other.1) &&
        (cache.sweepInOrder d g order).2.1.affects other.1 file

theorem sweepFlag_eq_true_iff {entry : CacheEntry} :
    cache.sweepFlag d g order file entry = true ↔
      cache.flagged d g file entry = true ∨ affectsInTurn g order file = true ∨
        ∃ other e, (other, e) ∈ cache.entries.entries ∧ d.holds other = true ∧
          e.contract.isSome = true ∧
          (cache.flagged d g other e = true ∨ affectsInTurn g order other = true) ∧
          (cache.sweepInOrder d g order).2.1.affects other file = true := by
  simp [sweepFlag, or_assoc, and_assoc]

/-- **The entries after a sweep, round by round.** -/
theorem entries_sweepInOrder (g : DependencyGraph) (horder : order.Perm (cache.missing d)) :
    (cache.sweepInOrder d g order).1.entries =
      (cache.entries.filter fun file _ => d.holds file).mapValues fun file entry =>
        entry.flag (cache.sweepFlag d g order file entry) := by
  have hentries := entries_after_evictions g horder
  simp only [sweepFlag, sweepInOrder]
  generalize ((cache.sweepInputs d g).sweepEntries d).evictAll g order = rest at *
  rw [markDependents, entries_markAll_dependents, hentries, PathMap.mapValues_mapValues]
  refine PathMap.mapValues_congr fun ⟨file, entry⟩ hentry => ?_
  rw [CacheEntry.flag_flag]
  refine congrArg entry.flag ?_
  congr 1
  rw [Bool.eq_iff_iff, List.any_eq_true, List.any_eq_true]
  simp only [PathMap.filter_mapValues, PathMap.keys_mapValues, PathMap.filter_filter,
    PathMap.mem_keys_filter, CacheEntry.stale_flag, CacheEntry.contract_flag, ← Bool.or_assoc,
    stale_or_flagged, Bool.and_eq_true]
  constructor
  · rintro ⟨root, ⟨e, he, hholds, hflag, hcontract⟩, haffects⟩
    exact ⟨(root, e), he, ⟨⟨hholds, hcontract⟩, hflag⟩, haffects⟩
  · rintro ⟨⟨root, e⟩, he, ⟨⟨hholds, hcontract⟩, hflag⟩, haffects⟩
    exact ⟨root, ⟨e, he, hholds, hflag, hcontract⟩, haffects⟩

/-- The dependents of an evicted template are outdated. -/
theorem outdated_of_affects_missing {entry : CacheEntry} {gone : Path}
    (hgone : gone ∈ cache.missing d) (haffects : g.affects gone file = true) :
    cache.outdated d g file entry = true := by
  obtain ⟨hkey, hholds⟩ := mem_missing_iff.mp hgone
  obtain ⟨e, he⟩ := PathMap.mem_keys_iff.mp hkey
  exact outdated_eq_true_iff.mpr
    (Or.inr ⟨gone, e, he, spreads_eq_true_iff.mpr (Or.inl hholds), haffects⟩)

/-- **A sweep flags only what is outdated.** A chain of dependents that starts at an evicted
template and goes on through one that was flagged for it leads to the evicted template itself. -/
theorem outdated_of_sweepFlag {entry : CacheEntry} (horder : order.Perm (cache.missing d))
    (h : cache.sweepFlag d g order file entry = true) : cache.outdated d g file entry = true := by
  rcases sweepFlag_eq_true_iff.mp h with
    hflagged | hturn | ⟨other, e, he, -, hcontract, hcause, haffects⟩
  · exact outdated_eq_true_iff.mpr (Or.inl hflagged)
  · obtain ⟨gone, hgone, haffects⟩ := exists_affects_of_affectsInTurn hturn
    exact outdated_of_affects_missing (horder.mem_iff.mp hgone) haffects
  · rcases hcause with hflagged | hturn
    · exact outdated_eq_true_iff.mpr (Or.inr ⟨other, e, he,
        spreads_eq_true_iff.mpr (Or.inr ⟨hcontract, hflagged⟩), affects_of_evictAll haffects⟩)
    · obtain ⟨gone, hgone, hother⟩ := exists_affects_of_affectsInTurn hturn
      exact outdated_of_affects_missing (horder.mem_iff.mp hgone) (DependencyGraph.affects_trans
        (affects_of_evictAll haffects) hother (compare_ne_of_affects_evictAll haffects gone hgone))

/-- **A sweep flags all that is outdated**, unless an evicted template is another spelling of it. -/
theorem sweepFlag_of_outdated {entry : CacheEntry} (horder : order.Perm (cache.missing d))
    (hspelled : ∀ gone ∈ order, compare gone.normalize file ≠ .eq)
    (h : cache.outdated d g file entry = true) : cache.sweepFlag d g order file entry = true := by
  have hturn : ∀ gone ∈ order, g.affects gone file = true →
      cache.sweepFlag d g order file entry = true := fun gone hgone haffects =>
    sweepFlag_eq_true_iff.mpr
      (Or.inr (Or.inl (affectsInTurn_of_affects hspelled ⟨gone, hgone, haffects⟩)))
  rcases outdated_eq_true_iff.mp h with hflagged | ⟨other, e, he, hspreads, haffects⟩
  · exact sweepFlag_eq_true_iff.mpr (Or.inl hflagged)
  · cases hholds : d.holds other with
    | false =>
      have hother := mem_missing_iff.mpr ⟨List.mem_map_of_mem he, hholds⟩
      exact hturn other (horder.mem_iff.mpr hother) haffects
    | true =>
      obtain ⟨hcontract, hflagged⟩ :=
        (spreads_eq_true_iff.mp hspreads).resolve_left (by simp [hholds])
      rcases affects_evictAll_or hspelled haffects with hkept | ⟨gone, hgone, hlost⟩
      · exact sweepFlag_eq_true_iff.mpr
          (Or.inr (Or.inr ⟨other, e, he, hholds, hcontract, Or.inl hflagged, hkept⟩))
      · exact hturn gone hgone hlost

/-- **The entries after a sweep** of templates that are known by normal paths: those of templates
that exist, flagged if they are outdated. -/
theorem entries_sweep (hnormal : cache.entries.Normal) (d : Disk) (g : DependencyGraph) :
    (cache.sweep d g).1.entries =
      (cache.entries.filter fun file _ => d.holds file).mapValues fun file entry =>
        entry.flag (cache.outdated d g file entry) := by
  have horder := List.Perm.refl (cache.missing d)
  rw [sweep_eq_sweepInOrder, entries_sweepInOrder g horder]
  refine PathMap.mapValues_congr fun ⟨file, entry⟩ hentry => ?_
  obtain ⟨hmem, hholds⟩ := PathMap.mem_filter.mp hentry
  have hspelled : ∀ gone ∈ cache.missing d, compare gone.normalize file ≠ .eq := by
    intro gone hgone heq
    obtain ⟨hkey, hmissing⟩ := mem_missing_iff.mp hgone
    rw [hnormal gone hkey, Path.compare_eq_iff (hnormal gone hkey) (hnormal.of_mem hmem)] at heq
    rw [heq, hholds] at hmissing
    exact absurd hmissing (by decide)
  exact congrArg entry.flag (Bool.eq_iff_iff.mpr
    ⟨outdated_of_sweepFlag horder, sweepFlag_of_outdated horder hspelled⟩)

end Cache

end PugContracts
