import PugContracts.Proofs.Cache.Change

/-!
# A cache that is up to date

A sweep compares the times that the cache keeps with those on the disk. Where they are the same, and
all templates are there, it flags nothing and evicts nothing (`Current.sweep`). What it may forget
are inputs that nothing else depends on.
-/

namespace PugContracts

namespace Disk

variable {d : Disk} {p : Path}

/-- When what a path leads to was changed, if it leads to anything. -/
def timeOf? (d : Disk) (p : Path) : Option Nat :=
  (d.modified p).toOption

theorem inputTime_eq (d : Disk) (p : Path) : d.inputTime p = (d.timeOf? p).getD 0 := by
  rw [inputTime, timeOf?]
  cases d.modified p <;> rfl

theorem modified_eq_ok_iff {time : Nat} : d.modified p = .ok time ↔ d.timeOf? p = some time := by
  rw [timeOf?]
  cases d.modified p <;> simp [Except.toOption]

theorem holds_eq (d : Disk) (p : Path) : d.holds p = (d.timeOf? p).isSome := by
  rw [holds, timeOf?, modified]
  rcases d.entry p with _ | _ | _ <;> rfl

/-- A file that is there was changed at some time. -/
theorem timeOf?_of_isFile (h : d.isFile p = true) : d.timeOf? p = some (d.inputTime p) := by
  obtain ⟨found, hfound⟩ := exists_file h
  have htime := modified_eq_ok_iff.mp (modified_of_file hfound)
  rw [inputTime_eq, htime]
  rfl

end Disk

namespace Cache

variable {cache : Cache} {d : Disk} {g : DependencyGraph} {file : Path} {entry : CacheEntry}

/-- All results are up to date: none is stale, and the times of templates and inputs are those on
the disk. -/
structure Current (cache : Cache) (d : Disk) : Prop where
  /-- No result is stale. -/
  fresh : ∀ {file entry}, (file, entry) ∈ cache.entries.entries → entry.stale = false
  /-- The templates are there, and have their times. -/
  entries : ∀ {file entry}, (file, entry) ∈ cache.entries.entries →
    d.timeOf? file = some entry.time
  /-- The inputs have their times. -/
  inputs : ∀ {file time}, (file, time) ∈ cache.inputs.entries → d.inputTime file = time

theorem Current.flagged (h : cache.Current d) (g : DependencyGraph)
    (hentry : (file, entry) ∈ cache.entries.entries) : cache.flagged d g file entry = false := by
  rw [Bool.eq_false_iff, Ne, flagged_eq_true_iff]
  rintro (hstale | hinput | hchanged)
  · rw [h.fresh hentry] at hstale
    exact absurd hstale Bool.false_eq_true.mp
  · obtain ⟨input, time, hmem, hne, -⟩ := inputChanged_eq_true_iff.mp hinput
    exact hne (h.inputs hmem)
  · obtain ⟨time, hmodified, hne⟩ := changed_eq_true_iff.mp hchanged
    rw [Disk.modified_eq_ok_iff, h.entries hentry] at hmodified
    exact hne (Option.some.inj hmodified).symm

/-- No result is stale. -/
theorem Current.staleFiles (h : cache.Current d) : cache.staleFiles = [] :=
  PathMap.keys_filter_eq_nil fun _ hentry => h.fresh hentry

/-- **A sweep of a cache that is up to date** keeps all results as they are and evicts nothing. -/
theorem Current.sweep (h : cache.Current d) (g : DependencyGraph) :
    (cache.sweep d g).1.entries = cache.entries ∧ (cache.sweep d g).2 = (g, []) := by
  have hentries : ((cache.sweepInputs d g).sweepEntries d).entries = cache.entries := by
    rw [entries_before_evictions]
    refine PathMap.mapValues_eq_self fun entry hentry => ?_
    rw [h.flagged g hentry, CacheEntry.flag_false]
  have hmissing : ((cache.sweepInputs d g).sweepEntries d).missing d = [] := by
    rw [missing, hentries]
    refine PathMap.keys_filter_eq_nil fun entry hentry => ?_
    rw [Disk.holds_eq, h.entries hentry]
    rfl
  have hspreads : (cache.entries.filter fun _ entry => entry.stale && entry.contract.isSome).keys =
      [] := by
    refine PathMap.keys_filter_eq_nil fun entry hentry => ?_
    rw [h.fresh hentry, Bool.false_and]
  rw [Cache.sweep]
  dsimp only
  rw [hmissing]
  generalize (cache.sweepInputs d g).sweepEntries d = swept at *
  show (swept.markDependents g).entries = _ ∧ _
  rw [markDependents, hentries, hspreads]
  exact ⟨hentries, rfl⟩

end Cache

end PugContracts
