import PugContracts.Proofs.Cache.Sweep
import PugContracts.Proofs.Disk.Write

/-!
# When the change of one file is noticed

A sweep looks at the times of two sorts of files: the templates with results, and the inputs that
are tracked. A file that a template depends on need not be among them: inputs are the files that a
scanned template names itself, and what these name in turn is tracked only if it is scanned too.
`watches` says which files the cache looks at to some effect, and `stale_sweep_iff_watches` that the
change of a file is noticed by what depends on it if and only if the cache watches the file.
-/

namespace PugContracts

open Disk

namespace Cache

variable {cache : Cache} {d d' : Disk} {g : DependencyGraph} {file template : Path}
  {entry : CacheEntry} {engine : String}

/-- The cache notices when the file changes: it is a tracked input, or a template that could be
read. -/
def watches (cache : Cache) (file : Path) : Bool :=
  (cache.inputs.find? file).isSome ||
    (cache.find? file).any fun entry => entry.contract.isSome

/-! ### Results after a sweep -/

theorem mem_staleFiles_iff :
    template ∈ cache.staleFiles ↔
      ∃ entry, (template, entry) ∈ cache.entries.entries ∧ entry.stale = true :=
  PathMap.mem_keys_filter

theorem mem_sweep_iff (hnormal : cache.entries.Normal)
    (hentry : (template, entry) ∈ cache.entries.entries) {swept : CacheEntry} :
    (template, swept) ∈ (cache.sweep d g).1.entries.entries ↔
      d.holds template = true ∧ entry.flag (cache.outdated d g template entry) = swept := by
  rw [entries_sweep hnormal, PathMap.mem_mapValues]
  constructor
  · rintro ⟨found, hfound, rfl⟩
    obtain ⟨hfound, hholds⟩ := PathMap.mem_filter.mp hfound
    rw [PathMap.eq_of_mem hfound hentry]
    exact ⟨hholds, rfl⟩
  · rintro ⟨hholds, rfl⟩
    exact ⟨entry, PathMap.mem_filter.mpr ⟨hentry, hholds⟩, rfl⟩

/-- The flag of a result after a sweep says whether it is outdated. -/
theorem stale_flag_outdated :
    (entry.flag (cache.outdated d g template entry)).stale =
      cache.outdated d g template entry := by
  rw [CacheEntry.stale_flag, outdated, flagged]
  cases entry.stale <;> simp

/-- A result is stale after a sweep if its template exists and the result is outdated. -/
theorem mem_staleFiles_sweep_iff (hnormal : cache.entries.Normal)
    (hentry : (template, entry) ∈ cache.entries.entries) :
    template ∈ (cache.sweep d g).1.staleFiles ↔
      d.holds template = true ∧ cache.outdated d g template entry = true := by
  rw [mem_staleFiles_iff]
  constructor
  · rintro ⟨swept, hswept, hstale⟩
    obtain ⟨hholds, rfl⟩ := (mem_sweep_iff hnormal hentry).mp hswept
    rw [stale_flag_outdated] at hstale
    exact ⟨hholds, hstale⟩
  · rintro ⟨hholds, houtdated⟩
    have hswept := (mem_sweep_iff (g := g) hnormal hentry).mpr ⟨hholds, rfl⟩
    refine ⟨_, hswept, ?_⟩
    rw [stale_flag_outdated]
    exact houtdated

/-- A result need not be made again after a sweep if its template exists, the same engine made it,
and it is not outdated. -/
theorem needs_sweep_eq_false_iff (hnormal : cache.entries.Normal)
    (hentry : (template, entry) ∈ cache.entries.entries) :
    (cache.sweep d g).1.needs template engine = false ↔
      d.holds template = true ∧ cache.outdated d g template entry = false ∧
        entry.engine = engine := by
  have htemplate : template.normalize = template := hnormal.of_mem hentry
  have hswept : (cache.sweep d g).1.entries.Normal := by
    rw [entries_sweep hnormal]
    exact (hnormal.filter _).mapValues _
  have hfind : ∀ swept, (cache.sweep d g).1.find? template = some swept ↔
      d.holds template = true ∧ entry.flag (cache.outdated d g template entry) = swept := by
    intro swept
    rw [find?, hswept.find?_eq_some_iff htemplate, mem_sweep_iff hnormal hentry]
  rw [needs]
  cases hholds : d.holds template with
  | false =>
    cases hfound : (cache.sweep d g).1.find? template with
    | none => simp
    | some swept => exact absurd ((hfind swept).mp hfound).1 (by simp [hholds])
  | true =>
    rw [(hfind _).mpr ⟨hholds, rfl⟩]
    simp only [stale_flag_outdated, CacheEntry.engine_flag, Bool.or_eq_false_iff,
      bne_eq_false_iff_eq, true_and]

/-! ### One file changes -/

theorem watches_iff (hnormal : cache.Normal) (hfile : file.normalize = file) :
    cache.watches file = true ↔
      (∃ time, (file, time) ∈ cache.inputs.entries) ∨
        ∃ entry, (file, entry) ∈ cache.entries.entries ∧ entry.contract.isSome = true := by
  rw [watches, Bool.or_eq_true, Option.isSome_iff_exists, Option.any_eq_true]
  simp only [find?, hnormal.inputs.find?_eq_some_iff hfile, hnormal.entries.find?_eq_some_iff hfile]

/-- What depends on a tracked input with another time is outdated. -/
theorem outdated_of_inputTime {time : Nat} (hinput : (file, time) ∈ cache.inputs.entries)
    (htime : d.inputTime file ≠ time) (hdependent : template ∈ g.dependentsOf file) :
    cache.outdated d g template entry = true := by
  have hchanged : cache.inputChanged d g template = true :=
    inputChanged_eq_true_iff.mpr
      ⟨file, time, hinput, htime, DependencyGraph.affects_of_mem hdependent⟩
  exact outdated_eq_true_iff.mpr (Or.inl (flagged_eq_true_iff.mpr (Or.inr (Or.inl hchanged))))

/-- What depends on a template with another time is outdated, if the template could be read. -/
theorem outdated_of_modified {e : CacheEntry} {time : Nat}
    (he : (file, e) ∈ cache.entries.entries) (hcontract : e.contract.isSome = true)
    (hmodified : d.modified file = .ok time) (htime : time ≠ e.time)
    (hdependent : template ∈ g.dependentsOf file) :
    cache.outdated d g template entry = true := by
  have hflagged : cache.flagged d g file e = true :=
    flagged_eq_true_iff.mpr (Or.inr (Or.inr (changed_eq_true_iff.mpr ⟨time, hmodified, htime⟩)))
  exact outdated_eq_true_iff.mpr (Or.inr ⟨file, e, he,
    spreads_eq_true_iff.mpr (Or.inr ⟨hcontract, hflagged⟩),
    DependencyGraph.affects_of_mem hdependent⟩)

/-- The change of a file that is watched is noticed by what was up to date before it. -/
theorem outdated_of_watches (hnormal : cache.Normal) (htouched : Touched d d' file)
    (hfile : file.normalize = file) (hwatches : cache.watches file = true)
    (hdependent : template ∈ g.dependentsOf file)
    (hfresh : cache.outdated d g template entry = false) :
    cache.outdated d' g template entry = true := by
  obtain ⟨before, after, hbefore, hafter, hne⟩ := htouched.time
  have hnot : ¬ cache.outdated d g template entry = true := by rw [hfresh]; decide
  rcases (watches_iff hnormal hfile).mp hwatches with ⟨time, hinput⟩ | ⟨e, he, hcontract⟩
  · have hsame : d.inputTime file = time := by
      by_contra htime
      exact hnot (outdated_of_inputTime hinput htime hdependent)
    refine outdated_of_inputTime hinput ?_ hdependent
    rw [← hsame, inputTime, inputTime, hafter, hbefore]
    exact hne
  · have hsame : before = e.time := by
      by_contra htime
      exact hnot (outdated_of_modified he hcontract hbefore htime hdependent)
    exact outdated_of_modified he hcontract hafter (hsame ▸ hne) hdependent

/-- Without the file among the inputs, its change makes no difference for other templates before the
evictions. -/
theorem flagged_eq_of_not_input (hnormal : cache.Normal) (htouched : Touched d d' file)
    (hinput : ∀ time, (file, time) ∉ cache.inputs.entries) (htemplate : template.normalize ≠ file) :
    cache.flagged d' g template entry = cache.flagged d g template entry := by
  have htime : ∀ input time, (input, time) ∈ cache.inputs.entries →
      d'.inputTime input = d.inputTime input := by
    intro input time hmem
    have hne : input.normalize ≠ file := by
      rw [hnormal.inputs.of_mem hmem]
      rintro rfl
      exact hinput time hmem
    rw [inputTime, inputTime, htouched.others input hne]
  have hinputs : cache.inputChanged d' g template = cache.inputChanged d g template := by
    rw [Bool.eq_iff_iff, inputChanged_eq_true_iff, inputChanged_eq_true_iff]
    refine exists₂_congr fun input time => and_congr_right fun hmem => ?_
    rw [htime input time hmem]
  have hchanged : changed d' template entry = changed d template entry := by
    rw [changed, changed, htouched.others template htemplate]
  rw [flagged, flagged, hinputs, hchanged]

/-- The change of a file that is not watched makes no difference for other templates. -/
theorem outdated_eq_of_not_watches (hnormal : cache.Normal) (htouched : Touched d d' file)
    (hfile : file.normalize = file) (hwatches : ¬ cache.watches file = true)
    (htemplate : template.normalize ≠ file) :
    cache.outdated d' g template entry = cache.outdated d g template entry := by
  rw [watches_iff hnormal hfile, not_or, not_exists, not_exists] at hwatches
  obtain ⟨hinput, hcontract⟩ := hwatches
  have hspreads : ∀ other e, (other, e) ∈ cache.entries.entries →
      cache.spreads d' g other e = cache.spreads d g other e := by
    intro other e he
    rw [spreads, spreads, htouched.holds]
    by_cases hother : other = file
    · subst hother
      have hnone : e.contract.isSome = false := by simpa using fun h => hcontract e ⟨he, h⟩
      rw [hnone, Bool.false_and, Bool.false_and]
    · rw [flagged_eq_of_not_input hnormal htouched hinput
        (by rw [hnormal.entries.of_mem he]; exact hother)]
  rw [Bool.eq_iff_iff, outdated_eq_true_iff, outdated_eq_true_iff,
    flagged_eq_of_not_input hnormal htouched hinput htemplate]
  refine or_congr_right (exists₂_congr fun other e => and_congr_right fun he => ?_)
  rw [hspreads other e he]

/-- **A change is noticed by what depends on the file if and only if the file is watched.** -/
theorem outdated_iff_watches (hnormal : cache.Normal) (htouched : Touched d d' file)
    (hfile : file.normalize = file) (hdependent : template ∈ g.dependentsOf file)
    (hfresh : cache.outdated d g template entry = false) :
    cache.outdated d' g template entry = true ↔ cache.watches file = true := by
  constructor
  · intro houtdated
    by_contra hwatches
    have hne : template.normalize ≠ file := by
      obtain ⟨hne, hchain⟩ := DependencyGraph.mem_dependentsOf_iff.mp hdependent
      rw [DependencyGraph.left_normal_of_transGen hchain, ← hfile]
      exact hne
    rw [outdated_eq_of_not_watches hnormal htouched hfile hwatches hne, hfresh] at houtdated
    exact absurd houtdated (by decide)
  · intro hwatches
    exact outdated_of_watches hnormal htouched hfile hwatches hdependent hfresh

/-- **A sweep after a change flags the result for what depends on the file if and only if the file
is watched**, and then only does the result have to be made again. -/
theorem stale_sweep_iff_watches (hnormal : cache.Normal)
    (hentry : (template, entry) ∈ cache.entries.entries) (htouched : Touched d d' file)
    (hfile : file.normalize = file) (hdependent : template ∈ g.dependentsOf file)
    (hfresh : (cache.sweep d g).1.needs template engine = false) :
    (template ∈ (cache.sweep d' g).1.staleFiles ↔ cache.watches file = true) ∧
      ((cache.sweep d' g).1.needs template engine = true ↔ cache.watches file = true) := by
  obtain ⟨hholds, hbefore, hengine⟩ := (needs_sweep_eq_false_iff hnormal.entries hentry).mp hfresh
  have hexists : d'.holds template = true := by rw [htouched.holds, hholds]
  have houtdated := outdated_iff_watches hnormal htouched hfile hdependent hbefore
  constructor
  · rw [mem_staleFiles_sweep_iff hnormal.entries hentry, ← houtdated]
    exact and_iff_right hexists
  · rw [← houtdated, ← Bool.not_eq_false, ← Bool.not_eq_false, not_iff_not,
      needs_sweep_eq_false_iff hnormal.entries hentry]
    constructor
    · exact fun h => h.2.1
    · exact fun h => ⟨hexists, h, hengine⟩

end Cache

end PugContracts
