import PugContracts.Proofs.Cache.Sweep

/-!
# Why a result is stale after a sweep

A result is stale after a sweep if there is a cause for it: it was stale, its template has changed,
or it depends on a changed input, on an evicted template, or on a template that could be read and
that was stale or has changed. Chains of dependencies are those of the graph before the sweep, and
`dependentsOf` leaves the file itself out.

One more case shows only on cycles. The dependents of a changed input are stale, and what is stale
is a cause for its own dependents. On a cycle the input is among these (`Cycles`), although no file
is its own dependent.

## Main results

* `outdated_iff_cause` — the causes of what is outdated
* `sweep_exact` — what a sweep leaves of the entries, the inputs and the graph
* `sweep_beyond_cause` — a cycle, and a template that is cached in two spellings
-/

namespace PugContracts

namespace Cache

variable {cache : Cache} {d : Disk} {g : DependencyGraph} {file : Path} {entry : CacheEntry}
  {order : List Path}

/-- The result for the file is stale after a sweep for a reason of its own. -/
inductive Cause (cache : Cache) (d : Disk) (g : DependencyGraph) (file : Path)
    (entry : CacheEntry) : Prop
  /-- It was stale before. -/
  | stale (hstale : entry.stale = true)
  /-- The time of the template differs from the recorded one. -/
  | changed (hchanged : changed d file entry = true)
  /-- It depends on a tracked input whose time differs from the recorded one. -/
  | input {input : Path} {time : Nat} (hinput : (input, time) ∈ cache.inputs.entries)
      (htime : d.inputTime input ≠ time) (haffects : g.affects input file = true)
  /-- It depends on a template that is evicted. -/
  | evicted {gone : Path} {e : CacheEntry} (he : (gone, e) ∈ cache.entries.entries)
      (hgone : d.holds gone = false) (haffects : g.affects gone file = true)
  /-- It depends on a template that stays, could be read, and was stale or has changed. -/
  | template {other : Path} {e : CacheEntry} (he : (other, e) ∈ cache.entries.entries)
      (hholds : d.holds other = true) (hcontract : e.contract.isSome = true)
      (hcause : e.stale = true ∨ Cache.changed d other e = true)
      (haffects : g.affects other file = true)

/-- The file is a changed input on a cycle through a template that stays and could be read. -/
def Cycles (cache : Cache) (d : Disk) (g : DependencyGraph) (file : Path) : Prop :=
  ∃ input ∈ cache.inputs.entries, d.inputTime input.1 ≠ input.2 ∧
    compare input.1.normalize file = .eq ∧
      ∃ other ∈ cache.entries.entries, d.holds other.1 = true ∧ other.2.contract.isSome = true ∧
        g.affects input.1 other.1 = true ∧ g.affects other.1 file = true

instance : Decidable (cache.Cycles d g file) :=
  inferInstanceAs (Decidable (∃ _ ∈ _, _))

/-- The causes, as they can be computed. -/
theorem cause_iff :
    Cause cache d g file entry ↔
      (entry.stale = true ∨ changed d file entry = true ∨ cache.inputChanged d g file = true) ∨
        ∃ other ∈ cache.entries.entries, g.affects other.1 file = true ∧
          (d.holds other.1 = false ∨ d.holds other.1 = true ∧ other.2.contract.isSome = true ∧
            (other.2.stale = true ∨ changed d other.1 other.2 = true)) := by
  constructor
  · rintro (hstale | hchanged | ⟨hinput, htime, haffects⟩ | ⟨he, hgone, haffects⟩ |
      ⟨he, hholds, hcontract, hcause, haffects⟩)
    · exact Or.inl (Or.inl hstale)
    · exact Or.inl (Or.inr (Or.inl hchanged))
    · exact Or.inl (Or.inr (Or.inr
        (inputChanged_eq_true_iff.mpr ⟨_, _, hinput, htime, haffects⟩)))
    · exact Or.inr ⟨_, he, haffects, Or.inl hgone⟩
    · exact Or.inr ⟨_, he, haffects, Or.inr ⟨hholds, hcontract, hcause⟩⟩
  · rintro ((hstale | hchanged | hinput) |
      ⟨other, he, haffects, hgone | ⟨hholds, hcontract, hcause⟩⟩)
    · exact .stale hstale
    · exact .changed hchanged
    · obtain ⟨input, time, hmem, htime, haffects⟩ := inputChanged_eq_true_iff.mp hinput
      exact .input hmem htime haffects
    · exact .evicted he hgone haffects
    · exact .template he hholds hcontract hcause haffects

instance : Decidable (Cause cache d g file entry) :=
  decidable_of_iff _ cause_iff.symm

/-- **What is outdated has a cause**, or is a changed input on a cycle. -/
theorem outdated_iff_cause :
    cache.outdated d g file entry = true ↔
      Cause cache d g file entry ∨ cache.Cycles d g file := by
  rw [outdated_eq_true_iff, flagged_eq_true_iff]
  constructor
  · rintro ((hstale | hinput | hchanged) | ⟨other, e, he, hspreads, haffects⟩)
    · exact Or.inl (.stale hstale)
    · obtain ⟨input, time, hmem, htime, haffects⟩ := inputChanged_eq_true_iff.mp hinput
      exact Or.inl (.input hmem htime haffects)
    · exact Or.inl (.changed hchanged)
    · cases hholds : d.holds other with
      | false => exact Or.inl (.evicted he hholds haffects)
      | true =>
        obtain ⟨hcontract, hflagged⟩ :=
          (spreads_eq_true_iff.mp hspreads).resolve_left (by simp [hholds])
        rcases flagged_eq_true_iff.mp hflagged with hstale | hinput | hchanged
        · exact Or.inl (.template he hholds hcontract (Or.inl hstale) haffects)
        · -- The input is followed through the template, unless the chain comes back to it.
          obtain ⟨input, time, hmem, htime, hother⟩ := inputChanged_eq_true_iff.mp hinput
          by_cases hcycle : compare input.normalize file = .eq
          · exact Or.inr ⟨(input, time), hmem, htime, hcycle, (other, e), he, hholds, hcontract,
              hother, haffects⟩
          · exact Or.inl
              (.input hmem htime (DependencyGraph.affects_trans haffects hother hcycle))
        · exact Or.inl (.template he hholds hcontract (Or.inr hchanged) haffects)
  · have hspread : ∀ {other e}, (other, e) ∈ cache.entries.entries →
        cache.spreads d g other e = true → g.affects other file = true →
          (entry.stale = true ∨ cache.inputChanged d g file = true ∨
            changed d file entry = true) ∨ ∃ other e, (other, e) ∈ cache.entries.entries ∧
              cache.spreads d g other e = true ∧ g.affects other file = true :=
      fun he hspreads haffects => Or.inr ⟨_, _, he, hspreads, haffects⟩
    rintro ((hstale | hchanged | ⟨hmem, htime, haffects⟩ | ⟨he, hgone, haffects⟩ |
      ⟨he, hholds, hcontract, hcause, haffects⟩) |
      ⟨⟨input, time⟩, hmem, htime, -, ⟨other, e⟩, he, hholds, hcontract, hother, haffects⟩)
    · exact Or.inl (Or.inl hstale)
    · exact Or.inl (Or.inr (Or.inr hchanged))
    · exact Or.inl (Or.inr (Or.inl (inputChanged_eq_true_iff.mpr ⟨_, _, hmem, htime, haffects⟩)))
    · exact hspread he (spreads_eq_true_iff.mpr (Or.inl hgone)) haffects
    · have hflagged : cache.flagged d g _ _ = true :=
        flagged_eq_true_iff.mpr (hcause.imp_right Or.inr)
      exact hspread he (spreads_eq_true_iff.mpr (Or.inr ⟨hcontract, hflagged⟩)) haffects
    · have hinput : cache.inputChanged d g other = true :=
        inputChanged_eq_true_iff.mpr ⟨input, time, hmem, htime, hother⟩
      have hflagged : cache.flagged d g other e = true :=
        flagged_eq_true_iff.mpr (Or.inr (Or.inl hinput))
      exact hspread he (spreads_eq_true_iff.mpr (Or.inr ⟨hcontract, hflagged⟩)) haffects

/-! ### Inputs -/

@[simp] theorem inputs_evictAll (cache : Cache) (g : DependencyGraph) (files : List Path) :
    (cache.evictAll g files).1.inputs = cache.inputs := by
  induction files generalizing cache g with
  | nil => rfl
  | cons file files ih =>
    show ((cache.evict g file).1.evictAll (g.clear file) files).1.inputs = _
    rw [ih, evict, erase, inputs_markAll]

/-- **The inputs after a sweep**: those that something depends on, with their times now. -/
theorem inputs_sweepInOrder (cache : Cache) (d : Disk) (g : DependencyGraph) (order : List Path) :
    (cache.sweepInOrder d g order).1.inputs =
      (cache.inputs.filter fun input _ => !(g.dependentsOf input).isEmpty).mapValues
        fun input _ => d.inputTime input := by
  simp only [sweepInOrder, markDependents, inputs_markAll, inputs_evictAll, sweepEntries,
    sweepInputs]

theorem mem_inputs_sweepInOrder {input : Path} {time : Nat} :
    (input, time) ∈ (cache.sweepInOrder d g order).1.inputs.entries ↔
      input ∈ cache.inputs.keys ∧ g.dependentsOf input ≠ [] ∧ time = d.inputTime input := by
  rw [inputs_sweepInOrder, PathMap.mem_mapValues, PathMap.mem_keys_iff]
  simp only [PathMap.mem_filter, Bool.not_eq_true', List.isEmpty_eq_false_iff]
  constructor
  · rintro ⟨recorded, ⟨hmem, hne⟩, rfl⟩
    exact ⟨⟨recorded, hmem⟩, hne, rfl⟩
  · rintro ⟨⟨recorded, hmem⟩, hne, rfl⟩
    exact ⟨recorded, ⟨hmem, hne⟩, rfl⟩

/-! ### The whole sweep -/

/-- **A sweep is exact**, whatever the order of evictions. The evicted templates are those that do
not exist. A result that stays is as before, and it is stale exactly if there is a cause or its
template is a changed input on a cycle; only for a template that is another spelling of an evicted
one there may be a cause and no flag. The inputs are those that something depends on, with their
times now. The edges that go are those of evicted templates. -/
theorem sweep_exact (cache : Cache) (d : Disk) (g : DependencyGraph) :
    cache.sweep d g = cache.sweepInOrder d g (cache.missing d) ∧
      ∀ order, order.Perm (cache.missing d) →
        (∀ file, file ∈ (cache.sweepInOrder d g order).2.2 ↔
          file ∈ cache.entries.keys ∧ d.holds file = false) ∧
        (∀ file, file ∈ (cache.sweepInOrder d g order).1.entries.keys ↔
          file ∈ cache.entries.keys ∧ d.holds file = true) ∧
        (∀ file entry, (file, entry) ∈ cache.entries.entries → d.holds file = true →
          ∃ stale, (file, { entry with stale := stale }) ∈
              (cache.sweepInOrder d g order).1.entries.entries ∧
            (stale = true → Cause cache d g file entry ∨ cache.Cycles d g file) ∧
            ((∀ gone ∈ (cache.sweepInOrder d g order).2.2, compare gone.normalize file ≠ .eq) →
              Cause cache d g file entry ∨ cache.Cycles d g file → stale = true)) ∧
        (∀ input time, (input, time) ∈ (cache.sweepInOrder d g order).1.inputs.entries ↔
          input ∈ cache.inputs.keys ∧ g.dependentsOf input ≠ [] ∧ time = d.inputTime input) ∧
        (∀ p q, (cache.sweepInOrder d g order).2.1.Edge p q ↔
          (∀ gone ∈ (cache.sweepInOrder d g order).2.2, p ≠ gone.normalize) ∧ g.Edge p q) := by
  refine ⟨cache.sweep_eq_sweepInOrder d g, fun order horder => ⟨?_, ?_, ?_, ?_, ?_⟩⟩
  · intro file
    exact horder.mem_iff.trans mem_missing_iff
  · intro file
    rw [entries_sweepInOrder g horder, PathMap.keys_mapValues, PathMap.mem_keys_filter,
      PathMap.mem_keys_iff]
    exact exists_and_right
  · intro file entry hentry hholds
    refine ⟨(entry.flag (cache.sweepFlag d g order file entry)).stale, ?_, ?_, ?_⟩
    · rw [entries_sweepInOrder g horder, PathMap.mem_mapValues]
      exact ⟨entry, PathMap.mem_filter.mpr ⟨hentry, hholds⟩, rfl⟩
    · intro hstale
      rw [CacheEntry.stale_flag, Bool.or_eq_true] at hstale
      rcases hstale with hstale | hflag
      · exact Or.inl (.stale hstale)
      · exact outdated_iff_cause.mp (outdated_of_sweepFlag horder hflag)
    · intro hspelled hcause
      have hflag := sweepFlag_of_outdated horder hspelled (outdated_iff_cause.mpr hcause)
      rw [hflag, CacheEntry.stale_flag, Bool.or_true]
  · exact fun input time => mem_inputs_sweepInOrder
  · exact fun p q => edge_evictAll

/-! ### Beyond the causes -/

/-- Two templates of time 5. -/
def pairDisk : Disk :=
  ⟨[(⟨"/a.pug"⟩, .file ⟨.text "", 5, none⟩), (⟨"/b.pug"⟩, .file ⟨.text "", 5, none⟩)], 9, none⟩

/-- The graph in which two templates depend on each other. -/
def pairGraph : DependencyGraph :=
  (DependencyGraph.empty.add ⟨"/a.pug"⟩ ⟨"/b.pug"⟩).add ⟨"/b.pug"⟩ ⟨"/a.pug"⟩

/-- A result of a template that could be read at the given time. -/
def resultAt (file : Path) (time : Nat) : CacheEntry :=
  ⟨[], some (.ofTemplate file), time, "none", false⟩

/-- A cache that is up to date, but for the input `a`. -/
def cyclicCache : Cache :=
  ((Cache.empty.insert ⟨"/a.pug"⟩ (resultAt ⟨"/a.pug"⟩ 5)).insert ⟨"/b.pug"⟩
    (resultAt ⟨"/b.pug"⟩ 5)).insertInput ⟨"/a.pug"⟩ 1

/-- A cache with a spelling of `a` under which there is no file, and with a changed `b`. -/
def respelledCache : Cache :=
  ((Cache.empty.insert ⟨"/x/../a.pug"⟩ (resultAt ⟨"/a.pug"⟩ 5)).insert ⟨"/a.pug"⟩
    (resultAt ⟨"/a.pug"⟩ 5)).insert ⟨"/b.pug"⟩ (resultAt ⟨"/b.pug"⟩ 1)

/-- **A cause is neither needed nor enough.** A changed input on a cycle is flagged without a cause
if the other template on the cycle is cached, and only then. The dependents of a changed template
are not flagged if another spelling of them is evicted. -/
theorem sweep_beyond_cause :
    ((⟨"/a.pug"⟩ ∈ (cyclicCache.sweep pairDisk pairGraph).1.staleFiles ∧
        ¬ Cause cyclicCache pairDisk pairGraph ⟨"/a.pug"⟩ (resultAt ⟨"/a.pug"⟩ 5)) ∧
      ⟨"/a.pug"⟩ ∉ ((cyclicCache.erase ⟨"/b.pug"⟩).sweep pairDisk pairGraph).1.staleFiles) ∧
    (⟨"/a.pug"⟩ ∉ (respelledCache.sweep pairDisk pairGraph).1.staleFiles ∧
      Cause respelledCache pairDisk pairGraph ⟨"/a.pug"⟩ (resultAt ⟨"/a.pug"⟩ 5)) := by
  decide +kernel

end Cache

end PugContracts
