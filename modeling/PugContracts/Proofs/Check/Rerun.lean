import PugContracts.Engine.Compiler
import PugContracts.Proofs.Check.Unchanged

/-!
# A run does what is needed, once

A run that may take results from the cache goes over the templates one after the other and decides
at each whether it has to be scanned. By then the cache, the graph and the disk are no longer those
at the start: each scan before has changed them. It changes the verdict on its own template only,
which is up to date from then on, however the scan ended (`needs_scanFile`). So what is processed
can be told before the run (`processed_scanNeeded`), and afterwards nothing is left to do
(`needs_scanNeeded`).

The engine may write to the disk. A second run has to find the same templates for its answer to be
the same; it is not asked of the disk that anything else is as it was. The compiler makes the
directory for its programs, and so it can make a way for a root that led nowhere
(`Checker.processed_after_compiling`).

## Main results

* `Checker.Reworks` — what a run over some templates does with the results that there are
* `Checker.scanAll_reworks` — each run does that, and a second run does nothing
-/

namespace PugContracts

namespace Cache

variable {cache : Cache} {d : Disk} {file other : Path} {engine : String}
  {errors : List TemplateError} {contract : Option Contract}

/-- A result that was just recorded is up to date. -/
theorem needs_record : (cache.record d file engine errors contract).needs file engine = false := by
  have hfind : (cache.record d file engine errors contract).find? file =
      some ⟨errors, contract, d.inputTime file, engine, false⟩ := by
    rw [find?, record, insert, PathMap.find?_insert, if_pos Std.ReflCmp.compare_self]
  rw [needs, hfind]
  exact (Bool.false_or _).trans (bne_self_eq_false engine)

/-- A template that need not be processed has a result. -/
theorem find?_of_needs_eq_false (h : cache.needs file engine = false) :
    ∃ entry, cache.find? file = some entry := by
  rw [needs] at h
  cases hfind : cache.find? file with
  | none => exact absurd h (by simp [hfind])
  | some entry => exact ⟨entry, rfl⟩

end Cache

namespace Checker

variable {checker after : Checker} {d d' : Disk} {template file : Path}
  {templates roots : List Path}

/-- **A scan leaves nothing to do** for its template, also if that could not be read or the engine
failed. -/
theorem needs_scanFile (checker : Checker) (d : Disk) (path : Path) :
    (checker.scanFile d path).2.1.cache.needs path.normalize checker.engine.name = false := by
  generalize hscan : checker.scanFile d path = scan
  obtain ⟨d', after, errors⟩ := scan
  obtain ⟨contract, hcache⟩ := cache_scanFile hscan
  show after.cache.needs _ _ = _
  rw [hcache]
  exact Cache.needs_record

/-! ### Runs over several templates -/

/-- **What a run processes can be told before it**: the templates that need it, in their order. -/
theorem processed_scanNeeded (hreuse : checker.reuse = true)
    (hnormal : ∀ template ∈ templates, template.normalize = template) (hnodup : templates.Nodup) :
    (checker.scanNeeded d templates).2.2 =
      templates.filter fun template => checker.cache.needs template checker.engine.name := by
  induction templates generalizing checker d with
  | nil => rfl
  | cons first rest ih =>
    obtain ⟨hfirst, hrest⟩ := List.forall_mem_cons.mp hnormal
    obtain ⟨hnew, hnodup⟩ := List.nodup_cons.mp hnodup
    rw [scanNeeded, hreuse, Bool.true_and]
    cases hneeds : checker.cache.needs first checker.engine.name with
    | false =>
      rw [List.filter_cons_of_neg (by simp [hneeds])]
      exact ih hreuse hrest hnodup
    | true =>
      have hstep := scanFile_step checker d first
      rw [hfirst] at hstep
      generalize checker.scanFile d first = scan at hstep
      obtain ⟨d', scanned, errors⟩ := scan
      -- No verdict on the rest depends on the scan.
      have hsame : (rest.filter fun template =>
          scanned.cache.needs template scanned.engine.name) =
          rest.filter fun template => checker.cache.needs template checker.engine.name := by
        refine List.filter_congr fun template hmem => ?_
        have hne : template ≠ first := fun heq => hnew (heq ▸ hmem)
        rw [hstep.engine, hstep.needs_of_ne hfirst (hrest template hmem) hne]
      refine (congrArg (first :: ·) (ih (hstep.reuse.trans hreuse) hrest hnodup)).trans ?_
      rw [hsame, List.filter_cons_of_pos (by simpa using hneeds)]

/-- A run leaves the results alone that are not those of templates it processes. -/
theorem find?_scanNeeded (hnormal : ∀ template ∈ templates, template.normalize = template)
    (h : ∀ template ∈ (checker.scanNeeded d templates).2.2, compare file template ≠ .eq) :
    (checker.scanNeeded d templates).2.1.cache.find? file = checker.cache.find? file := by
  induction templates generalizing checker d with
  | nil => rfl
  | cons first rest ih =>
    obtain ⟨hfirst, hrest⟩ := List.forall_mem_cons.mp hnormal
    rw [scanNeeded] at h ⊢
    split at h
    · next hfresh =>
      rw [if_pos hfresh]
      exact ih hrest h
    · next hstale =>
      have hstep := scanFile_step checker d first
      rw [hfirst] at hstep
      rw [if_neg hstale]
      generalize checker.scanFile d first = scan at *
      obtain ⟨d', scanned, errors⟩ := scan
      obtain ⟨hne, hothers⟩ := List.forall_mem_cons.mp h
      exact (ih hrest hothers).trans (hstep.find?_of_ne hne)

/-- **After a run that takes results from the cache, none of its templates needs processing.** -/
theorem needs_scanNeeded (hreuse : checker.reuse = true)
    (hnormal : ∀ template ∈ templates, template.normalize = template) (hnodup : templates.Nodup)
    (h : template ∈ templates) :
    (checker.scanNeeded d templates).2.1.cache.needs template checker.engine.name = false := by
  induction templates generalizing checker d with
  | nil => exact absurd h List.not_mem_nil
  | cons first rest ih =>
    obtain ⟨hfirst, hrest⟩ := List.forall_mem_cons.mp hnormal
    obtain ⟨hnew, hrest'⟩ := List.nodup_cons.mp hnodup
    rw [scanNeeded, hreuse, Bool.true_and]
    cases hneeds : checker.cache.needs first checker.engine.name with
    | false =>
      rcases List.mem_cons.mp h with rfl | h
      · exact (needs_scanNeeded_of_not_mem hrest hfirst hnew _).trans hneeds
      · exact ih hreuse hrest hrest' h
    | true =>
      have hstep := scanFile_step checker d first
      have hdone := needs_scanFile checker d first
      rw [hfirst] at hstep hdone
      generalize checker.scanFile d first = scan at *
      obtain ⟨d', scanned, errors⟩ := scan
      have hreuse' := hstep.reuse.trans hreuse
      rw [← hstep.engine] at hdone ⊢
      rcases List.mem_cons.mp h with rfl | h
      · exact (needs_scanNeeded_of_not_mem hrest hfirst hnew _).trans hdone
      · exact ih hreuse' hrest hrest' h

/-! ### Runs over all templates -/

/-- What a run over some templates does that takes results from the cache. -/
structure Reworks (before : Checker) (templates : List Path) (after : Checker) (report : Report) :
    Prop where
  /-- Processed are, in their order, the templates that needed it before the run. -/
  processed : report.processed =
    templates.filter fun template => before.cache.needs template before.engine.name
  /-- The results for all other files are left alone. -/
  others : ∀ file, (∀ template ∈ report.processed, compare file template ≠ .eq) →
    after.cache.find? file = before.cache.find? file
  /-- The report lists the templates, each once. -/
  listed : report.results.map Prod.fst = templates ∧ templates.Nodup
  /-- It lists with each the errors that the cache now has for it. -/
  errors : ∀ result ∈ report.results, ∃ entry, after.cache.find? result.1 = some entry ∧
    entry.errors = result.2
  /-- None of the templates needs to be processed any more. -/
  settled : ∀ template ∈ templates, after.cache.needs template after.engine.name = false

/-- What a run does with the templates that it goes over. -/
theorem reworks_scanNeeded (hreuse : checker.reuse = true)
    (hnormal : ∀ template ∈ templates, template.normalize = template) (hnodup : templates.Nodup) :
    Reworks checker templates (checker.scanNeeded d templates).2.1
      ⟨templates.map fun template =>
          (template, (checker.scanNeeded d templates).2.1.recorded template),
        (checker.scanNeeded d templates).2.2⟩ := by
  have hsettled : ∀ template ∈ templates, (checker.scanNeeded d templates).2.1.cache.needs template
      (checker.scanNeeded d templates).2.1.engine.name = false := by
    intro template hmem
    rw [(scanNeeded_keeps checker d templates).2.1]
    exact needs_scanNeeded hreuse hnormal hnodup hmem
  refine ⟨processed_scanNeeded hreuse hnormal hnodup, fun file => find?_scanNeeded hnormal,
    ⟨?_, hnodup⟩, fun result hresult => ?_, hsettled⟩
  · rw [List.map_map]
    exact List.map_id templates
  · obtain ⟨template, hmem, rfl⟩ := List.mem_map.mp hresult
    obtain ⟨entry, hentry⟩ := Cache.find?_of_needs_eq_false (hsettled template hmem)
    refine ⟨entry, hentry, ?_⟩
    rw [recorded, hentry]

/-- **A run processes what needs it, and a second run nothing.** If templates are found, the run
answers with a report and does what `Reworks` says; otherwise it fails and changes nothing. A second
run on a disk where the same templates are found answers the same, processes nothing, and changes
neither the disk nor the checker. -/
theorem scanAll_reworks {result : Except Failure Report} (hreuse : checker.reuse = true)
    (h : checker.scanAll d roots = (d', after, result)) :
    (match goesOver checker.config d roots with
      | .error failure => d' = d ∧ after = checker ∧ result = .error failure
      | .ok templates => ∃ report, result = .ok report ∧ Reworks checker templates after report) ∧
    ∀ now, now.findTemplates (checker.config.searched roots) =
        d.findTemplates (checker.config.searched roots) →
      after.scanAll now roots =
        (now, after, result.map fun report => { report with processed := [] }) := by
  have hsettings : after.config = checker.config := by
    have hkept := (scanAll_keeps checker d roots).1
    rwa [h] at hkept
  cases hover : goesOver checker.config d roots with
  | error failure =>
    obtain ⟨rfl, rfl, rfl⟩ : d = d' ∧ checker = after ∧ .error failure = result := by
      simpa using (scanAll_of_error hover).symm.trans h
    refine ⟨⟨rfl, rfl, rfl⟩, fun now hfound => scanAll_of_error ?_⟩
    rwa [goesOver, hfound, ← goesOver]
  | ok templates =>
    obtain ⟨hfound, hscan⟩ := scanAll_of_ok hover
    obtain ⟨hnormal, hnodup⟩ := normal_findTemplates hfound
    have hreworks := reworks_scanNeeded (d := d) hreuse hnormal hnodup
    obtain ⟨-, hafter, hresult⟩ : _ = d' ∧ _ = after ∧ _ = result := by
      simpa using hscan.symm.trans h
    rw [hafter] at hreworks hresult
    refine ⟨⟨_, hresult.symm, hreworks⟩, fun now hnow => ?_⟩
    have hsame : goesOver after.config now roots = goesOver checker.config d roots := by
      rw [goesOver, goesOver, hsettings, hnow]
    refine scanAll_of_fresh h ?_ rfl hsame fun others hothers => ?_
    · rw [← hafter]
      exact (scanNeeded_keeps checker d templates).2.2.1.trans hreuse
    · obtain rfl : templates = others := Except.ok.inj (hover.symm.trans hothers)
      exact hreworks.settled

/-- The checker after a run over the project with a template that is no text, of which the result
was then flagged as stale. -/
def illegibleStale : Checker :=
  { illegibleFirst with cache := illegibleFirst.cache.markStale ⟨"/v/b.pug"⟩ }

/-- The stale template is processed, with the same error as before; then nothing is. -/
theorem scanAll_reworks_illegible :
    illegibleStale.reuse = true ∧
      (illegibleStale.scanAll illegibleDisk []).2.2 =
        .ok { illegibleReport with processed := [⟨"/v/b.pug"⟩] } ∧
      (illegibleStale.scanAll illegibleDisk []).2.1.scanAll illegibleDisk [] =
        (illegibleDisk, (illegibleStale.scanAll illegibleDisk []).2.1,
          .ok { illegibleReport with processed := [] }) := by
  have hreuse : illegibleStale.reuse = true := by decide +kernel
  have hreport : (illegibleStale.scanAll illegibleDisk []).2.2 =
      .ok { illegibleReport with processed := [⟨"/v/b.pug"⟩] } := by decide +kernel
  have hscan : illegibleStale.scanAll illegibleDisk [] =
      ((illegibleStale.scanAll illegibleDisk []).1, (illegibleStale.scanAll illegibleDisk []).2.1,
        .ok { illegibleReport with processed := [⟨"/v/b.pug"⟩] }) :=
    Prod.ext rfl (Prod.ext rfl hreport)
  exact ⟨hreuse, hreport, (scanAll_reworks hreuse hscan).2 illegibleDisk rfl⟩

/-! ### A run that makes a way -/

/-- Two templates in two directories, and a compiler that finds nothing wrong. -/
def compilingDisk : Disk :=
  { detourDisk with
    entries := detourDisk.entries ++ [(⟨"/tsc"⟩, .file ⟨.text "", 7, some ⟨"", "", 0⟩⟩)] }

/-- A checker with the compiler, for which the directory that is not there is that of the
programs. -/
def compiling : Checker :=
  { detour with engine := .ofCompiler ⟨⟨"/tsc"⟩, ⟨"/"⟩, ⟨"/t"⟩, none⟩ }

/-- **A second run processes a template** on the very disk that the first one left: the compiler
made the directory for its programs, and now the second root leads somewhere. -/
theorem processed_after_compiling :
    compiling.reuse = true ∧
      (compiling.scanAll compilingDisk detourRoots).2.2 =
        .ok ⟨[(⟨"/v/a.pug"⟩, [])], [⟨"/v/a.pug"⟩]⟩ ∧
      ((compiling.scanAll compilingDisk detourRoots).2.1.scanAll
          (compiling.scanAll compilingDisk detourRoots).1 detourRoots).2.2 =
        .ok ⟨[(⟨"/o/b.pug"⟩, []), (⟨"/v/a.pug"⟩, [])], [⟨"/o/b.pug"⟩]⟩ := by
  refine ⟨rfl, ?_, ?_⟩ <;> decide +kernel

end Checker

end PugContracts
