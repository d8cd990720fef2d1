import PugContracts.Proofs.Check.Reload
import PugContracts.Proofs.Check.Settle

/-!
# Notifying a checker of changes

A checker is `Consistent` with a disk if each of its results is the one that a new checker finds
there. When a file changes, `notifyChanged` scans the file and whatever depended on it. That makes
the results right again if the graph held what they depend on (`Tracked`), and if the change shows
in the graph (`Change`). The shared locals are read once, when a checker is made: the results are
those of a checker that was made before the change.

## Main results

* `consistent_of_notified` — a checker that is notified of all changes is always consistent
* `consistent_notifyChanged` — a notification of a change makes any checker consistent again
* `change_put` — a file that is modified in place shows in the graph
* `checks_of_answer`, `checks_scripted` — which engines have a verdict
-/

namespace PugContracts

namespace Checker

variable {config : Config} {engine : Engine} {fresh checker : Checker}
  {verdict : Program → List TemplateError} {d d' : Disk} {template path : Path}
  {pending : Set Path}

/-! ### Consistency -/

/-- Each result for a template that is there is the one that another checker finds. -/
def Matches (fresh checker : Checker) (d : Disk) : Prop :=
  ∀ template entry, (template, entry) ∈ checker.cache.entries.entries →
    d.isFile template = true →
      (fresh.scanFile d template).2.1.cache.find? template = some entry

/-- The results are those that a new checker finds. -/
def Consistent (checker : Checker) (d : Disk) : Prop :=
  ∃ fresh, new d checker.config checker.engine = .ok fresh ∧ Matches fresh checker d

/-- What the results depend on is known. -/
structure Tracked (checker : Checker) (d : Disk) : Prop where
  /-- The shared locals are those of the disk. -/
  shared : loadShared d checker.config = .ok checker.shared
  /-- The graph holds the rest. -/
  recorded : ∀ template ∈ checker.cache.entries.keys, d.isFile template = true →
    Recorded checker d template

/-- The checker without results is the new one if the shared locals are those of the disk. -/
theorem new_blank_iff :
    new d checker.config checker.engine = .ok checker.blank ↔
      loadShared d checker.config = .ok checker.shared :=
  new_eq_ok_iff.trans (and_iff_left rfl)

/-- A new checker finds the result for a template. -/
theorem find?_scanFile (hengine : Checks checker.engine verdict) (d : Disk)
    (htemplate : template.normalize = template) :
    (checker.scanFile d template).2.1.cache.find? template =
      some (checker.result verdict d template) := by
  obtain ⟨graph, asked, hscan, -⟩ := scanFile_spec (hengine d) htemplate
  rw [hscan, Cache.find?, Cache.insert, PathMap.find?_insert, if_pos Std.ReflCmp.compare_self]

theorem Kept.matches (hengine : Checks fresh.engine verdict)
    (h : Kept fresh verdict d ∅ checker) : Matches fresh checker d := by
  intro template entry hentry hisFile
  rw [find?_scanFile hengine d (h.normal.entries.of_mem hentry),
    (h.settled template entry hentry hisFile (Set.notMem_empty _)).1]

/-- With nothing pending the checker is consistent, if the shared locals are those of the disk. -/
theorem Kept.consistent (hengine : Checks fresh.engine verdict)
    (h : Kept fresh verdict d ∅ checker)
    (hshared : loadShared d fresh.config = .ok fresh.shared) :
    Consistent checker d ∧ Tracked checker d := by
  have hmatches := h.matches hengine
  obtain ⟨rfl, hnormal, hsettled⟩ := h
  refine ⟨⟨checker.blank, new_blank_iff.mpr hshared, hmatches⟩, hshared,
    fun template hcached hisFile => ?_⟩
  obtain ⟨entry, hentry⟩ := PathMap.mem_keys_iff.mp hcached
  exact (hsettled template entry hentry hisFile (Set.notMem_empty _)).2

/-- A consistent checker of which the dependencies are known has nothing pending. -/
theorem Consistent.kept (hconsistent : Consistent checker d) (htracked : Tracked checker d)
    (hengine : Checks checker.engine verdict) (hnormal : checker.cache.Normal) :
    Kept checker.blank verdict d ∅ checker := by
  obtain ⟨fresh, hnew, hmatches⟩ := hconsistent
  have hblank := new_blank_iff.mpr htracked.shared
  obtain rfl : checker.blank = fresh := Except.ok.inj (hblank.symm.trans hnew)
  have hengine : Checks checker.blank.engine verdict := hengine
  refine ⟨rfl, hnormal, fun template entry hentry hisFile _ => ⟨?_, ?_⟩⟩
  · have hfound := hmatches template entry hentry hisFile
    rw [find?_scanFile hengine d (hnormal.entries.of_mem hentry)] at hfound
    exact (Option.some.inj hfound).symm
  · exact htracked.recorded template (PathMap.mem_keys_iff.mpr ⟨entry, hentry⟩) hisFile

/-! ### Histories -/

/-- The checker comes from a new one by runs and notifications, on whatever disks. -/
inductive Reached (config : Config) (engine : Engine) : Checker → Prop
  /-- It is new. -/
  | new {d : Disk} {checker : Checker} (h : Checker.new d config engine = .ok checker) :
      Reached config engine checker
  /-- It has scanned all templates below some roots. -/
  | scanAll {checker : Checker} (h : Reached config engine checker) (d : Disk)
      (roots : List Path) : Reached config engine (checker.scanAll d roots).2.1
  /-- It was notified of a change. -/
  | notifyChanged {checker : Checker} (h : Reached config engine checker) (d : Disk)
      (path : Path) : Reached config engine (checker.notifyChanged d path).2.1

/-- The checker was notified of each change since it was new, and right after it. -/
inductive Notified (config : Config) (engine : Engine) : Disk → Checker → Prop
  /-- It is new. -/
  | new {d : Disk} {checker : Checker} (h : Checker.new d config engine = .ok checker) :
      Notified config engine d checker
  /-- It has scanned all templates below some roots. -/
  | scanAll {d : Disk} {checker : Checker} (h : Notified config engine d checker)
      (roots : List Path) : Notified config engine d (checker.scanAll d roots).2.1
  /-- It was notified of a change, which was not one of the shared locals. -/
  | notifyChanged {d d' : Disk} {checker : Checker} (h : Notified config engine d checker)
      (path : Path) (hchange : Change checker d d' path.normalize)
      (hshared : loadShared d' config = loadShared d config) :
      Notified config engine d' (checker.notifyChanged d' path).2.1

/-- Runs and notifications keep the settings and the engine, and templates are known by normal
paths. -/
theorem normal_of_reached (hengine : Checks engine verdict) (h : Reached config engine checker) :
    checker.config = config ∧ checker.engine = engine ∧ checker.cache.Normal := by
  -- The invariant with everything pending, which holds on any disk.
  have hkept : ∃ shared, ∀ d, Kept ⟨config, .empty, .empty, engine, shared, true, []⟩ verdict d
      Set.univ checker := by
    induction h with
    | @new d checker h =>
      obtain ⟨-, heq⟩ := new_eq_ok_iff.mp h
      rw [heq]
      exact ⟨_, fun _ => kept_univ_iff.mpr ⟨rfl, Cache.normal_empty⟩⟩
    | @scanAll checker h d roots ih =>
      obtain ⟨shared, ih⟩ := ih
      exact ⟨shared, fun _ => kept_univ_iff.mpr (kept_univ_iff.mp ((ih d).scanAll hengine roots))⟩
    | @notifyChanged checker h d path ih =>
      obtain ⟨shared, ih⟩ := ih
      have hbefore := (ih d).mono (show Set.univ ⊆ insert path.normalize
        ({p | p ∈ checker.graph.dependentsOf path.normalize} ∪ Set.univ) from
          fun _ _ => Or.inr (Or.inr trivial))
      have hafter := hbefore.notifyChanged hengine fun _ _ hnot => absurd (Set.mem_univ _) hnot
      exact ⟨shared, fun _ => kept_univ_iff.mpr (kept_univ_iff.mp hafter)⟩
  obtain ⟨shared, hkept⟩ := hkept
  obtain ⟨hblank, hnormal⟩ := kept_univ_iff.mp (hkept (Disk.blank 0))
  have hconfig : checker.blank.config = config := congrArg Checker.config hblank
  have hsame : checker.blank.engine = engine := congrArg Checker.engine hblank
  exact ⟨hconfig, hsame, hnormal⟩

/-! ### Notifications -/

/-- A checker that is notified of every change is always right. -/
theorem consistent_of_notified (hengine : Checks engine verdict)
    (h : Notified config engine d checker) : Consistent checker d ∧ Tracked checker d := by
  have hkept : ∃ shared, loadShared d config = .ok shared ∧
      Kept ⟨config, .empty, .empty, engine, shared, true, []⟩ verdict d ∅ checker := by
    induction h with
    | @new d checker h =>
      obtain ⟨hshared, heq⟩ := new_eq_ok_iff.mp h
      rw [heq]
      exact ⟨_, hshared, rfl, Cache.normal_empty, fun _ _ hentry => absurd hentry List.not_mem_nil⟩
    | @scanAll d checker h roots ih =>
      obtain ⟨shared, hshared, hkept⟩ := ih
      exact ⟨shared, hshared, hkept.scanAll hengine roots⟩
    | @notifyChanged d d' checker h path hchange hsame ih =>
      obtain ⟨shared, hshared, hkept⟩ := ih
      exact ⟨shared, hsame.trans hshared, hkept.notified hengine hchange⟩
  obtain ⟨shared, hshared, hkept⟩ := hkept
  exact hkept.consistent hengine hshared

/-- **A notification makes the results right again.** A checker that is notified of every change has
the right results and knows what they depend on. And whatever the history of a checker, if it is
like that before a change, then its results after the notification are those of a checker that was
made before the change: they are right on the new disk if the shared locals are the same. -/
theorem consistent_notifyChanged (hengine : Checks engine verdict) :
    (∀ d checker, Notified config engine d checker → Consistent checker d ∧ Tracked checker d) ∧
      ∀ checker d d' path, Reached config engine checker → Consistent checker d →
        Tracked checker d → Change checker d d' path.normalize →
          (∀ fresh, new d config engine = .ok fresh →
            Matches fresh (checker.notifyChanged d' path).2.1 d') ∧
          (loadShared d' config = loadShared d config →
            Consistent (checker.notifyChanged d' path).2.1 d' ∧
              Tracked (checker.notifyChanged d' path).2.1 d') := by
  refine ⟨fun d checker => consistent_of_notified hengine, ?_⟩
  intro checker d d' path hreached hconsistent htracked hchange
  obtain ⟨rfl, rfl, hnormal⟩ := normal_of_reached hengine hreached
  have hblank : Checks checker.blank.engine verdict := hengine
  have hafter := (hconsistent.kept htracked hengine hnormal).notified hblank hchange
  refine ⟨fun fresh hnew => ?_, fun hshared => ?_⟩
  · obtain rfl : checker.blank = fresh :=
      Except.ok.inj ((new_blank_iff.mpr htracked.shared).symm.trans hnew)
    exact hafter.matches hblank
  · exact hafter.consistent hblank (hshared.trans htracked.shared)

/-! ### Engines -/

/-- An engine whose answer is a function of the program has a verdict, if it spells the file of the
program in one way: whether another spelling means the file is looked up on the disk. -/
theorem checks_of_answer {answer : Program → Except Failure (List EngineDiagnostic)}
    (hcheck : ∀ d program, engine.check d program = (d, answer program))
    (hspelling : ∀ program diagnostics, answer program = .ok diagnostics →
      ∀ diagnostic ∈ diagnostics,
        diagnostic.file.same (engine.programFile program.template) = true ∨
          diagnostic.file.normalize ≠ (engine.programFile program.template).normalize) :
    Checks engine fun program => (typeErrors engine (.blank 0) program).2 := by
  intro d program
  show typeErrors engine d program = (d, (typeErrors engine (.blank 0) program).2)
  have hsame : ∀ d diagnostics, answer program = .ok diagnostics → ∀ diagnostic ∈ diagnostics,
      EngineDiagnostic.sameFile d diagnostic.file (engine.programFile program.template) =
        diagnostic.file.same (engine.programFile program.template) := by
    intro d diagnostics hanswer diagnostic hdiagnostic
    rw [EngineDiagnostic.sameFile, Bool.or_eq_left_iff_imp]
    intro hplace
    have hspelled := hspelling program diagnostics hanswer diagnostic hdiagnostic
    exact hspelled.resolve_right fun hne => hne (Disk.normalize_eq_of_samePlace hplace)
  unfold typeErrors
  rw [hcheck, hcheck]
  cases hanswer : answer program with
  | error failure => rfl
  | ok diagnostics =>
    refine Prod.ext rfl (List.map_congr_left fun diagnostic hdiagnostic => ?_)
    have hmem := (List.mem_filter.mp hdiagnostic).1
    rw [EngineDiagnostic.remap, EngineDiagnostic.remap, EngineDiagnostic.target,
      EngineDiagnostic.target, hsame d diagnostics hanswer diagnostic hmem,
      hsame (.blank 0) diagnostics hanswer diagnostic hmem]

/-- What rules report is reported of the file that they are given. -/
theorem file_of_mem_applyRules {rules : List Engine.Rule} {file : Path} {number : Nat}
    {lines : List (List Char)} {diagnostic : EngineDiagnostic}
    (h : diagnostic ∈ Engine.applyRules rules file number lines) : diagnostic.file = file := by
  induction lines generalizing number with
  | nil => exact absurd h List.not_mem_nil
  | cons line rest ih =>
    rw [Engine.applyRules, List.mem_append] at h
    rcases h with h | h
    · obtain ⟨rule, -, hfind⟩ := List.mem_filterMap.mp h
      rw [Engine.Rule.find?, Option.map_eq_some_iff] at hfind
      obtain ⟨cut, -, rfl⟩ := hfind
      rfl
    · exact ih h

/-- The scripted engine has a verdict. -/
theorem checks_scripted (rules : List Engine.Rule) (failure : Option String) :
    Checks (.scripted rules failure) fun program =>
      (typeErrors (.scripted rules failure) (.blank 0) program).2 := by
  cases failure with
  | some reason =>
    refine checks_of_answer (fun _ _ => rfl) fun _ _ hanswer => ?_
    cases hanswer
  | none =>
    refine checks_of_answer (fun _ _ => rfl) fun program diagnostics hanswer diagnostic hmem => ?_
    cases hanswer
    rw [file_of_mem_applyRules hmem]
    exact Or.inl (beq_self_eq_true _)

/-! ### Files that are modified in place -/

/-- **A file that is modified in place** shows in the graph, if it is named as a template or has no
result. -/
theorem change_put {file : Path} {before : File} (hnormal : checker.cache.Normal)
    (hpath : file.normalize = file) (hfile : d.file file = .ok before) (after : File)
    (htemplate : file ∈ checker.cache.entries.keys → Contract.isTemplatePath file = true) :
    Change checker d (d.put file (.file after)) file := by
  have hentry := Disk.entryAt?_of_file hfile
  rw [hpath] at hentry
  refine ⟨fun p hp _ => Disk.file_put_of_ne hentry after hp,
    fun p hne hknown _ => Disk.file_put_of_ne hentry after ?_,
    fun template _ _ _ contract _ record _ _ hnone => ?_, fun hcached _ => htemplate hcached⟩
  · have hp : p.normalize = p := by
      rcases hknown with hcached | ⟨q, hedge⟩
      · exact hnormal.entries p hcached
      · exact hedge.right_normal
    rwa [hp]
  · rw [← Option.isNone_iff_eq_none, ← Option.isSome_eq_false_iff, Bool.eq_false_iff, ne_eq,
      Disk.isSome_moduleFile?_iff] at hnone ⊢
    simpa only [Disk.isFile_put hentry after] using hnone

/-! ### A small project -/

/-- The disk after something that is no text was written into the template. -/
def garbledDisk : Disk :=
  tinyDisk.put ⟨"/v/p.pug"⟩ (.file ⟨.binary [255], 8, none⟩)

/-- A rule that reports each end of a block. -/
def endOfBlock : Engine.Rule :=
  ⟨"\x7d", 2304, "end of a block"⟩

/-- A new checker with an engine that follows the rule. -/
def strict : Checker :=
  { tiny with engine := .scripted [endOfBlock] none }

/-- The checker after a run, when it was notified of the change. -/
def garbled : Checker :=
  ((strict.scanAll tinyDisk []).2.1.notifyChanged garbledDisk ⟨"/v/p.pug"⟩).2.1

/-- What is wrong is found, as by a new checker. -/
theorem consistent_garbled :
    Consistent garbled garbledDisk ∧ Tracked garbled garbledDisk ∧
      garbled.recorded ⟨"/v/p.pug"⟩ = [.ofFile .missingFile ⟨"/v/p.pug"⟩
        "cannot read template: stream did not contain valid UTF-8"] := by
  have hengine := checks_scripted [endOfBlock] none
  have hnew : new tinyDisk tinyConfig (.scripted [endOfBlock] none) = .ok strict := by rfl
  have hreached := (Reached.new hnew).scanAll tinyDisk []
  have hnotified := (Notified.new hnew).scanAll []
  obtain ⟨-, -, hnormal⟩ := normal_of_reached hengine hreached
  obtain ⟨hnotify, hchanged⟩ := consistent_notifyChanged hengine
  obtain ⟨hconsistent, htracked⟩ := hnotify _ _ hnotified
  have hpath : (⟨"/v/p.pug"⟩ : Path).normalize = ⟨"/v/p.pug"⟩ := by decide +kernel
  have hfile : tinyDisk.file ⟨"/v/p.pug"⟩ = .ok ⟨.text "", 7, none⟩ := by decide +kernel
  have htemplate : Contract.isTemplatePath ⟨"/v/p.pug"⟩ = true := by decide +kernel
  have hchange := change_put hnormal hpath hfile ⟨.binary [255], 8, none⟩ fun _ => htemplate
  have hshared : loadShared garbledDisk tinyConfig = loadShared tinyDisk tinyConfig := by
    decide +kernel
  have hfound : garbled.recorded ⟨"/v/p.pug"⟩ = [.ofFile .missingFile ⟨"/v/p.pug"⟩
      "cannot read template: stream did not contain valid UTF-8"] := by decide +kernel
  rw [← hpath] at hchange
  obtain ⟨hafter, hafter'⟩ :=
    (hchanged _ _ _ _ hreached hconsistent htracked hchange).2 hshared
  exact ⟨hafter, hafter', hfound⟩

end Checker

end PugContracts
