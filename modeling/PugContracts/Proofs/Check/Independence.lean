import PugContracts.Proofs.Check.Fresh

/-!
# Scans and history

A checker carries a graph and a cache from one scan to the next, and both are read and written by
every scan. What a scan finds is nevertheless a matter of the template and the disk alone. The edges
and the results that are already there hide nothing and add nothing, since a scan clears the edges
that lead from its template before it looks at anything (`scanFile_spec`).

The other direction is that a scan disturbs no template but its own. It may record further edges
that lead from other files, but those are edges that the other files' own scans record too
(`edge_own`). So what is known of a template after its scan is known after every further one
(`Known.scanFile_of_ne`), and the order of a run does not matter.

## Main results

* `scanNeeded_leaves`: after a run, what is known of a template is what its own scan finds.
* `scanFile_independent`: neither scans nor runs depend on what was done before.
-/

namespace PugContracts

/-- The answer of an engine is a function of the program: the engine looks at nothing else, and
writes nothing. -/
def Engine.Answers (engine : Engine) (answer : Program → Except Failure (List EngineDiagnostic)) :
    Prop :=
  ∀ d program, engine.check d program = (d, answer program)

namespace Checker

open Resolution

variable {checker other after : Checker} {verdict : Program → List TemplateError} {d : Disk}
  {template file p q : Path}

/-! ### Checkers that differ in history only -/

/-- Two checkers have the same settings, the same engine and the same shared locals. Their graphs
and their caches may differ, and so may what they were asked to do before. -/
structure Alike (checker other : Checker) : Prop where
  /-- The settings are the same. -/
  config : other.config = checker.config
  /-- The engine is the same. -/
  engine : other.engine = checker.engine
  /-- The shared locals are the same. -/
  shared : other.shared = checker.shared

/-- Two checkers have the same result for a template, and the same files that it names. -/
structure SameAt (template : Path) (checker other : Checker) : Prop where
  /-- Both have a result, and it is the same. -/
  entry : ∃ entry, checker.cache.find? template = some entry ∧
    other.cache.find? template = some entry
  /-- The template names the same files. -/
  get : checker.graph.get template = other.graph.get template

/-- All that was known of files other than the template is known afterwards. -/
structure Leaves (template : Path) (before after : Checker) : Prop where
  /-- The other results are the same, and there are no further ones. -/
  find? : ∀ file, compare file template ≠ .eq → after.cache.find? file = before.cache.find? file
  /-- No other file loses an edge. -/
  edge : ∀ p q, p ≠ template → before.graph.Edge p q → after.graph.Edge p q

theorem Alike.findings (h : Alike checker other) (verdict : Program → List TemplateError)
    (d : Disk) (template : Path) :
    other.findings verdict d template = checker.findings verdict d template := by
  simp only [Checker.findings, follow, h.config, h.shared]

theorem Alike.result (h : Alike checker other) (verdict : Program → List TemplateError)
    (d : Disk) (template : Path) :
    other.result verdict d template = checker.result verdict d template := by
  simp only [Checker.result, h.findings, contract?, h.config, h.engine]

theorem Records.alike (hrecords : Records checker d template p q) (h : Alike checker other) :
    Records other d template p q := by
  have hcontract : other.contract? d template = checker.contract? d template := by
    simp only [contract?, h.config]
  cases hrecords with
  | directive hedge =>
    rw [follow, ← h.config] at hedge
    exact .directive hedge
  | module hsome hrecord hpath hfile => exact .module (hcontract.trans hsome) hrecord hpath hfile
  | shared hsome hshared => exact .shared (hcontract.trans hsome) (h.shared.trans hshared)

theorem Alike.symm (h : Alike checker other) : Alike other checker :=
  ⟨h.config.symm, h.engine.symm, h.shared.symm⟩

theorem Alike.trans (h : Alike checker other) (hafter : Alike other after) : Alike checker after :=
  ⟨hafter.config.trans h.config, hafter.engine.trans h.engine, hafter.shared.trans h.shared⟩

/-! ### What is known of a template -/

/-- The result for a template is that of its own scan, and so are the edges that lead from it. -/
structure Known (checker : Checker) (verdict : Program → List TemplateError) (d : Disk)
    (template : Path) : Prop where
  /-- The result is that of a scan. -/
  find? : checker.cache.find? template = some (checker.result verdict d template)
  /-- The edges are those of a scan. -/
  edge : ∀ q, checker.graph.Edge template q ↔ Records checker d template template q

/-- What two checkers know of a template is the same. -/
theorem Known.sameAt (h : Known checker verdict d template)
    (hother : Known other verdict d template)
    (halike : Alike checker other) (htemplate : template.normalize = template) :
    SameAt template checker other := by
  refine ⟨⟨_, h.find?, halike.result verdict d template ▸ hother.find?⟩, ?_⟩
  refine DependencyGraph.get_congr fun q => ?_
  rw [htemplate, h.edge, hother.edge]
  exact ⟨fun hq => hq.alike halike, fun hq => hq.alike halike.symm⟩

/-- The errors that are recorded for a template are those that its scan finds. -/
theorem Known.recorded (h : Known checker verdict d template) :
    checker.recorded template = checker.findings verdict d template := by
  rw [Checker.recorded, h.find?]
  rfl

/-! ### Scans -/

section

variable (hengine : ∀ program, typeErrors checker.engine d program = (d, verdict program))
include hengine

/-- **What a scan leaves.** It answers the findings and knows the template; other results and edges
are still there, and no other file gets an edge but those of its own scan. -/
theorem scanFile_leaves (path : Path) :
    ∃ after, checker.scanFile d path = (d, after, checker.findings verdict d path.normalize) ∧
      Alike checker after ∧ after.reuse = checker.reuse ∧
      Known after verdict d path.normalize ∧ Leaves path.normalize checker after ∧
      ∀ p q, after.graph.Edge p q → checker.graph.Edge p q ∨ Records checker d p p q := by
  rw [← scanFile_normalize]
  have htemplate := path.normalize_normalize
  generalize path.normalize = template at *
  obtain ⟨graph, asked, hscan, hedge⟩ := scanFile_spec hengine htemplate
  have hfind : ∀ file, Cache.find? ((checker.cache.track d (graph.get template)).insert template
      (checker.result verdict d template)) file =
      if compare file template = .eq then some (checker.result verdict d template)
        else checker.cache.find? file := by
    intro file
    rw [Cache.find?, Cache.insert, PathMap.find?_insert, Cache.entries_track]
    rfl
  have halike : Alike checker { checker with
      graph := graph
      cache := (checker.cache.track d (graph.get template)).insert template
        (checker.result verdict d template)
      asked := asked } := ⟨rfl, rfl, rfl⟩
  refine ⟨_, hscan, halike, rfl, ⟨?_, fun q => ?_⟩, ⟨fun file hne => ?_, fun p q hne h => ?_⟩,
    fun p q h => ?_⟩
  · rw [halike.result, hfind, if_pos Std.ReflCmp.compare_self]
  · rw [hedge]
    constructor
    · rintro (⟨hne, -⟩ | hrecords)
      · exact absurd rfl hne
      · exact hrecords.alike halike
    · exact fun hrecords => Or.inr (hrecords.alike halike.symm)
  · rw [hfind, if_neg hne]
  · exact (hedge p q).mpr (Or.inl ⟨hne, h⟩)
  · rcases (hedge p q).mp h with ⟨-, hold⟩ | hrecords
    · exact Or.inl hold
    · refine Or.inr ?_
      cases hrecords with
      | directive hedge => exact .directive (edge_own hedge).1
      | module hsome hrecord hpath hfile => exact .module hsome hrecord hpath hfile
      | shared hsome hshared => exact .shared hsome hshared

/-- **What is known of a template** is still known after the scan of another one. -/
theorem Known.scanFile_of_ne (h : Known checker verdict d template)
    (htemplate : template.normalize = template) {path : Path} (hne : template ≠ path.normalize) :
    Known (checker.scanFile d path).2.1 verdict d template := by
  obtain ⟨after, hscan, halike, -, -, hleaves, hedge⟩ := scanFile_leaves hengine path
  rw [hscan]
  have hcompare : compare template path.normalize ≠ .eq := fun heq =>
    hne ((Path.compare_eq_iff htemplate path.normalize_normalize).mp heq)
  refine ⟨?_, fun q => ⟨fun hq => ?_, fun hq => ?_⟩⟩
  · rw [hleaves.find? template hcompare, halike.result, h.find?]
  · rcases hedge template q hq with hold | hrecords
    · exact ((h.edge q).mp hold).alike halike
    · exact hrecords.alike halike
  · exact hleaves.edge template q hne ((h.edge q).mpr (hq.alike halike.symm))

theorem Known.scanFile (h : Known checker verdict d template)
    (htemplate : template.normalize = template) (path : Path) :
    Known (checker.scanFile d path).2.1 verdict d template := by
  by_cases hne : template = path.normalize
  · obtain ⟨after, hscan, -, -, hknown, -, -⟩ := scanFile_leaves hengine path
    rw [hscan, hne]
    exact hknown
  · exact h.scanFile_of_ne hengine htemplate hne

end

/-! ### Runs -/

/-- **A run without use of the cache** knows the templates that it was given and those that were
known before. -/
theorem scanNeeded_leaves
    (hengine : ∀ program, typeErrors checker.engine d program = (d, verdict program))
    (hreuse : checker.reuse = false) {templates : List Path}
    (hnormal : ∀ template ∈ templates, template.normalize = template) :
    ∃ after, checker.scanNeeded d templates = (d, after, templates) ∧ Alike checker after ∧
      ∀ template, template.normalize = template →
        (template ∈ templates ∨ Known checker verdict d template) →
          Known after verdict d template := by
  induction templates generalizing checker with
  | nil =>
    exact ⟨checker, rfl, ⟨rfl, rfl, rfl⟩, fun _ _ h => h.resolve_left List.not_mem_nil⟩
  | cons first rest ih =>
    obtain ⟨hfirst, hrest⟩ := List.forall_mem_cons.mp hnormal
    obtain ⟨scanned, hscan, halike, hkept, hknown, -, -⟩ := scanFile_leaves hengine first
    have hengine' : ∀ program, typeErrors scanned.engine d program = (d, verdict program) := by
      rw [halike.engine]
      exact hengine
    obtain ⟨after, hrun, halike', hafter⟩ := ih hengine' (hkept.trans hreuse) hrest
    refine ⟨after, ?_, halike.trans halike', fun template htemplate h => ?_⟩
    · simp only [scanNeeded, hreuse, hscan, hrun, Bool.false_and, Bool.false_eq_true, if_false]
    · refine hafter template htemplate ?_
      rcases h with hmem | hold
      · refine (List.mem_cons.mp hmem).symm.imp_right ?_
        rintro rfl
        rwa [hfirst] at hknown
      · have hstill := hold.scanFile hengine htemplate first
        rw [hscan] at hstill
        exact Or.inr hstill

/-- The errors that a run without use of the cache records are what scans find. -/
theorem recorded_scanNeeded
    (hengine : ∀ program, typeErrors checker.engine d program = (d, verdict program))
    (hreuse : checker.reuse = false) {templates : List Path}
    (hnormal : ∀ template ∈ templates, template.normalize = template)
    (htemplate : template ∈ templates) :
    (checker.scanNeeded d templates).2.1.recorded template =
      checker.findings verdict d template := by
  obtain ⟨after, hrun, halike, hknown⟩ := scanNeeded_leaves hengine hreuse hnormal
  rw [hrun, (hknown template (hnormal template htemplate) (Or.inl htemplate)).recorded,
    halike.findings]

/-- Runs over the same roots without use of the cache give the same report. -/
theorem Alike.scanAll (halike : Alike checker other)
    (hengine : ∀ program, typeErrors checker.engine d program = (d, verdict program))
    (hreuse : checker.reuse = false) (hreuse' : other.reuse = false) (roots : List Path) :
    (checker.scanAll d roots).2.2 = (other.scanAll d roots).2.2 := by
  have hengine' : ∀ program, typeErrors other.engine d program = (d, verdict program) := by
    rw [halike.engine]
    exact hengine
  rw [Checker.scanAll, Checker.scanAll, halike.config]
  dsimp only
  cases hfound :
      d.findTemplates (if roots.isEmpty then checker.config.templatePaths else roots) with
  | error failure => rfl
  | ok templates =>
    have hnormal := (normal_findTemplates hfound).1
    have hresults : ∀ template ∈ templates,
        (template, (checker.scanNeeded d templates).2.1.recorded template) =
          (template, (other.scanNeeded d templates).2.1.recorded template) := by
      intro template hmem
      rw [recorded_scanNeeded hengine hreuse hnormal hmem,
        recorded_scanNeeded hengine' hreuse' hnormal hmem, halike.findings]
    obtain ⟨after, hrun, -⟩ := scanNeeded_leaves hengine hreuse hnormal
    obtain ⟨after', hrun', -⟩ := scanNeeded_leaves hengine' hreuse' hnormal
    rw [hrun, hrun'] at hresults
    cases templates with
    | nil => rfl
    | cons first rest =>
      dsimp only
      rw [hrun, hrun']
      dsimp only
      rw [List.map_congr_left hresults]

/-! ### Main result -/

theorem typeErrors_of_answers {engine : Engine}
    {answer : Program → Except Failure (List EngineDiagnostic)} (h : engine.Answers answer)
    (d : Disk) (program : Program) :
    typeErrors engine d program = (d, (typeErrors engine d program).2) := by
  refine Prod.ext ?_ rfl
  rw [typeErrors, h]
  cases answer program <;> rfl

/-- **Scans do not depend on history and do not disturb each other.** Let two checkers have the same
settings, engine and shared locals, and whatever graphs and caches, and let the answer of the engine
be a function of the program. A scan of one template finds the same errors in both, and leaves the
same result and the same direct dependencies for the template; in each of them the results and the
edges of other files stay. So without use of the cache, any two runs that both process a template
leave the same for it, whatever else they process and in whatever order, and runs over the same
roots give the same report. -/
theorem scanFile_independent {answer : Program → Except Failure (List EngineDiagnostic)}
    (halike : Alike checker other) (hengine : checker.engine.Answers answer) (d : Disk) :
    (∀ path, ∃ errors after after',
      checker.scanFile d path = (d, after, errors) ∧ other.scanFile d path = (d, after', errors) ∧
        SameAt path.normalize after after' ∧ after.recorded path.normalize = errors ∧
          Leaves path.normalize checker after ∧ Leaves path.normalize other after') ∧
    (checker.reuse = false → other.reuse = false →
      (∀ templates templates', (∀ template ∈ templates, template.normalize = template) →
        (∀ template ∈ templates', template.normalize = template) →
          ∀ template ∈ templates, template ∈ templates' →
            SameAt template (checker.scanNeeded d templates).2.1
              (other.scanNeeded d templates').2.1) ∧
        ∀ roots, (checker.scanAll d roots).2.2 = (other.scanAll d roots).2.2) := by
  have hverdict := typeErrors_of_answers hengine d
  generalize hname : (fun program => (typeErrors checker.engine d program).2) = verdict
  have hchecks : ∀ program, typeErrors checker.engine d program = (d, verdict program) := by
    rw [← hname]
    exact hverdict
  have hother : ∀ program, typeErrors other.engine d program = (d, verdict program) := by
    rw [halike.engine]
    exact hchecks
  refine ⟨fun path => ?_, fun hreuse hreuse' =>
    ⟨fun templates templates' hnormal hnormal' template hmem hmem' => ?_, fun roots => ?_⟩⟩
  · obtain ⟨after, hscan, hafter, -, hknown, hleaves, -⟩ := scanFile_leaves hchecks path
    obtain ⟨after', hscan', hafter', -, hknown', hleaves', -⟩ := scanFile_leaves hother path
    have hsame : Alike after after' := (hafter.symm.trans halike).trans hafter'
    rw [halike.findings] at hscan'
    refine ⟨_, after, after', hscan, hscan', hknown.sameAt hknown' hsame path.normalize_normalize,
      ?_, hleaves, hleaves'⟩
    rw [hknown.recorded, hafter.findings]
  · have htemplate := hnormal template hmem
    obtain ⟨after, hrun, hafter, hknown⟩ := scanNeeded_leaves hchecks hreuse hnormal
    obtain ⟨after', hrun', hafter', hknown'⟩ := scanNeeded_leaves hother hreuse' hnormal'
    rw [hrun, hrun']
    exact (hknown template htemplate (Or.inl hmem)).sameAt
      (hknown' template htemplate (Or.inl hmem')) ((hafter.symm.trans halike).trans hafter')
      htemplate
  · exact halike.scanAll hchecks hreuse hreuse' roots

/-! ### Two templates that include each other -/

/-- Two templates, each of which includes the other one. -/
def partnersDisk : Disk :=
  ⟨[(⟨"/v"⟩, .directory), (⟨"/v/a.pug"⟩, .file ⟨.text "include b", 7, none⟩),
    (⟨"/v/b.pug"⟩, .file ⟨.text "include a", 7, none⟩)], 9, none⟩

/-- A checker that has done nothing yet, and does not use its cache. -/
def unseasoned : Checker :=
  ⟨.default, .empty, .empty, .silent, none, false, []⟩

/-- A checker with a result for one of the templates that another engine found, and with edges that
no directive stands for. -/
def seasoned : Checker :=
  { unseasoned with
    graph := (DependencyGraph.empty.add ⟨"/v/a.pug"⟩ ⟨"/v/c.pug"⟩).add ⟨"/v/c.pug"⟩ ⟨"/v/a.pug"⟩
    cache := Cache.empty.insert ⟨"/v/a.pug"⟩ ⟨[], none, 3, "scripted", true⟩ }

/-- The checkers know different things of a template at first, and the same after the two templates
were scanned in either order. -/
theorem sameAt_partners :
    ¬ SameAt ⟨"/v/a.pug"⟩ unseasoned seasoned ∧
      SameAt ⟨"/v/a.pug"⟩
        (unseasoned.scanNeeded partnersDisk [⟨"/v/a.pug"⟩, ⟨"/v/b.pug"⟩]).2.1
        (seasoned.scanNeeded partnersDisk [⟨"/v/b.pug"⟩, ⟨"/v/a.pug"⟩]).2.1 ∧
      (unseasoned.scanAll partnersDisk [⟨"/v"⟩]).2.2 =
        (seasoned.scanAll partnersDisk [⟨"/v"⟩]).2.2 := by
  have halike : Alike unseasoned seasoned := ⟨rfl, rfl, rfl⟩
  have hengine : unseasoned.engine.Answers fun _ => .ok [] := fun _ _ => rfl
  have ha : (⟨"/v/a.pug"⟩ : Path).normalize = ⟨"/v/a.pug"⟩ := by decide +kernel
  have hb : (⟨"/v/b.pug"⟩ : Path).normalize = ⟨"/v/b.pug"⟩ := by decide +kernel
  obtain ⟨hruns, hreports⟩ := (scanFile_independent halike hengine partnersDisk).2 rfl rfl
  refine ⟨fun h => ?_, hruns _ _ ?_ ?_ _ List.mem_cons_self ?_, hreports _⟩
  · obtain ⟨entry, hentry, -⟩ := h.entry
    exact absurd hentry (by simp [unseasoned, Cache.find?, Cache.empty])
  all_goals simp [ha, hb]

end Checker

end PugContracts
