import PugContracts.Proofs.Check.Fresh
import PugContracts.Proofs.Contract.Lines
import PugContracts.Proofs.Resolution.Named

/-!
# References and dependencies

The directives of a template are read twice: when its contract is extracted, and when it is
resolved. The first reading is a walk through the nodes of the text. In the second one the nodes are
moved into the trees of other files, spliced and dropped. Both readings come to the same paths: what
a resolution records for a file is what its text names (`named_of_edge`), and what a text names are
the parent and the includes of its contract (`names_iff`).

So the dependencies of a template that was scanned without errors can be read off its contract
(`edges_are_directives`).
-/

namespace PugContracts

namespace Checker

open Resolution Contract Template

variable {checker : Checker} {d : Disk} {template path p q viewsRoot : Path} {source : String}

-- Replacing a variable by a path would otherwise compute the path.
attribute [local irreducible] resolveTarget

/-! ### Two readings of one text -/

theorem parents_extract :
    (extract source template viewsRoot).1.parents =
      (parentDirectives (parse source).nodes).map fun parent =>
        resolveTarget parent.2 template viewsRoot := by
  have hparents : (parse source).nodes.filterMap parentTarget? =
      (parentDirectives (parse source).nodes).map Prod.snd := by
    rw [parentDirectives, List.map_filterMap]
    congr 1
    funext node
    rw [parentTarget?]
    cases node.kind <;> rfl
  have h : (extract source template viewsRoot).1.parents =
      ((parse source).nodes.filterMap parentTarget?).map
        (resolveTarget · (extract source template viewsRoot).1.template viewsRoot) := rfl
  rw [h, hparents, (located_extract source template viewsRoot).2.1, List.map_map]
  rfl

theorem mem_includes_extract :
    q ∈ (extract source template viewsRoot).1.includes ↔
      ∃ node ∈ walkAll (parse source).nodes, ∃ target filter,
        node.kind = .inclusion target filter ∧ q = resolveTarget target template viewsRoot := by
  have h : (extract source template viewsRoot).1.includes =
      ((walkAll (parse source).nodes).filterMap includeTarget?).map
        (resolveTarget · (extract source template viewsRoot).1.template viewsRoot) := rfl
  rw [h, (located_extract source template viewsRoot).2.1]
  constructor
  · intro hq
    obtain ⟨target, htarget, rfl⟩ := List.mem_map.mp hq
    obtain ⟨node, hnode, hkind⟩ := List.mem_filterMap.mp htarget
    rw [includeTarget?] at hkind
    split at hkind
    · next filter hinclusion =>
      cases hkind
      exact ⟨node, hnode, _, _, hinclusion, rfl⟩
    · cases hkind
  · rintro ⟨node, hnode, target, filter, hkind, rfl⟩
    refine List.mem_map_of_mem (List.mem_filterMap.mpr ⟨node, hnode, ?_⟩)
    rw [includeTarget?, hkind]

/-- **What a text names** are the first parent and the includes of its contract. -/
theorem names_iff :
    Names viewsRoot source template q ↔
      (extract source template viewsRoot).1.parents.head? = some q ∨
        q ∈ (extract source template viewsRoot).1.includes := by
  rw [mem_includes_extract, parents_extract]
  constructor
  · rintro (hfirst | ⟨hwritten, hkind⟩)
    · rw [hfirst]
      exact Or.inl rfl
    · exact Or.inr ⟨_, hwritten, _, _, hkind, rfl⟩
  · rintro (hfirst | ⟨node, hwritten, target, filter, hkind, hq⟩)
    · cases hparents : parentDirectives (parse source).nodes with
      | nil => simp [hparents] at hfirst
      | cons first more =>
        rw [hparents] at hfirst
        cases hfirst
        exact .parent hparents
    · rw [hq]
      exact .inclusion hwritten hkind

/-! ### Scans without errors -/

/-- The template depends on the file whatever its directives are: it is a module that the contract
imports by a path, or it declares the shared locals. -/
def Brings (checker : Checker) (d : Disk) (contract : Contract) (q : Path) : Prop :=
  (∃ record ∈ contract.imports, record.isPath = true ∧
    ∃ file, d.moduleFile? record.modulePath = some file ∧ q = file.normalize) ∨
  ∃ shared, checker.shared = some shared ∧ q = shared.importPath.normalize

/-- What a scan without errors comes to, whatever the engine is. -/
theorem exists_of_scanFile_eq_nil (h : (checker.scanFile d path).2.2 = []) :
    ∃ source, d.readText path.normalize = .ok source ∧
      (checker.follow d path.normalize).1.errors = [] ∧
      ∀ q, q ∈ (checker.scanFile d path).2.1.graph.get path ↔
        Brings checker d (extract source path.normalize checker.config.viewsRoot).1 q ∨
          (checker.follow d path.normalize).2.Edge path.normalize q := by
  delta scanFile at h ⊢
  dsimp only at h ⊢
  cases hread : d.readText path.normalize with
  | error e =>
    rw [hread] at h
    cases h
  | ok source =>
    rw [hread] at h
    obtain ⟨graph, hbuild, hedge⟩ := build_spec checker path.normalize_normalize hread
    dsimp only at h ⊢
    rw [hbuild] at h ⊢
    dsimp only at h ⊢
    generalize hasked : askEngine { checker with graph := graph } d
      (Built.program _ checker.shared) = asked at h ⊢
    obtain ⟨d', asked, errors⟩ := asked
    obtain ⟨templates, rfl⟩ := askEngine_eq hasked
    obtain ⟨⟨⟨-, -⟩, hfollow⟩, -⟩ : ((_ = [] ∧ _ = []) ∧ _ = []) ∧ _ = [] := by
      simpa only [List.append_eq_nil_iff] using h
    refine ⟨source, rfl, hfollow, fun q => ?_⟩
    rw [DependencyGraph.mem_get_iff]
    refine (hedge path.normalize q).trans (or_congr_left ?_)
    rw [edge_namedGraph path.normalize_normalize]
    simp [Brings]

/-- **The edges of a resolution are the directives of the files, and a scan without errors leaves
those of its template.** -/
theorem edges_are_directives :
    (∀ (d : Disk) (g : DependencyGraph) (viewsRoot path : Path) (source : Option String)
      (p q : Path), (ofTemplate d g viewsRoot path source).2.Edge p q → g.Edge p q ∨
        ∃ text, textOf? d path.normalize source p = some text ∧ Names viewsRoot text p q) ∧
    ∀ (checker : Checker) (d : Disk) (path : Path), (checker.scanFile d path).2.2 = [] →
      ∃ contract, checker.contract? d path.normalize = some contract ∧ ∀ q,
        (q ∈ (checker.scanFile d path).2.1.graph.get path →
          contract.parents.head? = some q ∨ q ∈ contract.includes ∨
            Brings checker d contract q) ∧
        (contract.parents.head? = some q ∨ Brings checker d contract q →
          q ∈ (checker.scanFile d path).2.1.graph.get path) ∧
        (contract.parents = [] →
          (q ∈ (checker.scanFile d path).2.1.graph.get path ↔
            q ∈ contract.includes ∨ Brings checker d contract q)) := by
  refine ⟨fun d g viewsRoot path source p q => named_of_edge, fun checker d path h => ?_⟩
  obtain ⟨source, hread, hclean, hget⟩ := exists_of_scanFile_eq_nil h
  rw [follow] at hclean hget
  have htext : textOf? d path.normalize.normalize none path.normalize.normalize = some source := by
    rw [Path.normalize_normalize, textOf?, if_pos rfl, hread]
    rfl
  obtain ⟨htree, hsyntax⟩ := clean_of_errors_eq_nil htext hclean
  have hcertain := fun q => edge_of_certain (p := path.normalize) (q := q) htree htext
  rw [Path.normalize_normalize] at hcertain htext
  have hnamed : ∀ q, (ofTemplate d .empty checker.config.viewsRoot path.normalize none).2.Edge
      path.normalize q → Names checker.config.viewsRoot source path.normalize q := by
    intro q hedge
    rcases named_of_edge hedge with hempty | ⟨text, htext', hnames⟩
    · exact absurd hempty List.not_mem_nil
    · rw [Path.normalize_normalize, htext] at htext'
      cases htext'
      exact hnames
  refine ⟨_, contract?_of_readText hread, fun q => ?_⟩
  rw [hget]
  refine ⟨?_, ?_, ?_⟩
  · rintro (hbrings | hedge)
    · exact Or.inr (Or.inr hbrings)
    · rcases names_iff.mp (hnamed q hedge) with hparent | hinclude
      · exact Or.inl hparent
      · exact Or.inr (Or.inl hinclude)
  · rintro (hparent | hbrings)
    · rw [parents_extract] at hparent
      cases hparents : parentDirectives (parse source).nodes with
      | nil => simp [hparents] at hparent
      | cons first more =>
        rw [hparents] at hparent
        cases hparent
        exact Or.inr (hcertain _ (.parent hparents))
    · exact Or.inl hbrings
  · intro hnone
    rw [or_comm]
    refine or_congr_left ⟨fun hedge => ?_, fun hinclude => ?_⟩
    · rcases names_iff.mp (hnamed q hedge) with hparent | hinclude
      · simp [hnone] at hparent
      · exact hinclude
    · obtain ⟨node, hnode, target, filter, hkind, rfl⟩ := mem_includes_extract.mp hinclude
      rw [parents_extract, List.map_eq_nil_iff] at hnone
      exact hcertain _ (.inclusion hnone ((exposed_parse hsyntax).mem_liveAll_iff.mpr hnode) hkind)

/-- A template with a parent in another directory, and one that includes a file that is no
template. -/
def relatedDisk : Disk :=
  ⟨[(⟨"/v"⟩, .directory), (⟨"/v/base.pug"⟩, .file ⟨.text "", 7, none⟩),
    (⟨"/v/parts"⟩, .directory),
    (⟨"/v/parts/a.pug"⟩, .file ⟨.text "extends ../base", 7, none⟩),
    (⟨"/v/parts/b.pug"⟩, .file ⟨.text "include c.txt", 7, none⟩),
    (⟨"/v/parts/c.txt"⟩, .file ⟨.text "", 7, none⟩)], 9, none⟩

/-- A checker that only looks at structure. -/
def structural : Checker :=
  ⟨.default, .empty, .empty, .silent, none, false, []⟩

theorem extract_of_readAll_eq_nil (hdirectives : Directive.readAll source.toList = []) :
    extract source template viewsRoot =
      ((ofTemplate template).addReferences viewsRoot (parse source).nodes, []) := by
  rw [extract, hdirectives]
  rfl

/-- A template without directive comments has no errors but those of following its directives. -/
theorem scanFile_structural (htemplate : template.normalize = template)
    (hread : d.readText template = .ok source) (hdirectives : Directive.readAll source.toList = [])
    (hfollow : (structural.follow d template).1.errors = []) :
    (structural.scanFile d template).2.2 = [] := by
  have hengine : ∀ program, typeErrors structural.engine d program = (d, []) := fun _ => rfl
  obtain ⟨graph, asked, hscan, -⟩ := scanFile_spec hengine htemplate
  rw [hscan, findings, hread]
  dsimp only
  rw [extract_of_readAll_eq_nil hdirectives, hfollow]
  cases (structural.follow d template).1.tree <;> rfl

/-- The first template depends on its parent, and the second one on what it includes and on nothing
else. -/
theorem directives_related :
    (∃ text, textOf? relatedDisk (Path.normalize ⟨"/v/parts/a.pug"⟩) none ⟨"/v/parts/a.pug"⟩ =
        some text ∧ Names structural.config.viewsRoot text ⟨"/v/parts/a.pug"⟩ ⟨"/v/base.pug"⟩) ∧
      ⟨"/v/base.pug"⟩ ∈
        (structural.scanFile relatedDisk ⟨"/v/parts/a.pug"⟩).2.1.graph.get ⟨"/v/parts/a.pug"⟩ ∧
      ∀ q, q ∈ (structural.scanFile relatedDisk ⟨"/v/parts/b.pug"⟩).2.1.graph.get
        ⟨"/v/parts/b.pug"⟩ ↔ q = ⟨"/v/parts/c.txt"⟩ := by
  have hanormal : (⟨"/v/parts/a.pug"⟩ : Path).normalize = ⟨"/v/parts/a.pug"⟩ := by decide +kernel
  have hbnormal : (⟨"/v/parts/b.pug"⟩ : Path).normalize = ⟨"/v/parts/b.pug"⟩ := by decide +kernel
  have haread : relatedDisk.readText ⟨"/v/parts/a.pug"⟩ = .ok "extends ../base" := by
    decide +kernel
  have hbread : relatedDisk.readText ⟨"/v/parts/b.pug"⟩ = .ok "include c.txt" := by decide +kernel
  have haparse : parse "extends ../base" = ⟨[⟨.inherits "../base", 1, none, [], []⟩], []⟩ := by cbv
  have hbparse : parse "include c.txt" = ⟨[⟨.inclusion "c.txt" none, 1, none, [], []⟩], []⟩ := by
    cbv
  have hadirectives : Directive.readAll "extends ../base".toList = [] := by cbv
  have hbdirectives : Directive.readAll "include c.txt".toList = [] := by cbv
  have hafollow : (structural.follow relatedDisk ⟨"/v/parts/a.pug"⟩).1.errors = [] ∧
      (⟨"/v/parts/a.pug"⟩, ⟨"/v/base.pug"⟩) ∈
        (structural.follow relatedDisk ⟨"/v/parts/a.pug"⟩).2.edges := by
    have htext : textOf? relatedDisk ⟨"/v/parts/a.pug"⟩ none ⟨"/v/parts/a.pug"⟩ =
        some "extends ../base" := by decide +kernel
    rw [follow, ofTemplate_eq, hanormal, resolveRoot_of_text htext, resolveText, haparse]
    decide +kernel
  have hbfollow : (structural.follow relatedDisk ⟨"/v/parts/b.pug"⟩).1.errors = [] := by
    have htext : textOf? relatedDisk ⟨"/v/parts/b.pug"⟩ none ⟨"/v/parts/b.pug"⟩ =
        some "include c.txt" := by decide +kernel
    rw [follow, ofTemplate_eq, hbnormal, resolveRoot_of_text htext, resolveText, hbparse]
    decide +kernel
  refine ⟨(edges_are_directives.1 _ _ _ _ _ _ _ hafollow.2).resolve_left List.not_mem_nil, ?_,
    fun q => ?_⟩
  · obtain ⟨contract, hcontract, hget⟩ := edges_are_directives.2 structural relatedDisk _
      (scanFile_structural hanormal haread hadirectives hafollow.1)
    rw [hanormal, contract?_of_readText haread, extract_of_readAll_eq_nil hadirectives, haparse,
      Option.some.injEq] at hcontract
    refine (hget _).2.1 (Or.inl ?_)
    rw [← hcontract]
    decide +kernel
  · obtain ⟨contract, hcontract, hget⟩ := edges_are_directives.2 structural relatedDisk _
      (scanFile_structural hbnormal hbread hbdirectives hbfollow)
    rw [hbnormal, contract?_of_readText hbread, extract_of_readAll_eq_nil hbdirectives, hbparse,
      Option.some.injEq] at hcontract
    have hincludes : contract.includes = [⟨"/v/parts/c.txt"⟩] := by
      rw [← hcontract]
      decide +kernel
    have hbrings : ¬ Brings structural relatedDisk contract q := by
      rintro (⟨record, hrecord, -⟩ | ⟨shared, hshared, -⟩)
      · rw [← hcontract] at hrecord
        cases hrecord
      · cases hshared
    rw [(hget q).2.2 (by rw [← hcontract]; rfl), hincludes, List.mem_singleton, or_iff_left hbrings]

end Checker

end PugContracts
