import PugContracts.Proofs.Template.Forest
import PugContracts.Resolution.Region

/-!
# Where merged nodes come from

Applying a child's regions to its parent moves nodes and drops some, but makes none: what holds
everywhere in the child and in the parent holds everywhere in the result (`everywhere_mergeAll`).
-/

namespace PugContracts.Resolution

open Template

variable {P : NodeKind → Nat → Option Path → Prop} {file : Path}

/-- A property holds everywhere in what a child contributes. -/
structure ChildParts.Everywhere (P : NodeKind → Nat → Option Path → Prop) (parts : ChildParts) :
    Prop where
  /-- It holds in the overrides. -/
  overrides : ∀ entry ∈ parts.overrides, ∀ override ∈ entry.2, Template.Everywhere P override.nodes
  /-- It holds in the loose content. -/
  loose : Template.Everywhere P parts.loose

/-! ### Cutting the child -/

theorem ChildParts.mem_insertOverride {name : String} {override other : Override}
    {overrides : List (String × List Override)} {entry : String × List Override}
    (hentry : entry ∈ insertOverride name override overrides) (hother : other ∈ entry.2) :
    other = override ∨ ∃ entry ∈ overrides, other ∈ entry.2 := by
  induction overrides with
  | nil =>
    rw [insertOverride, List.mem_singleton] at hentry
    subst hentry
    exact Or.inl (List.mem_singleton.mp hother)
  | cons first rest ih =>
    rw [insertOverride] at hentry
    split at hentry
    · rcases List.mem_cons.mp hentry with rfl | hentry
      · rcases List.mem_append.mp hother with hother | hother
        · exact Or.inr ⟨first, List.mem_cons_self, hother⟩
        · exact Or.inl (List.mem_singleton.mp hother)
      · exact Or.inr ⟨entry, List.mem_cons_of_mem _ hentry, hother⟩
    · rcases List.mem_cons.mp hentry with rfl | hentry
      · exact Or.inr ⟨first, List.mem_cons_self, hother⟩
      · rcases ih hentry with heq | ⟨known, hknown, hmem⟩
        · exact Or.inl heq
        · exact Or.inr ⟨known, List.mem_cons_of_mem _ hknown, hmem⟩

/-- One top-level node of the child keeps the property, if it also holds of what is stamped with the
child's file: that is what happens to the content of a region. -/
theorem ChildParts.Everywhere.add {parts : ChildParts} {node : Node} (hparts : parts.Everywhere P)
    (hnode : Template.Everywhere P [node])
    (hstamp : Template.Everywhere (fun kind line _ => P kind line (some file)) [node]) :
    (parts.add file node).Everywhere P := by
  rw [ChildParts.add]
  split
  · exact hparts
  · refine ⟨fun entry hentry other hother => ?_, hparts.loose⟩
    rcases mem_insertOverride hentry hother with rfl | ⟨known, hknown, hmem⟩
    · exact everywhere_stampAll.mpr (hstamp.children List.mem_cons_self)
    · exact hparts.overrides known hknown other hmem
  · exact ⟨hparts.overrides, everywhere_append.mpr ⟨hparts.loose, hnode⟩⟩

/-- What holds everywhere in a stamped child holds everywhere in what it contributes. -/
theorem ChildParts.everywhere_ofNodes {nodes : List Node}
    (h : Template.Everywhere (fun kind line _ => P kind line (some file)) nodes) :
    (ofNodes (stampAll file nodes) file).Everywhere P := by
  have hfold : ∀ (nodes : List Node) (parts : ChildParts), parts.Everywhere P →
      Template.Everywhere P nodes →
      Template.Everywhere (fun kind line _ => P kind line (some file)) nodes →
      (nodes.foldl (ChildParts.add file) parts).Everywhere P := by
    intro nodes
    induction nodes with
    | nil => exact fun _ hparts _ _ => hparts
    | cons node rest ih =>
      intro parts hparts hnodes hstamp
      rw [← List.singleton_append, everywhere_append] at hnodes hstamp
      exact ih _ (hparts.add hnodes.1 hstamp.1) hnodes.2 hstamp.2
  exact hfold _ _ ⟨by simp, by simp⟩ (everywhere_stampAll.mpr h) (everywhere_stampAll.mpr h)

/-! ### Applying the overrides -/

theorem ChildParts.Everywhere.overridesOf {parts : ChildParts} (h : parts.Everywhere P)
    {name : String} {override : Override} (hmem : override ∈ parts.overridesOf name) :
    Template.Everywhere P override.nodes := by
  rw [ChildParts.overridesOf] at hmem
  cases hlookup : parts.overrides.lookup name with
  | none => simp [hlookup] at hmem
  | some chain =>
    rw [hlookup, Option.getD_some] at hmem
    obtain ⟨before, after, hsplit, -⟩ := List.lookup_eq_some_iff.mp hlookup
    exact h.overrides (name, chain) (by rw [hsplit]; simp) override hmem

theorem everywhere_foldl_apply {overrides : List Override} {content : List Node}
    (hcontent : Everywhere P content)
    (hoverrides : ∀ override ∈ overrides, Everywhere P override.nodes) :
    Everywhere P (overrides.foldl Override.apply content) := by
  induction overrides generalizing content with
  | nil => exact hcontent
  | cons override rest ih =>
    refine ih ?_ fun other hother => hoverrides other (List.mem_cons_of_mem _ hother)
    have hnodes := hoverrides override List.mem_cons_self
    rw [Override.apply]
    split
    · exact hnodes
    · exact everywhere_append.mpr ⟨hcontent, hnodes⟩
    · exact everywhere_append.mpr ⟨hnodes, hcontent⟩

/-- **What holds everywhere in the child's parts and in the parent holds everywhere in the merged
tree.** -/
theorem everywhere_mergeAll {parts : ChildParts} {nodes : List Node} (hparts : parts.Everywhere P)
    (h : Everywhere P nodes) : Everywhere P (mergeAll parts nodes) := by
  induction nodes using forest_induction with
  | nil => exact h
  | cons kind line origin children alternate rest hchildren halternate hrest =>
    rw [everywhere_cons] at h
    obtain ⟨hkind, hinner, hother, hafter⟩ := h
    rw [mergeAll, mergeNode, everywhere_cons]
    refine ⟨hkind, ?_, halternate hother, hrest hafter⟩
    split
    · exact everywhere_foldl_apply (hchildren hinner) fun _ hmem => hparts.overridesOf hmem
    · exact hchildren hinner

end PugContracts.Resolution
