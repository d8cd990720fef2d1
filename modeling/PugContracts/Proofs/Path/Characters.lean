import Mathlib.Tactic.SplitIfs
import PugContracts.Path.Normal

/-!
# The characters of a path

Cutting a path into pieces, leaving some of them out and putting the others together again brings no
characters into it but slashes and dots. What holds of these and of every character of some paths
therefore holds of every character of what is made from them (`Consists.parent`, `Consists.join`,
`Consists.normalize`).
-/

namespace PugContracts

/-- What holds of the characters of texts and of what is put between them holds of the whole. -/
theorem Text.forall_mem_intercalate {P : Char → Prop} {separator : String} {texts : List String}
    (hseparator : ∀ c ∈ separator.toList, P c) (h : ∀ text ∈ texts, ∀ c ∈ text.toList, P c) :
    ∀ c ∈ (separator.intercalate texts).toList, P c := by
  rw [String.toList_intercalate]
  induction texts with
  | nil => simp [List.intercalate]
  | cons text rest ih =>
    obtain ⟨htext, hrest⟩ := List.forall_mem_cons.mp h
    cases rest with
    | nil => simpa [List.intercalate] using htext
    | cons next rest =>
      rw [List.map_cons, List.map_cons, List.intercalate_cons_cons, List.append_assoc]
      exact List.forall_mem_append.mpr
        ⟨htext, List.forall_mem_append.mpr ⟨hseparator, ih hrest⟩⟩

namespace Path

variable {P : Char → Prop} {p q : Path}

/-- All characters of the path have a property. -/
def Consists (P : Char → Prop) (p : Path) : Prop :=
  ∀ c ∈ p.text.toList, P c

theorem forall_mem_intercalate (hslash : P '/') {texts : List String}
    (h : ∀ text ∈ texts, ∀ c ∈ text.toList, P c) : ∀ c ∈ ("/".intercalate texts).toList, P c :=
  Text.forall_mem_intercalate (List.forall_mem_singleton.mpr hslash) h

theorem Consists.pieces (h : p.Consists P) : ∀ piece ∈ p.pieces, ∀ c ∈ piece, P c :=
  fun _ hpiece c hc => h c (Text.of_mem_splitAtEach hpiece hc).1

theorem consists_ofPieces (hslash : P '/') {pieces : List (List Char)}
    (h : ∀ piece ∈ pieces, ∀ c ∈ piece, P c) : (ofPieces pieces).Consists P := by
  rw [ofPieces.eq_def]
  split
  · simpa [Consists] using hslash
  · refine forall_mem_intercalate hslash fun text htext => ?_
    obtain ⟨piece, hpiece, rfl⟩ := List.mem_map.mp htext
    simpa using h piece hpiece

theorem Consists.join (hslash : P '/') (hp : p.Consists P) (hq : q.Consists P) :
    (p.join q).Consists P := by
  rw [Path.join]
  split_ifs
  · exact hq
  · simpa [Consists, or_imp, forall_and] using ⟨hp, hq⟩
  · simpa [Consists, or_imp, forall_and] using ⟨hp, hslash, hq⟩

theorem Consists.parent (hslash : P '/') (h : p.Consists P) : p.parent.Consists P := by
  have hempty : (Path.mk "").Consists P := by simp [Consists]
  have hsub : ∀ {piece : List Char} {pieces : List (List Char)},
      piece ∈ (pieces.reverse.dropWhile isIdle).reverse → piece ∈ pieces := fun hpiece =>
    List.mem_reverse.mp ((List.dropWhile_suffix isIdle).subset (List.mem_reverse.mp hpiece))
  have hsolid : ∀ piece ∈ p.solidPieces, ∀ c ∈ piece, P c := by
    intro piece hpiece
    refine h.pieces piece ?_
    rw [solidPieces] at hpiece
    split at hpiece
    · cases hpiece
    · next first rest hpieces =>
      rw [hpieces]
      rcases List.mem_cons.mp hpiece with rfl | hpiece
      · exact List.mem_cons_self
      · exact List.mem_cons_of_mem first (hsub hpiece)
  rw [Path.parent, parent?]
  split
  · exact hempty
  · exact hempty
  · exact hempty
  · next first rest _ _ hpieces =>
    rw [hpieces] at hsolid
    refine consists_ofPieces hslash fun piece hpiece => hsolid piece ?_
    rcases List.mem_cons.mp hpiece with rfl | hpiece
    · exact List.mem_cons_self
    · exact List.mem_cons_of_mem first (List.dropLast_subset rest (hsub hpiece))

theorem mem_of_mem_settle {below : List Component} {c d : Component} (h : d ∈ settle below c) :
    d = c ∨ d ∈ below := by
  rw [settle.eq_def] at h
  split at h
  · exact Or.inr h
  · exact Or.inr (List.mem_cons_of_mem _ h)
  · exact Or.inr h
  · exact List.mem_cons.mp h

theorem mem_components_of_mem_settled {d : Component} (h : d ∈ p.settled) : d ∈ p.components := by
  have hfold : ∀ (cs below : List Component), d ∈ cs.foldl settle below → d ∈ cs ∨ d ∈ below := by
    intro cs
    induction cs with
    | nil => exact fun _ => Or.inr
    | cons c cs ih =>
      intro below hd
      rcases ih _ hd with hd | hd
      · exact Or.inl (List.mem_cons_of_mem c hd)
      · rcases mem_of_mem_settle hd with rfl | hd
        · exact Or.inl List.mem_cons_self
        · exact Or.inr hd
  exact (hfold _ _ (List.mem_reverse.mp h)).resolve_right (List.not_mem_nil)

theorem Consists.components (hslash : P '/') (hdot : P '.') (h : p.Consists P) :
    ∀ d ∈ p.components, ∀ c ∈ d.text.toList, P c := by
  have hread : ∀ pieces : List (List Char), (∀ piece ∈ pieces, piece ∈ p.pieces) →
      ∀ d ∈ pieces.filterMap component?, ∀ c ∈ d.text.toList, P c := by
    intro pieces hsub d hd
    obtain ⟨piece, hpiece, hcomponent⟩ := List.mem_filterMap.mp hd
    rw [component?] at hcomponent
    split_ifs at hcomponent <;> cases hcomponent
    · simpa [Component.text] using hdot
    · simpa [Component.text] using h.pieces piece (hsub piece hpiece)
  rw [Path.components]
  split
  · simp
  · simp
  · next rest _ hp =>
    exact List.forall_mem_cons.mpr ⟨by simpa [Component.text] using hslash,
      hread rest (by simp +contextual [hp])⟩
  · next rest hp =>
    exact List.forall_mem_cons.mpr ⟨by simpa [Component.text] using hdot,
      hread rest (by simp +contextual [hp])⟩
  · exact hread p.pieces fun _ hpiece => hpiece

theorem Consists.normalize (hslash : P '/') (hdot : P '.') (h : p.Consists P) :
    p.normalize.Consists P := by
  have htexts : ∀ text ∈ p.settled.map Component.text, ∀ c ∈ text.toList, P c := by
    intro text htext
    obtain ⟨d, hd, rfl⟩ := List.mem_map.mp htext
    exact h.components hslash hdot d (mem_components_of_mem_settled hd)
  rw [Path.normalize, ofComponents.eq_def]
  split
  · next rest hsettled =>
    rw [hsettled] at htexts
    have hrest := forall_mem_intercalate hslash (List.forall_mem_cons.mp htexts).2
    intro c hc
    rcases List.mem_append.mp (String.toList_append ▸ hc) with hc | hc
    · exact List.mem_singleton.mp hc ▸ hslash
    · exact hrest c hc
  · exact forall_mem_intercalate hslash htexts

end Path

end PugContracts
