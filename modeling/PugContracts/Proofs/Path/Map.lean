import Mathlib.Data.List.Nodup
import Mathlib.Data.List.Pairwise
import Mathlib.Tactic.Tauto
import PugContracts.Path.Map
import PugContracts.Path.Normal

/-!
# Looking up in maps of paths

What each operation of a `PathMap` does to look-ups, and what `Path.ordered` holds. Keys are told
apart by their components; for normal keys that is equality of the texts, which is where
`Path.compare_eq_iff` comes in.
-/

namespace PugContracts

universe u

namespace PathMap

variable {α : Type u} {m : PathMap α} {k j : Path} {v : α}

/-- A key is found if it compares equal to one that is there. -/
theorem contains_iff : m.contains j = true ↔ ∃ k ∈ m.keys, compare j k = .eq := by
  simp [contains, find?, keys]

theorem contains_insert : (m.insert k v).contains j = true ↔
    compare j k = .eq ∨ m.contains j = true := by
  rw [contains, find?_insert]
  split
  · next h => simp [h]
  · next h => simp [h, contains]

/-! ### Entries in order -/

/-- A key after all that are there goes to the end. -/
theorem insertEntry_of_lt {entries : List (Path × α)}
    (h : ∀ entry ∈ entries, compare entry.1 k = .lt) :
    insertEntry k v entries = entries ++ [(k, v)] := by
  induction entries with
  | nil => rfl
  | cons entry rest ih =>
    have hgt : compare k entry.1 = .gt := Std.OrientedCmp.gt_of_lt (h entry List.mem_cons_self)
    simp only [insertEntry, hgt, List.cons_append]
    rw [ih fun entry hentry => h entry (List.mem_cons_of_mem _ hentry)]

/-- **A map is what its entries make.** -/
@[simp] theorem ofList_entries (m : PathMap α) : ofList m.entries = m := by
  have hfold : ∀ (rest : List (Path × α)) (before : PathMap α),
      Ordered (before.entries ++ rest) →
        (rest.foldl (fun m entry => m.insert entry.1 entry.2) before).entries =
          before.entries ++ rest := by
    intro rest
    induction rest with
    | nil => intro before _; exact (List.append_nil _).symm
    | cons entry rest ih =>
      intro before hordered
      have hbefore : ∀ e ∈ before.entries, compare e.1 entry.1 = .lt := fun e he =>
        (List.pairwise_append.mp hordered).2.2 e he entry List.mem_cons_self
      have hinsert : (before.insert entry.1 entry.2).entries = before.entries ++ [entry] :=
        insertEntry_of_lt hbefore
      rw [List.foldl_cons, ih _ (by rw [hinsert]; simpa using hordered), hinsert]
      simp
  obtain ⟨entries, hordered⟩ := m
  have hentries := hfold entries empty hordered
  rw [ofList]
  show _ = (⟨entries, hordered⟩ : PathMap α)
  cases hm : entries.foldl (fun m entry => m.insert entry.1 entry.2) empty with
  | mk found _ =>
    rw [hm] at hentries
    subst hentries
    rfl

/-! ### Changing and leaving out entries -/

@[ext] theorem ext {m m' : PathMap α} (h : m.entries = m'.entries) : m = m' := by
  cases m
  cases m'
  cases h
  rfl

@[simp] theorem keys_mapValues {β : Type u} (m : PathMap α) (f : Path → α → β) :
    (m.mapValues f).keys = m.keys := by
  simp [keys, mapValues]

theorem mem_mapValues {β : Type u} {f : Path → α → β} {w : β} :
    (k, w) ∈ (m.mapValues f).entries ↔ ∃ v, (k, v) ∈ m.entries ∧ f k v = w := by
  simp only [mapValues, List.mem_map]
  constructor
  · rintro ⟨⟨k', v⟩, h, heq⟩
    obtain ⟨rfl, rfl⟩ := Prod.mk.inj heq
    exact ⟨v, h, rfl⟩
  · rintro ⟨v, h, rfl⟩
    exact ⟨(k, v), h, rfl⟩

theorem mem_filter {p : Path → α → Bool} :
    (k, v) ∈ (m.filter p).entries ↔ (k, v) ∈ m.entries ∧ p k v = true := by
  simp only [filter, List.mem_filter]

theorem mem_keys_iff : k ∈ m.keys ↔ ∃ v, (k, v) ∈ m.entries := by
  rw [keys, List.mem_map]
  constructor
  · rintro ⟨⟨k, v⟩, h, rfl⟩
    exact ⟨v, h⟩
  · rintro ⟨v, h⟩
    exact ⟨(k, v), h, rfl⟩

theorem mem_keys_filter {p : Path → α → Bool} :
    k ∈ (m.filter p).keys ↔ ∃ v, (k, v) ∈ m.entries ∧ p k v = true := by
  simp only [mem_keys_iff, mem_filter]

@[simp] theorem mapValues_mapValues {β γ : Type u} (m : PathMap α) (f : Path → α → β)
    (f' : Path → β → γ) : (m.mapValues f).mapValues f' = m.mapValues fun k v => f' k (f k v) := by
  ext1
  simp [mapValues]

theorem filter_mapValues {β : Type u} (m : PathMap α) (f : Path → α → β) (p : Path → β → Bool) :
    (m.mapValues f).filter p = (m.filter fun k v => p k (f k v)).mapValues f := by
  ext1
  simp [mapValues, filter, List.filter_map, Function.comp_def]

theorem filter_filter (m : PathMap α) (p p' : Path → α → Bool) :
    (m.filter p).filter p' = m.filter fun k v => p k v && p' k v := by
  ext1
  simp [filter, Bool.and_comm]

theorem mapValues_congr {β : Type u} {f f' : Path → α → β}
    (h : ∀ entry ∈ m.entries, f entry.1 entry.2 = f' entry.1 entry.2) :
    m.mapValues f = m.mapValues f' := by
  ext1
  exact List.map_congr_left fun entry hentry => by rw [h entry hentry]

theorem filter_congr {p p' : Path → α → Bool}
    (h : ∀ entry ∈ m.entries, p entry.1 entry.2 = p' entry.1 entry.2) :
    m.filter p = m.filter p' := by
  ext1
  exact List.filter_congr h

theorem mapValues_eq_self {f : Path → α → α}
    (h : ∀ entry ∈ m.entries, f entry.1 entry.2 = entry.2) : m.mapValues f = m := by
  ext1
  calc (m.mapValues f).entries = m.entries.map id :=
        List.map_congr_left fun entry hentry => by rw [h entry hentry]; rfl
    _ = m.entries := List.map_id _

theorem keys_filter_eq_nil {p : Path → α → Bool}
    (h : ∀ entry ∈ m.entries, p entry.1 entry.2 = false) : (m.filter p).keys = [] := by
  refine List.eq_nil_iff_forall_not_mem.mpr fun k hk => ?_
  obtain ⟨v, hv, hp⟩ := mem_keys_filter.mp hk
  rw [h _ hv] at hp
  exact absurd hp Bool.false_eq_true.mp

/-! ### Normal keys -/

/-- All keys are normal paths. -/
def Normal (m : PathMap α) : Prop :=
  ∀ k ∈ m.keys, k.normalize = k

theorem normal_empty : (empty : PathMap α).Normal := by
  intro k hk
  exact absurd hk List.not_mem_nil

theorem Normal.insert (h : m.Normal) (hk : k.normalize = k) : (m.insert k v).Normal := by
  intro j hj
  rcases mem_keys_insert hj with rfl | hj
  · exact hk
  · exact h j hj

theorem Normal.filter (h : m.Normal) (p : Path → α → Bool) : (m.filter p).Normal := by
  intro k hk
  obtain ⟨v, hv, _⟩ := mem_keys_filter.mp hk
  exact h k (List.mem_map_of_mem hv)

theorem Normal.mapValues {β : Type u} (h : m.Normal) (f : Path → α → β) :
    (m.mapValues f).Normal := by
  intro k hk
  rw [keys_mapValues] at hk
  exact h k hk

theorem Normal.of_mem (h : m.Normal) (hk : (k, v) ∈ m.entries) : k.normalize = k :=
  h k (List.mem_map.mpr ⟨(k, v), hk, rfl⟩)

/-- No key stands twice. -/
theorem nodup_keys (m : PathMap α) : m.keys.Nodup := by
  have hself : ∀ p : Path, compare p p = .eq := fun _ => Std.ReflCmp.compare_self
  rw [keys, List.Nodup, List.pairwise_map]
  refine m.ordered.imp fun hlt heq => ?_
  rw [heq, hself] at hlt
  exact absurd hlt (by decide)

/-- No key stands in two spellings. -/
theorem eq_of_compare_keys (hk : k ∈ m.keys) (hj : j ∈ m.keys) (h : compare k j = .eq) : k = j := by
  have hkeys : m.keys.Pairwise fun a b => compare a b = .lt := List.pairwise_map.mpr m.ordered
  have hsymm : Std.Symm fun a b : Path => compare a b = .eq → a = b :=
    ⟨fun _ _ h heq => (h (Std.OrientedCmp.eq_symm heq)).symm⟩
  have hpairs : m.keys.Pairwise fun a b => compare a b = .eq → a = b := by
    refine hkeys.imp fun hlt heq => ?_
    rw [hlt] at heq
    exact absurd heq (by decide)
  exact hpairs.forall_of_forall (fun _ _ _ => rfl) hk hj h

/-- A key has one value. -/
theorem eq_of_mem {w : α} (hv : (k, v) ∈ m.entries) (hw : (k, w) ∈ m.entries) : v = w :=
  congrArg Prod.snd (List.inj_on_of_nodup_map m.nodup_keys hv hw rfl)

/-- Under normal keys a look-up finds what is there under exactly this key. -/
theorem Normal.find?_eq_some_iff (h : m.Normal) (hk : k.normalize = k) :
    m.find? k = some v ↔ (k, v) ∈ m.entries := by
  have hsame : ∀ entry ∈ m.entries, compare k entry.1 = .eq ↔ k = entry.1 := fun entry hentry =>
    Path.compare_eq_iff hk (h.of_mem hentry)
  have hfound : ∀ entry, m.entries.find? (fun entry => compare k entry.1 == .eq) = some entry →
      entry ∈ m.entries ∧ k = entry.1 := by
    intro entry hfind
    have hmem := List.mem_of_find?_eq_some hfind
    have heq := List.find?_some hfind
    exact ⟨hmem, (hsame entry hmem).mp (by simpa using heq)⟩
  rw [find?, Option.map_eq_some_iff]
  constructor
  · rintro ⟨⟨key, value⟩, hfind, rfl⟩
    obtain ⟨hmem, rfl⟩ := hfound _ hfind
    exact hmem
  · intro hmem
    have hsome : (m.entries.find? fun entry => compare k entry.1 == .eq).isSome :=
      List.find?_isSome.mpr ⟨(k, v), hmem, beq_iff_eq.mpr ((hsame (k, v) hmem).mpr rfl)⟩
    obtain ⟨entry, hfind⟩ := Option.isSome_iff_exists.mp hsome
    obtain ⟨hentry, hkey⟩ := hfound entry hfind
    exact ⟨entry, hfind,
      congrArg Prod.snd (List.inj_on_of_nodup_map m.nodup_keys hentry hmem hkey.symm)⟩

/-- What is there under normal keys after an insertion. -/
theorem Normal.mem_insert (h : m.Normal) (hk : k.normalize = k) {w : α} :
    (j, w) ∈ (m.insert k v).entries ↔ j = k ∧ w = v ∨ j ≠ k ∧ (j, w) ∈ m.entries := by
  have hinsert : (m.insert k v).Normal := h.insert hk
  by_cases hj : j.normalize = j
  · rw [← hinsert.find?_eq_some_iff hj, ← h.find?_eq_some_iff hj, find?_insert]
    split
    · next heq =>
      obtain rfl := (Path.compare_eq_iff hj hk).mp heq
      simp [eq_comm]
    · next hne =>
      have hne : j ≠ k := fun heq => hne ((Path.compare_eq_iff hj hk).mpr heq)
      simp [hne]
  · constructor
    · exact fun hmem => absurd (hinsert.of_mem hmem) hj
    · rintro (⟨rfl, -⟩ | ⟨-, hmem⟩)
      · exact absurd hk hj
      · exact absurd (h.of_mem hmem) hj

/-- Entries under different normal keys are all there. -/
theorem mem_ofList {entries : List (Path × α)} (hnormal : ∀ key ∈ entries.map Prod.fst,
    key.normalize = key) (hnodup : (entries.map Prod.fst).Nodup) {entry : Path × α} :
    entry ∈ (ofList entries).entries ↔ entry ∈ entries := by
  have hfold : ∀ (rest : List (Path × α)) (before : PathMap α), before.Normal →
      (∀ key ∈ rest.map Prod.fst, key.normalize = key ∧ key ∉ before.keys) →
      (rest.map Prod.fst).Nodup →
      (entry ∈ (rest.foldl (fun m entry => m.insert entry.1 entry.2) before).entries ↔
        entry ∈ before.entries ∨ entry ∈ rest) := by
    intro rest
    induction rest with
    | nil => simp
    | cons first rest ih =>
      obtain ⟨key, value⟩ := first
      intro before hbefore hkeys hnodup
      obtain ⟨⟨hkey, hfresh⟩, hrest⟩ := List.forall_mem_cons.mp hkeys
      obtain ⟨hfirst, hnodup⟩ := List.nodup_cons.mp hnodup
      rw [List.foldl_cons, ih _ (hbefore.insert hkey) (fun other hother => ?_) hnodup]
      · obtain ⟨j, w⟩ := entry
        rw [hbefore.mem_insert hkey, List.mem_cons, Prod.mk.injEq, or_assoc, or_left_comm]
        refine or_congr_left ⟨And.right, fun hmem => ⟨?_, hmem⟩⟩
        rintro rfl
        exact hfresh (mem_keys_iff.mpr ⟨w, hmem⟩)
      · refine ⟨(hrest other hother).1, fun hmem => ?_⟩
        rcases mem_keys_insert hmem with rfl | hmem
        · exact hfirst hother
        · exact (hrest other hother).2 hmem
  rw [ofList, hfold entries empty normal_empty
    (fun key hkey => ⟨hnormal key hkey, List.not_mem_nil⟩) hnodup]
  exact or_iff_right List.not_mem_nil

theorem Normal.mem_erase (h : m.Normal) (hk : k.normalize = k) {w : α} :
    (j, w) ∈ (m.erase k).entries ↔ j ≠ k ∧ (j, w) ∈ m.entries := by
  rw [erase, mem_filter, and_comm]
  refine and_congr_left fun hmem => ?_
  rw [bne_iff_ne, ne_eq, Path.compare_eq_iff hk (h.of_mem hmem), ne_eq, eq_comm]

end PathMap

/-! ### Ordered lists of paths -/

theorem PathMap.contains_foldl_insert {α : Type u} (entries : List (Path × α)) (m : PathMap α)
    (j : Path) :
    (entries.foldl (fun m entry => m.insert entry.1 entry.2) m).contains j = true ↔
      m.contains j = true ∨ ∃ entry ∈ entries, compare j entry.1 = .eq := by
  induction entries generalizing m with
  | nil => simp
  | cons entry rest ih =>
    rw [List.foldl_cons, ih, PathMap.contains_insert]
    simp only [List.mem_cons, exists_eq_or_imp]
    tauto

/-- The paths stand in their order, each once. -/
def Path.Increasing (paths : List Path) : Prop :=
  paths.Pairwise fun p q => compare p q = .lt

/-- No path stands before itself. -/
theorem Path.not_compare_self_lt (p : Path) : compare p p ≠ .lt := by
  have hself : compare p p = .eq := Std.ReflCmp.compare_self
  rw [hself]
  decide

theorem Path.Increasing.nodup {paths : List Path} (h : Path.Increasing paths) : paths.Nodup := by
  refine List.Pairwise.imp (fun {p q} hlt => ?_) h
  rintro rfl
  exact Path.not_compare_self_lt p hlt

theorem Path.increasing_ordered (paths : List Path) : Path.Increasing (Path.ordered paths) :=
  List.pairwise_map.mpr (PathMap.ordered _)

/-- No path is listed twice among paths in order. -/
theorem Path.nodup_ordered (paths : List Path) : (Path.ordered paths).Nodup :=
  (Path.increasing_ordered paths).nodup

/-- Putting normal paths in order loses none and adds none. -/
theorem Path.mem_ordered {paths : List Path} (hnormal : ∀ p ∈ paths, p.normalize = p) {p : Path} :
    p ∈ Path.ordered paths ↔ p ∈ paths := by
  have hkeys : ∀ q ∈ Path.ordered paths, q ∈ paths := fun _ => of_mem_ordered
  constructor
  · exact hkeys p
  · intro hp
    have hcontains : (PathMap.ofList (paths.map fun p => (p, ()))).contains p = true :=
      (PathMap.contains_foldl_insert _ _ _).mpr
        (Or.inr ⟨(p, ()), List.mem_map.mpr ⟨p, hp, rfl⟩, Std.ReflCmp.compare_self⟩)
    obtain ⟨q, hq, heq⟩ := PathMap.contains_iff.mp hcontains
    rw [(Path.compare_eq_iff (hnormal p hp) (hnormal q (hkeys q hq))).mp heq]
    exact hq

/-- Lists in the strict order of some keys are equal if they have the same members. -/
theorem Path.eq_of_pairwise_compare {β : Type u} (key : β → Path) {as bs : List β}
    (has : as.Pairwise fun a b => compare (key a) (key b) = .lt)
    (hbs : bs.Pairwise fun a b => compare (key a) (key b) = .lt) (h : ∀ b, b ∈ as ↔ b ∈ bs) :
    as = bs := by
  have hnodup : ∀ {cs : List β}, cs.Pairwise (fun a b => compare (key a) (key b) = .lt) →
      cs.Nodup := fun hcs => List.Pairwise.imp (fun {a b} hlt heq => by
        rw [heq] at hlt
        exact not_compare_self_lt _ hlt) hcs
  have hperm := (List.perm_ext_iff_of_nodup (hnodup has) (hnodup hbs)).mpr h
  refine hperm.eq_of_pairwise (fun a b _ _ hab hba => ?_) has hbs
  rw [Std.OrientedCmp.gt_of_lt hab] at hba
  exact absurd hba (by decide)

end PugContracts
