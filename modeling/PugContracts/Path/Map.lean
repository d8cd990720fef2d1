import PugContracts.Path.Basic

/-!
# Maps keyed by paths

`PathMap α` holds at most one value for each sequence of path components, in the order of paths.
The order is part of the type: `ordered` says that every key stands strictly before the ones after
it, which is what every operation keeps. A key stays spelled as it was first inserted.
-/

namespace PugContracts

universe u v

/-- Entries of a map stand in the strict order of their keys. -/
def PathMap.Ordered {α : Type u} (entries : List (Path × α)) : Prop :=
  entries.Pairwise fun a b => compare a.1 b.1 = .lt

/-- A finite map from paths, in the order of paths. -/
structure PathMap (α : Type u) where
  /-- The keys with their values. -/
  entries : List (Path × α)
  /-- The keys are strictly increasing. -/
  ordered : PathMap.Ordered entries

namespace PathMap

variable {α : Type u} {β : Type v}

/-- The map without entries. -/
def empty : PathMap α :=
  ⟨[], List.Pairwise.nil⟩

instance : EmptyCollection (PathMap α) := ⟨empty⟩

instance : Inhabited (PathMap α) := ⟨empty⟩

/-- The keys, in order. -/
def keys (m : PathMap α) : List Path :=
  m.entries.map Prod.fst

/-- The values, in the order of their keys. -/
def values (m : PathMap α) : List α :=
  m.entries.map Prod.snd

/-- The number of entries. -/
def size (m : PathMap α) : Nat :=
  m.entries.length

/-- The value of a key. -/
def find? (m : PathMap α) (k : Path) : Option α :=
  (m.entries.find? fun entry => compare k entry.1 == .eq).map Prod.snd

/-- Whether a key has a value. -/
def contains (m : PathMap α) (k : Path) : Bool :=
  (m.find? k).isSome

/-! ### Insertion -/

/-- Put a value into an ordered list of entries. -/
def insertEntry (k : Path) (v : α) : List (Path × α) → List (Path × α)
  | [] => [(k, v)]
  | entry :: rest =>
    match compare k entry.1 with
    | .lt => (k, v) :: entry :: rest
    | .eq => (entry.1, v) :: rest
    | .gt => entry :: insertEntry k v rest

theorem mem_insertEntry {k : Path} {v : α} {entries : List (Path × α)} {x : Path × α}
    (h : x ∈ insertEntry k v entries) :
    x ∈ entries ∨ compare x.1 k = .eq := by
  induction entries with
  | nil =>
    simp only [insertEntry, List.mem_singleton] at h
    exact Or.inr (by rw [h]; exact Std.ReflCmp.compare_self)
  | cons entry rest ih =>
    simp only [insertEntry] at h
    split at h
    · rcases List.mem_cons.1 h with rfl | h
      · exact Or.inr Std.ReflCmp.compare_self
      · exact Or.inl h
    · next hk =>
      rcases List.mem_cons.1 h with rfl | h
      · exact Or.inr (Std.OrientedCmp.eq_symm hk)
      · exact Or.inl (List.mem_cons_of_mem _ h)
    · rcases List.mem_cons.1 h with rfl | h
      · exact Or.inl List.mem_cons_self
      · exact (ih h).imp_left (List.mem_cons_of_mem _)

theorem Ordered.insertEntry {k : Path} {v : α} {entries : List (Path × α)}
    (h : Ordered entries) : Ordered (insertEntry k v entries) := by
  induction entries with
  | nil => exact List.pairwise_singleton _ _
  | cons entry rest ih =>
    obtain ⟨first, tail⟩ := List.pairwise_cons.1 h
    simp only [PathMap.insertEntry]
    split
    · next hk =>
      refine List.pairwise_cons.2 ⟨fun x hx => ?_, h⟩
      rcases List.mem_cons.1 hx with rfl | hx
      · exact hk
      · exact Std.TransCmp.lt_trans hk (first x hx)
    · exact List.pairwise_cons.2 ⟨fun x hx => first x hx, tail⟩
    · next hk =>
      refine List.pairwise_cons.2 ⟨fun x hx => ?_, ih tail⟩
      rcases mem_insertEntry hx with hx | hx
      · exact first x hx
      · exact Std.TransCmp.lt_of_lt_of_eq (Std.OrientedCmp.lt_of_gt hk)
          (Std.OrientedCmp.eq_symm hx)

/-- Give a key a value. A key that has one already keeps its spelling. -/
def insert (m : PathMap α) (k : Path) (v : α) : PathMap α :=
  ⟨insertEntry k v m.entries, m.ordered.insertEntry⟩

/-- The map that results from inserting the entries of a list one after the other. -/
def ofList (entries : List (Path × α)) : PathMap α :=
  entries.foldl (fun m entry => m.insert entry.1 entry.2) empty

@[simp] theorem find?_empty (j : Path) : (empty : PathMap α).find? j = none := rfl

/-- **Look up after an insertion.** -/
theorem find?_insert (m : PathMap α) (k j : Path) (v : α) :
    (m.insert k v).find? j = if compare j k = .eq then some v else m.find? j := by
  obtain ⟨entries, hordered⟩ := m
  simp only [insert, find?]
  clear hordered
  induction entries with
  | nil => by_cases h : compare j k = .eq <;> simp [insertEntry, h]
  | cons entry rest ih =>
    rw [insertEntry]
    split
    · by_cases h : compare j k = .eq <;> simp [h]
    · next heq =>
      have hcongr : compare j entry.1 = compare j k := (Std.TransCmp.congr_right heq).symm
      by_cases h : compare j k = .eq <;> simp [hcongr, h]
    · next hgt =>
      by_cases hj : compare j entry.1 = .eq
      · have hne : compare j k ≠ .eq := by
          intro hjk
          rw [Std.TransCmp.congr_left (Std.OrientedCmp.eq_symm hjk), hj] at hgt
          exact absurd hgt (by decide)
        simp [hj, hne]
      · have hskip : (compare j entry.1 == .eq) = false := by simpa using hj
        rw [List.find?_cons_of_neg (by simp [hskip]), List.find?_cons_of_neg (by simp [hskip])]
        exact ih

theorem mem_keys_insert {m : PathMap α} {k j : Path} {v : α} (h : j ∈ (m.insert k v).keys) :
    j = k ∨ j ∈ m.keys := by
  obtain ⟨entries, hordered⟩ := m
  simp only [insert, keys] at h ⊢
  clear hordered
  induction entries with
  | nil => exact Or.inl (by simpa [insertEntry] using h)
  | cons entry rest ih =>
    rw [insertEntry] at h
    split at h
    · simpa using h
    · exact Or.inr (by simpa using h)
    · rw [List.map_cons, List.mem_cons] at h
      rcases h with rfl | h
      · exact Or.inr (by simp)
      · exact (ih h).imp_right fun h => by simp only [List.map_cons, List.mem_cons, h, or_true]

theorem mem_keys_foldl_insert {entries : List (Path × α)} {m : PathMap α} {j : Path}
    (h : j ∈ (entries.foldl (fun m entry => m.insert entry.1 entry.2) m).keys) :
    j ∈ m.keys ∨ j ∈ entries.map Prod.fst := by
  induction entries generalizing m with
  | nil => exact Or.inl h
  | cons entry rest ih =>
    rcases ih h with h | h
    · rcases mem_keys_insert h with rfl | h
      · exact Or.inr (by simp)
      · exact Or.inl h
    · exact Or.inr (List.mem_cons_of_mem _ h)

/-! ### Other operations -/

theorem Ordered.of_map_eq {as : List (Path × α)} {bs : List (Path × β)}
    (same : bs.map Prod.fst = as.map Prod.fst) (h : Ordered as) : Ordered bs := by
  have keys : (as.map Prod.fst).Pairwise fun a b => compare a b = .lt := List.pairwise_map.2 h
  rw [← same] at keys
  exact List.pairwise_map.1 keys

/-- Keep the entries that satisfy a condition. -/
def filter (m : PathMap α) (p : Path → α → Bool) : PathMap α :=
  ⟨m.entries.filter fun entry => p entry.1 entry.2, m.ordered.filter _⟩

/-- Take the value of a key away. -/
def erase (m : PathMap α) (k : Path) : PathMap α :=
  m.filter fun key _ => compare k key != .eq

/-- Change every value. -/
def mapValues (m : PathMap α) (f : Path → α → β) : PathMap β :=
  ⟨m.entries.map fun entry => (entry.1, f entry.1 entry.2),
    m.ordered.of_map_eq (by simp [Function.comp_def])⟩

/-- Change the value of one key, if it has one. -/
def modify (m : PathMap α) (k : Path) (f : α → α) : PathMap α :=
  m.mapValues fun key value => if compare k key = .eq then f value else value

end PathMap

/-- The members of a list of paths, in order and each once. -/
def Path.ordered (paths : List Path) : List Path :=
  (PathMap.ofList (paths.map fun p => (p, ()))).keys

theorem Path.of_mem_ordered {paths : List Path} {p : Path} (h : p ∈ Path.ordered paths) :
    p ∈ paths := by
  rcases PathMap.mem_keys_foldl_insert h with h | h
  · exact absurd h List.not_mem_nil
  · simpa using h

end PugContracts
