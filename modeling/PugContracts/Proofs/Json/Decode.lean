import Mathlib.Data.List.Nodup
import PugContracts.Json.Decode
import PugContracts.Proofs.Json.RoundTrip

/-!
# Reading what was written

A reader and a writer for the same type belong together when the reader gives back exactly the
values that fit what it accepts, unchanged, and nothing for the others: `Recovers`. The condition is
there for numbers, which a reader takes only up to a limit. It says at once that what fits comes
back and that whatever comes back is what was written.

Each combinator of readers has one lemma, so a reader for a record is treated member by member.
-/

namespace PugContracts.Json

variable {α β : Type}

/-- The reader gives back what was written if it fits, and nothing otherwise. -/
def Recovers (decode : Decoder α) (encode : α → Value) (fits : α → Bool) : Prop :=
  ∀ x, decode (encode x) = Option.guard fits x

/-- Everything fits. -/
def always : α → Bool := fun _ => true

@[simp] theorem always_eq_true (x : α) : always x = true := rfl

/-- What follows a value that may not fit is reached if it fits. -/
theorem bind_guarded (p : Prop) [Decidable p] (x : α) (f : α → Option β) :
    (if p then some x else none).bind f = if p then f x else none := by
  split <;> rfl

theorem recovers_text : Recovers asText? .text always := fun _ => rfl

theorem recovers_count (limit : Nat) : Recovers (asCount? limit) .count (· < limit) := by
  intro n
  by_cases h : n < limit <;> simp [asCount?, Option.guard, h]

/-- A list fits if each of its items does. -/
theorem Recovers.listOf {decode : Decoder α} {encode : α → Value} {fits : α → Bool}
    (h : Recovers decode encode fits) :
    Recovers (asList? decode) (.listOf encode) (·.all fits) := by
  intro items
  show (items.map encode).mapM decode = _
  induction items with
  | nil => rfl
  | cons item items ih =>
    rw [List.map_cons, List.mapM_cons, ih, h item]
    cases hitem : fits item <;> cases hitems : items.all fits <;>
      simp [Option.guard, hitem, hitems]

/-- A value that may be absent is told from `null` as long as no value is written as `null`. -/
theorem Recovers.optional {decode : Decoder α} {encode : α → Value} {fits : α → Bool}
    (h : Recovers decode encode fits) (hnull : ∀ x, encode x ≠ .null) :
    Recovers (asOptional? decode) (.optional encode) (·.all fits) := by
  intro value
  cases value with
  | none => rfl
  | some x =>
    have hsome : asOptional? decode (encode x) = (decode (encode x)).map some := by
      rw [asOptional?.eq_def]
      split
      · next hx => exact absurd hx (hnull x)
      · rfl
    show asOptional? decode (encode x) = _
    rw [hsome, h x]
    cases hfits : fits x <;> simp [Option.guard, hfits]

/-! ### Records -/

theorem eraseDups_of_nodup {names : List String} (h : names.Nodup) : names.eraseDups = names := by
  induction names with
  | nil => rfl
  | cons name names ih =>
    obtain ⟨hname, hnames⟩ := List.nodup_cons.mp h
    have hfilter : (names.filter fun other => !other == name) = names :=
      List.filter_eq_self.mpr fun other hother => by
        simpa using ne_of_mem_of_not_mem hother hname
    rw [List.eraseDups_cons, hfilter, ih hnames]

/-- A record is read with all its members if they are known and stand once each. -/
theorem Record.read?_object {names : List String} {members : List (String × Value)}
    (hknown : ∀ name ∈ members.map Prod.fst, name ∈ names)
    (hunique : (members.map Prod.fst).Nodup) :
    Record.read? names (.object members) = some ⟨false, members⟩ := by
  show (if ((members.filter _).map Prod.fst).eraseDups.length = _ then _ else _) = _
  rw [List.filter_eq_self.mpr, eraseDups_of_nodup hunique, if_pos rfl]
  intro member hmember
  exact List.contains_iff_mem.mpr (hknown member.1 (List.mem_map_of_mem hmember))

end PugContracts.Json
