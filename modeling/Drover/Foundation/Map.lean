import Drover.Foundation.Table

set_option autoImplicit false

/-!
# Maps

A map is a table whose rows are pairs of a key and a value.  `m.put (k, x)` is the
assignment `m[k] = x` and `m.erase k` is `delete(m, k)`; this file has what they do to
`lookup`, and the two things a loop over a map needs: its rows in whatever order the
loop visits them, and its keys as a set.

Nothing in this file names a particular program.
-/

namespace Drover.Foundation

/-- Values filed under keys. -/
abbrev Map (κ α : Type) := Table (Prod.fst : κ × α → κ)

/-- The order in which a loop visits the rows of a map: any order of them. -/
structure Visit (α : Type) where
  order : List α → List α
  perm : ∀ xs, (order xs).Perm xs

namespace Map

variable {κ α : Type}

/-- The map in which every key of `m` has the empty value. -/
def keySet (m : Map κ α) : Map κ Unit :=
  ⟨m.rows.map fun r => (r.1, ()), by
    rw [List.map_map]
    exact m.nodup⟩

variable [DecidableEq κ]

/-- `m[k]`. -/
def lookup (m : Map κ α) (k : κ) : Option α := (m.get? k).map Prod.snd

@[simp] theorem lookup_empty (k : κ) : lookup (Table.empty : Map κ α) k = none := rfl

theorem lookup_put (m : Map κ α) (k : κ) (x : α) (k' : κ) :
    lookup (m.put (k, x)) k' = if k = k' then some x else lookup m k' := by
  unfold lookup
  rw [Table.get?_put]
  by_cases h : k = k'
  · rw [if_pos h, if_pos h, Option.map_some]
  · rw [if_neg h, if_neg h]

theorem lookup_erase (m : Map κ α) (k k' : κ) :
    lookup (m.erase k) k' = if k' = k then none else lookup m k' := by
  unfold lookup
  rw [Table.get?_erase]
  by_cases h : k' = k
  · rw [if_pos h, if_pos h, Option.map_none]
  · rw [if_neg h, if_neg h]

theorem lookup_eq_some_iff {m : Map κ α} {k : κ} {x : α} :
    lookup m k = some x ↔ (k, x) ∈ m.rows := by
  unfold lookup
  rw [Option.map_eq_some_iff]
  constructor
  · rintro ⟨⟨k', x'⟩, hrow, rfl⟩
    obtain ⟨hmem, rfl⟩ := Table.get?_eq_some_iff.mp hrow
    exact hmem
  · intro hmem
    exact ⟨(k, x), Table.get?_of_mem hmem, rfl⟩

theorem isSome_lookup_iff {m : Map κ α} {k : κ} :
    (lookup m k).isSome ↔ ∃ row ∈ m.rows, row.1 = k := by
  rw [Option.isSome_iff_exists]
  constructor
  · rintro ⟨x, hx⟩
    exact ⟨(k, x), lookup_eq_some_iff.mp hx, rfl⟩
  · rintro ⟨⟨k, x⟩, hrow, rfl⟩
    exact ⟨x, lookup_eq_some_iff.mpr hrow⟩

theorem isSome_lookup_keySet {m : Map κ α} {k : κ} :
    (lookup (keySet m) k).isSome ↔ (lookup m k).isSome := by
  rw [isSome_lookup_iff, isSome_lookup_iff]
  unfold keySet
  constructor
  · rintro ⟨row, hrow, hk⟩
    obtain ⟨row', hrow', rfl⟩ := List.mem_map.mp hrow
    exact ⟨row', hrow', hk⟩
  · rintro ⟨row, hrow, hk⟩
    exact ⟨(row.1, ()), List.mem_map_of_mem hrow, hk⟩

/-- Assigning the rows of a list in turn leaves at each key what the last of them says. -/
theorem lookup_foldl_put {β : Type} (key : β → κ) (value : β → α) (xs : List β) (m : Map κ α)
    (k : κ) :
    lookup (xs.foldl (fun m x => m.put (key x, value x)) m) k =
      ((xs.reverse.find? fun x => key x = k).map value).or (lookup m k) := by
  induction xs generalizing m with
  | nil => rfl
  | cons x xs ih =>
      rw [List.foldl_cons, ih, List.reverse_cons, List.find?_append, lookup_put]
      cases hlater : xs.reverse.find? fun x => decide (key x = k) with
      | some y => rfl
      | none =>
          by_cases hk : key x = k
          · simp [hk]
          · simp [hk]

end Map

end Drover.Foundation
