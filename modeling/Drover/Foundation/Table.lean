import Mathlib.Data.List.Nodup

set_option autoImplicit false

/-!
# Keyed tables

A table is a finite list of rows in which no two rows share a key.  The key is
a projection of the row itself, so a row can never be filed under a key it does
not carry.  `put` is the assignment `m[key r] = r` of a map: it replaces the row
that carries the key, in place, and otherwise appends the new one.

Nothing in this file names a particular program.
-/

namespace Drover.Foundation

/-- Rows filed under the key each of them carries. -/
structure Table {α κ : Type} (key : α → κ) where
  /-- The stored rows. -/
  rows : List α
  /-- No key is carried twice. -/
  nodup : (rows.map key).Nodup

namespace Table

variable {α κ : Type} {key : α → κ}

@[ext] theorem ext {t u : Table key} (h : t.rows = u.rows) : t = u := by
  cases t
  cases u
  cases h
  rfl

/-- The table with no rows. -/
def empty : Table key := ⟨[], List.nodup_nil⟩

variable [DecidableEq κ]

/-- The row filed under `k`. -/
def get? (t : Table key) (k : κ) : Option α :=
  t.rows.find? fun r => key r = k

@[simp] theorem get?_empty (k : κ) : (empty : Table key).get? k = none := rfl

theorem key_of_get? {t : Table key} {k : κ} {r : α} (h : t.get? k = some r) :
    key r = k := by
  simpa using List.find?_some h

theorem mem_of_get? {t : Table key} {k : κ} {r : α} (h : t.get? k = some r) :
    r ∈ t.rows :=
  List.mem_of_find?_eq_some h

/-- Looking a stored row up by its own key finds that row. -/
theorem get?_of_mem {t : Table key} {r : α} (h : r ∈ t.rows) :
    t.get? (key r) = some r := by
  cases hfind : t.get? (key r) with
  | none =>
      have habsent := List.find?_eq_none.mp hfind r h
      simp at habsent
  | some found =>
      have hkey : key found = key r := key_of_get? hfind
      rw [List.inj_on_of_nodup_map t.nodup (mem_of_get? hfind) h hkey]

theorem get?_eq_some_iff {t : Table key} {k : κ} {r : α} :
    t.get? k = some r ↔ r ∈ t.rows ∧ key r = k := by
  constructor
  · intro h
    exact ⟨mem_of_get? h, key_of_get? h⟩
  · rintro ⟨hmem, rfl⟩
    exact get?_of_mem hmem

theorem get?_eq_none_iff {t : Table key} {k : κ} :
    t.get? k = none ↔ ∀ r ∈ t.rows, key r ≠ k := by
  simp [get?, List.find?_eq_none]

theorem isSome_get?_iff {t : Table key} {k : κ} :
    (t.get? k).isSome = true ↔ k ∈ t.rows.map key := by
  rw [Option.isSome_iff_exists, List.mem_map]
  exact exists_congr fun r => get?_eq_some_iff

omit [DecidableEq κ] in
/-- Among stored rows, a row is listed when its key is. -/
theorem mem_iff_key_mem {t : Table key} {xs : List α} (hxs : ∀ x ∈ xs, x ∈ t.rows) {r : α}
    (hr : r ∈ t.rows) : r ∈ xs ↔ key r ∈ xs.map key := by
  constructor
  · exact List.mem_map_of_mem
  · intro hkey
    obtain ⟨x, hx, heq⟩ := List.mem_map.mp hkey
    rw [← List.inj_on_of_nodup_map t.nodup (hxs x hx) hr heq]
    exact hx

/-- A list of stored rows without repetition is what its keys select, in some order. -/
theorem perm_filter_keys {t : Table key} {xs : List α} (hxs : ∀ x ∈ xs, x ∈ t.rows)
    (hnodup : (xs.map key).Nodup) :
    xs.Perm (t.rows.filter fun r => decide (key r ∈ xs.map key)) := by
  rw [List.perm_ext_iff_of_nodup hnodup.of_map (t.nodup.of_map.filter _)]
  intro r
  rw [List.mem_filter, decide_eq_true_iff]
  constructor
  · exact fun hr => ⟨hxs r hr, List.mem_map_of_mem hr⟩
  · exact fun hr => (mem_iff_key_mem hxs hr.1).mpr hr.2

/-- Replace the row that carries the key of `r`, leaving every other row. -/
def replaceRow (key : α → κ) (r : α) (rows : List α) : List α :=
  rows.map fun old => if key old = key r then r else old

theorem map_key_replaceRow (r : α) (rows : List α) :
    (replaceRow key r rows).map key = rows.map key := by
  rw [replaceRow, List.map_map]
  refine List.map_congr_left fun old _ => ?_
  by_cases h : key old = key r <;> simp [h]

/-- The assignment `t[key r] = r`. -/
def put (t : Table key) (r : α) : Table key :=
  if h : key r ∈ t.rows.map key then
    ⟨replaceRow key r t.rows, by rw [map_key_replaceRow]; exact t.nodup⟩
  else
    ⟨t.rows ++ [r], by
      rw [List.map_append, List.nodup_append]
      refine ⟨t.nodup, by simp, ?_⟩
      intro a ha b hb
      have hb' : b = key r := by simpa using hb
      subst hb'
      rintro rfl
      exact h ha⟩

theorem find?_replaceRow_ne {r : α} {k : κ} (h : key r ≠ k) (rows : List α) :
    (replaceRow key r rows).find? (fun x => key x = k) =
      rows.find? (fun x => key x = k) := by
  induction rows with
  | nil => rfl
  | cons old rest ih =>
      simp only [replaceRow, List.map_cons] at ih ⊢
      by_cases hold : key old = key r
      · have hold' : key old ≠ k := fun e => h (hold ▸ e)
        simp only [if_pos hold, List.find?_cons, decide_eq_false h, decide_eq_false hold']
        exact ih
      · simp only [if_neg hold, List.find?_cons]
        rw [ih]

theorem mem_put_self (t : Table key) (r : α) : r ∈ (t.put r).rows := by
  unfold put
  split
  · rename_i h
    obtain ⟨old, hold, hkey⟩ := List.mem_map.mp h
    exact List.mem_map.mpr ⟨old, hold, by simp [hkey]⟩
  · simp

@[simp] theorem get?_put_self (t : Table key) (r : α) :
    (t.put r).get? (key r) = some r :=
  get?_of_mem (mem_put_self t r)

theorem get?_put_of_ne {t : Table key} {r : α} {k : κ} (h : key r ≠ k) :
    (t.put r).get? k = t.get? k := by
  unfold put get?
  split
  · exact find?_replaceRow_ne h t.rows
  · simp [List.find?_append, h]

theorem get?_put (t : Table key) (r : α) (k : κ) :
    (t.put r).get? k = if key r = k then some r else t.get? k := by
  by_cases h : key r = k
  · subst h
    simp
  · rw [if_neg h, get?_put_of_ne h]

/-- The rows after an assignment: the new one, and the others as they were. -/
theorem mem_put_iff {t : Table key} {r x : α} :
    x ∈ (t.put r).rows ↔ x = r ∨ (x ∈ t.rows ∧ key x ≠ key r) := by
  constructor
  · intro hx
    have hget := get?_of_mem hx
    rw [get?_put] at hget
    by_cases hkey : key r = key x
    · rw [if_pos hkey] at hget
      exact Or.inl (Option.some.inj hget).symm
    · rw [if_neg hkey] at hget
      exact Or.inr ⟨mem_of_get? hget, Ne.symm hkey⟩
  · rintro (rfl | ⟨hx, hkey⟩)
    · exact mem_put_self t x
    · have hget := get?_put_of_ne (t := t) (Ne.symm hkey)
      rw [get?_of_mem hx] at hget
      exact mem_of_get? hget

/-- Filing a batch of rows, one after another. -/
def putAll (t : Table key) (rs : List α) : Table key := rs.foldl put t

@[simp] theorem putAll_nil (t : Table key) : t.putAll [] = t := rfl

@[simp] theorem putAll_cons (t : Table key) (r : α) (rs : List α) :
    t.putAll (r :: rs) = (t.put r).putAll rs := rfl

theorem get?_putAll_of_notMem {t : Table key} {rs : List α} {k : κ}
    (h : k ∉ rs.map key) : (t.putAll rs).get? k = t.get? k := by
  induction rs generalizing t with
  | nil => rfl
  | cons r rs ih =>
      simp only [List.map_cons, List.mem_cons, not_or] at h
      rw [putAll_cons, ih h.2, get?_put_of_ne (Ne.symm h.1)]

theorem get?_putAll_of_mem {t : Table key} {rs : List α} (hnodup : (rs.map key).Nodup)
    {r : α} (h : r ∈ rs) : (t.putAll rs).get? (key r) = some r := by
  induction rs generalizing t with
  | nil => simp at h
  | cons first rs ih =>
      simp only [List.map_cons, List.nodup_cons] at hnodup
      rw [putAll_cons]
      rcases List.mem_cons.mp h with rfl | hmem
      · rw [get?_putAll_of_notMem hnodup.1, get?_put_self]
      · exact ih hnodup.2 hmem

/-- The rows after a batch is filed: the batch, and the others as they were. -/
theorem mem_putAll_iff {t : Table key} {rs : List α} (hnodup : (rs.map key).Nodup) {x : α} :
    x ∈ (t.putAll rs).rows ↔ x ∈ rs ∨ (x ∈ t.rows ∧ key x ∉ rs.map key) := by
  have hget : x ∈ (t.putAll rs).rows ↔ (t.putAll rs).get? (key x) = some x := by
    rw [get?_eq_some_iff, and_iff_left rfl]
  rw [hget]
  by_cases hkey : key x ∈ rs.map key
  · obtain ⟨r, hr, heq⟩ := List.mem_map.mp hkey
    rw [← heq, get?_putAll_of_mem hnodup hr]
    constructor
    · intro hsome
      rw [← Option.some.inj hsome]
      exact Or.inl hr
    · rintro (hx | ⟨-, hnot⟩)
      · rw [List.inj_on_of_nodup_map hnodup hr hx heq]
      · exact absurd (List.mem_map_of_mem hr) hnot
  · rw [get?_putAll_of_notMem hkey, get?_eq_some_iff]
    constructor
    · exact fun h => Or.inr ⟨h.1, hkey⟩
    · rintro (hx | hx)
      · exact absurd (List.mem_map_of_mem hx) hkey
      · exact ⟨hx.1, rfl⟩

theorem putAll_append (t : Table key) (rs rs' : List α) :
    t.putAll (rs ++ rs') = (t.putAll rs).putAll rs' :=
  List.foldl_append

/-- A batch under free keys is filed behind the rows that are there. -/
theorem rows_putAll_of_free {t : Table key} {rs : List α} (hfree : ∀ r ∈ rs, t.get? (key r) = none)
    (hnodup : (rs.map key).Nodup) : (t.putAll rs).rows = t.rows ++ rs := by
  induction rs generalizing t with
  | nil => simp
  | cons r rs ih =>
      rw [List.map_cons, List.nodup_cons] at hnodup
      have hnew : key r ∉ t.rows.map key := by
        intro hmem
        obtain ⟨old, hold, heq⟩ := List.mem_map.mp hmem
        exact get?_eq_none_iff.mp (hfree r List.mem_cons_self) old hold heq
      have hput : (t.put r).rows = t.rows ++ [r] := by
        rw [put, dif_neg hnew]
      rw [putAll_cons, ih ?_ hnodup.2, hput, List.append_assoc, List.singleton_append]
      intro r' hr'
      have hne : key r ≠ key r' := fun heq => hnodup.1 (heq ▸ List.mem_map_of_mem hr')
      rw [get?_put_of_ne hne]
      exact hfree r' (List.mem_cons_of_mem _ hr')

/-- Filing a row that is stored already changes nothing. -/
theorem put_of_get? {t : Table key} {k : κ} {r : α} (h : t.get? k = some r) : t.put r = t := by
  have hmem := mem_of_get? h
  unfold put
  rw [dif_pos (List.mem_map_of_mem hmem)]
  apply ext
  show replaceRow key r t.rows = t.rows
  conv_rhs => rw [← List.map_id t.rows]
  refine List.map_congr_left fun old hold => ?_
  by_cases hkey : key old = key r
  · rw [if_pos hkey, List.inj_on_of_nodup_map t.nodup hold hmem hkey, id]
  · rw [if_neg hkey, id]

/-- `delete(t, k)`. -/
def erase (t : Table key) (k : κ) : Table key :=
  ⟨t.rows.filter fun r => key r ≠ k, t.nodup.sublist (List.filter_sublist.map key)⟩

theorem get?_erase (t : Table key) (k k' : κ) :
    (t.erase k).get? k' = if k' = k then none else t.get? k' := by
  by_cases h : k' = k
  · subst h
    rw [if_pos rfl, get?_eq_none_iff]
    intro r hr
    simpa using (List.mem_filter.mp hr).2
  · rw [if_neg h]
    unfold get? erase
    rw [List.find?_filter]
    congr 1
    funext r
    by_cases hkey : key r = k'
    · simp [hkey, h]
    · simp [hkey]

/-- `UPDATE ... SET f WHERE p`, by a function that keeps the key. -/
def updateWhere (t : Table key) (p : α → Bool) (f : α → α) (hf : ∀ r, key (f r) = key r) :
    Table key :=
  ⟨t.rows.map fun r => if p r then f r else r, by
    rw [List.map_map]
    have hkeys : t.rows.map (key ∘ fun r => if p r then f r else r) = t.rows.map key := by
      refine List.map_congr_left fun r _ => ?_
      by_cases hp : p r
      · simp [hp, hf]
      · simp [hp]
    rw [hkeys]
    exact t.nodup⟩

theorem get?_updateWhere {t : Table key} {p : α → Bool} {f : α → α}
    (hf : ∀ r, key (f r) = key r) (k : κ) :
    (t.updateWhere p f hf).get? k = (t.get? k).map fun r => if p r then f r else r := by
  have hkey : ∀ r, key (if p r then f r else r) = key r := by
    intro r
    by_cases hp : p r
    · simp [hp, hf]
    · simp [hp]
  unfold get? updateWhere
  rw [List.find?_map]
  congr 2
  funext r
  simp [hkey]

omit [DecidableEq κ] in
/-- An update that matches no row changes nothing. -/
theorem updateWhere_of_none {t : Table key} {p : α → Bool} {f : α → α}
    (hf : ∀ r, key (f r) = key r) (h : ∀ r ∈ t.rows, p r = false) : t.updateWhere p f hf = t := by
  apply ext
  show t.rows.map (fun r => if p r then f r else r) = t.rows
  conv_rhs => rw [← List.map_id t.rows]
  refine List.map_congr_left fun r hr => ?_
  simp [h r hr]

/-- An update that matches one row is an assignment. -/
theorem updateWhere_of_one {t : Table key} {p : α → Bool} {f : α → α}
    (hf : ∀ r, key (f r) = key r) {r : α} (hr : r ∈ t.rows) (hp : p r = true)
    (honly : ∀ x ∈ t.rows, p x = true → key x = key r) : t.updateWhere p f hf = t.put (f r) := by
  have hput : t.put (f r) = ⟨replaceRow key (f r) t.rows, by
      rw [map_key_replaceRow]
      exact t.nodup⟩ := dif_pos (by rw [hf]; exact List.mem_map_of_mem hr)
  rw [hput]
  apply ext
  refine List.map_congr_left fun x hx => ?_
  by_cases hkey : key x = key r
  · have hsame : x = r := List.inj_on_of_nodup_map t.nodup hx hr hkey
    subst hsame
    simp [hp, hf]
  · have hnot : p x = false := by
      by_contra hpx
      exact hkey (honly x hx (by simpa using hpx))
    simp [hnot, hf, hkey]

/-- Rewriting selected rows in place, by a function that keeps the key. -/
theorem get?_putAll_map [DecidableEq α] {t : Table key} {sel : List α} {f : α → α}
    (hf : ∀ r, key (f r) = key r) (hsub : ∀ r ∈ sel, r ∈ t.rows)
    (hnodup : (sel.map key).Nodup) (k : κ) :
    (t.putAll (sel.map f)).get? k = (t.get? k).map fun r => if r ∈ sel then f r else r := by
  have hkeys : (sel.map f).map key = sel.map key := by
    rw [List.map_map]
    exact List.map_congr_left fun r _ => hf r
  by_cases hk : k ∈ sel.map key
  · obtain ⟨r, hr, rfl⟩ := List.mem_map.mp hk
    have hput : (t.putAll (sel.map f)).get? (key (f r)) = some (f r) :=
      get?_putAll_of_mem (by rw [hkeys]; exact hnodup) (List.mem_map_of_mem hr)
    rw [hf] at hput
    rw [hput, get?_of_mem (hsub r hr), Option.map_some, if_pos hr]
  · rw [get?_putAll_of_notMem (by rw [hkeys]; exact hk)]
    cases hget : t.get? k with
    | none => rfl
    | some r =>
        have hr : r ∉ sel := by
          intro hr
          exact hk (key_of_get? hget ▸ List.mem_map_of_mem hr)
        rw [Option.map_some, if_neg hr]

end Table

end Drover.Foundation
