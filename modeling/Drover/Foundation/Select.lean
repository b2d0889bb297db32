import Mathlib.Data.List.Sort
import Mathlib.Logic.Equiv.Basic
import Drover.Foundation.Table

set_option autoImplicit false

/-!
# Corresponding tables

Two tables correspond when, key by key, their rows are related.  A selection takes the
rows that satisfy a predicate, in the order of some column and then of the key;
corresponding tables select corresponding rows, however each of them stores its rows.
A list sorted by a comparison that tells its members apart is determined by its members.

Nothing in this file names a particular program.
-/

namespace Drover.Foundation

variable {α β κ : Type}

section Corresponds

variable [DecidableEq κ] {keyA : α → κ} {keyB : β → κ}

/-- Row by row, up to a renaming of the keys. -/
def Corresponds (R : α → β → Prop) (σ : κ → κ) (t : Table keyA) (u : Table keyB) : Prop :=
  ∀ k, Option.Rel R (t.get? k) (u.get? (σ k))

variable {R : α → β → Prop} {σ : κ → κ} {t : Table keyA} {u : Table keyB}

theorem Corresponds.none_iff (h : Corresponds R σ t u) (k : κ) :
    t.get? k = none ↔ u.get? (σ k) = none := by
  have hk := h k
  generalize t.get? k = x, u.get? (σ k) = y at hk ⊢
  cases hk <;> simp

/-- The row of `u` that corresponds to a row of `t`. -/
theorem Corresponds.right (h : Corresponds R σ t u) {k : κ} {a : α} (ha : t.get? k = some a) :
    ∃ b, u.get? (σ k) = some b ∧ R a b := by
  have hk := h k
  rw [ha] at hk
  generalize u.get? (σ k) = y at hk ⊢
  cases hk with
  | some hab => exact ⟨_, rfl, hab⟩

theorem Corresponds.left (h : Corresponds R σ t u) {k : κ} {b : β} (hb : u.get? (σ k) = some b) :
    ∃ a, t.get? k = some a ∧ R a b := by
  have hk := h k
  rw [hb] at hk
  generalize t.get? k = x at hk ⊢
  cases hk with
  | some hab => exact ⟨_, rfl, hab⟩

/-- Row by row functions on both sides, where they keep the relation. -/
theorem Corresponds.map (h : Corresponds R σ t u) {t' : Table keyA} {u' : Table keyB}
    {f : α → α} {g : β → β} (ht : ∀ k, t'.get? k = (t.get? k).map f)
    (hu : ∀ k, u'.get? k = (u.get? k).map g)
    (hfg : ∀ k a b, t.get? k = some a → u.get? (σ k) = some b → R a b → R (f a) (g b)) :
    Corresponds R σ t' u' := by
  intro k
  rw [ht, hu]
  cases ha : t.get? k with
  | none =>
      rw [(h.none_iff k).mp ha]
      exact .none
  | some a =>
      obtain ⟨b, hb, hab⟩ := h.right ha
      rw [hb]
      exact .some (hfg k a b ha hb hab)

/-- An assignment on both sides. -/
theorem Corresponds.put (h : Corresponds R σ t u) (hσ : Function.Injective σ) {a : α} {b : β}
    (hab : R a b) (hkey : keyB b = σ (keyA a)) : Corresponds R σ (t.put a) (u.put b) := by
  intro k
  rw [Table.get?_put, Table.get?_put]
  by_cases hk : keyA a = k
  · rw [if_pos hk, if_pos (by rw [hkey, hk])]
    exact .some hab
  · rw [if_neg hk, if_neg (fun heq => hk (hσ (hkey ▸ heq)))]
    exact h k

/-- Two keys that are free on both sides may be exchanged. -/
theorem Corresponds.swap (h : Corresponds R id t u) {k l : κ} (hk : t.get? k = none)
    (hl : u.get? l = none) : Corresponds R (Equiv.swap k l) t u := by
  have hku : u.get? k = none := (h.none_iff k).mp hk
  have hlt : t.get? l = none := (h.none_iff l).mpr hl
  intro j
  by_cases hjk : j = k
  · rw [hjk, Equiv.swap_apply_left, hk, hl]
    exact .none
  · by_cases hjl : j = l
    · rw [hjl, Equiv.swap_apply_right, hlt, hku]
      exact .none
    · rw [Equiv.swap_apply_of_ne_of_ne hjk hjl]
      exact h j

/-- Lists of stored rows with the same keys correspond row by row. -/
theorem Corresponds.forall₂ (h : Corresponds R id t u) {xs : List α} {ys : List β}
    (hxs : ∀ a ∈ xs, a ∈ t.rows) (hys : ∀ b ∈ ys, b ∈ u.rows)
    (hkeys : xs.map keyA = ys.map keyB) :
    List.Forall₂ (fun a b => R a b ∧ keyA a = keyB b) xs ys := by
  induction xs generalizing ys with
  | nil =>
      have hnil : ys = [] := List.map_eq_nil_iff.mp hkeys.symm
      rw [hnil]
      exact .nil
  | cons a xs ih =>
      cases ys with
      | nil => cases hkeys
      | cons b ys =>
          obtain ⟨hkey, hrest⟩ := List.cons.inj hkeys
          have ha := Table.get?_of_mem (hxs a List.mem_cons_self)
          have hb := Table.get?_of_mem (hys b List.mem_cons_self)
          obtain ⟨b', hb', hab⟩ := h.right ha
          rw [id, hkey, hb] at hb'
          cases hb'
          exact .cons ⟨hab, hkey⟩ (ih (fun a ha => hxs a (List.mem_cons_of_mem _ ha))
            (fun b hb => hys b (List.mem_cons_of_mem _ hb)) hrest)

end Corresponds

/-! ## Selections -/

/-- By `order`, then by `key`. -/
def orderedBy (order key : α → Int) (a b : α) : Prop :=
  order a < order b ∨ (order a = order b ∧ key a ≤ key b)

instance (order key : α → Int) : DecidableRel (orderedBy order key) :=
  fun _ _ => inferInstanceAs (Decidable (_ ∨ _))

instance (order key : α → Int) : Std.Total (orderedBy order key) := by
  constructor
  intro a b
  unfold orderedBy
  omega

instance (order key : α → Int) : IsTrans α (orderedBy order key) := by
  constructor
  intro a b c
  unfold orderedBy
  omega

/-- What the order of a selection depends on. -/
def rank (order key : α → Int) (a : α) : Int × Int := (order a, key a)

theorem map_rank_insertionSort (order key : α → Int) (xs : List α) :
    (xs.insertionSort (orderedBy order key)).map (rank order key) =
      (xs.map (rank order key)).insertionSort (orderedBy Prod.fst Prod.snd) :=
  List.map_insertionSort _ _ _ _ fun _ _ _ _ => Iff.rfl

/-- Sorting forgets how the ranks were listed. -/
theorem insertionSort_rank_of_perm {xs ys : List (Int × Int)} (h : xs.Perm ys) :
    xs.insertionSort (orderedBy Prod.fst Prod.snd) =
      ys.insertionSort (orderedBy Prod.fst Prod.snd) := by
  refine List.Perm.eq_of_pairwise ?_ (List.pairwise_insertionSort _ xs)
    (List.pairwise_insertionSort _ ys)
    ((List.perm_insertionSort _ xs).trans (h.trans (List.perm_insertionSort _ ys).symm))
  intro a b _ _ hab hba
  unfold orderedBy at hab hba
  exact Prod.ext (by omega) (by omega)

variable {keyA : α → Int} {keyB : β → Int} {R : α → β → Prop} {t : Table keyA} {u : Table keyB}

theorem nodup_map_rank_filter {key : α → Int} (t : Table key) (keep : α → Bool) (order : α → Int) :
    ((t.rows.filter keep).map (rank order key)).Nodup := by
  have hkeys : ((t.rows.filter keep).map key).Nodup :=
    t.nodup.sublist (List.filter_sublist.map key)
  have hproj : (t.rows.filter keep).map key =
      ((t.rows.filter keep).map (rank order key)).map Prod.snd := by
    rw [List.map_map]
    rfl
  rw [hproj] at hkeys
  exact List.Nodup.of_map _ hkeys

/-- Corresponding tables select the same keys in the same order. -/
theorem Corresponds.select (h : Corresponds R id t u) {keepA : α → Bool} {keepB : β → Bool}
    {orderA : α → Int} {orderB : β → Int} (hkeep : ∀ a b, R a b → keepA a = keepB b)
    (horder : ∀ a b, R a b → keepA a = true → orderA a = orderB b) :
    ((t.rows.filter keepA).insertionSort (orderedBy orderA keyA)).map keyA =
      ((u.rows.filter keepB).insertionSort (orderedBy orderB keyB)).map keyB := by
  have hperm : ((t.rows.filter keepA).map (rank orderA keyA)).Perm
      ((u.rows.filter keepB).map (rank orderB keyB)) := by
    rw [List.perm_ext_iff_of_nodup (nodup_map_rank_filter t keepA orderA)
      (nodup_map_rank_filter u keepB orderB)]
    rintro ⟨i, k⟩
    simp only [List.mem_map, List.mem_filter, rank, Prod.mk.injEq]
    constructor
    · rintro ⟨a, ⟨hmem, ha⟩, rfl, rfl⟩
      obtain ⟨b, hb, hab⟩ := h.right (Table.get?_of_mem hmem)
      exact ⟨b, ⟨Table.mem_of_get? hb, by rw [← hkeep a b hab]; exact ha⟩,
        (horder a b hab ha).symm, Table.key_of_get? hb⟩
    · rintro ⟨b, ⟨hmem, hb⟩, rfl, rfl⟩
      have hget : u.get? (id (keyB b)) = some b := Table.get?_of_mem hmem
      obtain ⟨a, ha, hab⟩ := h.left hget
      have hka : keepA a = true := by rw [hkeep a b hab]; exact hb
      exact ⟨a, ⟨Table.mem_of_get? ha, hka⟩, horder a b hab hka, Table.key_of_get? ha⟩
  have hranks : ((t.rows.filter keepA).insertionSort (orderedBy orderA keyA)).map
      (rank orderA keyA) = ((u.rows.filter keepB).insertionSort (orderedBy orderB keyB)).map
        (rank orderB keyB) := by
    rw [map_rank_insertionSort, map_rank_insertionSort, insertionSort_rank_of_perm hperm]
  have hkeys := congrArg (List.map Prod.snd) hranks
  rw [List.map_map, List.map_map] at hkeys
  exact hkeys

/-- Two selections of the rows of a table, whatever order it lists them in. -/
theorem insertionSort_orderedBy_of_perm {key : α → Int} {t u : Table key}
    (h : t.rows.Perm u.rows) (keep : α → Bool) (order : α → Int) :
    (t.rows.filter keep).insertionSort (orderedBy order key) =
      (u.rows.filter keep).insertionSort (orderedBy order key) := by
  have hperm := (List.perm_insertionSort (orderedBy order key) (t.rows.filter keep)).trans
    ((h.filter keep).trans (List.perm_insertionSort (orderedBy order key) _).symm)
  refine List.Perm.eq_of_pairwise ?_ (List.pairwise_insertionSort _ _)
    (List.pairwise_insertionSort _ _) hperm
  intro a b ha hb hab hba
  have ha' : a ∈ t.rows := (List.mem_filter.mp ((List.perm_insertionSort _ _).mem_iff.mp ha)).1
  have hb' : b ∈ t.rows :=
    h.mem_iff.mpr (List.mem_filter.mp ((List.perm_insertionSort _ _).mem_iff.mp hb)).1
  refine List.inj_on_of_nodup_map t.nodup ha' hb' ?_
  unfold orderedBy at hab hba
  omega

/-- Of a list in strict order, the first `n` are those with fewer than `n` before them. -/
theorem mem_take_iff {before : α → α → Bool} {xs : List α} {b : α} {n : Nat}
    (hasymm : ∀ a b, before a b = true → before b a = false)
    (hxs : xs.Pairwise fun a b => before a b = true) :
    b ∈ xs.take n ↔ b ∈ xs ∧ xs.countP (before · b) < n := by
  induction xs generalizing n with
  | nil => simp
  | cons x xs ih =>
      rw [List.pairwise_cons] at hxs
      cases n with
      | zero => simp
      | succ n =>
          rw [List.take_succ_cons, List.mem_cons, List.mem_cons, List.countP_cons]
          by_cases hb : b = x
          · subst hb
            have hself : before b b = false := by
              by_contra hbefore
              have htrue : before b b = true := by simpa using hbefore
              rw [hasymm b b htrue] at htrue
              cases htrue
            have hnone : xs.countP (before · b) = 0 :=
              List.countP_eq_zero.mpr fun a ha => by simp [hasymm b a (hxs.1 a ha)]
            simp [hself, hnone]
          · simp only [hb, false_or]
            rw [ih hxs.2]
            refine and_congr_right fun hmem => ?_
            rw [if_pos (hxs.1 b hmem), Nat.succ_lt_succ_iff]

/-! ## Sorting by a comparison -/

section Compare

open Std (TransCmp OrientedCmp)

variable {cmp : α → α → Ordering}

/-- A comparison of what a function gives. -/
theorem transCmp_on {cmp : β → β → Ordering} [TransCmp cmp] (f : α → β) :
    TransCmp fun a b => cmp (f a) (f b) where
  eq_swap := OrientedCmp.eq_swap
  isLE_trans := TransCmp.isLE_trans

/-- Sorting leaves what is told apart in strictly ascending order. -/
theorem pairwise_lt_insertionSort [TransCmp cmp] {xs : List α}
    (hxs : xs.Pairwise fun a b => cmp a b ≠ .eq) :
    (xs.insertionSort fun a b => cmp a b ≠ .gt).Pairwise fun a b => cmp a b = .lt := by
  have htotal : Std.Total fun a b => cmp a b ≠ .gt := by
    constructor
    intro a b
    have hswap : cmp a b = (cmp b a).swap := OrientedCmp.eq_swap
    cases hba : cmp b a <;> simp [hswap, hba]
  have htrans : IsTrans α fun a b => cmp a b ≠ .gt := by
    constructor
    intro a b c hab hbc
    exact Ordering.isLE_iff_ne_gt.mp (TransCmp.isLE_trans (Ordering.isLE_iff_ne_gt.mpr hab)
      (Ordering.isLE_iff_ne_gt.mpr hbc))
  have hne : (xs.insertionSort fun a b => cmp a b ≠ .gt).Pairwise fun a b => cmp a b ≠ .eq := by
    refine (List.perm_insertionSort _ xs).symm.pairwise hxs ?_
    intro a b hab hba
    have hswap : cmp a b = (cmp b a).swap := OrientedCmp.eq_swap
    rw [hba] at hswap
    exact hab hswap
  refine ((List.pairwise_insertionSort _ xs).and hne).imp fun {a b} hab => ?_
  cases hcmp : cmp a b with
  | lt => rfl
  | eq => exact absurd hcmp hab.2
  | gt => exact absurd hcmp hab.1

/-- Lists in strictly ascending order with the same members are the same. -/
theorem eq_of_pairwise_lt [TransCmp cmp] {xs ys : List α}
    (hxs : xs.Pairwise fun a b => cmp a b = .lt) (hys : ys.Pairwise fun a b => cmp a b = .lt)
    (hmem : ∀ a, a ∈ xs ↔ a ∈ ys) : xs = ys := by
  have hasymm : ∀ a b, cmp a b = .lt → cmp b a ≠ .lt := by
    intro a b hab hba
    have hswap : cmp a b = (cmp b a).swap := OrientedCmp.eq_swap
    rw [hab, hba] at hswap
    cases hswap
  have hnodup : ∀ zs : List α, (zs.Pairwise fun a b => cmp a b = .lt) → zs.Nodup := by
    refine fun zs hzs => hzs.imp ?_
    rintro a b hab rfl
    exact hasymm a a hab hab
  refine List.Perm.eq_of_pairwise ?_ hxs hys
    ((List.perm_ext_iff_of_nodup (hnodup xs hxs) (hnodup ys hys)).mpr hmem)
  intro a b _ _ hab hba
  exact absurd hba (hasymm a b hab)

end Compare

end Drover.Foundation
