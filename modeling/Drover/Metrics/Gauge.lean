import Drover.Foundation.Map
import Drover.Foundation.Run

set_option autoImplicit false

/-!
# Gauge vectors

A gauge vector has a number for each series it publishes and refuses some series.
Resolving a series publishes it at zero if it is not there; setting writes a resolved
one; deleting drops it.  A scrape may come between any two of these.

The plan this file is about overwrites the series of a map of wanted numbers first, and
then deletes the series that were remembered from before and are not wanted.  It leaves
exactly the wanted series (`lookup_plan`), and none that is published both before and
after is missing on the way (`plan_without_gap`).

Nothing in this file names a particular program.
-/

namespace Drover.Metrics

open Drover.Foundation
open Drover.Foundation.Map (lookup lookup_put lookup_erase lookup_eq_some_iff isSome_lookup_iff)

variable {κ F : Type} [DecidableEq κ] [Zero F]

/-! ## Operations -/

/-- What is done to a vector in one go. -/
inductive Op (κ F : Type) where
  /-- `GetMetricWithLabelValues` -/
  | resolve (k : κ)
  /-- `Set` of a resolved gauge -/
  | set (k : κ) (x : F)
  /-- `DeleteLabelValues` -/
  | delete (k : κ)
  deriving DecidableEq, Repr

/-- The vector after an operation. -/
def Op.apply (v : Map κ F) : Op κ F → Map κ F
  | .resolve k => if (lookup v k).isSome then v else v.put (k, 0)
  | .set k x => if (lookup v k).isSome then v.put (k, x) else v
  | .delete k => v.erase k

@[simp] theorem lookup_resolve (v : Map κ F) (k k' : κ) :
    lookup (Op.apply v (.resolve k)) k' =
      if k = k' then some ((lookup v k).getD 0) else lookup v k' := by
  simp only [Op.apply]
  by_cases hk : k = k'
  · subst hk
    cases hv : lookup v k with
    | none => simp [lookup_put]
    | some x => simp [hv]
  · rw [if_neg hk]
    split
    · rfl
    · rw [lookup_put, if_neg hk]

@[simp] theorem lookup_set (v : Map κ F) (k : κ) (x : F) (k' : κ) :
    lookup (Op.apply v (.set k x)) k' =
      if k = k' ∧ (lookup v k).isSome then some x else lookup v k' := by
  simp only [Op.apply]
  by_cases hk : (lookup v k).isSome
  · rw [if_pos hk, lookup_put]
    simp [hk]
  · rw [if_neg hk, if_neg fun h => hk h.2]

@[simp] theorem lookup_delete (v : Map κ F) (k k' : κ) :
    lookup (Op.apply v (.delete k)) k' = if k' = k then none else lookup v k' :=
  lookup_erase v k k'

section Plan

variable (accepts : κ → Bool)

/-- Resolve a series and set it, unless it is refused. -/
def assign (k : κ) (x : F) : List (Op κ F) := if accepts k then [.resolve k, .set k x] else []

/-- Delete a series, unless it is refused. -/
def remove (k : κ) : List (Op κ F) := if accepts k then [.delete k] else []

/-- Set every series of a list. -/
def overwrite (rows : List (κ × F)) : List (Op κ F) := rows.flatMap fun row => assign accepts row.1 row.2

/-- Delete every series of a list that is not to be kept. -/
def prune (keep : κ → Bool) (ks : List κ) : List (Op κ F) :=
  ks.flatMap fun k => if keep k then [] else remove accepts k

/-- Set the wanted series, then delete the remembered ones that are not wanted. -/
def plan (wanted : Map κ F) (rows : List (κ × F)) (ks : List κ) : List (Op κ F) :=
  overwrite accepts rows ++ prune accepts (fun k => (lookup wanted k).isSome) ks

/-- Every published series is accepted and remembered. -/
def Tracked (v : Map κ F) (keys : Map κ Unit) : Prop :=
  ∀ k, (lookup v k).isSome → accepts k = true ∧ (lookup keys k).isSome

end Plan

/-! ## What the plan leaves -/

variable {accepts : κ → Bool}

theorem lookup_assign (v : Map κ F) (k : κ) (x : F) (k' : κ) :
    lookup (run Op.apply v (assign accepts k x)) k' =
      if accepts k ∧ k = k' then some x else lookup v k' := by
  unfold assign
  cases hacc : accepts k with
  | false => simp
  | true =>
      rw [if_pos rfl, run_cons, run_cons, run_nil]
      by_cases hk : k = k'
      · simp [hk]
      · simp [hk]

theorem lookup_remove (v : Map κ F) (k k' : κ) :
    lookup (run Op.apply v (remove accepts k)) k' =
      if accepts k ∧ k = k' then none else lookup v k' := by
  unfold remove
  cases hacc : accepts k with
  | false => simp
  | true =>
      rw [if_pos rfl, run_cons, run_nil]
      simp only [lookup_delete, true_and, eq_comm]

theorem lookup_overwrite_of_notMem {rows : List (κ × F)} {k : κ} (h : k ∉ rows.map Prod.fst)
    (v : Map κ F) : lookup (run Op.apply v (overwrite accepts rows)) k = lookup v k := by
  induction rows generalizing v with
  | nil => rfl
  | cons row rows ih =>
      simp only [List.map_cons, List.mem_cons, not_or] at h
      have hne : row.1 ≠ k := Ne.symm h.1
      unfold overwrite at ih ⊢
      rw [List.flatMap_cons, run_append, ih h.2, lookup_assign, if_neg fun hk => hne hk.2]

theorem lookup_overwrite_of_mem {rows : List (κ × F)} (hnodup : (rows.map Prod.fst).Nodup) {k : κ}
    {x : F} (h : (k, x) ∈ rows) (hacc : accepts k = true) (v : Map κ F) :
    lookup (run Op.apply v (overwrite accepts rows)) k = some x := by
  induction rows generalizing v with
  | nil => simp at h
  | cons row rows ih =>
      simp only [List.map_cons, List.nodup_cons] at hnodup
      have hcons : overwrite accepts (row :: rows) =
          assign accepts row.1 row.2 ++ overwrite accepts rows := List.flatMap_cons
      rw [hcons, run_append]
      rcases List.mem_cons.mp h with rfl | hmem
      · rw [lookup_overwrite_of_notMem hnodup.1, lookup_assign, if_pos ⟨hacc, rfl⟩]
      · exact ih hnodup.2 hmem _

theorem lookup_overwrite_of_refused {k : κ} (h : accepts k = false) (rows : List (κ × F))
    (v : Map κ F) : lookup (run Op.apply v (overwrite accepts rows)) k = lookup v k := by
  induction rows generalizing v with
  | nil => rfl
  | cons row rows ih =>
      have hne : ¬(accepts row.1 = true ∧ row.1 = k) := by
        rintro ⟨hacc, rfl⟩
        rw [h] at hacc
        exact absurd hacc Bool.false_ne_true
      unfold overwrite at ih ⊢
      rw [List.flatMap_cons, run_append, ih, lookup_assign, if_neg hne]

theorem lookup_prune (keep : κ → Bool) (ks : List κ) (v : Map κ F) (k : κ) :
    lookup (run Op.apply v (prune accepts keep ks)) k =
      if k ∈ ks ∧ keep k = false ∧ accepts k = true then none else lookup v k := by
  induction ks generalizing v with
  | nil => simp [prune]
  | cons first ks ih =>
      have hcons : (prune accepts keep (first :: ks) : List (Op κ F)) =
          (if keep first then [] else remove accepts first) ++ prune accepts keep ks :=
        List.flatMap_cons
      rw [hcons, run_append, ih]
      by_cases hk : k = first
      · subst hk
        cases hkeep : keep k <;> cases hacc : accepts k <;> simp [lookup_remove, hacc]
      · have hfirst : lookup (run Op.apply v (if keep first then [] else remove accepts first)) k =
            lookup v k := by
          split
          · rfl
          · rw [lookup_remove, if_neg fun h => hk h.2.symm]
        rw [hfirst]
        simp [hk]

/-- Once the plan is carried out the vector has the wanted series that are accepted, and no
others. -/
theorem lookup_plan {v wanted : Map κ F} {keys : Map κ Unit} (h : Tracked accepts v keys)
    {rows : List (κ × F)} (hrows : rows.Perm wanted.rows) {ks : List κ}
    (hks : ∀ k, k ∈ ks ↔ (lookup keys k).isSome) (k : κ) :
    lookup (run Op.apply v (plan accepts wanted rows ks)) k =
      if accepts k then lookup wanted k else none := by
  have hnodup : (rows.map Prod.fst).Nodup := (hrows.map Prod.fst).nodup_iff.mpr wanted.nodup
  unfold plan
  rw [run_append, lookup_prune]
  cases hacc : accepts k with
  | false =>
      have hv : lookup v k = none := by
        cases hv : lookup v k with
        | none => rfl
        | some x =>
            have hk := (h k (by rw [hv, Option.isSome_some])).1
            rw [hacc] at hk
            exact absurd hk Bool.false_ne_true
      rw [lookup_overwrite_of_refused hacc, hv]
      simp
  | true =>
      rw [if_pos rfl]
      cases hwanted : lookup wanted k with
      | some x =>
          have hmem : (k, x) ∈ rows := hrows.mem_iff.mpr (lookup_eq_some_iff.mp hwanted)
          rw [lookup_overwrite_of_mem hnodup hmem hacc]
          simp
      | none =>
          have hnot : k ∉ rows.map Prod.fst := by
            intro hmem
            obtain ⟨row, hrow, hk⟩ := List.mem_map.mp hmem
            have hsome := isSome_lookup_iff.mpr ⟨row, hrows.mem_iff.mp hrow, hk⟩
            rw [hwanted] at hsome
            exact absurd hsome Bool.false_ne_true
          rw [lookup_overwrite_of_notMem hnot]
          cases hv : lookup v k with
          | none => simp
          | some x =>
              have hk := (h k (by rw [hv, Option.isSome_some])).2
              rw [if_pos ⟨(hks k).mpr hk, rfl, rfl⟩]

/-! ## What is published on the way -/

/-- Only its own deletion takes a series away. -/
theorem Op.isSome_apply {op : Op κ F} {k : κ} (hop : op ≠ .delete k) {v : Map κ F}
    (h : (lookup v k).isSome) : (lookup (op.apply v) k).isSome := by
  cases op with
  | resolve k' =>
      rw [lookup_resolve]
      split
      · rfl
      · exact h
  | set k' x =>
      rw [lookup_set]
      split
      · rfl
      · exact h
  | delete k' =>
      have hne : k ≠ k' := by
        rintro rfl
        exact hop rfl
      rw [lookup_delete, if_neg hne]
      exact h

theorem isSome_run {k : κ} {ops : List (Op κ F)} (hops : ∀ op ∈ ops, op ≠ .delete k)
    {v : Map κ F} (h : (lookup v k).isSome) : (lookup (run Op.apply v ops) k).isSome := by
  induction ops generalizing v with
  | nil => exact h
  | cons op ops ih =>
      have hop := hops op List.mem_cons_self
      exact ih (fun op hmem => hops op (List.mem_cons_of_mem _ hmem)) (Op.isSome_apply hop h)

omit [Zero F] in
/-- The plan deletes no wanted series. -/
theorem ne_delete_of_mem_plan {wanted : Map κ F} {rows : List (κ × F)} {ks : List κ} {k : κ}
    (hk : (lookup wanted k).isSome) {op : Op κ F} (hop : op ∈ plan accepts wanted rows ks) :
    op ≠ .delete k := by
  rintro rfl
  unfold plan overwrite prune at hop
  rw [List.mem_append, List.mem_flatMap, List.mem_flatMap] at hop
  rcases hop with ⟨row, -, hrow⟩ | ⟨k', -, hk'⟩
  · unfold assign at hrow
    split at hrow <;> simp at hrow
  · split at hk'
    · simp at hk'
    · rename_i hnot
      unfold remove at hk'
      split at hk'
      · simp only [List.mem_singleton, Op.delete.injEq] at hk'
        subst hk'
        exact hnot hk
      · simp at hk'

/-- A series published before the plan and after it is published at every point of it. -/
theorem plan_without_gap {v wanted : Map κ F} {keys : Map κ Unit} (h : Tracked accepts v keys)
    {rows : List (κ × F)} (hrows : rows.Perm wanted.rows) {ks : List κ}
    (hks : ∀ k, k ∈ ks ↔ (lookup keys k).isSome) {k : κ} (hbefore : (lookup v k).isSome)
    (hafter : (lookup (run Op.apply v (plan accepts wanted rows ks)) k).isSome)
    {pre post : List (Op κ F)} (hsplit : plan accepts wanted rows ks = pre ++ post) :
    (lookup (run Op.apply v pre) k).isSome := by
  have hwanted : (lookup wanted k).isSome := by
    rw [lookup_plan h hrows hks] at hafter
    split at hafter
    · exact hafter
    · exact absurd hafter Bool.false_ne_true
  refine isSome_run (fun op hop => ?_) hbefore
  have hmem : op ∈ plan accepts wanted rows ks := by
    rw [hsplit]
    exact List.mem_append_left _ hop
  exact ne_delete_of_mem_plan hwanted hmem

/-! ## What is remembered -/

omit [Zero F] in
theorem Tracked.empty : Tracked accepts (Table.empty : Map κ F) Table.empty := by
  intro k hk
  exact absurd hk (by simp)

theorem Tracked.assign {v : Map κ F} {keys : Map κ Unit} (h : Tracked accepts v keys) (k : κ)
    (x : F) : Tracked accepts (run Op.apply v (assign accepts k x)) (keys.put (k, ())) := by
  intro k' hk'
  rw [lookup_assign] at hk'
  rw [lookup_put]
  split at hk'
  · rename_i hk
    rw [← hk.2, if_pos rfl]
    exact ⟨hk.1, rfl⟩
  · obtain ⟨hacc, hkeys⟩ := h k' hk'
    refine ⟨hacc, ?_⟩
    split
    · rfl
    · exact hkeys

theorem Tracked.plan {v wanted : Map κ F} {keys : Map κ Unit} (h : Tracked accepts v keys)
    {rows : List (κ × F)} (hrows : rows.Perm wanted.rows) {ks : List κ}
    (hks : ∀ k, k ∈ ks ↔ (lookup keys k).isSome) :
    Tracked accepts (run Op.apply v (plan accepts wanted rows ks)) (Map.keySet wanted) := by
  intro k hk
  rw [lookup_plan h hrows hks] at hk
  split at hk
  · exact ⟨by assumption, Map.isSome_lookup_keySet.mpr hk⟩
  · exact absurd hk Bool.false_ne_true

end Drover.Metrics
