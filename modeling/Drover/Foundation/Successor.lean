import Mathlib.Order.Bounds.Basic
import Mathlib.Order.Interval.Finset.Basic
import Mathlib.Order.Monotone.Basic

set_option autoImplicit false

/-!
# Enumeration by successors

A function that answers, for every point of a linear order, with the least element of a set
above it.  A walk asks again from each answer; whatever the walks are cut into, what they
list is an interval of the set, in order.
-/

namespace Drover.Foundation

variable {α : Type}

/-- The answers `us` from `a` on, each asked for from the one before; the last is `b`. -/
inductive Walk (next : α → Option α) : α → List α → α → Prop where
  | nil (a : α) : Walk next a [] a
  | cons {a b c : α} {us : List α} (h : next a = some b) (tail : Walk next b us c) :
      Walk next a (b :: us) c

namespace Walk

variable {next : α → Option α} {a b c : α} {us vs : List α}

theorem append (h : Walk next a us b) (h' : Walk next b vs c) : Walk next a (us ++ vs) c := by
  induction h with
  | nil _ => exact h'
  | cons hnext _ ih => exact .cons hnext (ih h')

/-- The end of a walk along a function that always answers. -/
theorem eq_iterate {f : α → α} (h : Walk (fun a => some (f a)) a us b) : b = f^[us.length] a := by
  induction h with
  | nil _ => rfl
  | cons hnext _ ih =>
      rw [ih, List.length_cons, Function.iterate_succ_apply, Option.some.inj hnext]

theorem last_eq_or_mem (h : Walk next a us b) : b = a ∨ b ∈ us := by
  induction h with
  | nil _ => exact .inl rfl
  | cons _ _ ih =>
      rcases ih with rfl | hmem
      · exact .inr List.mem_cons_self
      · exact .inr (List.mem_cons_of_mem _ hmem)

end Walk

variable [LinearOrder α]

/-- From `low` on, `next` gives the least element of `S` above a point, and nothing when there
is none. -/
structure Enumerates (next : α → Option α) (S : Set α) (low : α) : Prop where
  least : ∀ {a b : α}, low ≤ a → next a = some b → IsLeast {u | u ∈ S ∧ a < u} b
  none : ∀ {a u : α}, low ≤ a → next a = none → u ∈ S → u ≤ a

namespace Walk

variable {next : α → Option α} {S : Set α} {low a b u : α} {us : List α}

theorem le (hnext : Enumerates next S low) (hlow : low ≤ a) (h : Walk next a us b) : a ≤ b := by
  induction h with
  | nil _ => exact le_refl _
  | cons hstep _ ih =>
      have hlt := (hnext.least hlow hstep).1.2
      exact hlt.le.trans (ih (hlow.trans hlt.le))

/-- Along answers that rise, the end of a walk is the greatest of them. -/
theorem le_of_rises (hrises : ∀ a b, next a = some b → a < b) (h : Walk next a us b) :
    a ≤ b ∧ ∀ u ∈ us, u ≤ b := by
  induction h with
  | nil a => exact ⟨le_refl a, fun u hu => absurd hu List.not_mem_nil⟩
  | cons hstep _ ih =>
      refine ⟨(hrises _ _ hstep).le.trans ih.1, fun u hu => ?_⟩
      rcases List.mem_cons.mp hu with rfl | hu
      · exact ih.1
      · exact ih.2 u hu

/-- A walk lists the elements of `S` between its ends. -/
theorem mem_iff (hnext : Enumerates next S low) (hlow : low ≤ a) (h : Walk next a us b) :
    u ∈ us ↔ u ∈ S ∧ a < u ∧ u ≤ b := by
  induction h with
  | nil a =>
      refine ⟨fun hu => absurd hu List.not_mem_nil, ?_⟩
      rintro ⟨-, hlow, hhigh⟩
      exact absurd (hlow.trans_le hhigh) (lt_irrefl a)
  | @cons a b c us hstep tail ih =>
      obtain ⟨⟨hb, hab⟩, hleast⟩ := hnext.least hlow hstep
      have hlow' := hlow.trans hab.le
      rw [List.mem_cons, ih hlow']
      constructor
      · rintro (rfl | ⟨hu, hbu, hhigh⟩)
        · exact ⟨hb, hab, tail.le hnext hlow'⟩
        · exact ⟨hu, hab.trans hbu, hhigh⟩
      · rintro ⟨hu, hau, hhigh⟩
        rcases (hleast ⟨hu, hau⟩).eq_or_lt with rfl | hlt
        · exact .inl rfl
        · exact .inr ⟨hu, hlt, hhigh⟩

/-- The answers of a walk increase. -/
theorem pairwise (hnext : Enumerates next S low) (hlow : low ≤ a) (h : Walk next a us b) :
    us.Pairwise (· < ·) := by
  induction h with
  | nil _ => exact List.Pairwise.nil
  | cons hstep tail ih =>
      have hlow' := hlow.trans (hnext.least hlow hstep).1.2.le
      refine List.pairwise_cons.mpr ⟨fun u hu => ?_, ih hlow'⟩
      exact ((tail.mem_iff hnext hlow').mp hu).2.1

end Walk

namespace Enumerates

variable {next : α → Option α} {S : Set α} {low a b c : α}

/-- It does so from every later point on. -/
theorem of_le (hnext : Enumerates next S a) (hle : a ≤ b) : Enumerates next S b :=
  ⟨fun hlow => hnext.least (hle.trans hlow), fun hlow => hnext.none (hle.trans hlow)⟩

/-- From a later point the answer is not earlier. -/
theorem mono (hnext : Enumerates next S low) (hlow : low ≤ a) (hle : a ≤ b) {u v : α}
    (hu : next a = some u) (hv : next b = some v) : u ≤ v := by
  obtain ⟨⟨hv, hbv⟩, -⟩ := hnext.least (hlow.trans hle) hv
  exact (hnext.least hlow hu).2 ⟨hv, hle.trans_lt hbv⟩

/-- No element is skipped: every one above `a` is reached from there. -/
theorem exists_walk [LocallyFiniteOrder α] (hnext : Enumerates next S low) (hc : c ∈ S) :
    ∀ {a : α}, low ≤ a → a < c → ∃ us, Walk next a us c := by
  intro a
  -- by the number of points still between `a` and `c`
  induction hn : (Finset.Ioc a c).card using Nat.strong_induction_on generalizing a with
  | _ n ih =>
      intro hlow hac
      cases hb : next a with
      | none => exact absurd hac (hnext.none hlow hb hc).not_gt
      | some b =>
          obtain ⟨⟨-, hab⟩, hleast⟩ := hnext.least hlow hb
          rcases (hleast ⟨hc, hac⟩).eq_or_lt with rfl | hlt
          · exact ⟨[b], .cons hb (.nil b)⟩
          · have hcard : (Finset.Ioc b c).card < n := by
              rw [← hn]
              refine Finset.card_lt_card ⟨Finset.Ioc_subset_Ioc_left hab.le, fun hsub => ?_⟩
              have hb : b ∈ Finset.Ioc b c := hsub (Finset.mem_Ioc.mpr ⟨hab, hlt.le⟩)
              exact lt_irrefl b (Finset.mem_Ioc.mp hb).1
            obtain ⟨us, hwalk⟩ := ih _ hcard rfl (hlow.trans hab.le) hlt
            exact ⟨b :: us, .cons hb hwalk⟩

/-! ### Functions that always answer -/

section Iterate

variable {f : α → α}

/-- A function that gives the least element above every point from `low` on. -/
theorem of_isLeast (h : ∀ {a : α}, low ≤ a → IsLeast {u | u ∈ S ∧ a < u} (f a)) :
    Enumerates (fun a => some (f a)) S low where
  least hlow hb := Option.some.inj hb ▸ h hlow
  none _ hnone := absurd hnone (Option.some_ne_none _)

theorem isLeast (hnext : Enumerates (fun a => some (f a)) S low) (hlow : low ≤ a) :
    IsLeast {u | u ∈ S ∧ a < u} (f a) :=
  hnext.least hlow rfl

theorem le_iterate (hnext : Enumerates (fun a => some (f a)) S a) (k : Nat) : a ≤ f^[k] a := by
  induction k with
  | zero => exact le_refl a
  | succ k ih =>
      rw [Function.iterate_succ_apply']
      exact ih.trans (hnext.isLeast ih).1.2.le

/-- Asking again and again gives increasing answers. -/
theorem strictMono_iterate (hnext : Enumerates (fun a => some (f a)) S a) :
    StrictMono fun k => f^[k + 1] a := by
  refine strictMono_nat_of_lt_succ fun k => ?_
  rw [Function.iterate_succ_apply' f (k + 1)]
  exact (hnext.isLeast (hnext.le_iterate (k + 1))).1.2

/-- It gives exactly the elements above the first point. -/
theorem range_iterate [LocallyFiniteOrder α] (hnext : Enumerates (fun a => some (f a)) S a) :
    Set.range (fun k => f^[k + 1] a) = {u | u ∈ S ∧ a < u} := by
  ext c
  constructor
  · rintro ⟨k, rfl⟩
    obtain ⟨⟨hmem, hlt⟩, -⟩ := hnext.isLeast (hnext.le_iterate k)
    rw [← Function.iterate_succ_apply' f] at hmem hlt
    exact ⟨hmem, (hnext.le_iterate k).trans_lt hlt⟩
  · rintro ⟨hc, hac⟩
    obtain ⟨us, hwalk⟩ := hnext.exists_walk hc (le_refl a) hac
    have hlast := hwalk.eq_iterate
    cases us with
    | nil => exact absurd hac (hlast ▸ lt_irrefl a)
    | cons u us => exact ⟨us.length, hlast.symm⟩

end Iterate

end Enumerates

end Drover.Foundation
