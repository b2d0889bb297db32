import Mathlib.Algebra.Order.BigOperators.Group.List
import Mathlib.Data.Int.ConditionallyCompleteOrder
import Mathlib.Data.Int.Interval
import Mathlib.Order.ConditionallyCompleteLattice.Basic
import Drover.Queues.Order

set_option autoImplicit false

/-!
# Every queue once, in proportion to its weight

The queues that are left are a list of positive weights whose sum an `int64` holds.  A draw
splits the values below the sum into one stretch for each queue, as long as its weight, and
moves a queue out of the list; what order the rest is in does not matter.
-/

namespace Drover.Queues

open Drover.Foundation
open Drover.Go (Heap Slice)
open Drover.Memdriver (compareText)

/-! ## Sums of weights -/

/-- The sum of the weights. -/
def weights (qs : List WeightedQueue) : Int := (qs.map fun q => q.weight.toInt).sum

@[simp] theorem weights_nil : weights [] = 0 := rfl

@[simp] theorem weights_cons (q : WeightedQueue) (qs : List WeightedQueue) :
    weights (q :: qs) = q.weight.toInt + weights qs := List.sum_cons

theorem weights_perm {qs qs' : List WeightedQueue} (h : qs.Perm qs') : weights qs = weights qs' :=
  (h.map _).sum_eq

/-- Queues with weights that `checkedQueues` gives, and not too many of them. -/
structure Fits (qs : List WeightedQueue) : Prop where
  pos : ∀ q ∈ qs, 0 < q.weight.toInt
  le : ∀ q ∈ qs, q.weight.toInt ≤ 100000
  length : qs.length ≤ 2 ^ 40

theorem Fits.perm {qs qs' : List WeightedQueue} (h : Fits qs) (hperm : qs.Perm qs') : Fits qs' :=
  ⟨fun q hq => h.pos q (hperm.mem_iff.mpr hq), fun q hq => h.le q (hperm.mem_iff.mpr hq),
    hperm.length_eq ▸ h.length⟩

theorem Fits.tail {q : WeightedQueue} {qs : List WeightedQueue} (h : Fits (q :: qs)) : Fits qs :=
  ⟨fun p hp => h.pos p (List.mem_cons_of_mem q hp), fun p hp => h.le p (List.mem_cons_of_mem q hp),
    Nat.le_of_succ_le h.length⟩

theorem weights_nonneg {qs : List WeightedQueue} (hpos : ∀ q ∈ qs, 0 < q.weight.toInt) :
    0 ≤ weights qs :=
  List.sum_nonneg fun w hw => by
    obtain ⟨q, hq, rfl⟩ := List.mem_map.mp hw
    exact (hpos q hq).le

/-- The sum is positive while a queue is left, and an `int64` holds it. -/
theorem Fits.weights_pos {qs : List WeightedQueue} (h : Fits qs) (hne : qs ≠ []) :
    0 < weights qs := by
  cases qs with
  | nil => exact absurd rfl hne
  | cons q qs =>
      have hq := h.pos q List.mem_cons_self
      have hqs := weights_nonneg h.tail.pos
      rw [weights_cons]
      omega

theorem weights_le {qs : List WeightedQueue} (hle : ∀ q ∈ qs, q.weight.toInt ≤ 100000) :
    weights qs ≤ qs.length * 100000 := by
  have h := List.sum_le_card_nsmul (qs.map fun q => q.weight.toInt) 100000 fun w hw => by
    obtain ⟨q, hq, rfl⟩ := List.mem_map.mp hw
    exact hle q hq
  rwa [List.length_map, nsmul_eq_mul] at h

theorem Fits.weights_le {qs : List WeightedQueue} (h : Fits qs) : weights qs ≤ Go.maxInt := by
  have hsum := Queues.weights_le h.le
  have hlength := h.length
  unfold Go.maxInt
  omega

/-- The running total of the code is the sum. -/
theorem toInt_foldl {qs : List WeightedQueue} (hpos : ∀ q ∈ qs, 0 < q.weight.toInt) :
    ∀ {acc : Int64}, 0 ≤ acc.toInt → acc.toInt + weights qs ≤ Go.maxInt →
      (qs.foldl (fun total q => total + q.weight) acc).toInt = acc.toInt + weights qs := by
  induction qs with
  | nil => simp
  | cons q qs ih =>
      intro acc hacc hsum
      obtain ⟨hq, hqs⟩ := List.forall_mem_cons.mp hpos
      have hrest := weights_nonneg hqs
      rw [weights_cons] at hsum ⊢
      have hadd := Go.toInt_add_of_le hacc hq.le (by omega)
      rw [List.foldl_cons, ih hqs (by omega) (by omega), hadd]
      omega

theorem Fits.toInt_sumWeights {qs : List WeightedQueue} (h : Fits qs) :
    (sumWeights qs).toInt = weights qs := by
  have hle := h.weights_le
  rw [sumWeights, toInt_foldl h.pos (by decide) (by simpa using hle)]
  simp

/-! ## One draw -/

/-- The weights before an index. -/
def before (qs : List WeightedQueue) (j : Nat) : Int := weights (qs.take j)

@[simp] theorem before_cons_succ (q : WeightedQueue) (qs : List WeightedQueue) (j : Nat) :
    before (q :: qs) (j + 1) = q.weight.toInt + before qs j := by
  simp [before]

theorem before_nonneg {qs : List WeightedQueue} (hpos : ∀ q ∈ qs, 0 < q.weight.toInt) (j : Nat) :
    0 ≤ before qs j :=
  weights_nonneg fun q hq => hpos q (List.mem_of_mem_take hq)

theorem le_of_findFrom {pick : Int64} : ∀ {qs : List WeightedQueue} {i j : Nat} {acc : Int64},
    findFrom pick i acc qs = some j → i ≤ j := by
  intro qs
  induction qs with
  | nil =>
      intro i j acc h
      cases h
  | cons q qs ih =>
      intro i j acc h
      rw [findFrom] at h
      split at h
      · exact (Option.some.inj h).le
      · exact Nat.le_of_succ_le (ih h)

/-- The loop stops at the queue on whose stretch the value falls. -/
theorem findFrom_eq_some_iff {pick : Int64} : ∀ {qs : List WeightedQueue} {i j : Nat} {acc : Int64},
    (∀ q ∈ qs, 0 < q.weight.toInt) → 0 ≤ acc.toInt → acc.toInt + weights qs ≤ Go.maxInt →
    acc.toInt ≤ pick.toInt →
    (findFrom pick i acc qs = some (i + j) ↔
      ∃ q, qs[j]? = some q ∧ acc.toInt + before qs j ≤ pick.toInt ∧
        pick.toInt < acc.toInt + before qs j + q.weight.toInt) := by
  intro qs
  induction qs with
  | nil => simp [findFrom]
  | cons q qs ih =>
      intro i j acc hpos hacc hsum hpick
      obtain ⟨hq, hqs⟩ := List.forall_mem_cons.mp hpos
      have hrest := weights_nonneg hqs
      rw [weights_cons] at hsum
      have hadd := Go.toInt_add_of_le hacc hq.le (by omega)
      rw [findFrom]
      split
      · rename_i hlt
        rw [Int64.lt_iff_toInt_lt, hadd] at hlt
        cases j with
        | zero => simp [before, hpick, hlt]
        | succ j =>
            have hbefore := before_nonneg hqs j
            rw [before_cons_succ]
            constructor
            · intro h
              have := Option.some.inj h
              omega
            · rintro ⟨p, -, hlow, -⟩
              omega
      · rename_i hge
        rw [Int64.lt_iff_toInt_lt, hadd] at hge
        cases j with
        | zero =>
            constructor
            · intro h
              exact absurd (le_of_findFrom h) (Nat.not_succ_le_self i)
            · rintro ⟨p, hp, -, hhigh⟩
              obtain rfl : q = p := Option.some.inj hp
              simp [before] at hhigh
              omega
        | succ j =>
            have hindex : i + (j + 1) = i + 1 + j := by omega
            rw [hindex, ih hqs (by omega) (by omega) (by omega),
              before_cons_succ, List.getElem?_cons_succ, hadd]
            simp only [Int.add_assoc]

/-- A loop that goes through all queues is one for a value that falls on none. -/
theorem weights_le_of_findFrom_none {pick : Int64} : ∀ {qs : List WeightedQueue} {i : Nat}
    {acc : Int64}, (∀ q ∈ qs, 0 < q.weight.toInt) → 0 ≤ acc.toInt →
    acc.toInt + weights qs ≤ Go.maxInt → acc.toInt ≤ pick.toInt →
    findFrom pick i acc qs = none → acc.toInt + weights qs ≤ pick.toInt := by
  intro qs
  induction qs with
  | nil =>
      intro i acc _ _ _ hpick _
      simpa using hpick
  | cons q qs ih =>
      intro i acc hpos hacc hsum hpick hnone
      obtain ⟨hq, hqs⟩ := List.forall_mem_cons.mp hpos
      have hrest := weights_nonneg hqs
      rw [weights_cons] at hsum ⊢
      have hadd := Go.toInt_add_of_le hacc hq.le (by omega)
      rw [findFrom] at hnone
      split at hnone
      · cases hnone
      · rename_i hge
        rw [Int64.lt_iff_toInt_lt, hadd] at hge
        have hle := ih hqs (by omega) (by omega) (by omega) hnone
        omega

section Draw

variable {qs : List WeightedQueue} {v : Int}

theorem toInt_ofInt {total : Int} (htotal : total ≤ Go.maxInt) (hv : 0 ≤ v ∧ v < total) :
    (Int64.ofInt v).toInt = v := by
  unfold Go.maxInt at htotal
  exact Int64.toInt_ofInt_of_le (by omega) (by omega)

theorem Fits.find_eq_some_iff (h : Fits qs) (hv : 0 ≤ v ∧ v < weights qs) {j : Nat} :
    find qs (Int64.ofInt v) = some j ↔
      ∃ q, qs[j]? = some q ∧ before qs j ≤ v ∧ v < before qs j + q.weight.toInt := by
  have hpick := toInt_ofInt h.weights_le hv
  have hle := h.weights_le
  have hiff : findFrom (Int64.ofInt v) 0 0 qs = some (0 + j) ↔ _ :=
    findFrom_eq_some_iff h.pos (by decide) (by simpa using hle) (by rw [hpick]; exact hv.1)
  rw [Nat.zero_add, hpick] at hiff
  rw [find, hiff]
  simp

theorem Fits.isSome_find (h : Fits qs) (hv : 0 ≤ v ∧ v < weights qs) :
    (find qs (Int64.ofInt v)).isSome := by
  have hpick := toInt_ofInt h.weights_le hv
  have hle := h.weights_le
  rw [Option.isSome_iff_ne_none]
  intro hnone
  have hlow := weights_le_of_findFrom_none h.pos (by decide) (by simpa using hle)
    (by rw [hpick]; exact hv.1) hnone
  rw [hpick] at hlow
  have hzero : (0 : Int64).toInt = 0 := rfl
  omega

theorem before_add_le (hpos : ∀ q ∈ qs, 0 < q.weight.toInt) {j : Nat} {q : WeightedQueue}
    (hq : qs[j]? = some q) : before qs j + q.weight.toInt ≤ weights qs := by
  obtain ⟨hlt, rfl⟩ := List.getElem?_eq_some_iff.mp hq
  have hsplit : qs = qs.take j ++ qs[j] :: qs.drop (j + 1) := by
    rw [List.cons_getElem_drop_succ, List.take_append_drop]
  have hrest : 0 ≤ weights (qs.drop (j + 1)) :=
    weights_nonneg fun q hq => hpos q (List.mem_of_mem_drop hq)
  have hsum : weights qs = before qs j + (qs[j].weight.toInt + weights (qs.drop (j + 1))) := by
    conv_lhs => rw [hsplit]
    rw [weights, List.map_append, List.sum_append]
    rfl
  omega

/-- As many values select a queue as its weight says. -/
theorem Fits.card_share (h : Fits qs) {j : Nat} {q : WeightedQueue} (hq : qs[j]? = some q) :
    (((Finset.Ico 0 (weights qs)).filter fun v => find qs (Int64.ofInt v) = some j).card : Int) =
      q.weight.toInt := by
  have hlow := before_nonneg h.pos j
  have hhigh := before_add_le h.pos hq
  have hset : ((Finset.Ico 0 (weights qs)).filter fun v => find qs (Int64.ofInt v) = some j) =
      Finset.Ico (before qs j) (before qs j + q.weight.toInt) := by
    ext v
    rw [Finset.mem_filter, Finset.mem_Ico, Finset.mem_Ico]
    constructor
    · rintro ⟨hv, hfind⟩
      obtain ⟨p, hp, hstretch⟩ := (h.find_eq_some_iff hv).mp hfind
      obtain rfl : p = q := Option.some.inj (hp.symm.trans hq)
      exact hstretch
    · intro hstretch
      have hv : 0 ≤ v ∧ v < weights qs := ⟨by omega, by omega⟩
      exact ⟨hv, (h.find_eq_some_iff hv).mpr ⟨q, hq, hstretch⟩⟩
  have hpos := h.pos q (List.mem_of_getElem? hq)
  rw [hset, Int.card_Ico]
  omega

end Draw

/-- What is true of a draw: the total is the sum of the weights that are left, positive and
in range, every value below it selects a queue, and each queue is selected by as many values as
its weight says. -/
structure Draw.Fair (d : Draw) : Prop where
  total : d.total.toInt = weights d.remaining
  pos : 0 < weights d.remaining
  lt : weights d.remaining < 2 ^ 63
  found : ∀ v, 0 ≤ v ∧ v < weights d.remaining → (find d.remaining (Int64.ofInt v)).isSome
  share : ∀ j q, d.remaining[j]? = some q →
    (((Finset.Ico 0 (weights d.remaining)).filter
      fun v => find d.remaining (Int64.ofInt v) = some j).card : Int) = q.weight.toInt

theorem Fits.fair {qs : List WeightedQueue} (h : Fits qs) (hne : qs ≠ []) :
    Draw.Fair ⟨qs, sumWeights qs⟩ := by
  refine ⟨h.toInt_sumWeights, h.weights_pos hne, ?_, fun v => h.isSome_find,
    fun j q => h.card_share⟩
  have hle := h.weights_le
  unfold Go.maxInt at hle
  exact Int.lt_of_le_sub_one hle

/-! ## The draws of a round, on lists -/

/-- The last queue takes the place of the one at `idx`. -/
def swapRemove (qs : List WeightedQueue) (idx : Nat) : List WeightedQueue :=
  (qs.set idx (qs.getLast?.getD default)).dropLast

/-- The index the `k`-th draw selects. -/
def selected (seeds : Nat → Nat) (k : Nat) (qs : List WeightedQueue) : Nat :=
  (find qs (Int64.ofInt (seeds k % weights qs))).getD (qs.length - 1)

/-- The draws from `n` queues, with the name each of them gives. -/
def picks (seeds : Nat → Nat) : Nat → Nat → List WeightedQueue → List (Draw × Bytes)
  | 0, _, _ => []
  | n + 1, k, qs =>
      (⟨qs, sumWeights qs⟩, (qs[selected seeds k qs]?.getD default).name) ::
        picks seeds n (k + 1) (swapRemove qs (selected seeds k qs))

/-- The order in which `weightedOrder` puts queues. -/
def orderOf (seeds : Nat → Nat) (qs : List WeightedQueue) : List Bytes :=
  if qs.length = 1 then qs.map WeightedQueue.name
  else (picks seeds qs.length 0 qs).map Prod.snd

theorem perm_swapRemove {qs : List WeightedQueue} {idx : Nat} {q : WeightedQueue}
    (hq : qs[idx]? = some q) : qs.Perm (q :: swapRemove qs idx) := by
  obtain ⟨hidx, rfl⟩ := List.getElem?_eq_some_iff.mp hq
  have hne : qs ≠ [] := List.ne_nil_of_length_pos (Nat.zero_lt_of_lt hidx)
  obtain ⟨init, last, rfl⟩ : ∃ init last, qs = init ++ [last] :=
    ⟨qs.dropLast, qs.getLast hne, (List.dropLast_append_getLast hne).symm⟩
  rw [swapRemove, List.getLast?_concat, Option.getD_some]
  by_cases hlast : idx < init.length
  · rw [List.set_append_left _ _ hlast, List.dropLast_concat, List.getElem_append_left hlast]
    have hout : (last :: init).Perm (last :: init[idx] :: init.eraseIdx idx) :=
      (List.getElem_cons_eraseIdx_perm hlast).symm.cons last
    have hin : (last :: init.eraseIdx idx).Perm (init.set idx last) :=
      (List.set_perm_cons_eraseIdx hlast last).symm
    refine (List.perm_append_singleton last init).trans (hout.trans ?_)
    exact (List.Perm.swap _ _ _).trans (hin.cons _)
  · obtain rfl : idx = init.length := by
      rw [List.length_append, List.length_singleton] at hidx
      omega
    simp

/-- A draw always selects a queue that is left. -/
theorem Fits.selected_mem {qs : List WeightedQueue} (h : Fits qs) (hne : qs ≠ [])
    (seeds : Nat → Nat) (k : Nat) : ∃ q, qs[selected seeds k qs]? = some q := by
  have hpos := h.weights_pos hne
  have hv : 0 ≤ seeds k % weights qs ∧ seeds k % weights qs < weights qs :=
    ⟨Int.emod_nonneg _ hpos.ne', Int.emod_lt_of_pos _ hpos⟩
  obtain ⟨j, hj⟩ := Option.isSome_iff_exists.mp (h.isSome_find hv)
  obtain ⟨q, hq, -⟩ := (h.find_eq_some_iff hv).mp hj
  rw [selected, hj]
  exact ⟨q, hq⟩

/-- A draw takes one queue out of the list and leaves the others. -/
theorem Fits.draw {qs : List WeightedQueue} (h : Fits qs) {n : Nat} (hlen : qs.length = n + 1)
    (seeds : Nat → Nat) (k : Nat) :
    ∃ q, qs[selected seeds k qs]? = some q ∧
      qs.Perm (q :: swapRemove qs (selected seeds k qs)) ∧
      Fits (swapRemove qs (selected seeds k qs)) ∧
      (swapRemove qs (selected seeds k qs)).length = n := by
  obtain ⟨q, hq⟩ := h.selected_mem (List.ne_nil_of_length_eq_add_one hlen) seeds k
  have hperm := perm_swapRemove hq
  refine ⟨q, hq, hperm, (h.perm hperm).tail, ?_⟩
  have hlength := hperm.length_eq
  rw [List.length_cons] at hlength
  omega

section Picks

variable {seeds : Nat → Nat}

theorem length_picks : ∀ (n k : Nat) (qs : List WeightedQueue), (picks seeds n k qs).length = n := by
  intro n
  induction n with
  | zero => exact fun _ _ => rfl
  | succ n ih => exact fun k qs => congrArg (· + 1) (ih _ _)

/-- The draws give every name once. -/
theorem perm_picks : ∀ {n : Nat} (k : Nat) {qs : List WeightedQueue}, Fits qs → qs.length = n →
    ((picks seeds n k qs).map Prod.snd).Perm (qs.map WeightedQueue.name) := by
  intro n
  induction n with
  | zero =>
      intro k qs _ hlen
      rw [List.length_eq_zero_iff.mp hlen]
      exact List.Perm.nil
  | succ n ih =>
      intro k qs h hlen
      obtain ⟨q, hq, hperm, hfits, hrest⟩ := h.draw hlen seeds k
      rw [picks, List.map_cons, hq]
      exact ((ih (k + 1) hfits hrest).cons q.name).trans (hperm.map _).symm

/-- Each draw is fair. -/
theorem fair_picks : ∀ {n : Nat} (k : Nat) {qs : List WeightedQueue}, Fits qs → qs.length = n →
    ∀ p ∈ picks seeds n k qs, p.1.Fair := by
  intro n
  induction n with
  | zero => exact fun _ _ _ _ p hp => absurd hp List.not_mem_nil
  | succ n ih =>
      intro k qs h hlen p hp
      obtain ⟨q, -, -, hfits, hrest⟩ := h.draw hlen seeds k
      rcases List.mem_cons.mp hp with rfl | hp
      · exact h.fair (List.ne_nil_of_length_eq_add_one hlen)
      · exact ih (k + 1) hfits hrest p hp

/-- The queues that are left before a draw are those named from there on. -/
theorem remaining_picks : ∀ {n : Nat} (k : Nat) {qs : List WeightedQueue}, Fits qs →
    qs.length = n → ∀ {i : Nat} {p : Draw × Bytes}, (picks seeds n k qs)[i]? = some p →
      (p.1.remaining.map WeightedQueue.name).Perm
        (((picks seeds n k qs).map Prod.snd).drop i) := by
  intro n
  induction n with
  | zero =>
      intro k qs _ _ i p hp
      cases hp
  | succ n ih =>
      intro k qs h hlen i p hp
      cases i with
      | zero =>
          obtain rfl := Option.some.inj hp
          exact (perm_picks k h hlen).symm
      | succ i =>
          obtain ⟨q, -, -, hfits, hrest⟩ := h.draw hlen seeds k
          exact ih (k + 1) hfits hrest hp

end Picks

/-! ## The draws of a round, in memory -/

/-- What a loop over `base` leaves, when the names before it were `names` and the draws are
`drawn`. -/
structure Drawn (memory : Memory) (base : Slice) (names : List Bytes) (drawn : List (Draw × Bytes))
    (out : Ordered) : Prop where
  names : out.memory.names.read out.dst = names ++ drawn.map Prod.snd
  draws : out.draws = drawn.map Prod.fst
  dst : out.memory.names.Valid out.dst
  scratch : out.scratch = base.upTo 0
  valid : ∀ t, memory.queues.Valid t → out.memory.queues.Valid t
  /-- no other array of queues has changed -/
  frame : ∀ t, t.addr ≠ base.addr → out.memory.queues.read t = memory.queues.read t

section Loop

variable {spare : Nat → Nat} {seeds : Nat → Nat} {base : Slice}

/-- The swap in memory is the one on lists. -/
theorem read_swapRemove {queues : Heap WeightedQueue} {n idx : Nat} {qs : List WeightedQueue}
    (hvalid : queues.Valid (base.upTo (n + 1))) (hread : queues.read (base.upTo (n + 1)) = qs)
    (hidx : idx < n + 1) {last : WeightedQueue} (hlast : qs[n]? = some last) :
    (queues.set (base.upTo (n + 1)) idx last).read (base.upTo n) = swapRemove qs idx := by
  have hlen : qs.length = n + 1 := by
    rw [← hread]
    exact Heap.length_read hvalid
  have hlast' : qs.getLast? = some last := by
    rw [List.getLast?_eq_getElem?, hlen]
    exact hlast
  rw [← Slice.upTo_upTo base (n + 1) n, Heap.read_upTo (Nat.le_succ n),
    Heap.read_set hvalid hidx, hread, swapRemove, hlast', List.dropLast_eq_take,
    List.length_set, hlen]
  rfl

/-- The total is kept by subtraction. -/
theorem sumWeights_swapRemove {qs : List WeightedQueue} {q : WeightedQueue} {idx : Nat}
    (h : Fits qs) (hperm : qs.Perm (q :: swapRemove qs idx)) (hrest : Fits (swapRemove qs idx)) :
    sumWeights qs - q.weight = sumWeights (swapRemove qs idx) := by
  have hsum := weights_perm hperm
  have hlow := weights_nonneg hrest.pos
  have hhigh := hrest.weights_le
  unfold Go.maxInt at hhigh
  rw [weights_cons] at hsum
  rw [← Int64.toInt_inj, Int64.toInt_sub, h.toInt_sumWeights, hrest.toInt_sumWeights, hsum,
    add_sub_cancel_left, Int.bmod_eq_of_le (by omega) (by omega)]

theorem int64N_sumWeights {qs : List WeightedQueue} (h : Fits qs) (hne : qs ≠ []) (seed : Nat) :
    int64N seed (sumWeights qs) = some (Int64.ofInt (seed % weights qs)) := by
  have hpos := h.weights_pos hne
  have hgt : ¬sumWeights qs ≤ 0 := by
    rw [Int64.le_iff_toInt_le, h.toInt_sumWeights]
    exact not_le.mpr hpos
  rw [int64N, if_neg hgt, h.toInt_sumWeights]

/-- The loop makes the draws of the list it reads, without a panic. -/
theorem orderLoop_drawn : ∀ {n : Nat} (k : Nat) {memory : Memory} {dst : Slice}
    {qs : List WeightedQueue}, memory.queues.Valid (base.upTo n) → memory.names.Valid dst →
    memory.queues.read (base.upTo n) = qs → Fits qs →
    ∃ out, orderLoop spare seeds base n k memory dst (sumWeights qs) = some out ∧
      Drawn memory base (memory.names.read dst) (picks seeds n k qs) out := by
  intro n
  induction n with
  | zero =>
      intro k memory dst qs hvalid hdst hread h
      refine ⟨_, rfl, ⟨?_, rfl, hdst, rfl, fun t ht => ht, fun t _ => rfl⟩⟩
      rw [picks, List.map_nil, List.append_nil]
  | succ n ih =>
      intro k memory dst qs hvalid hdst hread h
      have hlen : qs.length = n + 1 := by
        rw [← hread]
        exact Heap.length_read hvalid
      have hne := List.ne_nil_of_length_eq_add_one hlen
      obtain ⟨q, hq, hperm, hfits, -⟩ := h.draw hlen seeds k
      have hidx : selected seeds k qs < n + 1 := hlen ▸ (List.getElem?_eq_some_iff.mp hq).1
      obtain ⟨last, hlast⟩ : ∃ last, qs[n]? = some last :=
        ⟨_, List.getElem?_eq_getElem (by omega)⟩
      have hdefault : qs.length - 1 = n := by omega
      have hroom : n ≤ base.cap := Nat.le_of_succ_le hvalid.len_le
      -- the next turn's memory
      have hshrunk := Heap.valid_set hvalid (Heap.valid_upTo hvalid hroom) hidx last
      obtain ⟨out, hout, hdrawn⟩ := @ih (k + 1)
        ⟨(memory.names.append spare dst [q.name]).1,
          memory.queues.set (base.upTo (n + 1)) (selected seeds k qs) last⟩ _ _
        hshrunk (Heap.valid_append hdst [q.name]) (read_swapRemove hvalid hread hidx hlast) hfits
      refine ⟨{ out with draws := ⟨qs, sumWeights qs⟩ :: out.draws }, ?_, ?_⟩
      · simp only [orderLoop, hread, int64N_sumWeights h hne, Option.bind_some]
        rw [show (find qs (Int64.ofInt (seeds k % weights qs))).getD n = selected seeds k qs by
          rw [selected, hdefault]]
        rw [hq, Option.bind_some, hlast, Option.bind_some, sumWeights_swapRemove h hperm hfits,
          hout, Option.map_some]
      · refine ⟨?_, ?_, hdrawn.dst, hdrawn.scratch, fun t ht => hdrawn.valid t ?_, fun t ht => ?_⟩
        · rw [picks, hq, hdrawn.names, Heap.read_append hdst, List.append_assoc]
          rfl
        · rw [picks, List.map_cons, hdrawn.draws]
        · exact Heap.valid_set hvalid ht hidx last
        · exact (hdrawn.frame t ht).trans (Heap.read_write_of_ne memory.queues ht _ _)

end Loop

/-! ## The queues of a client -/

theorem clampWeight_pos (weight : Int64) : 0 < (clampWeight weight).toInt := by
  unfold clampWeight
  split
  · decide
  · rename_i hlow
    split
    · decide
    · rw [Int64.lt_iff_toInt_lt] at hlow
      have hone : (1 : Int64).toInt = 1 := rfl
      omega

theorem clampWeight_le (weight : Int64) : (clampWeight weight).toInt ≤ 100000 := by
  unfold clampWeight
  split
  · decide
  · split
    · decide
    · rename_i hhigh
      have hmax : maxQueueWeight.toInt = 100000 := rfl
      rw [gt_iff_lt, Int64.lt_iff_toInt_lt] at hhigh
      omega

/-- The queues a client works have usable weights and names of their own. -/
theorem checkedQueues_spec {visit : Visit (Bytes × Int64)} {queues : Map Bytes Int64}
    {qs : List WeightedQueue} (h : checkedQueues visit queues = some qs) :
    (∀ q ∈ qs, 0 < q.weight.toInt ∧ q.weight.toInt ≤ 100000) ∧
      (qs.map WeightedQueue.name).Nodup ∧ qs ≠ [] := by
  unfold checkedQueues at h
  split at h
  · cases h
    decide
  · rename_i hlen
    dsimp only at h
    split at h
    · cases h
    · obtain rfl := Option.some.inj h
      have hperm := List.perm_insertionSort (fun a b => compareText a.name b.name ≠ .gt)
        ((visit.order queues.rows).map fun row => (⟨row.1, clampWeight row.2⟩ : WeightedQueue))
      refine ⟨fun q hq => ?_, ?_, ?_⟩
      · obtain ⟨row, -, rfl⟩ := List.mem_map.mp (hperm.mem_iff.mp hq)
        exact ⟨clampWeight_pos row.2, clampWeight_le row.2⟩
      · rw [(hperm.map WeightedQueue.name).nodup_iff, List.map_map]
        exact ((visit.perm queues.rows).map Prod.fst).nodup_iff.mpr queues.nodup
      · intro hnil
        have hlength := hperm.length_eq
        rw [hnil, List.length_map, (visit.perm queues.rows).length_eq] at hlength
        exact hlen hlength.symm

/-! ## A round's order -/

/-- What a call of `weightedOrder` for the queues in `qs` leaves, when their list is `queues`. -/
structure RoundOrder (seeds : Nat → Nat) (qs : Slice) (queues : List WeightedQueue)
    (out : Ordered) : Prop where
  /-- the result is that of the list: nothing else in memory matters -/
  result : out.memory.names.read out.dst = orderOf seeds queues
  /-- every queue once -/
  perm : (orderOf seeds queues).Perm (queues.map WeightedQueue.name)
  nodup : (orderOf seeds queues).Nodup
  fair : ∀ d ∈ out.draws, d.Fair
  /-- what a draw is made from has still to be named -/
  remaining : ∀ (i : Nat) (d : Draw), out.draws[i]? = some d →
    (d.remaining.map WeightedQueue.name).Perm ((orderOf seeds queues).drop i)
  draws : out.draws.length = if queues.length = 1 then 0 else queues.length
  /-- the queues are still there -/
  unchanged : out.memory.queues.read qs = queues
  /-- the slices can be used again -/
  reusable : out.memory.queues.Valid qs ∧ out.memory.names.Valid out.dst ∧
    out.memory.queues.Valid out.scratch ∧ out.scratch.Apart qs

section Order

variable {spare seeds : Nat → Nat} {memory : Memory} {qs dst scratch : Slice}

/-- One queue is named without a draw. -/
theorem weightedOrder_one {q : WeightedQueue} (hqs : memory.queues.Valid qs)
    (hread : memory.queues.read qs = [q]) (hdst : memory.names.Valid (dst.upTo 0))
    (hscratch : memory.queues.Valid (scratch.upTo 0)) (hapart : scratch.Apart qs) :
    ∃ out, weightedOrder spare seeds memory qs dst scratch = some out ∧
      RoundOrder seeds qs [q] out := by
  unfold weightedOrder
  rw [hread]
  refine ⟨_, rfl, ⟨?_, List.Perm.refl _, List.nodup_singleton _, ?_, ?_, rfl, hread, hqs,
    Heap.valid_append hdst _, hscratch, hapart⟩⟩
  · exact Heap.read_append hdst [q.name]
  · exact fun d hd => absurd hd List.not_mem_nil
  · exact fun i d hd => absurd hd (by simp)

/-- Several queues are copied and drawn from. -/
theorem weightedOrder_many {q p : WeightedQueue} {rest : List WeightedQueue}
    (hfits : Fits (q :: p :: rest))
    (hnodup : ((q :: p :: rest).map WeightedQueue.name).Nodup)
    (hqs : memory.queues.Valid qs) (hread : memory.queues.read qs = q :: p :: rest)
    (hdst : memory.names.Valid (dst.upTo 0)) (hscratch : memory.queues.Valid (scratch.upTo 0))
    (hapart : scratch.Apart qs) :
    ∃ out, weightedOrder spare seeds memory qs dst scratch = some out ∧
      RoundOrder seeds qs (q :: p :: rest) out := by
  have hlen : qs.len = rest.length + 2 := by
    rw [← Heap.length_read hqs, hread]
    rfl
  have hpos : 0 < qs.off + qs.cap := by
    have := hqs.len_le
    omega
  unfold weightedOrder
  rw [hread]
  dsimp only
  have hapart' : (scratch.upTo 0).Apart qs := hapart
  generalize hgrown : memory.queues.append spare (scratch.upTo 0) (q :: p :: rest) = grown
  obtain ⟨hold, haddr⟩ : grown.1.read qs = memory.queues.read qs ∧ grown.2.addr ≠ qs.addr :=
    hgrown ▸ Heap.append_apart hqs hpos hapart' (List.cons_ne_nil q _)
  have hvalid : grown.1.Valid grown.2 := hgrown ▸ Heap.valid_append hscratch _
  have hqs' : grown.1.Valid qs := hgrown ▸ hscratch.append hqs _
  have hcopy : grown.1.read grown.2 = q :: p :: rest := hgrown ▸ Heap.read_append hscratch _
  have hcount : grown.2.len = (q :: p :: rest).length := by
    rw [← Heap.length_read hvalid, hcopy]
  obtain ⟨out, hout, hdrawn⟩ := @orderLoop_drawn spare seeds grown.2 grown.2.len 0
    ⟨memory.names, grown.1⟩ (dst.upTo 0) (q :: p :: rest) hvalid hdst hcopy hfits
  refine ⟨out, hout, ?_⟩
  have horder : orderOf seeds (q :: p :: rest) =
      (picks seeds grown.2.len 0 (q :: p :: rest)).map Prod.snd := by
    rw [orderOf, if_neg (by simp), hcount]
  have hperm : (orderOf seeds (q :: p :: rest)).Perm ((q :: p :: rest).map WeightedQueue.name) :=
    horder ▸ perm_picks 0 hfits hcount.symm
  refine ⟨?_, hperm, hperm.nodup_iff.mpr hnodup, ?_, ?_, ?_, ?_, hdrawn.valid qs hqs', hdrawn.dst,
    ?_, ?_⟩
  · rw [hdrawn.names, horder]
    exact List.nil_append _
  · intro d hd
    rw [hdrawn.draws] at hd
    obtain ⟨pick, hpick, rfl⟩ := List.mem_map.mp hd
    exact fair_picks 0 hfits hcount.symm pick hpick
  · intro i d hd
    rw [hdrawn.draws, List.getElem?_map] at hd
    obtain ⟨pick, hpick, rfl⟩ := Option.map_eq_some_iff.mp hd
    rw [horder]
    exact remaining_picks 0 hfits hcount.symm hpick
  · rw [hdrawn.draws, List.length_map, length_picks, hcount, if_neg (by simp)]
  · rw [hdrawn.frame qs haddr.symm]
    exact hold.trans hread
  · rw [hdrawn.scratch]
    exact hdrawn.valid _ (Heap.valid_upTo hvalid (Nat.zero_le _))
  · rw [hdrawn.scratch]
    exact .inr haddr

/-- The slices a call is given: the queues, and two to reuse. -/
structure Usable (memory : Memory) (qs dst scratch : Slice) (queues : List WeightedQueue) :
    Prop where
  validQueues : memory.queues.Valid qs
  reads : memory.queues.read qs = queues
  validDst : memory.names.Valid dst
  validScratch : memory.queues.Valid scratch
  apart : scratch.Apart qs

theorem weightedOrder_roundOrder {queues : List WeightedQueue} (hfits : Fits queues)
    (hnodup : (queues.map WeightedQueue.name).Nodup) (hne : queues ≠ [])
    (h : Usable memory qs dst scratch queues) :
    ∃ out, weightedOrder spare seeds memory qs dst scratch = some out ∧
      RoundOrder seeds qs queues out := by
  have hdst : memory.names.Valid (dst.upTo 0) := Heap.valid_upTo h.validDst (Nat.zero_le _)
  have hscratch : memory.queues.Valid (scratch.upTo 0) :=
    Heap.valid_upTo h.validScratch (Nat.zero_le _)
  cases queues with
  | nil => exact absurd rfl hne
  | cons q rest =>
      cases rest with
      | nil => exact weightedOrder_one h.validQueues h.reads hdst hscratch h.apart
      | cons p rest => exact weightedOrder_many hfits hnodup h.validQueues h.reads hdst hscratch h.apart

theorem RoundOrder.usable {queues : List WeightedQueue} {out : Ordered}
    (h : RoundOrder seeds qs queues out) : Usable out.memory qs out.dst out.scratch queues :=
  ⟨h.reusable.1, h.unchanged, h.reusable.2.1, h.reusable.2.2.1, h.reusable.2.2.2⟩

/-- Before the first round there are no slices to reuse. -/
theorem usable_nil {queues : List WeightedQueue} (hqs : memory.queues.Valid qs)
    (hread : memory.queues.read qs = queues) : Usable memory qs Slice.nil Slice.nil queues :=
  ⟨hqs, hread, ⟨le_rfl, Nat.zero_le _⟩, ⟨le_rfl, Nat.zero_le _⟩, .inl rfl⟩

end Order

theorem fits_of_checkedQueues {visit : Visit (Bytes × Int64)} {config : Map Bytes Int64}
    {queues : List WeightedQueue} (hqueues : checkedQueues visit config = some queues)
    (hmany : queues.length ≤ 2 ^ 40) : Fits queues := by
  obtain ⟨hweights, -, -⟩ := checkedQueues_spec hqueues
  exact ⟨fun q hq => (hweights q hq).1, fun q hq => (hweights q hq).2, hmany⟩

/-- Whatever `rand.Int64N` returns, and whatever the slices it may reuse hold, `weightedOrder`
orders the queues of a client without a panic. -/
theorem weightedOrder_fair {visit : Visit (Bytes × Int64)} {config : Map Bytes Int64}
    {queues : List WeightedQueue} (hqueues : checkedQueues visit config = some queues)
    (hmany : queues.length ≤ 2 ^ 40) (spare seeds : Nat → Nat) {memory : Memory}
    {qs dst scratch : Slice} (h : Usable memory qs dst scratch queues) :
    ∃ out, weightedOrder spare seeds memory qs dst scratch = some out ∧
      RoundOrder seeds qs queues out := by
  obtain ⟨-, hnodup, hne⟩ := checkedQueues_spec hqueues
  exact weightedOrder_roundOrder (fits_of_checkedQueues hqueues hmany) hnodup hne h

/-- The queues `a` with weight 3 and `b` with weight 1. -/
def twoQueues : List WeightedQueue := [⟨[97], 3⟩, ⟨[98], 1⟩]

/-- A configuration that gives them. -/
def twoConfig : Map Bytes Int64 := (Table.empty.put ([98], -1)).put ([97], 3)

theorem twoQueues_checked :
    checkedQueues ⟨List.reverse, List.reverse_perm⟩ twoConfig = some twoQueues := by
  decide

/-- Two arrays of queues, and one of names, with old contents. -/
def twoMemory : Memory := ⟨[[[99], [99]]], [twoQueues, [⟨[99], 7⟩]]⟩

theorem twoQueues_fair :
    ∃ out, weightedOrder id id twoMemory ⟨0, 0, 2, 2⟩ ⟨0, 0, 2, 2⟩ ⟨1, 0, 1, 1⟩ = some out ∧
      RoundOrder id ⟨0, 0, 2, 2⟩ twoQueues out :=
  weightedOrder_fair twoQueues_checked (by decide) id id
    ⟨⟨by decide, by decide⟩, by decide, ⟨by decide, by decide⟩, ⟨by decide, by decide⟩,
      .inr (by decide)⟩

/-! ## Round after round -/

/-- The orders of rounds in a row, each with the slices the one before returned. -/
def rounds (spare : Nat → Nat) (qs : Slice) : List (Nat → Nat) → Memory → Slice → Slice →
    Option (List (List Bytes))
  | [], _, _, _ => some []
  | seeds :: rest, memory, dst, scratch =>
      (weightedOrder spare seeds memory qs dst scratch).bind fun out =>
        (rounds spare qs rest out.memory out.dst out.scratch).map
          (out.memory.names.read out.dst :: ·)

/-- The rounds of a client all order its queues as they were at the start. -/
theorem rounds_eq {spare : Nat → Nat} {qs : Slice} {queues : List WeightedQueue}
    (hfits : Fits queues) (hnodup : (queues.map WeightedQueue.name).Nodup) (hne : queues ≠ []) :
    ∀ {draws : List (Nat → Nat)} {memory : Memory} {dst scratch : Slice},
      Usable memory qs dst scratch queues →
      rounds spare qs draws memory dst scratch = some (draws.map fun seeds => orderOf seeds queues) := by
  intro draws
  induction draws with
  | nil => exact fun _ => rfl
  | cons seeds rest ih =>
      intro memory dst scratch h
      obtain ⟨out, hout, horder⟩ := weightedOrder_roundOrder hfits hnodup hne h
      rw [rounds, hout, Option.bind_some, ih horder.usable, Option.map_some, horder.result]
      rfl

/-- So do the rounds of a client that starts without slices to reuse. -/
theorem rounds_of_checkedQueues {visit : Visit (Bytes × Int64)} {config : Map Bytes Int64}
    {queues : List WeightedQueue} (hqueues : checkedQueues visit config = some queues)
    (hmany : queues.length ≤ 2 ^ 40) (spare : Nat → Nat) {memory : Memory} {qs : Slice}
    (hqs : memory.queues.Valid qs) (hread : memory.queues.read qs = queues)
    (draws : List (Nat → Nat)) :
    rounds spare qs draws memory Slice.nil Slice.nil =
      some (draws.map fun seeds => orderOf seeds queues) := by
  obtain ⟨-, hnodup, hne⟩ := checkedQueues_spec hqueues
  exact rounds_eq (fits_of_checkedQueues hqueues hmany) hnodup hne (usable_nil hqs hread)

end Drover.Queues
