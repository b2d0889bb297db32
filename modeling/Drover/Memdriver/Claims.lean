import Drover.Foundation.Select
import Drover.Memdriver.Step

set_option autoImplicit false

/-!
# Claims and statistics

`FetchAvailable` and `Stats` walk the same map twice, for different reasons: one to take
the first due rows of a queue, the other to say how many rows there are and how long the
first due one has been waiting.  The two agree at every instant, and neither depends on
the order the map is walked in.

A walk of `Stats` is a fold over the rows; what it has seen so far is counted and its
earliest due time noted, one row at a time.
-/

namespace Drover.Memdriver

open Drover.Foundation
open Drover.Driver
open Drover.Go (Time Duration)

/-! ## What a claim takes -/

/-- The rows of a queue a claim may take. -/
def Driver.dueRows (d : Driver) (now : Time) (queue : Bytes) : List JobRow :=
  d.jobs.rows.filter (due now queue)

/-- By due time, then by id. -/
def Precedes (a b : JobRow) : Prop :=
  a.scheduledAt < b.scheduledAt ∨ (a.scheduledAt = b.scheduledAt ∧ a.id < b.id)

/-- `taken` is what `FetchAvailable` takes: as many due rows as the limit allows, the first
ones.  It claims these, and leaves every other row. -/
structure Takes (d : Driver) (now : Time) (queue : Bytes) (leaseFor : Duration) (limit : Nat)
    (taken : List JobRow) : Prop where
  distinct : (taken.map JobRow.id).Nodup
  count : taken.length = min limit (d.dueRows now queue).length
  due : ∀ row ∈ taken, row ∈ d.dueRows now queue
  first : ∀ row ∈ taken, ∀ other ∈ d.dueRows now queue, other ∉ taken → Precedes row other
  answer : (d.fetchAvailable now queue leaseFor limit).2 = taken.map (claim now leaseFor)
  nextID : (d.fetchAvailable now queue leaseFor limit).1.nextID = d.nextID
  stored : ∀ id, (d.fetchAvailable now queue leaseFor limit).1.jobs.get? id =
    (d.jobs.get? id).map fun row => if row ∈ taken then claim now leaseFor row else row

theorem selectRows_eq (d : Driver) (order : JobRow → Time) (keep : JobRow → Bool) :
    d.selectRows order keep =
      (d.jobs.rows.filter keep).insertionSort (orderedBy order JobRow.id) :=
  rfl

/-- A selection is listed by its order, then by id. -/
theorem pairwise_selectRows (d : Driver) (order : JobRow → Time) (keep : JobRow → Bool) :
    (d.selectRows order keep).Pairwise (orderedBy order JobRow.id) :=
  List.pairwise_insertionSort (orderedBy order JobRow.id) _

/-- The first rows of a selection come before the selected rows that are left, by the order of
the selection and then by id. -/
theorem selected_first {d : Driver} {order : JobRow → Time} {keep : JobRow → Bool} {n : Nat}
    {row other : JobRow} (hrow : row ∈ (d.selectRows order keep).take n)
    (hother : other ∈ d.selectRows order keep) (hnot : other ∉ (d.selectRows order keep).take n) :
    order row < order other ∨ (order row = order other ∧ row.id < other.id) := by
  have hleft : other ∈ (d.selectRows order keep).drop n := by
    rw [← List.take_append_drop n (d.selectRows _ _), List.mem_append] at hother
    exact hother.resolve_left hnot
  have hsorted := pairwise_selectRows d order keep
  rw [← List.take_append_drop n (d.selectRows _ _), List.pairwise_append] at hsorted
  rcases hsorted.2.2 row hrow other hleft with hlt | ⟨heq, hle⟩
  · exact Or.inl hlt
  refine Or.inr ⟨heq, lt_of_le_of_ne hle ?_⟩
  intro hid
  have hmem := (mem_selectRows.mp (List.mem_of_mem_take hrow)).1
  rw [List.inj_on_of_nodup_map d.jobs.nodup hmem (mem_selectRows.mp hother).1 hid] at hrow
  exact hnot hrow

theorem claimable_eq_take (d : Driver) (now : Time) (queue : Bytes) (limit : Nat) :
    d.claimable now queue limit = (d.selectRows byScheduledAt (due now queue)).take limit := by
  simp [Driver.claimable, upTo]

/-- The rows a claim takes come before the due rows it leaves. -/
theorem precedes_of_claimable {d : Driver} {now : Time} {queue : Bytes} {limit : Nat}
    {row other : JobRow} (hrow : row ∈ d.claimable now queue limit)
    (hother : other ∈ d.dueRows now queue) (hnot : other ∉ d.claimable now queue limit) :
    Precedes row other := by
  rw [claimable_eq_take] at hrow hnot
  exact selected_first hrow (mem_selectRows.mpr (List.mem_filter.mp hother)) hnot

theorem takes_claimable (d : Driver) (now : Time) (queue : Bytes) (leaseFor : Duration)
    (limit : Nat) : Takes d now queue leaseFor limit (d.claimable now queue limit) where
  distinct := nodup_upTo d byScheduledAt (due now queue) limit
  count := by
    rw [claimable_eq_take, List.length_take, selectRows_eq, List.length_insertionSort,
      Driver.dueRows]
  due := fun row hrow => List.mem_filter.mpr (due_of_mem_claimable hrow)
  first := fun row hrow other hother hnot => precedes_of_claimable hrow hother hnot
  answer := by rw [fetchAvailable_eq]
  nextID := by rw [fetchAvailable_eq]
  stored := get?_fetchAvailable d now queue leaseFor limit

theorem not_due_of_running {now : Time} {queue : Bytes} {row : JobRow} (h : row.state = .running) :
    due now queue row = false := by
  rw [due, h]
  rfl

namespace Takes

variable {d : Driver} {now : Time} {queue : Bytes} {leaseFor : Duration} {limit : Nat}
  {taken : List JobRow} {row : JobRow}

theorem length_le (h : Takes d now queue leaseFor limit taken) : taken.length ≤ limit := by
  rw [h.count]
  exact Nat.min_le_left _ _

theorem get?_of_mem (h : Takes d now queue leaseFor limit taken) (hrow : row ∈ taken) :
    d.jobs.get? row.id = some row :=
  Table.get?_of_mem (List.mem_filter.mp (h.due row hrow)).1

theorem queue_eq (h : Takes d now queue leaseFor limit taken) (hrow : row ∈ taken) :
    row.queue = queue := by
  have hdue := (List.mem_filter.mp (h.due row hrow)).2
  simp only [Memdriver.due, Bool.and_eq_true, beq_iff_eq] at hdue
  exact hdue.1.2

/-- What is taken was waiting. -/
theorem not_running (h : Takes d now queue leaseFor limit taken) (hrow : row ∈ taken) :
    row.state ≠ .running := by
  intro hrunning
  have hdue := (List.mem_filter.mp (h.due row hrow)).2
  rw [not_due_of_running hrunning] at hdue
  cases hdue

theorem stored_of_mem (h : Takes d now queue leaseFor limit taken) (hrow : row ∈ taken) :
    (d.fetchAvailable now queue leaseFor limit).1.jobs.get? row.id =
      some (claim now leaseFor row) := by
  rw [h.stored, h.get?_of_mem hrow, Option.map_some, if_pos hrow]

theorem stored_of_notMem (h : Takes d now queue leaseFor limit taken) {id : Int}
    (hnot : ∀ row, d.jobs.get? id = some row → row ∉ taken) :
    (d.fetchAvailable now queue leaseFor limit).1.jobs.get? id = d.jobs.get? id := by
  rw [h.stored]
  cases hget : d.jobs.get? id with
  | none => rfl
  | some row => rw [Option.map_some, if_neg (hnot row hget)]

end Takes

/-- The first row a claim with a positive limit takes is due before all the others. -/
theorem head_claimable (d : Driver) (now : Time) (queue : Bytes) (limit : Nat) :
    (d.dueRows now queue = [] ∧ d.claimable now queue (limit + 1 : Nat) = []) ∨
      ∃ row ∈ d.dueRows now queue, (∀ other ∈ d.dueRows now queue,
        row.scheduledAt ≤ other.scheduledAt) ∧
          (d.claimable now queue (limit + 1 : Nat)).head? = some row := by
  rw [claimable_eq_take]
  have hsorted := pairwise_selectRows d byScheduledAt (due now queue)
  have hmem : ∀ row, row ∈ d.selectRows byScheduledAt (due now queue) ↔
      row ∈ d.dueRows now queue := fun row => mem_selectRows.trans List.mem_filter.symm
  cases hrows : d.selectRows byScheduledAt (due now queue) with
  | nil =>
      refine Or.inl ⟨List.eq_nil_iff_forall_not_mem.mpr fun row hrow => ?_, rfl⟩
      rw [← hmem, hrows] at hrow
      cases hrow
  | cons row rest =>
      rw [hrows, List.pairwise_cons] at hsorted
      refine Or.inr ⟨row, ?_, fun other hother => ?_, rfl⟩
      · rw [← hmem, hrows]
        exact List.mem_cons_self
      · rw [← hmem, hrows, List.mem_cons] at hother
        rcases hother with rfl | hother
        · exact Int.le_refl _
        · rcases hsorted.1 other hother with hlt | ⟨heq, -⟩
          · exact le_of_lt hlt
          · exact le_of_eq heq

/-! ## What a walk of `Stats` has seen -/

/-- How many rows of a queue are in a state. -/
def depthOf (rows : List JobRow) (queue : Bytes) (state : JobState) : Nat :=
  rows.countP fun row => row.queue == queue && row.state == state

theorem depthOf_concat (rows : List JobRow) (row : JobRow) (queue : Bytes) (state : JobState) :
    depthOf (rows ++ [row]) queue state =
      depthOf rows queue state + if (row.queue, row.state) = (queue, state) then 1 else 0 := by
  simp [depthOf, List.countP_append, List.countP_cons]

theorem get?_bump (counts : Counts) (queue queue' : Bytes) (state state' : JobState) :
    (bump counts queue state).get? (queue', state') =
      if (queue, state) = (queue', state') then
        some ⟨queue, state, (counts.get? (queue, state)).elim 0 QueueDepth.count + 1⟩
      else counts.get? (queue', state') :=
  Table.get?_put counts _ _

/-- The counts of a walk: one for each queue and counted state that occurs. -/
theorem get?_counts (now : Time) (rows : List JobRow) (queue : Bytes) (state : JobState) :
    (rows.foldl (statsRow now) (Table.empty, Table.empty)).1.get? (queue, state) =
      if counted state = true ∧ depthOf rows queue state ≠ 0 then
        some ⟨queue, state, depthOf rows queue state⟩
      else none := by
  induction rows using List.reverseRecOn with
  | nil => simp [depthOf]
  | append_singleton rows row ih =>
      rw [List.foldl_concat, depthOf_concat]
      simp only [statsRow]
      by_cases hrow : (row.queue, row.state) = (queue, state)
      · obtain ⟨rfl, rfl⟩ := Prod.mk.inj hrow
        by_cases hcounted : counted row.state = true
        · rw [if_pos hcounted, get?_bump, if_pos rfl, ih, if_pos rfl]
          by_cases hzero : depthOf rows row.queue row.state = 0
          · simp [hcounted, hzero]
          · simp [hcounted, hzero]
        · rw [if_neg hcounted, ih, if_neg (fun h => hcounted h.1), if_neg (fun h => hcounted h.1)]
      · rw [if_neg hrow, Nat.add_zero]
        by_cases hcounted : counted row.state = true
        · rw [if_pos hcounted, get?_bump, if_neg hrow, ih]
        · rw [if_neg hcounted, ih]

/-- What a walk notes of a queue: the earliest due time among the rows a claim may take. -/
inductive Noted (now : Time) (queue : Bytes) (rows : List JobRow) : Option (Bytes × Time) → Prop
  | noneDue (hnone : ∀ row ∈ rows, due now queue row = false) : Noted now queue rows none
  | earliest {row : JobRow} (hmem : row ∈ rows) (hdue : due now queue row = true)
      (hfirst : ∀ other ∈ rows, due now queue other = true → row.scheduledAt ≤ other.scheduledAt) :
      Noted now queue rows (some (queue, row.scheduledAt))

/-- A row that is not due for a queue changes nothing about it. -/
theorem Noted.concat_of_not_due {now : Time} {queue : Bytes} {rows : List JobRow}
    {entry : Option (Bytes × Time)} (h : Noted now queue rows entry) {row : JobRow}
    (hrow : due now queue row = false) : Noted now queue (rows ++ [row]) entry := by
  cases h with
  | noneDue hnone =>
      refine .noneDue fun other hother => ?_
      rcases List.mem_append.mp hother with hother | hother
      · exact hnone other hother
      · rw [List.mem_singleton.mp hother, hrow]
  | earliest hmem hdue hfirst =>
      refine .earliest (List.mem_append_left _ hmem) hdue fun other hother hdue' => ?_
      rcases List.mem_append.mp hother with hother | hother
      · exact hfirst other hother hdue'
      · rw [List.mem_singleton.mp hother, hrow] at hdue'
        cases hdue'

theorem due_iff {now : Time} {queue : Bytes} {row : JobRow} :
    due now queue row = true ↔
      (!waiting row.state || decide (row.scheduledAt > now)) = false ∧ row.queue = queue := by
  simp only [due, Bool.and_eq_true, Bool.or_eq_false_iff, Bool.not_eq_eq_eq_not, Bool.not_true,
    Bool.not_false, beq_iff_eq]
  tauto

theorem get?_noteDue_of_ne {oldest : Oldest} {queue queue' : Bytes} (h : queue ≠ queue')
    (scheduledAt : Time) : (noteDue oldest queue scheduledAt).get? queue' = oldest.get? queue' := by
  have hput : (oldest.put (queue, scheduledAt)).get? queue' = oldest.get? queue' :=
    Table.get?_put_of_ne h
  unfold noteDue
  split
  · exact hput
  · split
    · exact hput
    · rfl

/-- A due row is noted when no row of its queue was due before it. -/
theorem Noted.noteDue {now : Time} {rows : List JobRow} {row : JobRow} {oldest : Oldest}
    (h : Noted now row.queue rows (oldest.get? row.queue)) (hrow : due now row.queue row = true) :
    Noted now row.queue (rows ++ [row])
      ((noteDue oldest row.queue row.scheduledAt).get? row.queue) := by
  have hput : (oldest.put (row.queue, row.scheduledAt)).get? row.queue =
      some (row.queue, row.scheduledAt) := Table.get?_put_self oldest _
  have hlast : row ∈ rows ++ [row] := List.mem_append_right _ (List.mem_singleton_self row)
  unfold Memdriver.noteDue
  generalize hentry : oldest.get? row.queue = entry at h
  cases h with
  | noneDue hnone =>
      show Noted now row.queue (rows ++ [row]) ((oldest.put _).get? row.queue)
      rw [hput]
      refine .earliest hlast hrow fun other hother hdue => ?_
      rcases List.mem_append.mp hother with hother | hother
      · rw [hnone other hother] at hdue
        cases hdue
      · rw [List.mem_singleton.mp hother]
  | @earliest first hmem hdue hfirst =>
      by_cases hearlier : row.scheduledAt < first.scheduledAt
      · simp only [if_pos hearlier]
        rw [hput]
        refine .earliest hlast hrow fun other hother hdue' => ?_
        rcases List.mem_append.mp hother with hother | hother
        · exact le_of_lt (lt_of_lt_of_le hearlier (hfirst other hother hdue'))
        · rw [List.mem_singleton.mp hother]
      · simp only [if_neg hearlier]
        rw [hentry]
        refine .earliest (List.mem_append_left _ hmem) hdue fun other hother hdue' => ?_
        rcases List.mem_append.mp hother with hother | hother
        · exact hfirst other hother hdue'
        · rw [List.mem_singleton.mp hother]
          exact not_lt.mp hearlier

/-- What a walk over all the rows has noted. -/
theorem noted_oldest (now : Time) (rows : List JobRow) (queue : Bytes) :
    Noted now queue rows
      ((rows.foldl (statsRow now) (Table.empty, Table.empty)).2.get? queue) := by
  induction rows using List.reverseRecOn with
  | nil => exact .noneDue fun row hrow => by cases hrow
  | append_singleton rows row ih =>
      rw [List.foldl_concat]
      simp only [statsRow]
      cases hskip : !waiting row.state || decide (row.scheduledAt > now) with
      | true =>
          rw [if_pos rfl]
          refine ih.concat_of_not_due (Bool.eq_false_iff.mpr fun hdue => ?_)
          rw [(due_iff.mp hdue).1] at hskip
          cases hskip
      | false =>
          rw [if_neg Bool.false_ne_true]
          by_cases hqueue : row.queue = queue
          · subst hqueue
            exact ih.noteDue (due_iff.mpr ⟨hskip, rfl⟩)
          · rw [get?_noteDue_of_ne hqueue]
            exact ih.concat_of_not_due
              (Bool.eq_false_iff.mpr fun hdue => hqueue (due_iff.mp hdue).2)

/-! ## What `Stats` reports -/

/-- The comparison `Stats` sorts depths by. -/
def compareDepths (a b : QueueDepth) : Ordering :=
  (compareText a.queue b.queue).then (compareText a.state.text b.state.text)

/-- The comparison `Stats` sorts ages by. -/
def compareAges (a b : QueueAge) : Ordering := compareText a.queue b.queue

instance : Std.TransCmp compareText := inferInstanceAs (Std.TransCmp (List.compareLex compare))

instance : Std.LawfulEqCmp compareText := inferInstanceAs (Std.LawfulEqCmp (List.compareLex compare))

instance : Std.TransCmp compareAges := transCmp_on QueueAge.queue

instance : Std.TransCmp compareDepths :=
  have : Std.TransCmp fun a b : QueueDepth => compareText a.queue b.queue :=
    transCmp_on QueueDepth.queue
  have : Std.TransCmp fun a b : QueueDepth => compareText a.state.text b.state.text :=
    transCmp_on fun a : QueueDepth => a.state.text
  inferInstanceAs (Std.TransCmp (compareLex _ _))

theorem JobState.text_injective : Function.Injective JobState.text := by
  intro a b
  cases a <;> cases b <;> decide

theorem key_of_compareDepths {a b : QueueDepth} (h : compareDepths a b = .eq) :
    (a.queue, a.state) = (b.queue, b.state) := by
  obtain ⟨hqueue, hstate⟩ := Ordering.then_eq_eq.mp h
  rw [Std.LawfulEqCmp.eq_of_compare hqueue,
    JobState.text_injective (Std.LawfulEqCmp.eq_of_compare hstate)]

theorem pairwise_depths (d : Driver) (now : Time) :
    (d.stats now).depths.Pairwise fun a b => compareDepths a b = .lt := by
  refine pairwise_lt_insertionSort ?_
  exact (List.pairwise_map.mp (Table.nodup _)).imp fun hne heq => hne (key_of_compareDepths heq)

theorem pairwise_oldest (d : Driver) (now : Time) :
    (d.stats now).oldest.Pairwise fun a b => compareAges a b = .lt := by
  refine pairwise_lt_insertionSort ?_
  refine List.pairwise_map.mpr ((List.pairwise_map.mp (Table.nodup _)).imp fun hne heq => hne ?_)
  exact Std.LawfulEqCmp.eq_of_compare heq

theorem mem_depths_iff {d : Driver} {now : Time} {queue : Bytes} {state : JobState} {n : Int} :
    ⟨queue, state, n⟩ ∈ (d.stats now).depths ↔
      counted state = true ∧ n = depthOf d.jobs.rows queue state ∧ n ≠ 0 := by
  have hget := get?_counts now d.jobs.rows queue state
  have hmem : ⟨queue, state, n⟩ ∈ (d.stats now).depths ↔
      (d.jobs.rows.foldl (statsRow now) (Table.empty, Table.empty)).1.get? (queue, state) =
        some ⟨queue, state, n⟩ := by
    rw [Table.get?_eq_some_iff, and_iff_left rfl]
    exact List.mem_insertionSort _
  rw [hmem, hget]
  constructor
  · intro h
    split at h
    · rename_i hcond
      have hn : (depthOf d.jobs.rows queue state : Int) = n :=
        congrArg QueueDepth.count (Option.some.inj h)
      refine ⟨hcond.1, hn.symm, ?_⟩
      rw [← hn]
      exact Int.natCast_ne_zero.mpr hcond.2
    · cases h
  · rintro ⟨hcounted, rfl, hne⟩
    rw [if_pos ⟨hcounted, Int.natCast_ne_zero.mp hne⟩]

/-- The age of a queue is that of a due row none of the others was due before. -/
theorem mem_oldest_iff {d : Driver} {now : Time} {queue : Bytes} {age : Duration} :
    ⟨queue, age⟩ ∈ (d.stats now).oldest ↔
      ∃ row ∈ d.dueRows now queue,
        (∀ other ∈ d.dueRows now queue, row.scheduledAt ≤ other.scheduledAt) ∧
          age = now.sub row.scheduledAt := by
  have hnoted := noted_oldest now d.jobs.rows queue
  have hlisted : ⟨queue, age⟩ ∈ (d.stats now).oldest ↔ ∃ since,
      (d.jobs.rows.foldl (statsRow now) (Table.empty, Table.empty)).2.get? queue =
        some (queue, since) ∧ age = now.sub since := by
    rw [Driver.stats, List.mem_insertionSort, List.mem_map]
    simp only [Table.get?_eq_some_iff, QueueAge.mk.injEq]
    constructor
    · rintro ⟨⟨_, since⟩, hrow, rfl, rfl⟩
      exact ⟨since, ⟨hrow, trivial⟩, rfl⟩
    · rintro ⟨since, ⟨hrow, -⟩, rfl⟩
      exact ⟨_, hrow, rfl, rfl⟩
  rw [hlisted]
  generalize (d.jobs.rows.foldl (statsRow now) (Table.empty, Table.empty)).2.get? queue = entry
    at hnoted ⊢
  simp only [Driver.dueRows, List.mem_filter]
  cases hnoted with
  | noneDue hnone =>
      constructor
      · rintro ⟨_, hsome, -⟩
        cases hsome
      · rintro ⟨row, ⟨hrow, hdue⟩, -⟩
        rw [hnone row hrow] at hdue
        cases hdue
  | @earliest first hmem hdue hfirst =>
      constructor
      · rintro ⟨since, hsome, rfl⟩
        cases hsome
        exact ⟨first, ⟨hmem, hdue⟩, fun other hother => hfirst other hother.1 hother.2, rfl⟩
      · rintro ⟨row, hrow, hleast, rfl⟩
        refine ⟨first.scheduledAt, rfl, ?_⟩
        rw [le_antisymm (hfirst row hrow.1 hrow.2) (hleast first ⟨hmem, hdue⟩)]

/-! ## The order of the map -/

/-- The same map, walked in another order. -/
structure SameMap (d d' : Driver) : Prop where
  nextID : d'.nextID = d.nextID
  rows : d'.jobs.rows.Perm d.jobs.rows

theorem SameMap.dueRows {d d' : Driver} (h : SameMap d d') (now : Time) (queue : Bytes) :
    (d'.dueRows now queue).Perm (d.dueRows now queue) :=
  h.rows.filter _

theorem SameMap.claimable {d d' : Driver} (h : SameMap d d') (now : Time) (queue : Bytes)
    (limit : Int) : d'.claimable now queue limit = d.claimable now queue limit := by
  unfold Driver.claimable
  rw [selectRows_eq, selectRows_eq, insertionSort_orderedBy_of_perm h.rows]

theorem SameMap.get? {d d' : Driver} (h : SameMap d d') (id : Int) :
    d'.jobs.get? id = d.jobs.get? id := by
  refine Option.ext fun row => ?_
  rw [Table.get?_eq_some_iff, Table.get?_eq_some_iff, h.rows.mem_iff]

theorem SameMap.stats {d d' : Driver} (h : SameMap d d') (now : Time) :
    d'.stats now = d.stats now := by
  have hdepths : (d'.stats now).depths = (d.stats now).depths := by
    refine eq_of_pairwise_lt (pairwise_depths d' now) (pairwise_depths d now) ?_
    rintro ⟨queue, state, n⟩
    rw [mem_depths_iff, mem_depths_iff, depthOf, depthOf, h.rows.countP_eq]
  have holdest : (d'.stats now).oldest = (d.stats now).oldest := by
    refine eq_of_pairwise_lt (pairwise_oldest d' now) (pairwise_oldest d now) ?_
    rintro ⟨queue, age⟩
    simp only [mem_oldest_iff, (h.dueRows now queue).mem_iff]
  exact congrArg₂ Stats.mk hdepths holdest

/-! ## Both at one instant -/

/-- A row a claim may take was due at some instant up to now. -/
theorem sub_of_due {d : Driver} {now : Time} {queue : Bytes} {row : JobRow}
    (h : row ∈ d.dueRows now queue) :
    now.sub row.scheduledAt = min (now - row.scheduledAt) (2 ^ 63 - 1) := by
  have hdue := (due_iff.mp (List.mem_filter.mp h).2).1
  have hle : row.scheduledAt ≤ now := by simpa using (Bool.or_eq_false_iff.mp hdue).2
  have hnonneg : 0 ≤ now - row.scheduledAt := Int.sub_nonneg_of_le hle
  unfold Go.Time.sub
  rw [max_eq_right (le_min (by decide) (le_trans (by decide) hnonneg)), min_comm]

theorem counted_iff {state : JobState} :
    counted state = true ↔
      state ∈ [JobState.available, .scheduled, .retryable, .running, .dead] := by
  cases state <;> decide

/-- `Stats` has an age for the queues with a due row. -/
theorem exists_oldest_iff {d : Driver} {now : Time} {queue : Bytes} :
    (∃ age, ⟨queue, age⟩ ∈ (d.stats now).oldest) ↔ 0 < (d.dueRows now queue).length := by
  constructor
  · rintro ⟨age, hage⟩
    obtain ⟨row, hrow, -⟩ := mem_oldest_iff.mp hage
    exact List.length_pos_of_mem hrow
  · intro hpos
    rcases head_claimable d now queue 0 with ⟨hnone, -⟩ | ⟨row, hrow, hleast, -⟩
    · rw [hnone] at hpos
      cases hpos
    · exact ⟨_, mem_oldest_iff.mpr ⟨row, hrow, hleast, rfl⟩⟩

/-- The age of a queue is that of the first row a fetch would claim. -/
theorem mem_oldest_iff_head {d : Driver} {now : Time} {queue : Bytes} {leaseFor : Duration}
    {limit : Nat} {age : Duration} :
    ⟨queue, age⟩ ∈ (d.stats now).oldest ↔
      ∃ row, (d.fetchAvailable now queue leaseFor (limit + 1 : Nat)).2.head? = some row ∧
        age = min (now - row.scheduledAt) (2 ^ 63 - 1) := by
  rw [mem_oldest_iff, fetchAvailable_eq]
  rcases head_claimable d now queue limit with ⟨hnone, htaken⟩ | ⟨row, hrow, hleast, htaken⟩
  · rw [hnone, htaken]
    constructor
    · rintro ⟨row, hrow, -⟩
      cases hrow
    · rintro ⟨row, hrow, -⟩
      cases hrow
  · rw [List.head?_map, htaken]
    constructor
    · rintro ⟨row', hrow', hleast', rfl⟩
      refine ⟨_, rfl, ?_⟩
      rw [sub_of_due hrow', le_antisymm (hleast' row hrow) (hleast row' hrow')]
      rfl
    · rintro ⟨_, hhead, rfl⟩
      cases hhead
      exact ⟨row, hrow, hleast, (sub_of_due hrow).symm⟩

/-- Claims and statistics agree.  At any instant `FetchAvailable` takes as many of the due
rows of a queue as the limit allows, the first ones, and leaves every other row; `Stats`
lists the queue exactly when there is a due row, with the time since the first row of a
claim was due, as far as a `time.Duration` goes; and the depths it lists are the numbers of
rows by queue and counted state, in order, each once and none zero.  None of it depends on
the order the map is walked in. -/
theorem claims_agree_with_stats (d : Driver) (now : Time) (queue : Bytes) (leaseFor : Duration)
    (limit : Nat) :
    (∃ taken, Takes d now queue leaseFor limit taken) ∧
    ((∃ age, ⟨queue, age⟩ ∈ (d.stats now).oldest) ↔ 0 < (d.dueRows now queue).length) ∧
    (∀ age, ⟨queue, age⟩ ∈ (d.stats now).oldest ↔
      ∃ row, (d.fetchAvailable now queue leaseFor (limit + 1 : Nat)).2.head? = some row ∧
        age = min (now - row.scheduledAt) (2 ^ 63 - 1)) ∧
    (d.stats now).oldest.Pairwise (fun a b => compareAges a b = .lt) ∧
    (d.stats now).depths.Pairwise (fun a b => compareDepths a b = .lt) ∧
    (∀ queue state (n : Int), ⟨queue, state, n⟩ ∈ (d.stats now).depths ↔
      state ∈ [JobState.available, .scheduled, .retryable, .running, .dead] ∧
        n = depthOf d.jobs.rows queue state ∧ n ≠ 0) ∧
    ∀ d', SameMap d d' →
      (d'.fetchAvailable now queue leaseFor limit).2 = (d.fetchAvailable now queue leaseFor limit).2 ∧
      (∀ id, (d'.fetchAvailable now queue leaseFor limit).1.jobs.get? id =
        (d.fetchAvailable now queue leaseFor limit).1.jobs.get? id) ∧
      d'.stats now = d.stats now := by
  refine ⟨⟨_, takes_claimable d now queue leaseFor limit⟩, exists_oldest_iff,
    fun age => mem_oldest_iff_head, pairwise_oldest d now, pairwise_depths d now,
    fun queue state n => ?_, fun d' h => ⟨?_, fun id => ?_, h.stats now⟩⟩
  · rw [mem_depths_iff, counted_iff]
  · rw [fetchAvailable_eq, fetchAvailable_eq, h.claimable]
  · have hstored := (takes_claimable d now queue leaseFor limit).stored id
    have hstored' := (takes_claimable d' now queue leaseFor limit).stored id
    rw [hstored, hstored', h.get?, h.claimable]

/-- An instant of the year 2029. -/
def yearTwentyNine : Time := 64000000000 * Go.second

/-- A job whose due time is the first instant after the zero time is reported as waiting
for the greatest `time.Duration`, some 292 years, and not for the 2029 it has waited. -/
theorem stats_age_capped :
    let d := run next new [.insert yearTwentyNine ⟨[], [], [], 1, []⟩]
    (d.fetchAvailable yearTwentyNine [] 1 1).2.map JobRow.scheduledAt = [1] ∧
      (d.stats yearTwentyNine).oldest = [⟨[], 2 ^ 63 - 1⟩] ∧
      (2 ^ 63 - 1 : Int) ≠ yearTwentyNine - 1 := by
  decide

end Drover.Memdriver
