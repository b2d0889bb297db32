import Mathlib.Data.List.Dedup
import Drover.Foundation.Binary64
import Drover.Foundation.Map
import Drover.Memdriver.Claims
import Drover.Pgdriver.Simulation

set_option autoImplicit false

/-!
# Reads of the Postgres driver (`GetJob`, `ListJobs`, `Stats`)

`Stats` is two statements with a `GROUP BY`, whose groups come in whatever order the
planner likes, and a sort in the driver.  The in-memory driver counts in one walk over its
map.  On stores with the same jobs both say the same; where they do not take the same
parameters is at a state that is none, at a queue that is no `text` of the database and at a
limit beyond one of its `int`s.

The age of a queue is a difference of two times in both drivers, and a number of seconds
for their callers.  They convert it in different ways, and the last bit may differ.
-/

namespace Drover.Pgdriver

open Drover.Foundation
open Drover.Driver
open Drover.Go (Time Duration)
open Drover.Memdriver (counted depthOf compareDepths compareAges depthLE ageLE)

variable {pg : Postgres}

/-- The errors of a read. -/
inductive ReadError where
  | driver (err : DriverError)
  /-- an error of the database, wrapped -/
  | database (err : DbError)
  /-- `list limit %d out of range` -/
  | listRange (limit : Int)
  deriving DecidableEq, Repr

/-- `GetJob`. -/
def Database.get (db : Database pg) (id : Int) : Except ReadError JobRow :=
  match db.getJob id with
  | none => .error (.driver (.notFound id))
  | some job => .ok (rowFromDB job)

/-- The cast `::drover_job_state`. -/
def stateCast (text : Bytes) : Option JobState :=
  [JobState.available, .scheduled, .running, .retryable, .completed, .cancelled, .dead].find?
    fun state => state.text = text

/-- The `WHERE` of `ListJobs`. -/
def listedWhere (queue : Bytes) (state : Option JobState) (job : DroverJob pg) : Bool :=
  (queue == [] || job.queue == queue) && state.all (job.state == ·)

/-- The statement `ListJobs`.  An empty state is not cast. -/
def Database.listJobsStatement (db : Database pg) (queue state : Bytes) (maxJobs : Int) :
    Except DbError (List (DroverJob pg)) :=
  match pg.text queue, if state = [] then some none else (stateCast state).map some with
  | some queue, some state =>
      .ok (((db.jobs.rows.filter (listedWhere queue state)).insertionSort
        fun a b => b.id ≤ a.id).take maxJobs.toNat)
  | _, _ => .error .badValue

/-- `ListJobs`. -/
def Database.listJobs (db : Database pg) (p : ListJobsParams) : Except ReadError (List JobRow) :=
  if p.limit ≤ 0 then .error (.driver (.listLimit p.limit))
  else if p.limit > maxInt32 then .error (.listRange p.limit)
  else
    match db.listJobsStatement p.queue p.state p.limit with
    | .error err => .error (.database err)
    | .ok jobs => .ok (jobs.map rowFromDB)

/-- The statement `QueueDepths`. -/
def Database.queueDepths (db : Database pg) (groups : Visit QueueDepth) : List QueueDepth :=
  let rows := db.jobs.rows.filter fun job => counted job.state
  groups.order <| (rows.map fun job => (job.queue, job.state)).dedup.map fun key =>
    ⟨key.1, key.2, (rows.countP fun job => job.queue == key.1 && job.state == key.2 : Nat)⟩

/-- The rows of the statement `OldestClaimable`. -/
def Database.claimable (db : Database pg) (now : Time) : List (DroverJob pg) :=
  db.jobs.rows.filter fun job => fetchedState job.state && decide (job.scheduledAt ≤ now)

/-- `min(scheduled_at)` of a group. -/
def Database.oldestOf (db : Database pg) (now : Time) (queue : Bytes) : Option Time :=
  (((db.claimable now).filter fun job => job.queue == queue).map DroverJob.scheduledAt).min?

/-- The statement `OldestClaimable`. -/
def Database.oldestClaimable (db : Database pg) (groups : Visit QueueAge) (now : Time) :
    List QueueAge :=
  groups.order <| ((db.claimable now).map DroverJob.queue).dedup.map fun queue =>
    ⟨queue, now - (db.oldestOf now queue).getD 0⟩

/-- `Stats`: the second statement may find the table changed. -/
def stats (db db' : Database pg) (depths : Visit QueueDepth) (ages : Visit QueueAge) (now : Time) :
    Stats :=
  { depths := (db.queueDepths depths).insertionSort depthLE
    oldest := (db'.oldestClaimable ages now).insertionSort ageLE }

/-- `Duration.Seconds`, by which the in-memory driver reports an age. -/
def seconds (d : Duration) : ℚ :=
  Binary64.round (Binary64.round (d.tdiv Go.second) +
    Binary64.round (Binary64.round (d.tmod Go.second) / 10 ^ 9))

/-- `EXTRACT(EPOCH FROM ...)::float8`, by which the Postgres driver reports it. -/
def epoch (d : Duration) : ℚ := Binary64.round ((d : ℚ) / 10 ^ 9)

/-! ## What the statements count -/

section Reads

variable {d : Memdriver.Driver} {db : Database pg}

/-- The jobs that meet a condition are the same in both stores. -/
theorem Same.perm_ids (h : Same pg d db) {p : JobRow → Bool} {q : DroverJob pg → Bool}
    (hpq : ∀ row job, Represents pg row job → p row = q job) :
    ((d.jobs.rows.filter p).map JobRow.id).Perm ((db.jobs.rows.filter q).map DroverJob.id) := by
  have horder : ∀ row job, Represents pg row job → p row = true →
      (fun _ : JobRow => (0 : Int)) row = (fun _ : DroverJob pg => (0 : Int)) job :=
    fun _ _ _ _ => rfl
  have hselect := Corresponds.select h hpq horder
  have hleft := (List.perm_insertionSort (orderedBy (fun _ => 0) JobRow.id)
    (d.jobs.rows.filter p)).map JobRow.id
  have hright := (List.perm_insertionSort (orderedBy (fun _ => 0) DroverJob.id)
    (db.jobs.rows.filter q)).map DroverJob.id
  rw [hselect] at hleft
  exact hleft.symm.trans hright

theorem Same.countP_eq (h : Same pg d db) {p : JobRow → Bool} {q : DroverJob pg → Bool}
    (hpq : ∀ row job, Represents pg row job → p row = q job) :
    d.jobs.rows.countP p = db.jobs.rows.countP q := by
  have hlength := (h.perm_ids hpq).length_eq
  rwa [List.length_map, List.length_map, ← List.countP_eq_length_filter,
    ← List.countP_eq_length_filter] at hlength

theorem mem_queueDepths_iff {groups : Visit QueueDepth} {queue : Bytes} {state : JobState} {n : Int} :
    ⟨queue, state, n⟩ ∈ db.queueDepths groups ↔
      counted state = true ∧
        n = (db.jobs.rows.countP fun job => job.queue == queue && job.state == state : Nat) ∧ n ≠ 0 := by
  -- within a group every row is counted, or none is
  have hcount : counted state = true →
      (db.jobs.rows.filter fun job => counted job.state).countP
          (fun job => job.queue == queue && job.state == state) =
        db.jobs.rows.countP fun job => job.queue == queue && job.state == state := by
    intro hcounted
    rw [List.countP_filter]
    refine List.countP_congr fun job _ => ?_
    simp only [Bool.and_eq_true, beq_iff_eq]
    constructor
    · exact fun h => h.1
    · rintro ⟨hqueue, rfl⟩
      exact ⟨⟨hqueue, rfl⟩, hcounted⟩
  rw [Database.queueDepths, (groups.perm _).mem_iff, List.mem_map]
  constructor
  · rintro ⟨key, hkey, heq⟩
    rw [QueueDepth.mk.injEq] at heq
    obtain ⟨rfl, rfl, rfl⟩ := heq
    obtain ⟨job, hjob, rfl⟩ := List.mem_map.mp (List.mem_dedup.mp hkey)
    have hcounted : counted job.state = true := (List.mem_filter.mp hjob).2
    refine ⟨hcounted, by rw [hcount hcounted], ?_⟩
    rw [Int.natCast_ne_zero]
    exact Nat.pos_iff_ne_zero.mp (List.countP_pos_iff.mpr ⟨job, hjob, by simp⟩)
  · rintro ⟨hcounted, rfl, hne⟩
    rw [Int.natCast_ne_zero, ← Nat.pos_iff_ne_zero, List.countP_pos_iff] at hne
    obtain ⟨job, hjob, hkey⟩ := hne
    simp only [Bool.and_eq_true, beq_iff_eq] at hkey
    refine ⟨(queue, state), ?_, by rw [hcount hcounted]⟩
    refine List.mem_dedup.mpr (List.mem_map.mpr ⟨job, List.mem_filter.mpr ⟨hjob, ?_⟩, ?_⟩)
    · rw [hkey.2]
      exact hcounted
    · rw [hkey.1, hkey.2]

theorem oldestOf_eq_some_iff {now : Time} {queue : Bytes} {t : Time} :
    db.oldestOf now queue = some t ↔
      ∃ job ∈ db.jobs.rows, dueWhere now queue job = true ∧
        (∀ other ∈ db.jobs.rows, dueWhere now queue other = true → job.scheduledAt ≤ other.scheduledAt) ∧
          job.scheduledAt = t := by
  have hmem : ∀ job, job ∈ (db.claimable now).filter (fun job => job.queue == queue) ↔
      job ∈ db.jobs.rows ∧ dueWhere now queue job = true := by
    intro job
    simp only [Database.claimable, List.mem_filter, dueWhere, Bool.and_eq_true, beq_iff_eq]
    tauto
  rw [Database.oldestOf, List.min?_eq_some_iff]
  constructor
  · rintro ⟨hin, hleast⟩
    obtain ⟨job, hjob, rfl⟩ := List.mem_map.mp hin
    obtain ⟨hrow, hdue⟩ := (hmem job).mp hjob
    refine ⟨job, hrow, hdue, fun other hother hdue' => ?_, rfl⟩
    exact hleast _ (List.mem_map_of_mem ((hmem other).mpr ⟨hother, hdue'⟩))
  · rintro ⟨job, hrow, hdue, hleast, rfl⟩
    refine ⟨List.mem_map_of_mem ((hmem job).mpr ⟨hrow, hdue⟩), fun t ht => ?_⟩
    obtain ⟨other, hother, rfl⟩ := List.mem_map.mp ht
    obtain ⟨hrow', hdue'⟩ := (hmem other).mp hother
    exact hleast other hrow' hdue'

theorem mem_oldestClaimable_iff {groups : Visit QueueAge} {now : Time} {queue : Bytes} {age : Duration} :
    ⟨queue, age⟩ ∈ db.oldestClaimable groups now ↔
      ∃ t, db.oldestOf now queue = some t ∧ age = now - t := by
  have hgroup : queue ∈ (db.claimable now).map DroverJob.queue ↔ db.oldestOf now queue ≠ none := by
    rw [Database.oldestOf, ne_eq, List.min?_eq_none_iff, List.map_eq_nil_iff,
      List.filter_eq_nil_iff]
    simp
  rw [Database.oldestClaimable, (groups.perm _).mem_iff, List.mem_map]
  constructor
  · rintro ⟨queue', hqueue, heq⟩
    rw [QueueAge.mk.injEq] at heq
    obtain ⟨rfl, rfl⟩ := heq
    obtain ⟨t, ht⟩ := Option.ne_none_iff_exists'.mp (hgroup.mp (List.mem_dedup.mp hqueue))
    exact ⟨t, ht, by rw [ht]; rfl⟩
  · rintro ⟨t, ht, rfl⟩
    exact ⟨queue, List.mem_dedup.mpr (hgroup.mpr (by simp [ht])), by rw [ht]; rfl⟩

/-! ## Both drivers -/

theorem pairwise_queueDepths (groups : Visit QueueDepth) :
    ((db.queueDepths groups).insertionSort depthLE).Pairwise fun a b => compareDepths a b = .lt := by
  refine pairwise_lt_insertionSort ?_
  have hkeys : ((db.queueDepths groups).map fun depth => (depth.queue, depth.state)).Nodup := by
    have hperm := (groups.perm ((((db.jobs.rows.filter fun job => counted job.state).map
      fun job => (job.queue, job.state)).dedup).map fun key => (⟨key.1, key.2,
        ((db.jobs.rows.filter fun job => counted job.state).countP
          fun job => job.queue == key.1 && job.state == key.2 : Nat)⟩ : QueueDepth))).map
      fun depth => (depth.queue, depth.state)
    rw [List.map_map] at hperm
    exact hperm.nodup_iff.mpr (by simpa [Function.comp_def] using List.nodup_dedup _)
  exact (List.pairwise_map.mp hkeys).imp fun hne heq => hne (Memdriver.key_of_compareDepths heq)

theorem pairwise_oldestClaimable (groups : Visit QueueAge) (now : Time) :
    ((db.oldestClaimable groups now).insertionSort ageLE).Pairwise
      fun a b => compareAges a b = .lt := by
  refine pairwise_lt_insertionSort ?_
  have hkeys : ((db.oldestClaimable groups now).map QueueAge.queue).Nodup := by
    have hperm := (groups.perm ((((db.claimable now).map DroverJob.queue).dedup).map fun queue =>
      (⟨queue, now - (db.oldestOf now queue).getD 0⟩ : QueueAge))).map QueueAge.queue
    rw [List.map_map] at hperm
    exact hperm.nodup_iff.mpr (by simpa [Function.comp_def] using List.nodup_dedup _)
  exact (List.pairwise_map.mp hkeys).imp fun hne heq => hne (Std.LawfulEqCmp.eq_of_compare heq)

theorem depths_agree (h : Same pg d db) (groups : Visit QueueDepth) (now : Time) :
    (db.queueDepths groups).insertionSort depthLE = (d.stats now).depths := by
  refine eq_of_pairwise_lt (pairwise_queueDepths groups) (Memdriver.pairwise_depths d now) ?_
  rintro ⟨queue, state, n⟩
  have hcount : depthOf d.jobs.rows queue state =
      db.jobs.rows.countP fun job => job.queue == queue && job.state == state :=
    h.countP_eq fun row job hrep => by rw [hrep.queue, hrep.state]
  rw [Memdriver.mem_depths_iff, hcount, List.mem_insertionSort, mem_queueDepths_iff]

/-- The first due time of a queue is the same in both stores. -/
theorem oldestOf_eq_some_iff_row (h : Same pg d db) {now : Time} {queue : Bytes} {t : Time} :
    db.oldestOf now queue = some t ↔
      ∃ row ∈ d.dueRows now queue,
        (∀ other ∈ d.dueRows now queue, row.scheduledAt ≤ other.scheduledAt) ∧ row.scheduledAt = t := by
  have hrow : ∀ job ∈ db.jobs.rows, dueWhere now queue job = true →
      ∃ row ∈ d.dueRows now queue, row.scheduledAt = job.scheduledAt := by
    intro job hjob hdue
    obtain ⟨row, hget, hrep, -⟩ := h.row (Table.get?_of_mem hjob)
    refine ⟨row, List.mem_filter.mpr ⟨Table.mem_of_get? hget, ?_⟩, hrep.scheduledAt.symm⟩
    rw [due_eq now queue hrep]
    exact hdue
  have hjob : ∀ row ∈ d.dueRows now queue,
      ∃ job ∈ db.jobs.rows, dueWhere now queue job = true ∧ job.scheduledAt = row.scheduledAt := by
    intro row hdue
    obtain ⟨hmem, hdue⟩ := List.mem_filter.mp hdue
    obtain ⟨job, hget, hrep, -⟩ := h.job (Table.get?_of_mem hmem)
    refine ⟨job, Table.mem_of_get? hget, ?_, hrep.scheduledAt⟩
    rw [← due_eq now queue hrep]
    exact hdue
  rw [oldestOf_eq_some_iff]
  constructor
  · rintro ⟨job, hmem, hdue, hleast, rfl⟩
    obtain ⟨row, hrow', hsame⟩ := hrow job hmem hdue
    refine ⟨row, hrow', fun other hother => ?_, hsame⟩
    obtain ⟨job', hmem', hdue', hsame'⟩ := hjob other hother
    rw [hsame, ← hsame']
    exact hleast job' hmem' hdue'
  · rintro ⟨row, hrow', hleast, rfl⟩
    obtain ⟨job, hmem, hdue, hsame⟩ := hjob row hrow'
    refine ⟨job, hmem, hdue, fun other hother hdue' => ?_, hsame⟩
    obtain ⟨row', hrow'', hsame'⟩ := hrow other hother hdue'
    rw [hsame, ← hsame']
    exact hleast row' hrow''

theorem ages_agree (h : Same pg d db) (groups : Visit QueueAge) {now : Time}
    (hage : ∀ row ∈ d.jobs.rows, now - row.scheduledAt ≤ 2 ^ 63 - 1) :
    (db.oldestClaimable groups now).insertionSort ageLE = (d.stats now).oldest := by
  refine eq_of_pairwise_lt (pairwise_oldestClaimable groups now) (Memdriver.pairwise_oldest d now) ?_
  rintro ⟨queue, age⟩
  have hsub : ∀ row ∈ d.dueRows now queue, now.sub row.scheduledAt = now - row.scheduledAt := by
    intro row hrow
    rw [Memdriver.sub_of_due hrow]
    exact Int.min_eq_left (hage row (List.mem_filter.mp hrow).1)
  rw [List.mem_insertionSort, mem_oldestClaimable_iff, Memdriver.mem_oldest_iff]
  constructor
  · rintro ⟨t, ht, rfl⟩
    obtain ⟨row, hrow, hleast, rfl⟩ := (oldestOf_eq_some_iff_row h).mp ht
    exact ⟨row, hrow, hleast, (hsub row hrow).symm⟩
  · rintro ⟨row, hrow, hleast, rfl⟩
    exact ⟨row.scheduledAt, (oldestOf_eq_some_iff_row h).mpr ⟨row, hrow, hleast, rfl⟩, hsub row hrow⟩

/-! ## Ages in seconds -/

/-- Whole seconds and the nanoseconds of the last one are numbers of the format, and what is
rounded is their quotient and their sum. -/
theorem abs_seconds_sub_le {d : Int} (h : 0 ≤ d) (hmax : d ≤ 2 ^ 63 - 1) :
    |seconds d - (d : ℚ) / 10 ^ 9| ≤ (2 / 2 ^ 53 + 1 / 2 ^ 106) * ((d : ℚ) / 10 ^ 9) := by
  obtain ⟨n, rfl⟩ := Int.eq_ofNat_of_zero_le h
  have hsplit : ((n / 10 ^ 9 : ℕ) : ℚ) + ((n % 10 ^ 9 : ℕ) : ℚ) / 10 ^ 9 = n / 10 ^ 9 := by
    have hdiv : ((10 ^ 9 * (n / 10 ^ 9) + n % 10 ^ 9 : ℕ) : ℚ) = n := by rw [Nat.div_add_mod]
    push_cast at hdiv ⊢
    linarith
  have hseconds : seconds (n : Int) = Binary64.round (((n / 10 ^ 9 : ℕ) : ℚ) +
      Binary64.round (((n % 10 ^ 9 : ℕ) : ℚ) / 10 ^ 9)) := by
    have hquot : ((n : Int).tdiv Go.second : ℚ) = ((n / 10 ^ 9 : ℕ) : ℚ) := rfl
    have hrem : ((n : Int).tmod Go.second : ℚ) = ((n % 10 ^ 9 : ℕ) : ℚ) := rfl
    rw [seconds, hquot, hrem, Binary64.round_natCast (by omega), Binary64.round_natCast (by omega)]
  rw [hseconds, Int.cast_natCast]
  have hwhole : (0 : ℚ) ≤ ((n / 10 ^ 9 : ℕ) : ℚ) := Nat.cast_nonneg _
  have hpart : (0 : ℚ) ≤ ((n % 10 ^ 9 : ℕ) : ℚ) / 10 ^ 9 := by positivity
  have hquotient := Binary64.abs_round_sub_le (((n % 10 ^ 9 : ℕ) : ℚ) / 10 ^ 9)
  have hsum := Binary64.abs_round_sub_le (((n / 10 ^ 9 : ℕ) : ℚ) +
    Binary64.round (((n % 10 ^ 9 : ℕ) : ℚ) / 10 ^ 9))
  rw [← hsplit]
  generalize ((n / 10 ^ 9 : ℕ) : ℚ) = a at hwhole hsum ⊢
  generalize ((n % 10 ^ 9 : ℕ) : ℚ) / 10 ^ 9 = b at hpart hquotient hsum ⊢
  generalize Binary64.round b = c at hquotient hsum ⊢
  rw [abs_of_nonneg hpart] at hquotient
  rw [abs_le] at hquotient
  have hnonneg : 0 ≤ a + c := by linarith
  rw [abs_of_nonneg hnonneg, abs_le] at hsum
  rw [abs_le]
  constructor <;> linarith

/-- The two conversions of an age differ by less than a part in `2 ^ 51`. -/
theorem abs_epoch_sub_seconds_le {d : Int} (h : 0 ≤ d) (hmax : d ≤ 2 ^ 63 - 1) :
    |epoch d - seconds d| ≤ (d : ℚ) / 10 ^ 9 / 2 ^ 51 := by
  have hage : (0 : ℚ) ≤ (d : ℚ) / 10 ^ 9 := div_nonneg (Int.cast_nonneg h) (by norm_num)
  have hseconds := abs_seconds_sub_le h hmax
  have hepoch := Binary64.abs_round_sub_le ((d : ℚ) / 10 ^ 9)
  rw [abs_of_nonneg hage] at hepoch
  rw [abs_le] at hseconds hepoch ⊢
  unfold epoch
  constructor <;> linarith

/-- They do differ, at 1.003691 s. -/
example : epoch 1003691000 ≠ seconds 1003691000 := by
  decide +kernel

theorem stateCast_text (state : JobState) : stateCast state.text = some state := by
  cases state <;> decide

/-- Newest first, the jobs that meet a condition have the same ids in both stores. -/
theorem newest_ids (h : Same pg d db) {p : JobRow → Bool} {q : DroverJob pg → Bool}
    (hpq : ∀ row job, Represents pg row job → p row = q job) (n : Nat) :
    (((d.jobs.rows.filter p).insertionSort fun a b => b.id ≤ a.id).take n).map JobRow.id =
      (((db.jobs.rows.filter q).insertionSort fun a b => b.id ≤ a.id).take n).map DroverJob.id := by
  have hleft : ((d.jobs.rows.filter p).insertionSort fun a b => b.id ≤ a.id).map JobRow.id =
      ((d.jobs.rows.filter p).map JobRow.id).insertionSort fun a b => b ≤ a :=
    List.map_insertionSort _ _ _ _ fun _ _ _ _ => Iff.rfl
  have hright : ((db.jobs.rows.filter q).insertionSort fun a b => b.id ≤ a.id).map DroverJob.id =
      ((db.jobs.rows.filter q).map DroverJob.id).insertionSort fun a b => b ≤ a :=
    List.map_insertionSort _ _ _ _ fun _ _ _ _ => Iff.rfl
  have hsorted : ((d.jobs.rows.filter p).map JobRow.id).insertionSort (fun a b => b ≤ a) =
      ((db.jobs.rows.filter q).map DroverJob.id).insertionSort fun a b => b ≤ a := by
    refine List.Perm.eq_of_pairwise (fun a b _ _ hab hba => Int.le_antisymm hba hab)
      (List.pairwise_insertionSort _ _) (List.pairwise_insertionSort _ _) ?_
    exact (List.perm_insertionSort _ _).trans
      ((h.perm_ids hpq).trans (List.perm_insertionSort _ _).symm)
  rw [List.map_take, List.map_take, hleft, hright, hsorted]

/-- Both drivers list the same jobs under a filter both understand. -/
theorem listJobs_agree (h : Same pg d db) {p : ListJobsParams} (hlow : 0 < p.limit)
    (hhigh : p.limit ≤ maxInt32) (hqueue : pg.text p.queue = some p.queue)
    (hstate : p.state = [] ∨ ∃ state : JobState, p.state = state.text) :
    ∃ as bs, d.listJobs p = .ok as ∧ db.listJobs p = .ok bs ∧
      List.Forall₂ (Agrees pg id) as bs := by
  obtain ⟨state, hcast, hlisted⟩ : ∃ state, (if p.state = [] then some none
      else (stateCast p.state).map some) = some state ∧
        ∀ row job, Represents pg row job →
          Memdriver.listed p row = listedWhere p.queue state job := by
    rcases hstate with hnil | ⟨state, htext⟩
    · refine ⟨none, if_pos hnil, fun row job hrep => ?_⟩
      simp [Memdriver.listed, listedWhere, hnil, hrep.queue]
    · have hne : p.state ≠ [] := by
        rw [htext]
        cases state <;> decide
      refine ⟨some state, by rw [if_neg hne, htext, stateCast_text]; rfl, fun row job hrep => ?_⟩
      have hbeq : (row.state.text == p.state) = (row.state == state) := by
        rw [htext, Bool.eq_iff_iff, beq_iff_eq, beq_iff_eq]
        exact Memdriver.JobState.text_injective.eq_iff
      have hempty : (p.state == []) = false := beq_eq_false_iff_ne.mpr hne
      rw [Memdriver.listed, listedWhere, hrep.queue, hrep.state, hbeq, hempty]
      rfl
  have hsub : ∀ {α : Type} {keep : α → Bool} {le : α → α → Prop} [DecidableRel le] {xs : List α} {n : Nat},
      ∀ x ∈ ((xs.filter keep).insertionSort le).take n, x ∈ xs := by
    intro α keep le _ xs n x hx
    exact (List.mem_filter.mp ((List.mem_insertionSort _).mp (List.mem_of_mem_take hx))).1
  have hrows := Corresponds.forall₂ h hsub hsub (newest_ids h hlisted p.limit.toNat)
  refine ⟨_, _, if_neg (by omega), ?_, List.forall₂_map_right_iff.mpr (hrows.imp fun row job hrow =>
    hrow.1.agrees hrow.2.symm)⟩
  rw [Database.listJobs, if_neg (by omega), if_neg (by omega), Database.listJobsStatement, hqueue,
    hcast]

/-- A state that is none is no job's in the one driver and an error of the other. -/
theorem listJobs_unknown_state {p : ListJobsParams} (hlow : 0 < p.limit) (hhigh : p.limit ≤ maxInt32)
    (hne : p.state ≠ []) (hunknown : ∀ state : JobState, p.state ≠ state.text) :
    d.listJobs p = .ok [] ∧ db.listJobs p = .error (.database .badValue) := by
  have hnone : d.jobs.rows.filter (Memdriver.listed p) = [] := by
    refine List.filter_eq_nil_iff.mpr fun row _ hlisted => ?_
    simp only [Memdriver.listed, Bool.and_eq_true, Bool.or_eq_true, beq_iff_eq] at hlisted
    exact hlisted.2.elim hne fun htext => hunknown row.state htext.symm
  have hcast : stateCast p.state = none :=
    List.find?_eq_none.mpr fun state _ htext => hunknown state (of_decide_eq_true htext).symm
  constructor
  · rw [Memdriver.Driver.listJobs, if_neg (by omega), hnone, List.insertionSort_nil, List.take_nil]
  · rw [Database.listJobs, if_neg (by omega), if_neg (by omega), Database.listJobsStatement,
      if_neg hne, hcast]
    cases pg.text p.queue with
    | none => rfl
    | some queue => rfl

/-- The ages of a reading are durations. -/
theorem age_bounds {now : Time} {a : QueueAge} (ha : a ∈ (d.stats now).oldest) :
    0 ≤ a.age ∧ a.age ≤ 2 ^ 63 - 1 := by
  obtain ⟨row, hrow, -, hage⟩ := Memdriver.mem_oldest_iff.mp ha
  have hdue := (List.mem_filter.mp hrow).2
  simp only [Memdriver.due, Bool.and_eq_true, Bool.not_eq_true', decide_eq_false_iff_not] at hdue
  rw [hage, Memdriver.sub_of_due hrow]
  exact ⟨le_min (Int.sub_nonneg_of_le (Int.not_lt.mp hdue.2)) (by norm_num), Int.min_le_right _ _⟩

/-- On stores with the same jobs the two drivers read the same: each job, each listing under
a filter both understand, and the statistics, whatever order the planner lists its groups
in, as far as a `time.Duration` goes.  In seconds the ages differ by their conversions only. -/
theorem reads_agree (h : Same pg d db) (depths : Visit QueueDepth) (ages : Visit QueueAge) :
    (∀ id, (d.getJob id = .error (.notFound id) ∧ db.get id = .error (.driver (.notFound id))) ∨
      ∃ a b, d.getJob id = .ok a ∧ db.get id = .ok b ∧ Agrees pg (fun k => k) a b) ∧
    (∀ p : ListJobsParams, 0 < p.limit → p.limit ≤ maxInt32 → pg.text p.queue = some p.queue →
      (p.state = [] ∨ ∃ state : JobState, p.state = state.text) →
        ∃ as bs, d.listJobs p = .ok as ∧ db.listJobs p = .ok bs ∧
          List.Forall₂ (Agrees pg fun k => k) as bs) ∧
    ∀ now : Time, (∀ row ∈ d.jobs.rows, now - row.scheduledAt ≤ 2 ^ 63 - 1) →
      stats db db depths ages now = d.stats now ∧
      ∀ a ∈ (d.stats now).oldest, |epoch a.age - seconds a.age| ≤ (a.age : ℚ) / 10 ^ 9 / 2 ^ 51 := by
  refine ⟨fun id => ?_, fun p hlow hhigh hqueue hstate => listJobs_agree h hlow hhigh hqueue hstate,
    fun now hage => ⟨congrArg₂ Stats.mk (depths_agree h depths now) (ages_agree h ages hage),
      fun a ha => abs_epoch_sub_seconds_le (age_bounds ha).1 (age_bounds ha).2⟩⟩
  cases hrow : d.jobs.get? id with
  | none =>
      refine Or.inl ⟨by rw [Memdriver.Driver.getJob, hrow], ?_⟩
      rw [Database.get, Database.getJob, h.none hrow]
  | some row =>
      obtain ⟨job, hjob, hrep, hid⟩ := h.job hrow
      refine Or.inr ⟨row, rowFromDB job, by rw [Memdriver.Driver.getJob, hrow], ?_, hrep.agrees hid⟩
      rw [Database.get, Database.getJob, hjob]

end Reads

theorem sampleJob_reads :
    let d := run Memdriver.next Memdriver.new [.insert 5000 sample]
    ((d.getJob 1 = .error (.notFound 1) ∧ sampleJob.get 1 = .error (.driver (.notFound 1))) ∨
      ∃ a b, d.getJob 1 = .ok a ∧ sampleJob.get 1 = .ok b ∧ Agrees micros (fun k => k) a b) ∧
    (∃ as bs, d.listJobs ⟨[], [], 10⟩ = .ok as ∧ sampleJob.listJobs ⟨[], [], 10⟩ = .ok bs ∧
      List.Forall₂ (Agrees micros fun k => k) as bs) ∧
    stats sampleJob sampleJob ⟨fun xs => xs, fun _ => .refl _⟩ ⟨fun xs => xs, fun _ => .refl _⟩ 6000 =
      d.stats 6000 ∧
    ∀ a ∈ (d.stats 6000).oldest, |epoch a.age - seconds a.age| ≤ (a.age : ℚ) / 10 ^ 9 / 2 ^ 51 := by
  obtain ⟨hget, hlist, hstats⟩ := reads_agree same_sampleJob ⟨fun xs => xs, fun _ => .refl _⟩
    ⟨fun xs => xs, fun _ => .refl _⟩
  exact ⟨hget 1, hlist ⟨[], [], 10⟩ (by decide) (by decide) rfl (Or.inl rfl), hstats 6000 (by decide)⟩

end Drover.Pgdriver
