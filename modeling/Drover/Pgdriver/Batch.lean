import Drover.Memdriver.Batch
import Drover.Pgdriver.Simulation

set_option autoImplicit false

/-!
# Batches (`InsertMany`)

The Postgres driver copies a batch into a temporary table and inserts from there with one
statement.  That statement is compared with `InsertJob` run once for each item: under
one `now()` the two build the same rows, and the unique index refuses the one exactly
where it refuses some item of the other.  Only the ids may differ, as each way has the
identity column hand out its own.
-/

namespace Drover.Pgdriver

open Drover.Foundation
open Drover.Driver
open Drover.Go (Time Duration)

variable {pg : Postgres}

/-! ## The staging table -/

/-- A row of `drover_insert_batch`. -/
structure StagedJob (pg : Postgres) where
  ord : Int
  kind : Bytes
  queue : Bytes
  args : pg.Jsonb
  scheduledAt : Option Time
  uniqueKey : Option Bytes

/-- What an `int` column holds of an index. -/
def ordArg (i : Nat) : Option Int := if (i : Int) > maxInt32 then none else some i

/-- The row `CopyFrom` loads for the item at `i`, when all of it fits the columns. -/
def stagedJob (pg : Postgres) (i : Nat) (arg : InsertJobParams) : Option (StagedJob pg) := do
  let ord ← ordArg i
  let kind ← pg.text arg.kind
  let queue ← pg.text arg.queue
  let args ← pg.cast arg.args
  let scheduledAt ← nullable pg.timestamptz arg.scheduledAt
  let uniqueKey ← nullable pg.text arg.uniqueKey
  return ⟨ord, kind, queue, args, scheduledAt, uniqueKey⟩

/-- `CopyFrom` of the items from index `i` on. -/
def copyFrom (pg : Postgres) : Nat → List InsertParams → Option (List (StagedJob pg))
  | _, [] => some []
  | i, params :: batch => do
      let first ← stagedJob pg i (insertParams params)
      let rest ← copyFrom pg (i + 1) batch
      return first :: rest

/-- The staging table of a batch: what `CopyFrom` loaded, listed as the table keeps it. -/
structure Staging (pg : Postgres) where
  batch : List InsertParams
  staged : List (StagedJob pg)
  copied : copyFrom pg 0 batch = some staged
  heap : List (StagedJob pg)
  loaded : heap.Perm staged

/-- The row `InsertJobsFromStaging` selects for a staged one. -/
def StagedJob.job (staged : StagedJob pg) (now : Time) (id : Int) : DroverJob pg :=
  { id := id
    kind := staged.kind
    queue := staged.queue
    args := staged.args
    state := if staged.scheduledAt.getD now > now then .scheduled else .available
    attempt := 0
    maxAttempts := 25
    errors := pg.array []
    scheduledAt := staged.scheduledAt.getD now
    leasedUntil := none
    createdAt := now
    finalizedAt := none
    uniqueKey := staged.uniqueKey }

/-- The rows for staged ones, under the ids the identity column hands out. -/
def newJobs (now : Time) : (Nat → Int) → List (StagedJob pg) → List (DroverJob pg)
  | _, [] => []
  | ids, staged :: rest => staged.job now (ids 0) :: newJobs now (fun n => ids (n + 1)) rest

/-- `InsertJobsFromStaging`: `INSERT INTO ... SELECT ... ORDER BY ord RETURNING *`. -/
def Database.insertJobsFromStaging (db : Database pg) (now : Time) (ids : Nat → Int)
    (heap : List (StagedJob pg)) : Except DbError (Database pg × List (DroverJob pg)) :=
  let jobs := newJobs now ids (heap.insertionSort fun a b => a.ord ≤ b.ord)
  (commit (db.jobs.putAll jobs)).map fun db => (db, jobs)

/-- `InsertMany`. -/
def Database.insertMany (db : Database pg) (now : Time) (ids : Nat → Int)
    (batch : List InsertParams) : Database pg × Except PgError (List JobRow) :=
  if batch.length = 0 then (db, .ok [])
  else
    match copyFrom pg 0 batch with
    | none => (db, .error (.database .badValue))
    | some staged =>
        match db.insertJobsFromStaging now ids staged with
        | .error err => (db, .error (wrapInsertErr err))
        | .ok (db', jobs) => (db', .ok (jobs.map rowFromDB))

/-- `InsertJob` for one item after another, up to the first that fails. -/
def insertJobs (now : Time) : List InsertJobParams → (Nat → Int) → Database pg →
    Except DbError (Database pg × List (DroverJob pg))
  | [], _, db => .ok (db, [])
  | arg :: args, ids, db =>
      match db.insertJob now (ids 0) arg with
      | .error err => .error err
      | .ok (db, job) =>
          (insertJobs now args (fun n => ids (n + 1)) db).map fun r => (r.1, job :: r.2)

/-- Ids the identity column may hand out: no two alike, and none in use. -/
structure FreshIds (db : Database pg) where
  id : Nat → Int
  free : ∀ n, db.jobs.get? (id n) = none
  injective : Function.Injective id

/-! ## One way to build a row -/

/-- A staged row has the index of its item, and is what `InsertJob` makes of the same
parameters. -/
theorem stagedJob_spec {i : Nat} {arg : InsertJobParams} {staged : StagedJob pg}
    (h : stagedJob pg i arg = some staged) :
    staged.ord = i ∧ ∀ now id, newJob pg now id arg = some (staged.job now id) := by
  simp only [stagedJob, Option.bind_eq_bind, Option.bind_eq_some_iff, Option.pure_def,
    Option.some.injEq] at h
  obtain ⟨ord, hord, kind, hkind, queue, hqueue, args, hargs, at_, hat, key, hkey, rfl⟩ := h
  refine ⟨?_, fun now id => by simp [newJob, hkind, hqueue, hargs, hat, hkey, StagedJob.job]⟩
  unfold ordArg at hord
  split at hord
  · cases hord
  · exact (Option.some.inj hord).symm

/-- The staged rows are numbered in input order, and `ORDER BY ord` lists them so. -/
theorem pairwise_copyFrom {i : Nat} {batch : List InsertParams} {staged : List (StagedJob pg)}
    (h : copyFrom pg i batch = some staged) :
    (∀ job ∈ staged, (i : Int) ≤ job.ord) ∧ staged.Pairwise fun a b => a.ord < b.ord := by
  induction batch generalizing i staged with
  | nil =>
      cases h
      simp
  | cons params batch ih =>
      simp only [copyFrom, Option.bind_eq_bind, Option.bind_eq_some_iff, Option.pure_def,
        Option.some.injEq] at h
      obtain ⟨first, hfirst, rest, hrest, rfl⟩ := h
      have hord := (stagedJob_spec hfirst).1
      obtain ⟨hlow, hpairs⟩ := ih hrest
      rw [List.pairwise_cons]
      refine ⟨?_, fun job hjob => ?_, hpairs⟩
      · intro job hjob
        rcases List.mem_cons.mp hjob with rfl | hjob
        · exact hord.ge
        · have hle := hlow job hjob
          omega
      · have hle := hlow job hjob
        omega

theorem Staging.sorted (s : Staging pg) :
    (s.heap.insertionSort fun a b => a.ord ≤ b.ord) = s.staged := by
  have hpairs := (pairwise_copyFrom s.copied).2
  have hords : (s.staged.map StagedJob.ord).Nodup :=
    List.pairwise_map.mpr (hpairs.imp fun hlt => ne_of_lt hlt)
  have hperm := (List.perm_insertionSort (fun a b : StagedJob pg => a.ord ≤ b.ord) s.heap).trans
    s.loaded
  refine List.Perm.eq_of_pairwise ?_ (List.pairwise_insertionSort _ _)
    (hpairs.imp fun hlt => le_of_lt hlt) hperm
  intro a b ha hb hab hba
  exact List.inj_on_of_nodup_map hords (hperm.mem_iff.mp ha) hb (le_antisymm hab hba)

/-! ## The index sees the same entries -/

/-- The index is in order when no entry is listed twice. -/
theorem indexed_iff_nodup (jobs : Jobs pg) :
    Indexed jobs ↔ (jobs.rows.filterMap DroverJob.entry).Nodup := by
  rw [List.Nodup, List.pairwise_filterMap]
  constructor
  · intro h
    refine jobs.nodup.of_map.pairwise_of_forall_ne fun a ha b hb hne x hx y hy hxy => hne ?_
    have hentry : a.entry = b.entry := by rw [hx, hy, hxy]
    have hid := h a ha b hb (by rw [hx]; exact Option.some_ne_none x) hentry
    exact List.inj_on_of_nodup_map jobs.nodup ha hb hid
  · intro h a ha b hb hne heq
    by_contra hid
    obtain ⟨x, hx⟩ := Option.ne_none_iff_exists'.mp hne
    have : Std.Symm fun a b : DroverJob pg =>
        ∀ x, a.entry = some x → ∀ y, b.entry = some y → x ≠ y :=
      ⟨fun a b hab x hx y hy => (hab y hy x hx).symm⟩
    have hab : a ≠ b := fun hsame => hid (by rw [hsame])
    exact h.forall ha hb hab x hx x (by rw [← heq, hx]) rfl

theorem Indexed.of_subset {jobs jobs' : Jobs pg} (h : Indexed jobs')
    (hsub : ∀ job ∈ jobs.rows, job ∈ jobs'.rows) : Indexed jobs :=
  fun a ha b hb => h a (hsub a ha) b (hsub b hb)

/-- The entries of new rows do not depend on their ids. -/
theorem filterMap_entry_newJobs (now : Time) (ids ids' : Nat → Int) (staged : List (StagedJob pg)) :
    (newJobs now ids staged).filterMap DroverJob.entry =
      (newJobs now ids' staged).filterMap DroverJob.entry := by
  induction staged generalizing ids ids' with
  | nil => rfl
  | cons first rest ih =>
      have hentry : (first.job now (ids 0)).entry = (first.job now (ids' 0)).entry := rfl
      rw [newJobs, newJobs, List.filterMap_cons, List.filterMap_cons, hentry,
        ih (fun n => ids (n + 1)) fun n => ids' (n + 1)]

theorem mem_newJobs {now : Time} {ids : Nat → Int} {staged : List (StagedJob pg)}
    {job : DroverJob pg} (h : job ∈ newJobs now ids staged) : ∃ n, job.id = ids n := by
  induction staged generalizing ids with
  | nil => cases h
  | cons first rest ih =>
      rcases List.mem_cons.mp h with rfl | h
      · exact ⟨0, rfl⟩
      · obtain ⟨n, hn⟩ := ih h
        exact ⟨n + 1, hn⟩

theorem map_id_newJobs (now : Time) (ids : Nat → Int) (staged : List (StagedJob pg)) :
    (newJobs now ids staged).map DroverJob.id = (List.range staged.length).map ids := by
  induction staged generalizing ids with
  | nil => rfl
  | cons first rest ih =>
      rw [newJobs, List.map_cons, ih, List.length_cons, List.range_succ_eq_map, List.map_cons,
        List.map_map]
      rfl

theorem FreshIds.nodup {db : Database pg} (ids : FreshIds db) (now : Time)
    (staged : List (StagedJob pg)) : ((newJobs now ids.id staged).map DroverJob.id).Nodup := by
  rw [map_id_newJobs]
  exact List.nodup_range.map ids.injective

/-- The table with new rows under fresh ids. -/
theorem FreshIds.rows {db : Database pg} (ids : FreshIds db) (now : Time)
    (staged : List (StagedJob pg)) :
    (db.jobs.putAll (newJobs now ids.id staged)).rows =
      db.jobs.rows ++ newJobs now ids.id staged := by
  refine Table.rows_putAll_of_free (fun job hjob => ?_) (ids.nodup now staged)
  obtain ⟨n, hn⟩ := mem_newJobs hjob
  rw [hn]
  exact ids.free n

/-- Whether the index takes a batch does not depend on the ids it gets. -/
theorem indexed_newJobs_iff {db : Database pg} (ids ids' : FreshIds db) (now : Time)
    (staged : List (StagedJob pg)) :
    Indexed (db.jobs.putAll (newJobs now ids.id staged)) ↔
      Indexed (db.jobs.putAll (newJobs now ids'.id staged)) := by
  rw [indexed_iff_nodup, indexed_iff_nodup, ids.rows, ids'.rows, List.filterMap_append,
    List.filterMap_append, filterMap_entry_newJobs now ids.id ids'.id]

/-! ## The two ways to insert a batch -/

/-- The ids that are left after the first, once its row is stored. -/
def FreshIds.tail {db : Database pg} (ids : FreshIds db) {job : DroverJob pg}
    (hjob : job.id = ids.id 0) (hindexed : Indexed (db.jobs.put job)) :
    FreshIds (⟨db.jobs.put job, hindexed⟩ : Database pg) where
  id n := ids.id (n + 1)
  free n := by
    have hne : job.id ≠ ids.id (n + 1) := by
      rw [hjob]
      exact fun heq => absurd (ids.injective heq) (by simp)
    show (db.jobs.put job).get? (ids.id (n + 1)) = none
    rw [Table.get?_put_of_ne hne]
    exact ids.free (n + 1)
  injective := fun _ _ heq => Nat.succ_injective (ids.injective heq)

/-- Under the same ids, `InsertJob` for each item is one statement that files them all. -/
theorem insertJobs_eq_commit {db : Database pg} (ids : FreshIds db) (now : Time) {i : Nat}
    {batch : List InsertParams} {staged : List (StagedJob pg)}
    (h : copyFrom pg i batch = some staged) :
    insertJobs now (batch.map insertParams) ids.id db =
      (commit (db.jobs.putAll (newJobs now ids.id staged))).map fun db =>
        (db, newJobs now ids.id staged) := by
  induction batch generalizing i staged db with
  | nil =>
      cases h
      rw [newJobs, Table.putAll_nil, commit_of_indexed db.unique]
      rfl
  | cons params batch ih =>
      simp only [copyFrom, Option.bind_eq_bind, Option.bind_eq_some_iff, Option.pure_def,
        Option.some.injEq] at h
      obtain ⟨first, hfirst, rest, hrest, rfl⟩ := h
      have hjob := (stagedJob_spec hfirst).2 now (ids.id 0)
      rw [List.map_cons, insertJobs, Database.insertJob, hjob, newJobs, Table.putAll_cons]
      by_cases hindexed : Indexed (db.jobs.put (first.job now (ids.id 0)))
      · have hrows : insertJobs now (batch.map insertParams) (fun n => ids.id (n + 1))
            ⟨db.jobs.put (first.job now (ids.id 0)), hindexed⟩ =
            (commit ((db.jobs.put (first.job now (ids.id 0))).putAll
              (newJobs now (fun n => ids.id (n + 1)) rest))).map fun db =>
                (db, newJobs now (fun n => ids.id (n + 1)) rest) :=
          ih (ids.tail rfl hindexed) hrest
        simp only [commit_of_indexed hindexed, Except.map]
        rw [hrows]
        generalize commit _ = result
        cases result <;> rfl
      · -- a table the index refuses stays refused when more rows are added
        have hmore : ¬Indexed ((db.jobs.put (first.job now (ids.id 0))).putAll
            (newJobs now (fun n => ids.id (n + 1)) rest)) := by
          refine fun hall => hindexed (hall.of_subset fun job hmem => ?_)
          rw [show ((db.jobs.put _).putAll _).rows = _ from ids.rows now (first :: rest)]
          rcases Table.mem_put_iff.mp hmem with rfl | ⟨hold, -⟩
          · exact List.mem_append_right _ List.mem_cons_self
          · exact List.mem_append_left _ hold
        simp only [commit, dif_neg hindexed, dif_neg hmore, Except.map]

/-- A row without its id. -/
def DroverJob.unnumbered (job : DroverJob pg) : DroverJob pg := { job with id := 0 }

theorem unnumbered_newJobs (now : Time) (ids ids' : Nat → Int) (staged : List (StagedJob pg)) :
    (newJobs now ids staged).map DroverJob.unnumbered =
      (newJobs now ids' staged).map DroverJob.unnumbered := by
  induction staged generalizing ids ids' with
  | nil => rfl
  | cons first rest ih =>
      rw [newJobs, newJobs, List.map_cons, List.map_cons,
        ih (fun n => ids (n + 1)) fun n => ids' (n + 1)]
      rfl

/-- Two outcomes of inserting a batch into `db`: both refused by the index, or both done,
with the same rows in input order behind those that were there, but for the ids. -/
inductive SameBatch (db : Database pg) (ids ids' : Nat → Int) (n : Nat) :
    Except DbError (Database pg × List (DroverJob pg)) →
    Except DbError (Database pg × List (DroverJob pg)) → Prop
  | refused : SameBatch db ids ids' n (.error .uniqueViolation) (.error .uniqueViolation)
  | stored {db₁ db₂ : Database pg} {jobs₁ jobs₂ : List (DroverJob pg)}
      (rows₁ : db₁.jobs.rows = db.jobs.rows ++ jobs₁)
      (rows₂ : db₂.jobs.rows = db.jobs.rows ++ jobs₂)
      (same : jobs₁.map DroverJob.unnumbered = jobs₂.map DroverJob.unnumbered)
      (ids₁ : jobs₁.map DroverJob.id = (List.range n).map ids)
      (ids₂ : jobs₂.map DroverJob.id = (List.range n).map ids') :
      SameBatch db ids ids' n (.ok (db₁, jobs₁)) (.ok (db₂, jobs₂))

/-- The outcomes of one staged batch under two choices of ids. -/
theorem sameBatch_commit {db : Database pg} (ids ids' : FreshIds db) (now : Time)
    (staged : List (StagedJob pg)) :
    SameBatch db ids.id ids'.id staged.length
      ((commit (db.jobs.putAll (newJobs now ids.id staged))).map fun db =>
        (db, newJobs now ids.id staged))
      ((commit (db.jobs.putAll (newJobs now ids'.id staged))).map fun db =>
        (db, newJobs now ids'.id staged)) := by
  by_cases hindexed : Indexed (db.jobs.putAll (newJobs now ids.id staged))
  · have hindexed' := (indexed_newJobs_iff ids ids' now staged).mp hindexed
    rw [commit_of_indexed hindexed, commit_of_indexed hindexed']
    exact .stored (ids.rows now staged) (ids'.rows now staged)
      (unnumbered_newJobs now ids.id ids'.id staged) (map_id_newJobs now ids.id staged)
      (map_id_newJobs now ids'.id staged)
  · have hindexed' := mt (indexed_newJobs_iff ids ids' now staged).mpr hindexed
    rw [commit, dif_neg hindexed, commit, dif_neg hindexed']
    exact .refused

theorem length_copyFrom {i : Nat} {batch : List InsertParams} {staged : List (StagedJob pg)}
    (h : copyFrom pg i batch = some staged) : staged.length = batch.length := by
  induction batch generalizing i staged with
  | nil =>
      cases h
      rfl
  | cons params batch ih =>
      simp only [copyFrom, Option.bind_eq_bind, Option.bind_eq_some_iff, Option.pure_def,
        Option.some.injEq] at h
      obtain ⟨first, -, rest, hrest, rfl⟩ := h
      rw [List.length_cons, List.length_cons, ih hrest]

/-- What `InsertMany` should answer: the rows of the items one after another, and
`ErrDuplicateJob` when the index refuses one of them. -/
def Database.insertAllOrNothing (db : Database pg) (now : Time) (ids : Nat → Int)
    (batch : List InsertParams) : Database pg × Except PgError (List JobRow) :=
  match insertJobs now (batch.map insertParams) ids db with
  | .error _ => (db, .error (.driver .duplicateJob))
  | .ok (db', jobs) => (db', .ok (jobs.map rowFromDB))

theorem Staging.insertMany_eq {db : Database pg} (s : Staging pg) (ids : FreshIds db) (now : Time) :
    db.insertMany now ids.id s.batch = db.insertAllOrNothing now ids.id s.batch := by
  have hsorted := Staging.sorted ⟨s.batch, s.staged, s.copied, s.staged, List.Perm.refl _⟩
  have heach := insertJobs_eq_commit ids now s.copied
  unfold Database.insertMany Database.insertAllOrNothing
  rw [heach, s.copied]
  by_cases hempty : s.batch.length = 0
  · have hstaged : s.staged = [] := by
      rw [← List.length_eq_zero_iff, length_copyFrom s.copied, hempty]
    rw [if_pos hempty, hstaged, newJobs, Table.putAll_nil, commit_of_indexed db.unique]
    rfl
  · simp only [if_neg hempty, Database.insertJobsFromStaging, hsorted, commit]
    by_cases hindexed : Indexed (db.jobs.putAll (newJobs now ids.id s.staged))
    · rw [dif_pos hindexed]
      rfl
    · rw [dif_neg hindexed]
      rfl

/-- A batch insert is an all-or-nothing sequential insert.  In memory `InsertMany` is
`Insert` for one item after another when all of those succeed, rows, ids and store alike,
and otherwise answers `ErrDuplicateJob` and leaves the store.  In Postgres the statement
`InsertJobsFromStaging`, over a staging table that keeps its rows in any order, and
`InsertJob` for one item after another, under the same `now()` and whatever free ids each
is given, are both refused by the unique index or both store the same rows, in input
order, under the ids they were given; and the method answers accordingly. -/
theorem insertMany_sequential (s : Memdriver.Store) (now : Time) (batch : List InsertParams)
    (pg : Postgres) (db : Database pg) (staging : Staging pg) (ids ids' : FreshIds db) :
    s.insertMany now batch = s.insertAllOrNothing now batch ∧
      SameBatch db ids.id ids'.id staging.batch.length
        (db.insertJobsFromStaging now ids.id staging.heap)
        (insertJobs now (staging.batch.map insertParams) ids'.id db) ∧
      db.insertMany now ids.id staging.batch =
        db.insertAllOrNothing now ids.id staging.batch := by
  refine ⟨Memdriver.insertMany_eq_insertAllOrNothing s.fresh now batch, ?_,
    staging.insertMany_eq ids now⟩
  rw [insertJobs_eq_commit ids' now staging.copied, Database.insertJobsFromStaging,
    staging.sorted, ← length_copyFrom staging.copied]
  exact sameBatch_commit ids ids' now staging.staged

/-- A batch of two jobs, staged with the second one first. -/
def stagedPair : Staging micros where
  batch := [sample, sample]
  staged := (copyFrom micros 0 [sample, sample]).get (by decide)
  copied := (Option.some_get _).symm
  heap := ((copyFrom micros 0 [sample, sample]).get (by decide)).reverse
  loaded := List.reverse_perm _

/-- Ids from `first` on are free in an empty database. -/
def idsFrom (first : Int) : FreshIds (Database.empty micros) where
  id n := first + n
  free _ := rfl
  injective _ _ h := Int.ofNat.inj (Int.add_left_cancel h)

theorem stagedPair_sequential :
    stagedPair.batch.length = 2 ∧
      (Memdriver.Store.reached []).insertMany 5000 stagedPair.batch =
        (Memdriver.Store.reached []).insertAllOrNothing 5000 stagedPair.batch ∧
      SameBatch (Database.empty micros) (idsFrom 1).id (idsFrom 10).id 2
        ((Database.empty micros).insertJobsFromStaging 5000 (idsFrom 1).id stagedPair.heap)
        (insertJobs 5000 (stagedPair.batch.map insertParams) (idsFrom 10).id
          (Database.empty micros)) ∧
      (Database.empty micros).insertMany 5000 (idsFrom 1).id stagedPair.batch =
        (Database.empty micros).insertAllOrNothing 5000 (idsFrom 1).id stagedPair.batch :=
  ⟨rfl, insertMany_sequential (Memdriver.Store.reached []) 5000 stagedPair.batch micros
    (Database.empty micros) stagedPair (idsFrom 1) (idsFrom 10)⟩

end Drover.Pgdriver
