import Drover.Driver.Types
import Drover.Foundation.Select
import Drover.Json.Marshal

set_option autoImplicit false

/-!
# The statements of `queries.sql`

The table `drover_jobs` with its partial unique index, and what each statement does to
it when nothing else runs.  A statement reads one `now()`, and is refused as a whole
when a parameter is not a value of its column's type or the index would be violated.

What Postgres and its client library do with values is a parameter, `Postgres`: which
Go strings, times, lease durations and JSON texts the column types take, and what they
hold of them.  The laws it carries are the documented ones of `jsonb`: it holds the value of a
text and not its spelling, an array of texts is the array of their values, `||` appends an
object to an array, and a value's text reads back as that value.
-/

namespace Drover.Pgdriver

open Drover.Foundation
open Drover.Driver
open Drover.Go (Time Duration)

/-- What the statements rely on of Postgres and its client library. -/
structure Postgres where
  /-- the values of type `jsonb` -/
  Jsonb : Type
  /-- the value of a JSON text, `none` when the type refuses it -/
  value : Json.Value → Option Jsonb
  /-- an array -/
  array : List Jsonb → Jsonb
  /-- the operator `||` -/
  concat : Jsonb → Jsonb → Jsonb
  /-- the text of a value -/
  render : Jsonb → Bytes
  /-- what a `text` column holds of a string -/
  text : Bytes → Option Bytes
  /-- what a `timestamptz` column holds of a time -/
  timestamptz : Time → Option Time
  /-- `now() + make_interval(secs => leaseFor.Seconds())` -/
  leaseEnd : Time → Duration → Option Time
  value_escapeHTML : ∀ x, value (Json.escapeHTML x) = value x
  value_array : ∀ xs, value (.arr xs) = (xs.mapM value).map array
  concat_object : ∀ vs ms v, value (.obj ms) = some v → concat (array vs) v = array (vs ++ [v])
  read_render : ∀ v, (Json.parse (render v)).bind value = some v

variable {pg : Postgres}

/-- The cast `::jsonb`. -/
def Postgres.cast (pg : Postgres) (text : Bytes) : Option pg.Jsonb :=
  (Json.parse text).bind pg.value

/-- `dbsqlc.DroverJob`, a row of `drover_jobs`. -/
structure DroverJob (pg : Postgres) where
  id : Int
  kind : Bytes
  queue : Bytes
  args : pg.Jsonb
  state : JobState
  attempt : Int
  maxAttempts : Int
  errors : pg.Jsonb
  scheduledAt : Time
  leasedUntil : Option Time
  createdAt : Time
  finalizedAt : Option Time
  uniqueKey : Option Bytes

/-- The rows of `drover_jobs`. -/
abbrev Jobs (pg : Postgres) := Table fun job : DroverJob pg => job.id

/-- The predicate on states of `drover_jobs_unique_active_idx`. -/
def indexedState : JobState → Bool
  | .available | .scheduled | .retryable | .running => true
  | _ => false

/-- The entry of a row in `drover_jobs_unique_active_idx`. -/
def DroverJob.entry (job : DroverJob pg) : Option (Bytes × Bytes × Bytes) :=
  if indexedState job.state then job.uniqueKey.map fun key => (job.queue, job.kind, key) else none

/-- No entry of the index occurs twice. -/
def Indexed (jobs : Jobs pg) : Prop :=
  ∀ a ∈ jobs.rows, ∀ b ∈ jobs.rows, a.entry ≠ none → a.entry = b.entry → a.id = b.id

instance (jobs : Jobs pg) : Decidable (Indexed jobs) :=
  inferInstanceAs (Decidable (∀ a ∈ jobs.rows, ∀ b ∈ jobs.rows, _ → _ → _))

/-- The table, with its unique index in order. -/
@[ext] structure Database (pg : Postgres) where
  jobs : Jobs pg
  unique : Indexed jobs

/-- Why a statement is refused. -/
inductive DbError where
  /-- SQLSTATE 23505 on `drover_jobs_unique_active_idx` -/
  | uniqueViolation
  /-- a parameter or a result is not a value of its column's type -/
  | badValue
  deriving DecidableEq, Repr

/-- The table a statement leaves, unless it violates the index. -/
def commit (jobs : Jobs pg) : Except DbError (Database pg) :=
  if h : Indexed jobs then .ok ⟨jobs, h⟩ else .error .uniqueViolation

/-- `math.MaxInt32`, the greatest `int` of Postgres. -/
def maxInt32 : Int := 2147483647

/-! ## Insert -/

/-- `dbsqlc.InsertJobParams`. -/
structure InsertJobParams where
  kind : Bytes
  queue : Bytes
  args : Bytes
  scheduledAt : Option Time
  uniqueKey : Option Bytes

/-- A parameter that may be null. -/
def nullable {α β : Type} (f : α → Option β) : Option α → Option (Option β)
  | none => some none
  | some a => (f a).map some

/-- The row `InsertJob` builds: the parameters and the defaults of the table. -/
def newJob (pg : Postgres) (now : Time) (id : Int) (arg : InsertJobParams) :
    Option (DroverJob pg) := do
  let kind ← pg.text arg.kind
  let queue ← pg.text arg.queue
  let args ← pg.cast arg.args
  let scheduledAt ← nullable pg.timestamptz arg.scheduledAt
  let uniqueKey ← nullable pg.text arg.uniqueKey
  return {
    id := id
    kind := kind
    queue := queue
    args := args
    state := if scheduledAt.getD now > now then .scheduled else .available
    attempt := 0
    maxAttempts := 25
    errors := pg.array []
    scheduledAt := scheduledAt.getD now
    leasedUntil := none
    createdAt := now
    finalizedAt := none
    uniqueKey := uniqueKey }

/-- `InsertJob`; `id` is the one the identity column hands out. -/
def Database.insertJob (db : Database pg) (now : Time) (id : Int) (arg : InsertJobParams) :
    Except DbError (Database pg × DroverJob pg) :=
  match newJob pg now id arg with
  | none => .error .badValue
  | some job => (commit (db.jobs.put job)).map fun db => (db, job)

/-! ## Claims -/

/-- `SELECT id ... WHERE keep ORDER BY order, id LIMIT maxJobs FOR UPDATE SKIP LOCKED`. -/
def Database.selectIds (db : Database pg) (keep : DroverJob pg → Bool)
    (order : DroverJob pg → Time) (maxJobs : Int) : List Int :=
  (((db.jobs.rows.filter keep).insertionSort (orderedBy order DroverJob.id)).take
    maxJobs.toNat).map DroverJob.id

/-- `UPDATE ... SET set WHERE id IN (ids) RETURNING *`. -/
def Database.updateIds (db : Database pg) (ids : List Int) (set : DroverJob pg → DroverJob pg)
    (hset : ∀ job, (set job).id = job.id) : Except DbError (Database pg × List (DroverJob pg)) :=
  (commit (db.jobs.updateWhere (fun job => ids.contains job.id) set hset)).map fun db' =>
    (db', (db.jobs.rows.filter fun job => ids.contains job.id).map set)

/-- The states `FetchAvailable` claims from. -/
def fetchedState : JobState → Bool
  | .available | .retryable | .scheduled => true
  | _ => false

/-- The `WHERE` of `FetchAvailable`. -/
def dueWhere (now : Time) (queue : Bytes) (job : DroverJob pg) : Bool :=
  fetchedState job.state && job.queue == queue && decide (job.scheduledAt ≤ now)

/-- The `SET` of `FetchAvailable`. -/
def claimSet (until_ : Time) (job : DroverJob pg) : DroverJob pg :=
  { job with state := .running, attempt := job.attempt + 1, leasedUntil := some until_ }

/-- `FetchAvailable`.  The sum `attempt + 1` must be an `int`. -/
def Database.fetchAvailable (db : Database pg) (now : Time) (leaseFor : Duration) (queue : Bytes)
    (maxJobs : Int) : Except DbError (Database pg × List (DroverJob pg)) :=
  match pg.text queue, pg.leaseEnd now leaseFor with
  | some queue, some until_ =>
      let ids := db.selectIds (dueWhere now queue) DroverJob.scheduledAt maxJobs
      if db.jobs.rows.any fun job => ids.contains job.id && decide (maxInt32 ≤ job.attempt) then
        .error .badValue
      else db.updateIds ids (claimSet until_) fun _ => rfl
  | _, _ => .error .badValue

/-- The `WHERE` of `FetchExpired`; a null is not `<= now()`. -/
def expiredWhere (now : Time) (job : DroverJob pg) : Bool :=
  job.state == .running &&
    match job.leasedUntil with
    | none => false
    | some t => decide (t ≤ now)

/-- The `SET` of `FetchExpired` and `ExtendLeases`. -/
def leaseSet (until_ : Time) (job : DroverJob pg) : DroverJob pg :=
  { job with leasedUntil := some until_ }

/-- `FetchExpired`. -/
def Database.fetchExpired (db : Database pg) (now : Time) (leaseFor : Duration) (maxJobs : Int) :
    Except DbError (Database pg × List (DroverJob pg)) :=
  match pg.leaseEnd now leaseFor with
  | some until_ =>
      let ids := db.selectIds (expiredWhere now) (fun job => job.leasedUntil.getD 0) maxJobs
      db.updateIds ids (leaseSet until_) fun _ => rfl
  | none => .error .badValue

/-- `ExtendLeases`, joined with the held ids and attempts. -/
def Database.extendLeases (db : Database pg) (now : Time) (leaseFor : Duration)
    (held : List (Int × Int)) : Except DbError (Database pg) :=
  match pg.leaseEnd now leaseFor with
  | some until_ =>
      commit (db.jobs.updateWhere
        (fun job => job.state == .running && held.contains (job.id, job.attempt))
        (leaseSet until_) fun _ => rfl)
  | none => .error .badValue

/-! ## Guarded transitions -/

/-- `WHERE id = $id AND attempt = $attempt AND state = 'running'`. -/
def heldWhere (id attempt : Int) (job : DroverJob pg) : Bool :=
  job.id == id && job.attempt == attempt && job.state == .running

/-- A guarded transition, with the number of rows it changed. -/
def Database.transition (db : Database pg) (id attempt : Int)
    (set : DroverJob pg → DroverJob pg) (hset : ∀ job, (set job).id = job.id) :
    Except DbError (Database pg × Nat) :=
  (commit (db.jobs.updateWhere (heldWhere id attempt) set hset)).map fun db' =>
    (db', (db.jobs.rows.filter (heldWhere id attempt)).length)

/-- The `SET` of `MarkCompleted`, and of `MarkDead` and `MarkCancelled` but for the errors. -/
def finalizeSet (state : JobState) (now : Time) (job : DroverJob pg) : DroverJob pg :=
  { job with state := state, finalizedAt := some now, leasedUntil := none }

/-- `errors = errors || $error`. -/
def appendSet (error : pg.Jsonb) (job : DroverJob pg) : DroverJob pg :=
  { job with errors := pg.concat job.errors error }

/-- `MarkCompleted`. -/
def Database.markCompleted (db : Database pg) (now : Time) (id attempt : Int) :
    Except DbError (Database pg × Nat) :=
  db.transition id attempt (finalizeSet .completed now) fun _ => rfl

/-- The `SET` of `MarkRetryable` but for the errors. -/
def retrySet (retryAt : Time) (job : DroverJob pg) : DroverJob pg :=
  { job with state := .retryable, scheduledAt := retryAt, leasedUntil := none }

/-- A transition that appends `error`.  `errors || NULL` is null, which the column
refuses; that comes to light only when there is a row to write. -/
def Database.appendTransition (db : Database pg) (id attempt : Int) (error : Option Bytes)
    (set : DroverJob pg → DroverJob pg) (hset : ∀ job, (set job).id = job.id) :
    Except DbError (Database pg × Nat) :=
  match nullable pg.cast error with
  | some (some error) => db.transition id attempt (fun job => set (appendSet error job)) fun _ => hset _
  | some none =>
      if db.jobs.rows.any (heldWhere id attempt) then .error .badValue else .ok (db, 0)
  | none => .error .badValue

/-- `MarkRetryable`. -/
def Database.markRetryable (db : Database pg) (id attempt : Int) (retryAt : Time)
    (error : Option Bytes) : Except DbError (Database pg × Nat) :=
  match pg.timestamptz retryAt with
  | some retryAt => db.appendTransition id attempt error (retrySet retryAt) fun _ => rfl
  | none => .error .badValue

/-- `MarkDead`. -/
def Database.markDead (db : Database pg) (now : Time) (id attempt : Int) (error : Option Bytes) :
    Except DbError (Database pg × Nat) :=
  db.appendTransition id attempt error (finalizeSet .dead now) fun _ => rfl

/-- `MarkCancelled`. -/
def Database.markCancelled (db : Database pg) (now : Time) (id attempt : Int)
    (error : Option Bytes) : Except DbError (Database pg × Nat) :=
  db.appendTransition id attempt error (finalizeSet .cancelled now) fun _ => rfl

/-- The `SET` of `MarkSnoozed`. -/
def snoozeSet (runAt : Time) (job : DroverJob pg) : DroverJob pg :=
  { job with
    state := .scheduled, scheduledAt := runAt, leasedUntil := none,
    attempt := max (job.attempt - 1) 0 }

/-- `MarkSnoozed`. -/
def Database.markSnoozed (db : Database pg) (id attempt : Int) (runAt : Time) :
    Except DbError (Database pg × Nat) :=
  match pg.timestamptz runAt with
  | some runAt => db.transition id attempt (snoozeSet runAt) fun _ => rfl
  | none => .error .badValue

/-! ## Operator statements and reads -/

/-- `UPDATE ... SET set WHERE id = $id AND state IN (...) RETURNING *`; no row is
`pgx.ErrNoRows`. -/
def Database.updateOne (db : Database pg) (id : Int) (eligible : JobState → Bool)
    (set : DroverJob pg → DroverJob pg) (hset : ∀ job, (set job).id = job.id) :
    Except DbError (Database pg × Option (DroverJob pg)) :=
  (commit (db.jobs.updateWhere (fun job => job.id == id && eligible job.state) set hset)).map
    fun db' => (db', (db.jobs.rows.find? fun job => job.id == id && eligible job.state).map set)

/-- The states `OperatorCancel` accepts. -/
def cancellableState : JobState → Bool
  | .available | .scheduled | .retryable | .dead => true
  | _ => false

/-- `OperatorCancel`. -/
def Database.operatorCancel (db : Database pg) (now : Time) (id : Int) :
    Except DbError (Database pg × Option (DroverJob pg)) :=
  db.updateOne id cancellableState (finalizeSet .cancelled now) fun _ => rfl

/-- The `SET` of `RedriveDead`. -/
def redriveSet (now : Time) (job : DroverJob pg) : DroverJob pg :=
  { job with
    state := .available, attempt := 0, leasedUntil := none, finalizedAt := none,
    scheduledAt := now }

/-- `RedriveDead`. -/
def Database.redriveDead (db : Database pg) (now : Time) (id : Int) :
    Except DbError (Database pg × Option (DroverJob pg)) :=
  db.updateOne id (· == .dead) (redriveSet now) fun _ => rfl

/-- `GetJob`; no row is `pgx.ErrNoRows`. -/
def Database.getJob (db : Database pg) (id : Int) : Option (DroverJob pg) := db.jobs.get? id

end Drover.Pgdriver
