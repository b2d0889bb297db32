import Drover.Memdriver.Step
import Drover.Pgdriver.Database

set_option autoImplicit false

/-!
# The Postgres driver (`internal/pgdriver/pgdriver.go`)

Each method runs its statement and, when a guarded update changed no row, reads the
row again to say why.  Nothing else runs between the two here, so both are functions
of one database.
-/

namespace Drover.Pgdriver

open Drover.Foundation
open Drover.Driver
open Drover.Go (Time Duration)
open Drover.Memdriver (Mark Op)

variable {pg : Postgres}

/-- The errors the driver returns. -/
inductive PgError where
  /-- one of the errors every driver shares -/
  | driver (err : DriverError)
  /-- an error of the database, wrapped -/
  | database (err : DbError)
  /-- `fetch limit %d out of range` -/
  | fetchLimit (limit : Int)
  deriving DecidableEq, Repr

/-- `rowFromDB`. -/
def rowFromDB (job : DroverJob pg) : JobRow :=
  { id := job.id
    kind := job.kind
    queue := job.queue
    args := pg.render job.args
    state := job.state
    attempt := job.attempt
    maxAttempts := job.maxAttempts
    errors := pg.render job.errors
    scheduledAt := job.scheduledAt
    leasedUntil := job.leasedUntil
    createdAt := job.createdAt
    finalizedAt := job.finalizedAt
    uniqueKey := job.uniqueKey.getD [] }

/-- `sortedRows`: in id order. -/
def sortedRows (jobs : List (DroverJob pg)) : List JobRow :=
  (jobs.map rowFromDB).insertionSort fun a b => a.id ≤ b.id

/-- `attemptArg` clamps an attempt to the range of its column. -/
def attemptArg (attempt : Int) : Int :=
  if attempt < 0 then 0 else if attempt > maxInt32 then maxInt32 else attempt

/-- `insertParams`: the zero time and the empty key are null. -/
def insertParams (params : InsertParams) : InsertJobParams :=
  { kind := params.kind
    queue := params.queue
    args := params.args
    scheduledAt := if params.scheduledAt = 0 then none else some params.scheduledAt
    uniqueKey := if params.uniqueKey = [] then none else some params.uniqueKey }

/-- `wrapInsertErr`. -/
def wrapInsertErr : DbError → PgError
  | .uniqueViolation => .driver .duplicateJob
  | err => .database err

/-- `Insert`; `id` is the one the identity column hands out. -/
def Database.insert (db : Database pg) (now : Time) (id : Int) (params : InsertParams) :
    Database pg × Except PgError JobRow :=
  match db.insertJob now id (insertParams params) with
  | .error err => (db, .error (wrapInsertErr err))
  | .ok (db', job) => (db', .ok (rowFromDB job))

/-- What a fetch makes of the answer of its statement. -/
def Database.fetch (db : Database pg) (limit : Int)
    (statement : Except DbError (Database pg × List (DroverJob pg))) :
    Database pg × Except PgError (List JobRow) :=
  if limit < 0 ∨ limit > maxInt32 then (db, .error (.fetchLimit limit))
  else
    match statement with
    | .error err => (db, .error (.database err))
    | .ok (db', jobs) => (db', .ok (sortedRows jobs))

/-- `FetchAvailable`. -/
def Database.fetchAvailableRows (db : Database pg) (now : Time) (queue : Bytes)
    (leaseFor : Duration) (limit : Int) : Database pg × Except PgError (List JobRow) :=
  db.fetch limit (db.fetchAvailable now leaseFor queue limit)

/-- `FetchExpired`. -/
def Database.fetchExpiredRows (db : Database pg) (now : Time) (leaseFor : Duration) (limit : Int) :
    Database pg × Except PgError (List JobRow) :=
  db.fetch limit (db.fetchExpired now leaseFor limit)

/-- `ExtendLeases`. -/
def Database.extendHeld (db : Database pg) (now : Time) (leases : List Lease)
    (leaseFor : Duration) : Database pg × Option PgError :=
  if leases.length = 0 then (db, none)
  else
    match db.extendLeases now leaseFor (leases.map fun l => (l.id, attemptArg l.attempt)) with
    | .error err => (db, some (.database err))
    | .ok db' => (db', none)

/-- `finalizeFailure` explains why a guarded transition matched no row. -/
def Database.finalizeFailure (db : Database pg) (lease : Lease) : DriverError :=
  match db.getJob lease.id with
  | none => .notFound lease.id
  | some job =>
      if job.state ≠ .running then .invalidTransition lease.id job.state .running
      else .leaseLost lease.id job.attempt lease.attempt

/-- `explain`. -/
def Database.explain (db : Database pg) (lease : Lease) (affected : Nat) : Option PgError :=
  if affected = 0 then some (.driver (db.finalizeFailure lease)) else none

/-- The statement of each `Mark` method. -/
def Database.markStatement (db : Database pg) (lease : Lease) :
    Mark → Except DbError (Database pg × Nat)
  | .completed now => db.markCompleted now lease.id (attemptArg lease.attempt)
  | .retryable retryAt errDetail =>
      db.markRetryable lease.id (attemptArg lease.attempt) retryAt errDetail
  | .dead now errDetail => db.markDead now lease.id (attemptArg lease.attempt) errDetail
  | .cancelled now errDetail => db.markCancelled now lease.id (attemptArg lease.attempt) errDetail
  | .snoozed runAt => db.markSnoozed lease.id (attemptArg lease.attempt) runAt

/-- The `Mark` methods. -/
def Database.mark (db : Database pg) (lease : Lease) (m : Mark) : Database pg × Option PgError :=
  match db.markStatement lease m with
  | .error err => (db, some (.database err))
  | .ok (db', affected) => (db', db'.explain lease affected)

/-- `operatorEligible`. -/
def operatorEligible (state : JobState) : Want → Bool
  | .cancellable => cancellableState state
  | .dead => state == .dead
  | .running => false

/-- `afterOperatorMiss` explains a zero-row operator update.  `retry` is present when
`allowRetry` is set. -/
def Database.afterOperatorMiss (db : Database pg) (id : Int) (want : Want)
    (retry : Option (Database pg → Database pg × Except PgError JobRow)) :
    Database pg × Except PgError JobRow :=
  match db.getJob id with
  | none => (db, .error (.driver (.notFound id)))
  | some job =>
      match retry with
      | some retry =>
          if operatorEligible job.state want then retry db
          else (db, .error (.driver (.invalidTransition id job.state want)))
      | none => (db, .error (.driver (.invalidTransition id job.state want)))

/-- An operator action: the statement, and what a miss leads to. -/
def Database.operatorUpdate (db : Database pg)
    (statement : Except DbError (Database pg × Option (DroverJob pg)))
    (miss : Database pg → Database pg × Except PgError JobRow) :
    Database pg × Except PgError JobRow :=
  match statement with
  | .error err => (db, .error (.database err))
  | .ok (db', none) => miss db'
  | .ok (db', some job) => (db', .ok (rowFromDB job))

/-- An operator action with its one retry. -/
def Database.operatorAction (db : Database pg) (id : Int) (want : Want)
    (statement : Database pg → Except DbError (Database pg × Option (DroverJob pg))) :
    Database pg × Except PgError JobRow :=
  db.operatorUpdate (statement db) fun db =>
    db.afterOperatorMiss id want <| some fun db =>
      db.operatorUpdate (statement db) fun db => db.afterOperatorMiss id want none

/-- `OperatorCancel`. -/
def Database.cancel (db : Database pg) (now : Time) (id : Int) :
    Database pg × Except PgError JobRow :=
  db.operatorAction id .cancellable fun db => db.operatorCancel now id

/-- `RedriveDead`. -/
def Database.redrive (db : Database pg) (now : Time) (id : Int) :
    Database pg × Except PgError JobRow :=
  db.operatorAction id .dead fun db => db.redriveDead now id

/-- What a call answers. -/
inductive Reply where
  | done (err : Option PgError)
  | row (result : Except PgError JobRow)
  | rows (result : Except PgError (List JobRow))

/-- One call; `fresh` is the id the identity column would hand out.  Batch inserts and
reads are not calls of this file. -/
def step (db : Database pg) (fresh : Int) : Op → Option (Database pg × Reply)
  | .insert now params =>
      some ((db.insert now fresh params).1, .row (db.insert now fresh params).2)
  | .fetchAvailable now queue leaseFor limit =>
      some ((db.fetchAvailableRows now queue leaseFor limit).1,
        .rows (db.fetchAvailableRows now queue leaseFor limit).2)
  | .fetchExpired now leaseFor limit =>
      some ((db.fetchExpiredRows now leaseFor limit).1,
        .rows (db.fetchExpiredRows now leaseFor limit).2)
  | .extendLeases now leases leaseFor =>
      some ((db.extendHeld now leases leaseFor).1, .done (db.extendHeld now leases leaseFor).2)
  | .mark lease m => some ((db.mark lease m).1, .done (db.mark lease m).2)
  | .operatorCancel now id => some ((db.cancel now id).1, .row (db.cancel now id).2)
  | .redriveDead now id => some ((db.redrive now id).1, .row (db.redrive now id).2)
  | _ => none

end Drover.Pgdriver
