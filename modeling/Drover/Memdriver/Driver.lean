import Mathlib.Data.List.Sort
import Drover.Driver.Types
import Drover.Foundation.Table
import Drover.Json.Marshal

set_option autoImplicit false

/-!
# The in-memory driver (`internal/memdriver/memdriver.go`)

The store is a mutex-guarded map from ids to rows and a counter.  Every method
runs under the mutex and reads the clock at most once, so a method is a function
of the store, its arguments and that clock reading `now`; a method that can fail
after it has touched a row returns the store it leaves behind together with the
error.  A Go map has no order, and `selectRows` sorts what it takes out of one;
the rows of a `Table` are walked in the order they were filed.
-/

namespace Drover.Memdriver

open Drover.Foundation
open Drover.Driver
open Drover.Go (Time Duration)

/-- `Driver` over a map from ids to rows. -/
structure Driver where
  nextID : Int
  jobs : Table JobRow.id

/-- `New` returns an empty in-memory driver. -/
def new : Driver := ⟨0, Table.empty⟩

/-! ## Insert -/

/-- The text of an empty JSON array, `json.RawMessage("[]")`. -/
def emptyErrors : Bytes := Bytes.ofChars ['[', ']']

/-- `jobFromParams` builds a stored row against the store's clock. -/
def jobFromParams (id : Int) (params : InsertParams) (now : Time) : JobRow :=
  let scheduledAt := if params.scheduledAt = 0 then now else params.scheduledAt
  { id := id
    kind := params.kind
    queue := params.queue
    args := params.args
    state := if scheduledAt > now then .scheduled else .available
    attempt := 0
    maxAttempts := 25
    errors := emptyErrors
    scheduledAt := scheduledAt
    leasedUntil := none
    createdAt := now
    finalizedAt := none
    uniqueKey := params.uniqueKey }

/-- `uniqueActive`: the states that occupy a unique key. -/
def uniqueActive : JobState → Bool
  | .available | .scheduled | .retryable | .running => true
  | _ => false

/-- The row carries this queue, kind and key. -/
def sameKey (queue kind key : Bytes) (row : JobRow) : Bool :=
  row.uniqueKey == key && row.queue == queue && row.kind == kind

/-- `uniqueConflict`: a non-empty key already occupies a non-terminal row of this
queue and kind, or a row accepted earlier in the same batch. -/
def Driver.uniqueConflict (d : Driver) (queue kind key : Bytes) (extra : List JobRow) : Bool :=
  if key = [] then false
  else if d.jobs.rows.any fun row => sameKey queue kind key row && uniqueActive row.state then true
  else extra.any (sameKey queue kind key)

/-- `Insert` stores a new job and returns its row. -/
def Driver.insert (d : Driver) (now : Time) (params : InsertParams) :
    Driver × Except DriverError JobRow :=
  if d.uniqueConflict params.queue params.kind params.uniqueKey [] then
    (d, .error .duplicateJob)
  else
    let row := jobFromParams (d.nextID + 1) params now
    (⟨d.nextID + 1, d.jobs.put row⟩, .ok row)

/-- The loop of `InsertMany` that builds the pending rows, or finds a conflict. -/
def Driver.pendingRows (d : Driver) (now : Time) :
    List InsertParams → List JobRow → Option (List JobRow)
  | [], pending => some pending
  | params :: batch, pending =>
      if d.uniqueConflict params.queue params.kind params.uniqueKey pending then none
      else
        d.pendingRows now batch
          (pending ++ [jobFromParams (d.nextID + pending.length + 1) params now])

/-- `InsertMany` persists every job of the batch, or none of them. -/
def Driver.insertMany (d : Driver) (now : Time) (batch : List InsertParams) :
    Driver × Except DriverError (List JobRow) :=
  if batch.length = 0 then (d, .ok [])
  else
    match d.pendingRows now batch [] with
    | none => (d, .error .duplicateJob)
    | some pending => (⟨d.nextID + batch.length, d.jobs.putAll pending⟩, .ok pending)

/-! ## Claims -/

/-- `waiting`: never run, awaiting a retry backoff, or snoozed. -/
def waiting : JobState → Bool
  | .available | .retryable | .scheduled => true
  | _ => false

/-- `byScheduledAt`. -/
def byScheduledAt (row : JobRow) : Time := row.scheduledAt

/-- `byLeasedUntil`; the zero time when there is no lease. -/
def byLeasedUntil (row : JobRow) : Time := row.leasedUntil.getD 0

/-- The comparison of `selectRows`: by `order`, then by id. -/
def rowLE (order : JobRow → Time) (a b : JobRow) : Prop :=
  order a < order b ∨ (order a = order b ∧ a.id ≤ b.id)

instance (order : JobRow → Time) : DecidableRel (rowLE order) :=
  fun _ _ => inferInstanceAs (Decidable (_ ∨ _))

/-- `selectRows`: the stored rows matching `keep`, by `order` and then by id. -/
def Driver.selectRows (d : Driver) (order : JobRow → Time) (keep : JobRow → Bool) :
    List JobRow :=
  (d.jobs.rows.filter keep).insertionSort (rowLE order)

/-- The loop of a fetch: touch the selected rows in order, until as many as
`limit` have been taken. -/
def fetchLoop (touch : JobRow → JobRow) (limit : Int) :
    List JobRow → List JobRow → Table JobRow.id → Table JobRow.id × List JobRow
  | [], taken, jobs => (jobs, taken)
  | row :: rows, taken, jobs =>
      if (taken.length : Int) = limit then (jobs, taken)
      else fetchLoop touch limit rows (taken ++ [touch row]) (jobs.put (touch row))

/-- A row `FetchAvailable` may claim. -/
def due (now : Time) (queue : Bytes) (row : JobRow) : Bool :=
  waiting row.state && row.queue == queue && !(row.scheduledAt > now)

/-- What a claim does to a row. -/
def claim (now : Time) (leaseFor : Duration) (row : JobRow) : JobRow :=
  { row with
    state := .running, attempt := row.attempt + 1, leasedUntil := some (now + leaseFor) }

/-- `FetchAvailable` claims up to `limit` due jobs, earliest due time first. -/
def Driver.fetchAvailable (d : Driver) (now : Time) (queue : Bytes) (leaseFor : Duration)
    (limit : Int) : Driver × List JobRow :=
  let r := fetchLoop (claim now leaseFor) limit (d.selectRows byScheduledAt (due now queue)) []
    d.jobs
  ({ d with jobs := r.1 }, r.2)

/-- A row `FetchExpired` may re-claim. -/
def expired (now : Time) (row : JobRow) : Bool :=
  row.state == .running &&
    match row.leasedUntil with
    | none => false
    | some t => !(t > now)

/-- What a re-claim does to a row: a fresh lease, the attempt left alone. -/
def reclaim (now : Time) (leaseFor : Duration) (row : JobRow) : JobRow :=
  { row with leasedUntil := some (now + leaseFor) }

/-- `FetchExpired` re-claims up to `limit` running jobs whose lease has passed,
oldest lease first. -/
def Driver.fetchExpired (d : Driver) (now : Time) (leaseFor : Duration) (limit : Int) :
    Driver × List JobRow :=
  let r := fetchLoop (reclaim now leaseFor) limit (d.selectRows byLeasedUntil (expired now)) []
    d.jobs
  ({ d with jobs := r.1 }, r.2)

/-- One turn of the loop of `ExtendLeases`. -/
def extendOne (until_ : Time) (jobs : Table JobRow.id) (held : Lease) : Table JobRow.id :=
  match jobs.get? held.id with
  | none => jobs
  | some row =>
      if row.state ≠ .running ∨ row.attempt ≠ held.attempt then jobs
      else jobs.put { row with leasedUntil := some until_ }

/-- `ExtendLeases` pushes each held lease out by another `leaseFor`. -/
def Driver.extendLeases (d : Driver) (now : Time) (leases : List Lease) (leaseFor : Duration) :
    Driver :=
  { d with jobs := leases.foldl (extendOne (now + leaseFor)) d.jobs }

/-! ## Mark transitions -/

/-- `appendError`.  A nil detail appends nothing; the row is written only when
both the stored array and the detail could be read. -/
def appendError (row : JobRow) : Option Bytes → JobRow × Option DriverError
  | none => (row, none)
  | some errDetail =>
      match Json.unmarshalList row.errors with
      | none => (row, some (.decodeErrors row.id))
      | some list =>
          match Json.scan errDetail with
          | none => (row, some (.encodeErrors row.id))
          | some detail => ({ row with errors := Json.marshalList (list ++ [detail]) }, none)

/-- `transition` applies `apply` to the job the lease holds, clearing that lease.
`apply` mutates the stored row in place, so what it did before it failed stays. -/
def Driver.transition (d : Driver) (lease : Lease)
    (apply : JobRow → JobRow × Option DriverError) : Driver × Option DriverError :=
  match d.jobs.get? lease.id with
  | none => (d, some (.notFound lease.id))
  | some row =>
      if row.state ≠ .running then
        (d, some (.invalidTransition lease.id row.state .running))
      else if row.attempt ≠ lease.attempt then
        (d, some (.leaseLost lease.id row.attempt lease.attempt))
      else
        match apply row with
        | (row, some err) => ({ d with jobs := d.jobs.put row }, some err)
        | (row, none) => ({ d with jobs := d.jobs.put { row with leasedUntil := none } }, none)

/-- The closure `finalize` hands to `transition`. -/
def finalizeRow (state : JobState) (now : Time) (errDetail : Option Bytes) (row : JobRow) :
    JobRow × Option DriverError :=
  match appendError row errDetail with
  | (row, some err) => (row, some err)
  | (row, none) => ({ row with state := state, finalizedAt := some now }, none)

/-- `finalize`. -/
def Driver.finalize (d : Driver) (now : Time) (lease : Lease) (state : JobState)
    (errDetail : Option Bytes) : Driver × Option DriverError :=
  d.transition lease (finalizeRow state now errDetail)

/-- `MarkCompleted` finalizes a running job as completed. -/
def Driver.markCompleted (d : Driver) (now : Time) (lease : Lease) :
    Driver × Option DriverError :=
  d.finalize now lease .completed none

/-- `MarkDead` finalizes a running job as dead. -/
def Driver.markDead (d : Driver) (now : Time) (lease : Lease) (errDetail : Option Bytes) :
    Driver × Option DriverError :=
  d.finalize now lease .dead errDetail

/-- `MarkCancelled` finalizes a running job as cancelled. -/
def Driver.markCancelled (d : Driver) (now : Time) (lease : Lease) (errDetail : Option Bytes) :
    Driver × Option DriverError :=
  d.finalize now lease .cancelled errDetail

/-- The closure `MarkRetryable` hands to `transition`. -/
def retryRow (retryAt : Time) (errDetail : Option Bytes) (row : JobRow) :
    JobRow × Option DriverError :=
  match appendError row errDetail with
  | (row, some err) => (row, some err)
  | (row, none) => ({ row with state := .retryable, scheduledAt := retryAt }, none)

/-- `MarkRetryable` returns a running job to the queue at `retryAt`. -/
def Driver.markRetryable (d : Driver) (lease : Lease) (retryAt : Time)
    (errDetail : Option Bytes) : Driver × Option DriverError :=
  d.transition lease (retryRow retryAt errDetail)

/-- The closure `MarkSnoozed` hands to `transition`. -/
def snoozeRow (runAt : Time) (row : JobRow) : JobRow × Option DriverError :=
  ({ row with state := .scheduled, scheduledAt := runAt, attempt := max (row.attempt - 1) 0 },
    none)

/-- `MarkSnoozed` defers a running job to `runAt`, giving back the attempt. -/
def Driver.markSnoozed (d : Driver) (lease : Lease) (runAt : Time) :
    Driver × Option DriverError :=
  d.transition lease (snoozeRow runAt)

/-! ## Operator actions -/

/-- `afterOperatorMiss` re-reads after a refused operator mutate.  `retry` is
present when `allowRetry` is set. -/
def Driver.afterOperatorMiss (d : Driver) (id : Int) (observed : JobState) (want : Want)
    (eligible : JobState → Bool) (retry : Option (Driver → Driver × Except DriverError JobRow)) :
    Driver × Except DriverError JobRow :=
  match retry with
  | none => (d, .error (.invalidTransition id observed want))
  | some retry =>
      match d.jobs.get? id with
      | none => (d, .error (.notFound id))
      | some row =>
          if eligible row.state then retry d
          else (d, .error (.invalidTransition id row.state want))

/-- The locked section of an operator action: write an eligible row, else hand
the observed state to the miss handler. -/
def Driver.operatorUpdate (d : Driver) (id : Int) (eligible : JobState → Bool)
    (write : JobRow → JobRow) (miss : JobState → Driver × Except DriverError JobRow) :
    Driver × Except DriverError JobRow :=
  match d.jobs.get? id with
  | none => (d, .error (.notFound id))
  | some row =>
      if eligible row.state then ({ d with jobs := d.jobs.put (write row) }, .ok (write row))
      else miss row.state

/-- An operator action with its one retry. -/
def Driver.operatorAction (d : Driver) (id : Int) (want : Want) (eligible : JobState → Bool)
    (write : JobRow → JobRow) : Driver × Except DriverError JobRow :=
  d.operatorUpdate id eligible write fun observed =>
    d.afterOperatorMiss id observed want eligible <| some fun d =>
      d.operatorUpdate id eligible write fun observed =>
        d.afterOperatorMiss id observed want eligible none

/-- `cancellable`: what an operator may cancel. -/
def cancellable : JobState → Bool
  | .available | .scheduled | .retryable | .dead => true
  | _ => false

/-- What `OperatorCancel` writes. -/
def cancelRow (now : Time) (row : JobRow) : JobRow :=
  { row with state := .cancelled, finalizedAt := some now, leasedUntil := none }

/-- `OperatorCancel` moves a waiting or dead job to cancelled. -/
def Driver.operatorCancel (d : Driver) (now : Time) (id : Int) :
    Driver × Except DriverError JobRow :=
  d.operatorAction id .cancellable cancellable (cancelRow now)

/-- What `RedriveDead` writes. -/
def redriveRow (now : Time) (row : JobRow) : JobRow :=
  { row with
    state := .available, attempt := 0, leasedUntil := none, finalizedAt := none,
    scheduledAt := now }

/-- `RedriveDead` returns a dead job to available with the attempt reset. -/
def Driver.redriveDead (d : Driver) (now : Time) (id : Int) :
    Driver × Except DriverError JobRow :=
  d.operatorAction id .dead (· == .dead) (redriveRow now)

/-! ## Reads -/

/-- `GetJob` returns the stored row for `id`. -/
def Driver.getJob (d : Driver) (id : Int) : Except DriverError JobRow :=
  match d.jobs.get? id with
  | none => .error (.notFound id)
  | some row => .ok row

/-- The filters of `ListJobs`. -/
def listed (p : ListJobsParams) (row : JobRow) : Bool :=
  (p.queue == [] || row.queue == p.queue) && (p.state == [] || row.state.text == p.state)

/-- `ListJobs`: newest id first, capped at the limit. -/
def Driver.listJobs (d : Driver) (p : ListJobsParams) : Except DriverError (List JobRow) :=
  if p.limit ≤ 0 then .error (.listLimit p.limit)
  else
    .ok (((d.jobs.rows.filter (listed p)).insertionSort fun a b => b.id ≤ a.id).take p.limit.toNat)

/-- `counted`: the states worth reporting a depth for. -/
def counted : JobState → Bool
  | .available | .scheduled | .retryable | .running | .dead => true
  | _ => false

/-- The `counts` map of `Stats`. -/
abbrev Counts := Table fun depth : QueueDepth => (depth.queue, depth.state)

/-- `counts[depth{queue, state}]++`. -/
def bump (counts : Counts) (queue : Bytes) (state : JobState) : Counts :=
  counts.put ⟨queue, state, (counts.get? (queue, state)).elim 0 QueueDepth.count + 1⟩

/-- The `oldest` map of `Stats`. -/
abbrev Oldest := Table fun entry : Bytes × Time => entry.1

/-- Keep the earliest due time of a queue. -/
def noteDue (oldest : Oldest) (queue : Bytes) (scheduledAt : Time) : Oldest :=
  match oldest.get? queue with
  | none => oldest.put (queue, scheduledAt)
  | some (_, since) =>
      if scheduledAt < since then oldest.put (queue, scheduledAt) else oldest

/-- One turn of the walk `Stats` makes over the map. -/
def statsRow (now : Time) (acc : Counts × Oldest) (row : JobRow) : Counts × Oldest :=
  (if counted row.state then bump acc.1 row.queue row.state else acc.1,
    if !waiting row.state || row.scheduledAt > now then acc.2
    else noteDue acc.2 row.queue row.scheduledAt)

/-- `cmp.Compare` on strings: bytewise. -/
def compareText (a b : Bytes) : Ordering := List.compareLex compare a b

/-- By queue, then by state. -/
def depthLE (a b : QueueDepth) : Prop :=
  (compareText a.queue b.queue).then (compareText a.state.text b.state.text) ≠ .gt

instance : DecidableRel depthLE := fun _ _ => inferInstanceAs (Decidable (_ ≠ _))

/-- By queue. -/
def ageLE (a b : QueueAge) : Prop := compareText a.queue b.queue ≠ .gt

instance : DecidableRel ageLE := fun _ _ => inferInstanceAs (Decidable (_ ≠ _))

/-- `Stats` reports the depth of every queue by state and the age of the oldest
job each queue could hand a worker. -/
def Driver.stats (d : Driver) (now : Time) : Stats :=
  let acc := d.jobs.rows.foldl (statsRow now) (Table.empty, Table.empty)
  { depths := acc.1.rows.insertionSort depthLE
    oldest := (acc.2.rows.map fun entry => ⟨entry.1, now.sub entry.2⟩).insertionSort ageLE }

end Drover.Memdriver
