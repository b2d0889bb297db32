import Drover.Foundation.Bytes
import Drover.Go.Time

set_option autoImplicit false

/-!
# The storage contract (`internal/driver/driver.go`)

Rows, leases, parameters and errors that every driver shares.

Ids and attempts are `int64` and `int` in the source; both only ever
count up one at a time from zero here, so they are unbounded integers.
-/

namespace Drover.Driver

open Drover.Foundation
open Drover.Go (Time Duration)

/-- The states of a job, `drover_job_state`. -/
inductive JobState where
  | available
  | scheduled
  | running
  | retryable
  | completed
  | cancelled
  | dead
  deriving DecidableEq, Repr, Inhabited

/-- The name a state is stored and reported under. -/
def JobState.text : JobState → Bytes
  | .available => Bytes.ofChars ['a', 'v', 'a', 'i', 'l', 'a', 'b', 'l', 'e']
  | .scheduled => Bytes.ofChars ['s', 'c', 'h', 'e', 'd', 'u', 'l', 'e', 'd']
  | .running => Bytes.ofChars ['r', 'u', 'n', 'n', 'i', 'n', 'g']
  | .retryable => Bytes.ofChars ['r', 'e', 't', 'r', 'y', 'a', 'b', 'l', 'e']
  | .completed => Bytes.ofChars ['c', 'o', 'm', 'p', 'l', 'e', 't', 'e', 'd']
  | .cancelled => Bytes.ofChars ['c', 'a', 'n', 'c', 'e', 'l', 'l', 'e', 'd']
  | .dead => Bytes.ofChars ['d', 'e', 'a', 'd']

/-- `Lease` identifies one claim on a job: the row, and the attempt the holder is
executing. -/
structure Lease where
  id : Int
  attempt : Int
  deriving DecidableEq, Repr, Inhabited

/-- `InsertParams` carries everything needed to persist a new job. -/
structure InsertParams where
  kind : Bytes
  queue : Bytes
  args : Bytes
  scheduledAt : Time
  uniqueKey : Bytes
  deriving DecidableEq, Repr, Inhabited

/-- `JobRow` is the stored representation of a job. -/
structure JobRow where
  id : Int
  kind : Bytes
  queue : Bytes
  args : Bytes
  state : JobState
  attempt : Int
  maxAttempts : Int
  errors : Bytes
  scheduledAt : Time
  leasedUntil : Option Time
  createdAt : Time
  finalizedAt : Option Time
  uniqueKey : Bytes
  deriving DecidableEq, Repr, Inhabited

/-- The lease a claimed row hands its holder. -/
def JobRow.lease (row : JobRow) : Lease := ⟨row.id, row.attempt⟩

/-- `QueueDepth` is the number of jobs sitting in one state on one queue. -/
structure QueueDepth where
  queue : Bytes
  state : JobState
  count : Int
  deriving DecidableEq, Repr

/-- `QueueAge` is how long the oldest claimable job of a queue has been waiting, as a
duration.  What a driver reports is a `float64` of seconds: `Pgdriver.seconds` and
`Pgdriver.epoch` are the two conversions. -/
structure QueueAge where
  queue : Bytes
  age : Duration
  deriving DecidableEq, Repr

/-- `Stats` is one reading of what the queues hold. -/
structure Stats where
  depths : List QueueDepth
  oldest : List QueueAge
  deriving DecidableEq, Repr

/-- `ListJobsParams` filters and bounds a `ListJobs` read. -/
structure ListJobsParams where
  queue : Bytes
  state : Bytes
  limit : Int
  deriving DecidableEq, Repr

/-- What a refused transition wanted, as the error text names it. -/
inductive Want where
  | running
  | cancellable
  | dead
  deriving DecidableEq, Repr

/-- The errors a driver reports, with the data their texts carry. -/
inductive DriverError where
  /-- `ErrDuplicateJob` -/
  | duplicateJob
  /-- `job %d: ErrNotFound` -/
  | notFound (id : Int)
  /-- `job %d is %s, want %s: ErrInvalidTransition` -/
  | invalidTransition (id : Int) (observed : JobState) (want : Want)
  /-- `job %d is on attempt %d, held attempt %d: ErrLeaseLost` -/
  | leaseLost (id on held : Int)
  /-- `decode errors array for job %d` -/
  | decodeErrors (id : Int)
  /-- `encode errors array for job %d` -/
  | encodeErrors (id : Int)
  /-- `list limit must be positive, got %d` -/
  | listLimit (limit : Int)
  deriving DecidableEq, Repr

/-- `errors.Is(err, ErrLeaseLost) || errors.Is(err, ErrInvalidTransition)`. -/
def DriverError.isStale : DriverError → Bool
  | .leaseLost _ _ _ => true
  | .invalidTransition _ _ _ => true
  | _ => false

end Drover.Driver
