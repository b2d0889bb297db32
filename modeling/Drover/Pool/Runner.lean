import Drover.Memdriver.Step

set_option autoImplicit false

/-!
# One running pool (`pool.go`, `loop.go`, `inflight.go`, `heartbeat.go`)

The goroutines of a `runner` over a store: the fetch loop, the workers, the
heartbeat and the shutdown `Stop` runs.  Each has a program counter that names the
place it has reached in the source; one step of one of them is a channel operation,
a driver call or an update of the inflight set, and a run is any list of steps.  A
`select` with several ready cases may take any of them, so the label of a step says
which one it took, and what the outside world did: the clock, the answer of the
driver, the order `weightedOrder` drew, what a handler returned.

The store is the in-memory one, and other callers may do anything to it between two
steps.  A driver call that fails is one that does not land.  `FetchAvailable` is
called with the capacity that remains; the label carries the limit the driver heeds,
so a driver that hands back more than it was asked for is covered.

Rows are handed around by pointer.  A `Claim` is such a pointer together with the row
it points to, numbered in the order `FetchAvailable` returned them.
-/

namespace Drover.Pool

open Drover.Foundation
open Drover.Driver
open Drover.Go (Time Duration)
open Drover.Memdriver (Mark Op)

/-! ## The inflight set -/

/-- `inflightSet`: the attempt this client executes each job under. -/
abbrev Inflight := Table Lease.id

/-- `add`. -/
def Inflight.add (s : Inflight) (lease : Lease) : Inflight := s.put lease

/-- `remove`, guarded by the attempt. -/
def Inflight.remove (s : Inflight) (lease : Lease) : Inflight :=
  match s.get? lease.id with
  | some held => if held.attempt = lease.attempt then s.erase lease.id else s
  | none => s

/-- `snapshot`: the held leases in ascending id order. -/
def Inflight.snapshot (s : Inflight) : List Lease :=
  s.rows.insertionSort fun a b => a.id ≤ b.id

/-! ## Goroutines -/

/-- A row `FetchAvailable` returned. -/
structure Claim where
  ref : Nat
  row : JobRow
  deriving DecidableEq, Repr

/-- The lease a claim is held under. -/
def Claim.lease (c : Claim) : Lease := c.row.lease

/-- The variables of `claimRound`, with the tokens the round was given. -/
structure Round where
  n : Nat
  remaining : Nat
  queues : List Bytes
  claimed : List Claim
  deriving DecidableEq, Repr

/-- `claimed = append(claimed, rows...); remaining -= len(rows)`. -/
def Round.keep (r : Round) (rows : List Claim) : Round :=
  { r with claimed := r.claimed ++ rows, remaining := r.remaining - rows.length }

/-- Where the fetch loop is. -/
inductive Fetch where
  /-- `acquireSlots`, waiting for one idle worker -/
  | acquire
  /-- `acquireSlots`, holding `n` tokens -/
  | acquireMore (n : Nat)
  /-- `claimRound`, about to visit the next queue -/
  | ask (r : Round)
  /-- `claimRound`, adding the returned rows to the inflight set -/
  | track (r : Round) (added todo : List Claim)
  /-- `claimRound`, requeueing the surplus -/
  | handBack (r : Round) (kept back todo : List Claim)
  /-- `claimRound`, removing the surplus from the inflight set -/
  | untrack (r : Round) (kept todo : List Claim)
  /-- `claimRound`, at the end of a visit -/
  | visited (r : Round)
  /-- `claimRound` has returned `rows` -/
  | claimed (n : Nat) (rows : List Claim)
  /-- `releaseSlots`, with `k` tokens to send; then dispatch the rows, or return -/
  | release (k : Nat) (rows : Option (List Claim))
  /-- the select of `sleep` -/
  | sleep
  /-- the end of `sleep` -/
  | woken
  /-- the head of the dispatch loop -/
  | dispatch (rows : List Claim)
  /-- the select of the dispatch loop -/
  | offer (c : Claim) (rows : List Claim)
  /-- `abandon`, requeueing -/
  | abandon (back todo : List Claim)
  /-- `abandon`, removing from the inflight set; `n` rows in all -/
  | forget (n : Nat) (todo : List Claim)
  /-- the deferred `close(r.jobs)` -/
  | close
  | exited
  deriving DecidableEq, Repr

/-- What became of an execution. -/
inductive Fate where
  | succeeded
  | snoozed (d : Duration)
  | cancelled (detail : Bytes)
  | failed (retryAt : Time) (detail : Bytes)
  deriving DecidableEq, Repr

/-- The write that ends the attempt: `MarkCompleted` of `runJob`, or the choice of
`dispose`.  The detail is the encoded `AttemptError`. -/
def Fate.mark (row : JobRow) (now : Time) : Fate → Mark
  | .succeeded => .completed now
  | .snoozed d => .snoozed (now + d)
  | .cancelled detail => .cancelled now (some detail)
  | .failed retryAt detail =>
      if row.attempt ≥ row.maxAttempts then .dead now (some detail)
      else .retryable retryAt (some detail)

/-- Where a worker is. -/
inductive Worker where
  /-- waiting for a row -/
  | idle
  /-- `runJob`, about to add the lease to the inflight set -/
  | received (c : Claim)
  /-- the handler is executing -/
  | handling (c : Claim)
  /-- the handler has returned -/
  | finalizing (c : Claim) (fate : Fate)
  /-- the deferred `remove` of `runJob` -/
  | finished (c : Claim)
  /-- about to return its slot -/
  | returning
  | exited
  deriving DecidableEq, Repr

/-- Where the heartbeat is. -/
inductive Heart where
  | waiting
  /-- `extendLeases`, holding a snapshot -/
  | extending (leases : List Lease)
  | exited
  deriving DecidableEq, Repr

/-- The errors `Stop` joins. -/
inductive StopError where
  /-- `%w: %d job(s) still running, returned to the queue: ErrDrainIncomplete` -/
  | drainIncomplete (jobs : Nat)
  /-- the ops server did not shut down -/
  | ops
  deriving DecidableEq, Repr

/-- Where the shutdown is.  An error is a list of what was joined; none is nil. -/
inductive Drain where
  /-- nobody has called `Stop` -/
  | none
  /-- `cancelBackground` has run -/
  | stopping
  /-- waiting for the goroutines or the budget -/
  | waiting
  /-- `escalate`, before the snapshot -/
  | escalating
  /-- `escalate`, about to cancel the handlers' context -/
  | cancelling (stranded : List Lease)
  /-- `escalate`, requeueing; `jobs` were stranded -/
  | requeueing (jobs : Nat) (todo : List Lease)
  /-- about to close `stopHeartbeat` -/
  | closing (err : List StopError)
  /-- `background.Wait()` -/
  | joining (err : List StopError)
  /-- shutting the ops server down -/
  | shutting (err : List StopError)
  /-- `Stop` has returned -/
  | returned (err : List StopError)
  deriving DecidableEq, Repr

/-- The settings a pool runs with. -/
structure Config where
  concurrency : Nat
  queues : List Bytes
  leaseDuration : Duration
  opsServer : Bool
  deriving DecidableEq, Repr

/-- One worker on one queue. -/
def single : Config := ⟨1, [[]], 10, false⟩

/-- A pool and its store.  `claims`, `latest` and `ended` are history: no step reads
them. -/
structure State where
  db : Memdriver.Driver
  inflight : Inflight
  /-- tokens in the slots channel -/
  slots : Nat
  /-- the wake channel holds a token -/
  wake : Bool
  /-- `stopFetch` is closed -/
  stopFetch : Bool
  /-- `stopHeartbeat` is closed -/
  stopHeartbeat : Bool
  /-- `jobCtx` is cancelled -/
  jobsCancelled : Bool
  fetch : Fetch
  workers : List Worker
  heart : Heart
  drain : Drain
  /-- every claim returned to this client -/
  claims : List Claim
  /-- this client's claim of a job, when it is the job's most recent one -/
  latest : Int → Option Nat
  /-- the claims whose outcome write or hand-back has been issued -/
  ended : List Nat

/-- A pool as `start` leaves it, over a store. -/
def Config.start (cfg : Config) (db : Memdriver.Driver) : State :=
  { db := db
    inflight := Table.empty
    slots := cfg.concurrency
    wake := false
    stopFetch := false
    stopHeartbeat := false
    jobsCancelled := false
    fetch := .acquire
    workers := List.replicate cfg.concurrency .idle
    heart := .waiting
    drain := .none
    claims := []
    latest := fun _ => none
    ended := [] }

/-! ## Steps -/

/-- How the fetch loop takes a step. -/
inductive FetchStep where
  /-- the only way on, or the case of a select that is not about stopping -/
  | go
  /-- the `stopFetch` case of a select -/
  | stop
  /-- `weightedOrder` has drawn an order -/
  | order (queues : List Bytes)
  /-- `FetchAvailable` returns rows; the driver keeps to `limit` -/
  | rows (now : Time) (limit : Int)
  /-- `FetchAvailable` fails -/
  | fail
  /-- the poll interval has passed -/
  | timeout
  /-- `MarkRetryable` of a requeue -/
  | requeue (now : Time) (detail : Bytes) (lands : Bool)
  deriving DecidableEq, Repr

/-- How a worker takes a step. -/
inductive WorkerStep where
  | go
  /-- the handler returns -/
  | result (fate : Fate)
  /-- the write that ends the attempt -/
  | write (now : Time) (lands : Bool)
  deriving DecidableEq, Repr

/-- How the heartbeat takes a step. -/
inductive HeartStep where
  | tick
  /-- `ExtendLeases` -/
  | extend (now : Time) (lands : Bool)
  /-- the `stop` case of the select -/
  | stop
  deriving DecidableEq, Repr

/-- How the shutdown takes a step. -/
inductive DrainStep where
  | go
  /-- the budget has run out -/
  | expire
  /-- `MarkRetryable` of a requeue -/
  | requeue (now : Time) (detail : Bytes) (lands : Bool)
  /-- the ops server does not shut down -/
  | fail
  deriving DecidableEq, Repr

/-- One step of the pool or of its surroundings. -/
inductive Label where
  /-- another caller of the driver, this client's rescuer and inserts among them -/
  | outside (op : Op)
  /-- an insert or a notification nudges the wake channel -/
  | nudge
  | fetch (how : FetchStep)
  /-- the fetch loop sends the row it offers to worker `w` -/
  | handOff (w : Nat)
  | worker (w : Nat) (how : WorkerStep)
  | heart (how : HeartStep)
  | drain (how : DrainStep)
  deriving DecidableEq, Repr

/-- The rows a `FetchAvailable` by somebody else returns. -/
def claimedElsewhere (db : Memdriver.Driver) : Op → List JobRow
  | .fetchAvailable now queue leaseFor limit => (db.fetchAvailable now queue leaseFor limit).2
  | _ => []

/-- The rows of an answer as claims, numbered from `first` on. -/
def numbered (first : Nat) : List JobRow → List Claim
  | [] => []
  | row :: rows => ⟨first, row⟩ :: numbered (first + 1) rows

/-- The claims a `FetchAvailable` of the fetch loop would return. -/
def State.answer (cfg : Config) (s : State) (queue : Bytes) (now : Time) (limit : Int) :
    List Claim :=
  numbered s.claims.length (s.db.fetchAvailable now queue cfg.leaseDuration limit).2

/-- The store after a `Mark` call that may not land. -/
def State.mark (s : State) (lease : Lease) (m : Mark) (lands : Bool) : Memdriver.Driver :=
  if lands then (s.db.mark lease m).1 else s.db

/-- The store after `requeue`: claimable again at once, the attempt spent. -/
def State.requeue (s : State) (lease : Lease) (now : Time) (detail : Bytes) (lands : Bool) :
    Memdriver.Driver :=
  s.mark lease (.retryable now (some detail)) lands

/-- A step of `fetch`, `claimRound`, `acquireSlots`, `releaseSlots`, `sleep` or
`abandon`. -/
def fetchStep (cfg : Config) (s : State) (how : FetchStep) : Option State :=
  match s.fetch, how with
  | .acquire, .go =>
      if 0 < s.slots then some { s with slots := s.slots - 1, fetch := .acquireMore 1 } else none
  | .acquire, .stop => if s.stopFetch then some { s with fetch := .close } else none
  | .acquireMore n, .go =>
      if n < cfg.concurrency ∧ 0 < s.slots then
        some { s with slots := s.slots - 1, fetch := .acquireMore (n + 1) }
      else none
  | .acquireMore n, .order queues =>
      if (cfg.concurrency ≤ n ∨ s.slots = 0) ∧ queues.Perm cfg.queues then
        some { s with fetch := .ask ⟨n, n, queues, []⟩ }
      else none
  | .ask ⟨n, remaining, queue :: queues, claimed⟩, .rows now limit =>
      let rows := s.answer cfg queue now limit
      some { s with
        db := (s.db.fetchAvailable now queue cfg.leaseDuration limit).1
        fetch := .track ⟨n, remaining, queues, claimed⟩ [] rows
        claims := s.claims ++ rows
        latest := fun id =>
          match rows.find? fun c => c.row.id = id with
          | some c => some c.ref
          | none => s.latest id }
  | .ask ⟨n, _, _ :: _, claimed⟩, .fail => some { s with fetch := .claimed n claimed }
  | .ask ⟨n, _, [], claimed⟩, .go => some { s with fetch := .claimed n claimed }
  | .track r added (c :: todo), .go =>
      some { s with
        inflight := s.inflight.add c.lease
        fetch := .track r (added ++ [c]) todo }
  | .track r added [], .go =>
      if r.remaining < added.length then
        some { s with fetch := .handBack r (added.take r.remaining) [] (added.drop r.remaining) }
      else some { s with fetch := .visited (r.keep added) }
  | .handBack r kept back (c :: todo), .requeue now detail lands =>
      some { s with
        db := s.requeue c.lease now detail lands
        fetch := .handBack r kept (back ++ [c]) todo
        ended := c.ref :: s.ended }
  | .handBack r kept back [], .go => some { s with fetch := .untrack r kept back }
  | .untrack r kept (c :: todo), .go =>
      some { s with inflight := s.inflight.remove c.lease, fetch := .untrack r kept todo }
  | .untrack r kept [], .go => some { s with fetch := .visited (r.keep kept) }
  | .visited r, .go =>
      if r.remaining = 0 ∨ s.stopFetch then some { s with fetch := .claimed r.n r.claimed }
      else some { s with fetch := .ask r }
  | .claimed n rows, .go =>
      if rows = [] ∧ s.stopFetch then some { s with fetch := .release n none }
      else some { s with fetch := .release (n - rows.length) (some rows) }
  | .release (k + 1) rows, .go =>
      if s.slots < cfg.concurrency then
        some { s with slots := s.slots + 1, fetch := .release k rows }
      else none
  | .release 0 none, .go => some { s with fetch := .close }
  | .release 0 (some []), .go => some { s with fetch := .sleep }
  | .release 0 (some (c :: rows)), .go => some { s with fetch := .dispatch (c :: rows) }
  | .sleep, .stop => if s.stopFetch then some { s with fetch := .close } else none
  | .sleep, .go => if s.wake then some { s with wake := false, fetch := .woken } else none
  | .sleep, .timeout => some { s with fetch := .woken }
  | .woken, .go => some { s with fetch := if s.stopFetch then .close else .acquire }
  | .dispatch [], .go => some { s with fetch := .acquire }
  | .dispatch (c :: rows), .go =>
      some { s with inflight := s.inflight.add c.lease, fetch := .offer c rows }
  | .offer c rows, .stop =>
      if s.stopFetch then some { s with fetch := .abandon [] (c :: rows) } else none
  | .abandon back (c :: todo), .requeue now detail lands =>
      some { s with
        db := s.requeue c.lease now detail lands
        fetch := .abandon (back ++ [c]) todo
        ended := c.ref :: s.ended }
  | .abandon back [], .go => some { s with fetch := .forget back.length back }
  | .forget n (c :: todo), .go =>
      some { s with inflight := s.inflight.remove c.lease, fetch := .forget n todo }
  | .forget n [], .go => some { s with fetch := .release n none }
  | .close, .go => some { s with fetch := .exited }
  | _, _ => none

/-- A step of `work` and `runJob`. -/
def workerStep (cfg : Config) (s : State) (w : Nat) (how : WorkerStep) : Option State :=
  match s.workers[w]?, how with
  | some .idle, .go =>
      if s.fetch = .exited then some { s with workers := s.workers.set w .exited } else none
  | some (.received c), .go =>
      some { s with
        inflight := s.inflight.add c.lease
        workers := s.workers.set w (.handling c) }
  | some (.handling c), .result fate =>
      some { s with workers := s.workers.set w (.finalizing c fate) }
  | some (.finalizing c fate), .write now lands =>
      some { s with
        db := s.mark c.lease (fate.mark c.row now) lands
        workers := s.workers.set w (.finished c)
        ended := c.ref :: s.ended }
  | some (.finished c), .go =>
      some { s with
        inflight := s.inflight.remove c.lease
        workers := s.workers.set w .returning }
  | some .returning, .go =>
      if s.slots < cfg.concurrency then
        some { s with slots := s.slots + 1, workers := s.workers.set w .idle }
      else none
  | _, _ => none

/-- The unbuffered send of the dispatch loop, received by worker `w`. -/
def handOff (s : State) (w : Nat) : Option State :=
  match s.fetch, s.workers[w]? with
  | .offer c rows, some .idle =>
      some { s with fetch := .dispatch rows, workers := s.workers.set w (.received c) }
  | _, _ => none

/-- A step of `heartbeat` and `extendLeases`. -/
def heartStep (cfg : Config) (s : State) (how : HeartStep) : Option State :=
  match s.heart, how with
  | .waiting, .tick =>
      if s.inflight.snapshot = [] then some s
      else some { s with heart := .extending s.inflight.snapshot }
  | .extending leases, .extend now lands =>
      some { s with
        db := if lands then s.db.extendLeases now leases cfg.leaseDuration else s.db
        heart := .waiting }
  | .waiting, .stop => if s.stopHeartbeat then some { s with heart := .exited } else none
  | _, _ => none

/-- A step of `drain` and `escalate`.  Of the goroutines that `background.Wait()` waits for, the
heartbeat is here; `Pool.Background` has the others, and holds the step past the wait back
until they have returned. -/
def drainStep (cfg : Config) (s : State) (how : DrainStep) : Option State :=
  match s.drain, how with
  | .none, .go => some { s with drain := .stopping }
  | .stopping, .go => some { s with stopFetch := true, drain := .waiting }
  | .waiting, .go =>
      if s.fetch = .exited ∧ ∀ worker ∈ s.workers, worker = .exited then
        some { s with drain := .closing [] }
      else none
  | .waiting, .expire => some { s with drain := .escalating }
  | .escalating, .go =>
      if s.inflight.snapshot = [] then some { s with drain := .closing [] }
      else some { s with drain := .cancelling s.inflight.snapshot }
  | .cancelling stranded, .go =>
      some { s with jobsCancelled := true, drain := .requeueing stranded.length stranded }
  | .requeueing jobs (lease :: todo), .requeue now detail lands =>
      some { s with
        db := s.requeue lease now detail lands
        drain := .requeueing jobs todo
        ended := ((s.claims.filter fun c => c.lease = lease).map Claim.ref) ++ s.ended }
  | .requeueing jobs [], .go => some { s with drain := .closing [.drainIncomplete jobs] }
  | .closing err, .go => some { s with stopHeartbeat := true, drain := .joining err }
  | .joining err, .go =>
      if s.heart = .exited then some { s with drain := .shutting err } else none
  | .shutting err, .go => some { s with jobsCancelled := true, drain := .returned err }
  | .shutting err, .fail =>
      if cfg.opsServer then
        some { s with jobsCancelled := true, drain := .returned (err ++ [.ops]) }
      else none
  | _, _ => none

/-- One step; `none` when it cannot be taken. -/
def step (cfg : Config) (s : State) : Label → Option State
  | .outside op =>
      some { s with
        db := Memdriver.next s.db op
        latest := fun id =>
          if (claimedElsewhere s.db op).any fun row => row.id = id then none else s.latest id }
  | .nudge => some { s with wake := true }
  | .fetch how => fetchStep cfg s how
  | .handOff w => handOff s w
  | .worker w how => workerStep cfg s w how
  | .heart how => heartStep cfg s how
  | .drain how => drainStep cfg s how

/-- The state after a step; a step that cannot be taken does nothing. -/
def next (cfg : Config) (s : State) (label : Label) : State := (step cfg s label).getD s

end Drover.Pool
