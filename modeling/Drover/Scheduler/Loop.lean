import Mathlib.Logic.Function.Basic
import Drover.Cron.Every
import Drover.Memdriver.Step

set_option autoImplicit false

/-!
# The periodic scheduler (`scheduler.go`, `periodic.go`, `pgdriver.go`)

The `schedulePeriodic` loops of any number of clients over one store and one advisory
lock.  A client has a program counter, the watermarks of its entries and the connection
whose session it took the lock in; a step is a call of the driver, a reading of the clock
or one turn of the enqueue loop.  The clock is common to all, sessions die when they like,
and other callers may do anything to the store between two steps.

A session is known by its number; `acquired` has the instant at which each of them got
the lock.  That and the log of inserted ticks are history: no step reads them.
-/

namespace Drover.Scheduler

open Drover.Foundation
open Drover.Driver
open Drover.Foundation.Bytes (ascii ofChars)
open Drover.Go (Time Location)
open Drover.Cron (Schedule)
open Drover.Memdriver (Op)

/-! ## Entries -/

/-- Arguments of a job: their kind and `json.Marshal` of them, if it succeeds. -/
structure JobArgs where
  kind : Bytes
  encoded : Option Bytes

/-- `PeriodicJob`; of its options only the queue is used, empty when unset. -/
structure PeriodicJob where
  id : Bytes
  cron : Bytes
  args : Option JobArgs
  queue : Bytes
  location : Option Location

/-- `periodicEntry`. -/
structure Entry where
  job : PeriodicJob
  args : JobArgs
  schedule : Schedule

/-- What `checkedPeriodicJobs` panics with: the index, and what is wrong there. -/
inductive Refusal where
  | emptyID (i : Nat)
  | duplicateID (i : Nat) (id : Bytes) (prev : Nat)
  | nilArgs (i : Nat) (id : Bytes)
  | emptyKind (i : Nat) (id : Bytes)
  | invalidCron (i : Nat) (id cron : Bytes) (err : Cron.Stop)

/-- The loop of `checkedPeriodicJobs`: the jobs from index `i` on, with the ids seen. -/
def checkJobs : Nat → List (Bytes × Nat) → List PeriodicJob → Except Refusal (List Entry)
  | _, _, [] => .ok []
  | i, seen, job :: jobs =>
      if job.id = [] then .error (.emptyID i)
      else
        match seen.lookup job.id with
        | some prev => .error (.duplicateID i job.id prev)
        | none =>
            match job.args with
            | none => .error (.nilArgs i job.id)
            | some args =>
                if args.kind = [] then .error (.emptyKind i job.id)
                else
                  match Cron.parseIn job.cron job.location with
                  | .error err => .error (.invalidCron i job.id job.cron err)
                  | .ok schedule =>
                      (checkJobs (i + 1) ((job.id, i) :: seen) jobs).map
                        (⟨job, args, schedule⟩ :: ·)

/-- `checkedPeriodicJobs`. -/
def checkedPeriodicJobs (jobs : List PeriodicJob) : Except Refusal (List Entry) := checkJobs 0 [] jobs

/-- What the clients are configured with.  A driver that is no `leaderLocker` leaves every
client a leader. -/
structure Config where
  jobs : List PeriodicJob
  periodic : List Entry
  checked : checkedPeriodicJobs jobs = .ok periodic
  hasLocker : Bool

/-- `periodicUniqueKey`. -/
def periodicUniqueKey (id : Bytes) (fire : Time) : Bytes :=
  id ++ [ascii '/'] ++ fire.formatRFC3339Nano

/-- The name of the default queue. -/
def defaultQueue : Bytes := ofChars "default".toList

/-- The parameters of a tick's insert, unless its arguments cannot be encoded. -/
def Entry.params (entry : Entry) (fire : Time) : Option InsertParams :=
  entry.args.encoded.map fun encoded =>
    { kind := entry.args.kind
      queue := if entry.job.queue = [] then defaultQueue else entry.job.queue
      args := encoded
      scheduledAt := fire
      uniqueKey := periodicUniqueKey entry.job.id fire }

/-! ## Clients -/

/-- Where the loop of a client is. -/
inductive Pc where
  /-- not started -/
  | idle
  /-- the head of the loop -/
  | top
  /-- `TryBecomeLeader`, without a connection -/
  | acquire
  /-- this client leads; before the watermarks are looked at -/
  | leader
  /-- before the clock is read for the pass -/
  | read
  /-- `enqueueDuePeriodic(now, lastFire)`, at entry `i` -/
  | pass (now : Time) (i : Nat)
  /-- `waitFetch` -/
  | waiting
  | exited
  deriving DecidableEq, Repr

/-- A client. -/
structure Client where
  pc : Pc
  wasLeader : Bool
  /-- the watermarks, one for each entry -/
  lastFire : List Time
  /-- the session of `leaderConn` -/
  leaderConn : Option Nat
  deriving DecidableEq, Repr

/-- An inserted tick, with the client that inserted it and the session it had. -/
structure Tick where
  id : Bytes
  fire : Time
  client : Nat
  session : Option Nat
  deriving DecidableEq, Repr

/-- The clients, the store, the lock and the clock. -/
structure State where
  db : Memdriver.Driver
  clock : Time
  /-- the session that holds the lock -/
  owner : Option Nat
  acquired : List Time
  clients : Nat → Client
  log : List Tick

/-- Clients not yet started, over a store. -/
def start (db : Memdriver.Driver) (clock : Time) : State :=
  { db := db
    clock := clock
    owner := none
    acquired := []
    clients := fun _ => ⟨.idle, false, [], none⟩
    log := [] }

/-! ## Steps -/

/-- How a client takes a step. -/
inductive ClientStep where
  | go
  /-- `leaderConn.Ping` -/
  | ping (ok : Bool)
  /-- `pg_try_advisory_lock` -/
  | lock (held : Bool)
  /-- the pool or the query fails -/
  | fail
  /-- `Insert`; `ok` is false when the store fails -/
  | insert (ok : Bool)
  /-- `fetchCtx` is cancelled, and `ReleaseLeader` runs -/
  | quit
  deriving DecidableEq, Repr

/-- One step of a client or of its surroundings. -/
inductive Label where
  | client (n : Nat) (how : ClientStep)
  /-- the clock moves on -/
  | tick (d : Nat)
  /-- the session that holds the lock dies -/
  | die
  /-- another caller of the store -/
  | outside (op : Op)
  deriving DecidableEq, Repr

/-- The entry a pass is at, with the instant its schedule gives. -/
def Config.due (cfg : Config) (c : Client) (i : Nat) : Option (Entry × Time) :=
  cfg.periodic[i]?.bind fun entry =>
    c.lastFire[i]?.map fun last => (entry, entry.schedule.next last)

/-- `insertPeriodicTick`: the store afterwards, whether a row was inserted, and whether the
watermark should advance. -/
def insertPeriodicTick (db : Memdriver.Driver) (clock : Time) (entry : Entry) (fire : Time)
    (ok : Bool) : Memdriver.Driver × Bool × Bool :=
  match entry.params fire, ok with
  | some params, true =>
      match db.insert clock params with
      | (db, .ok _) => (db, true, true)
      | (db, .error .duplicateJob) => (db, false, true)
      | (db, .error _) => (db, false, false)
  | _, _ => (db, false, false)

/-- The turn of a pass that inserts a due tick. -/
def insertStep (s : State) (n : Nat) (now : Time) (i : Nat) (entry : Entry) (fire : Time)
    (ok : Bool) : State :=
  let c := s.clients n
  let (db, inserted, advance) := insertPeriodicTick s.db s.clock entry fire ok
  let c := if advance then { c with lastFire := c.lastFire.set i fire }
    else { c with pc := .pass now (i + 1) }
  { s with
    db := db
    clients := Function.update s.clients n c
    log := if inserted then ⟨entry.job.id, fire, n, c.leaderConn⟩ :: s.log else s.log }

/-- A step of `schedulePeriodic`, `enqueueDuePeriodic` or `TryBecomeLeader`. -/
def clientStep (cfg : Config) (s : State) (n : Nat) (how : ClientStep) : Option State :=
  let c := s.clients n
  let set (s : State) (c : Client) := some { s with clients := Function.update s.clients n c }
  match c.pc, how with
  | .idle, .go => set s { c with pc := .top, lastFire := List.replicate cfg.periodic.length 0 }
  | .idle, _ => none
  | .exited, _ => none
  | _, .quit => set s { c with pc := .exited, leaderConn := none }
  | .top, .go =>
      if !cfg.hasLocker then set s { c with pc := .leader }
      else if c.leaderConn = none then set s { c with pc := .acquire }
      else none
  | .top, .ping true =>
      if cfg.hasLocker ∧ c.leaderConn ≠ none ∧ c.leaderConn = s.owner then
        set s { c with pc := .leader }
      else none
  | .top, .ping false =>
      if cfg.hasLocker ∧ c.leaderConn ≠ none then set s { c with pc := .acquire, leaderConn := none }
      else none
  | .acquire, .lock true =>
      if s.owner = none then
        set { s with owner := some s.acquired.length, acquired := s.acquired ++ [s.clock] }
          { c with pc := .leader, leaderConn := some s.acquired.length }
      else none
  | .acquire, .lock false =>
      if s.owner ≠ none then set s { c with pc := .waiting, wasLeader := false } else none
  | .acquire, .fail => set s { c with pc := .waiting, wasLeader := false }
  | .leader, .go =>
      if c.wasLeader then set s { c with pc := .read }
      else
        set s { c with
          pc := .read
          wasLeader := true
          lastFire := List.replicate c.lastFire.length s.clock }
  | .read, .go => set s { c with pc := .pass s.clock 0 }
  | .pass now i, .go =>
      match cfg.due c i with
      | none => set s { c with pc := .waiting }
      | some (_, fire) =>
          if fire = 0 ∨ now < fire then set s { c with pc := .pass now (i + 1) } else none
  | .pass now i, .insert ok =>
      match cfg.due c i with
      | none => none
      | some (entry, fire) =>
          if fire = 0 ∨ now < fire then none else some (insertStep s n now i entry fire ok)
  | .waiting, .go => set s { c with pc := .top }
  | _, _ => none

/-- One step; `none` when it cannot be taken. -/
def step (cfg : Config) (s : State) : Label → Option State
  | .client n how => clientStep cfg s n how
  | .tick d => some { s with clock := s.clock + d }
  | .die => some { s with owner := none }
  | .outside op => some { s with db := Memdriver.next s.db op }

/-- The state after a step; a step that cannot be taken does nothing. -/
def next (cfg : Config) (s : State) (label : Label) : State := (step cfg s label).getD s

end Drover.Scheduler
