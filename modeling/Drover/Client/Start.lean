import Mathlib.Logic.Function.Basic
import Drover.Pool.Runner

set_option autoImplicit false

/-!
# Starting and stopping a client (`loop.go`, `pool.go`)

`Start`, `Stop` and the watcher of one `Client`, called any number of times from any
number of goroutines.  The client's mutex, the `sync.Once` of its runner, the `done`
channel and the verdict behind it are state; a caller has a program counter, and one step
takes a lock, reads or writes `c.runner`, binds or closes a listener, or moves the
shutdown on.  The runner carries its pool, whose goroutines step on their own.

The n-th call of `Start` and the n-th call of `Stop` are `starts n` and `stops n`; a call
nobody has made yet is idle.
-/

namespace Drover.Client

open Drover.Foundation
open Drover.Pool (StopError)

/-! ## Callers -/

/-- What `Start` returns. -/
inductive StartError where
  | alreadyStarted
  /-- `drover: listen on ops address %q: %w` -/
  | listen
  deriving DecidableEq, Repr

/-- Where a call of `Start` is. -/
inductive Starting where
  | idle
  /-- before the first `c.mu.Lock()` -/
  | lock
  /-- holding the lock, before the first look at `c.runner` -/
  | check
  /-- before `net.Listen` -/
  | listen
  /-- before the second `c.mu.Lock()` -/
  | relock
  /-- holding the lock, before the second look at `c.runner` -/
  | recheck
  /-- `c.runner = newRunner(ctx, c, ln)` -/
  | publish
  /-- `r.start(ctx)`, before it spawns the goroutines of the pool -/
  | launch
  /-- `r.start(ctx)`, before `go r.watch(ctx)` -/
  | watch
  /-- before the last `c.mu.Unlock()` -/
  | unlock
  /-- somebody else has started the client: before `ln.Close()` -/
  | discard
  | returned (err : Option StartError)
  deriving DecidableEq, Repr

/-- A call of `Start`.  `spawned` is history: no step reads it. -/
structure StartCall where
  pc : Starting
  /-- it has bound the ops address and owns the listener -/
  bound : Bool
  /-- it has started a goroutine -/
  spawned : Bool
  /-- the context it was given is cancelled -/
  cancelled : Bool
  deriving DecidableEq, Repr

/-- Where a call of `runner.stop` is. -/
inductive Stopping where
  /-- before `r.shutdown.Do` -/
  | enter
  /-- inside `drain` -/
  | draining
  /-- `r.stopErr` is written; before `close(r.done)` -/
  | close
  /-- the end of `r.shutdown.Do` -/
  | leave
  /-- `<-r.done` -/
  | await
  | returned (err : List StopError)
  deriving DecidableEq, Repr

/-- Where a call of `Stop` is. -/
inductive StopCall where
  | idle
  /-- before `c.mu.Lock()` -/
  | lock
  /-- holding the lock, before it reads `c.runner` -/
  | read
  /-- it has found no runner and returned `ErrNotStarted` -/
  | notStarted
  /-- it has found the runner -/
  | found (pc : Stopping)
  deriving DecidableEq, Repr

/-- What `Stop` returns: `ErrNotStarted`, or what the shutdown found to report. -/
inductive StopResult where
  | notStarted
  | verdict (err : List StopError)
  deriving DecidableEq, Repr

/-- What a call of `Stop` has returned. -/
def StopCall.result : StopCall → Option StopResult
  | .notStarted => some .notStarted
  | .found (.returned err) => some (.verdict err)
  | _ => none

/-- Where the watcher of a runner is. -/
inductive Watcher where
  /-- not spawned yet -/
  | none
  /-- the select of `watch` -/
  | select
  /-- the context is cancelled -/
  | stopping (pc : Stopping)
  /-- `done` was closed first -/
  | exited
  deriving DecidableEq, Repr

/-- Those who call `runner.stop`. -/
inductive Caller where
  | stop (n : Nat)
  | watcher
  deriving DecidableEq, Repr

/-- A `sync.Once`. -/
inductive Once where
  | fresh
  /-- the function is running, called by `who` -/
  | running (who : Caller)
  | finished
  deriving DecidableEq, Repr

/-! ## The client -/

/-- A `runner`. -/
structure Runner where
  /-- the call of `Start` that made it, whose context it watches -/
  owner : Nat
  pool : Pool.State
  /-- `start` has spawned the goroutines of the pool -/
  launched : Bool
  shutdown : Once
  /-- `done` is closed -/
  done : Bool
  stopErr : List StopError
  watcher : Watcher

/-- Those who lock the client's mutex. -/
inductive Holder where
  | start (n : Nat)
  | stop (n : Nat)
  deriving DecidableEq, Repr

/-- A client and the calls made on it. -/
structure State where
  mu : Option Holder
  runner : Option Runner
  starts : Nat → StartCall
  stops : Nat → StopCall

/-- A client as `NewClient` leaves it. -/
def fresh : State :=
  { mu := none
    runner := none
    starts := fun _ => ⟨.idle, false, false, false⟩
    stops := fun _ => .idle }

/-- The runner as `newRunner` makes it, over the store as it is then. -/
def newRunner (cfg : Pool.Config) (owner : Nat) (db : Memdriver.Driver) : Runner :=
  { owner := owner
    pool := cfg.start db
    launched := false
    shutdown := .fresh
    done := false
    stopErr := []
    watcher := .none }

/-! ## Steps -/

/-- How a call of `Start` takes a step. -/
inductive StartStep where
  | go
  /-- `net.Listen` returns -/
  | listen (ok : Bool)
  /-- `newRunner`, with the store as it is then -/
  | publish (db : Memdriver.Driver)

/-- How a call of `runner.stop` takes a step. -/
inductive StopStep where
  | go
  /-- a step of `drain` -/
  | drain (how : Pool.DrainStep)
  deriving DecidableEq, Repr

/-- One step of a caller, of the runner's goroutines or of their surroundings. -/
inductive Label where
  | start (n : Nat) (how : StartStep)
  | stop (n : Nat) (how : StopStep)
  /-- the `ctx.Done()` case of `watch`, and what follows it -/
  | watch (how : StopStep)
  /-- the `done` case of `watch` -/
  | watchDone
  /-- the context given to the n-th `Start` is cancelled -/
  | cancel (n : Nat)
  /-- a goroutine of the pool, or another caller of the store -/
  | pool (label : Pool.Label)

/-- The state with the n-th call of `Start` changed. -/
def State.setStart (s : State) (n : Nat) (call : StartCall) : State :=
  { s with starts := Function.update s.starts n call }

@[inherit_doc State.setStart]
def State.setStop (s : State) (n : Nat) (call : StopCall) : State :=
  { s with stops := Function.update s.stops n call }

/-- A step of `Start`. -/
def startStep (cfg : Pool.Config) (s : State) (n : Nat) (how : StartStep) : Option State :=
  let call := s.starts n
  let goto (s : State) (pc : Starting) := some (s.setStart n { call with pc := pc })
  match call.pc, how with
  | .idle, .go => goto s .lock
  | .lock, .go => if s.mu = none then goto { s with mu := some (.start n) } .check else none
  | .check, .go =>
      if s.runner.isSome then goto { s with mu := none } (.returned (some .alreadyStarted))
      else if cfg.opsServer then goto { s with mu := none } .listen
      else goto { s with mu := none } .relock
  | .listen, .listen true => some (s.setStart n { call with pc := .relock, bound := true })
  | .listen, .listen false => goto s (.returned (some .listen))
  | .relock, .go => if s.mu = none then goto { s with mu := some (.start n) } .recheck else none
  | .recheck, .go =>
      if s.runner.isSome then goto { s with mu := none } .discard else goto s .publish
  | .publish, .publish db => goto { s with runner := some (newRunner cfg n db) } .launch
  | .launch, .go =>
      match s.runner with
      | some r =>
          some ({ s with runner := some { r with launched := true } }.setStart n
            { call with pc := .watch, spawned := true })
      | none => none
  | .watch, .go =>
      match s.runner with
      | some r => goto { s with runner := some { r with watcher := .select } } .unlock
      | none => none
  | .unlock, .go => goto { s with mu := none } (.returned none)
  | .discard, .go =>
      some (s.setStart n { call with pc := .returned (some .alreadyStarted), bound := false })
  | _, _ => none

/-- A step of `runner.stop`.  The budget of the watcher is unbounded. -/
def callStep (cfg : Pool.Config) (r : Runner) (who : Caller) (pc : Stopping) (how : StopStep) :
    Option (Runner × Stopping) :=
  match pc, how with
  | .enter, .go =>
      match r.shutdown with
      | .fresh => some ({ r with shutdown := .running who }, .draining)
      | .running _ => none
      | .finished => some (r, .await)
  | .draining, .drain how =>
      if how = .expire ∧ who = .watcher then none
      else (Pool.drainStep cfg r.pool how).map fun pool => ({ r with pool := pool }, .draining)
  | .draining, .go =>
      match r.pool.drain with
      | .returned err => some ({ r with stopErr := err }, .close)
      | _ => none
  | .close, .go => some ({ r with done := true }, .leave)
  | .leave, .go => some ({ r with shutdown := .finished }, .await)
  | .await, .go => if r.done then some (r, .returned r.stopErr) else none
  | _, _ => none

/-- A step of `Stop`. -/
def stopStep (cfg : Pool.Config) (s : State) (n : Nat) (how : StopStep) : Option State :=
  match s.stops n, how with
  | .idle, .go => some (s.setStop n .lock)
  | .lock, .go =>
      if s.mu = none then some ({ s with mu := some (.stop n) }.setStop n .read) else none
  | .read, .go =>
      some ({ s with mu := none }.setStop n
        (match s.runner with
        | some _ => .found .enter
        | none => .notStarted))
  | .found pc, how =>
      match s.runner with
      | some r =>
          (callStep cfg r (.stop n) pc how).map fun (r, pc) =>
            { s with runner := some r }.setStop n (.found pc)
      | none => none
  | _, _ => none

/-- A step of `watch` after its context is cancelled. -/
def watchStep (cfg : Pool.Config) (s : State) (how : StopStep) : Option State :=
  match s.runner with
  | some r =>
      match r.watcher, how with
      | .select, .go =>
          if (s.starts r.owner).cancelled then
            some { s with runner := some { r with watcher := .stopping .enter } }
          else none
      | .stopping pc, how =>
          (callStep cfg r .watcher pc how).map fun (r, pc) =>
            { s with runner := some { r with watcher := .stopping pc } }
      | _, _ => none
  | none => none

/-- One step; `none` when it cannot be taken.  The pool's goroutines run once they are
spawned, and its shutdown is the callers' business. -/
def step (cfg : Pool.Config) (s : State) : Label → Option State
  | .start n how => startStep cfg s n how
  | .stop n how => stopStep cfg s n how
  | .watch how => watchStep cfg s how
  | .watchDone =>
      match s.runner with
      | some r =>
          if r.watcher = .select ∧ r.done then
            some { s with runner := some { r with watcher := .exited } }
          else none
      | none => none
  | .cancel n => some (s.setStart n { s.starts n with cancelled := true })
  | .pool (.drain _) => none
  | .pool label =>
      match s.runner with
      | some r =>
          if r.launched then
            some { s with runner := some { r with pool := Pool.next cfg r.pool label } }
          else none
      | none => none

/-- The state after a step; a step that cannot be taken does nothing. -/
def next (cfg : Pool.Config) (s : State) (label : Label) : State := (step cfg s label).getD s

/-! ## What a step can do -/

/-- `startStep`, by cases. -/
inductive StartTurn (cfg : Pool.Config) (s : State) (n : Nat) : StartStep → State → Prop where
  | call (hpc : (s.starts n).pc = .idle) :
      StartTurn cfg s n .go (s.setStart n { s.starts n with pc := .lock })
  | lock (hfree : s.mu = none) (hpc : (s.starts n).pc = .lock) :
      StartTurn cfg s n .go
        ({ s with mu := some (.start n) }.setStart n { s.starts n with pc := .check })
  | found (hsome : s.runner.isSome = true) (hpc : (s.starts n).pc = .check) :
      StartTurn cfg s n .go
        ({ s with mu := none }.setStart n
          { s.starts n with pc := .returned (some .alreadyStarted) })
  | listen (hnone : ¬s.runner.isSome = true) (hops : cfg.opsServer = true)
      (hpc : (s.starts n).pc = .check) :
      StartTurn cfg s n .go ({ s with mu := none }.setStart n { s.starts n with pc := .listen })
  | skip (hnone : ¬s.runner.isSome = true) (hops : ¬cfg.opsServer = true)
      (hpc : (s.starts n).pc = .check) :
      StartTurn cfg s n .go ({ s with mu := none }.setStart n { s.starts n with pc := .relock })
  | bind (hpc : (s.starts n).pc = .listen) :
      StartTurn cfg s n (.listen true)
        (s.setStart n { s.starts n with pc := .relock, bound := true })
  | refuse (hpc : (s.starts n).pc = .listen) :
      StartTurn cfg s n (.listen false)
        (s.setStart n { s.starts n with pc := .returned (some .listen) })
  | relock (hfree : s.mu = none) (hpc : (s.starts n).pc = .relock) :
      StartTurn cfg s n .go
        ({ s with mu := some (.start n) }.setStart n { s.starts n with pc := .recheck })
  | late (hsome : s.runner.isSome = true) (hpc : (s.starts n).pc = .recheck) :
      StartTurn cfg s n .go ({ s with mu := none }.setStart n { s.starts n with pc := .discard })
  | first (hnone : ¬s.runner.isSome = true) (hpc : (s.starts n).pc = .recheck) :
      StartTurn cfg s n .go (s.setStart n { s.starts n with pc := .publish })
  | publish {db : Memdriver.Driver} (hpc : (s.starts n).pc = .publish) :
      StartTurn cfg s n (.publish db)
        ({ s with runner := some (newRunner cfg n db) }.setStart n
          { s.starts n with pc := .launch })
  | launch {r : Runner} (hr : s.runner = some r) (hpc : (s.starts n).pc = .launch) :
      StartTurn cfg s n .go
        ({ s with runner := some { r with launched := true } }.setStart n
          { s.starts n with pc := .watch, spawned := true })
  | watch {r : Runner} (hr : s.runner = some r) (hpc : (s.starts n).pc = .watch) :
      StartTurn cfg s n .go
        ({ s with runner := some { r with watcher := .select } }.setStart n
          { s.starts n with pc := .unlock })
  | unlock (hpc : (s.starts n).pc = .unlock) :
      StartTurn cfg s n .go
        ({ s with mu := none }.setStart n { s.starts n with pc := .returned none })
  | discard (hpc : (s.starts n).pc = .discard) :
      StartTurn cfg s n .go
        (s.setStart n
          { s.starts n with pc := .returned (some .alreadyStarted), bound := false })

theorem StartTurn.of_step {cfg : Pool.Config} {s s' : State} {n : Nat} {how : StartStep}
    (h : startStep cfg s n how = some s') : StartTurn cfg s n how s' := by
  unfold startStep at h
  dsimp only at h
  split at h
  all_goals (try split at h)
  all_goals (try split at h)
  all_goals cases h
  all_goals constructor <;> assumption

/-- `stopStep`, by cases. -/
inductive StopTurn (cfg : Pool.Config) (s : State) (n : Nat) : StopStep → State → Prop where
  | call (hpc : s.stops n = .idle) : StopTurn cfg s n .go (s.setStop n .lock)
  | lock (hfree : s.mu = none) (hpc : s.stops n = .lock) :
      StopTurn cfg s n .go ({ s with mu := some (.stop n) }.setStop n .read)
  | read (hpc : s.stops n = .read) :
      StopTurn cfg s n .go
        ({ s with mu := none }.setStop n
          (match s.runner with
          | some _ => .found .enter
          | none => .notStarted))
  | found {r r' : Runner} {pc pc' : Stopping} {how : StopStep} (hr : s.runner = some r)
      (hcall : callStep cfg r (.stop n) pc how = some (r', pc')) (hpc : s.stops n = .found pc) :
      StopTurn cfg s n how ({ s with runner := some r' }.setStop n (.found pc'))

theorem StopTurn.of_step {cfg : Pool.Config} {s s' : State} {n : Nat} {how : StopStep}
    (h : stopStep cfg s n how = some s') : StopTurn cfg s n how s' := by
  unfold stopStep at h
  split at h
  · cases h
    exact .call ‹_›
  · split at h <;> cases h
    exact .lock ‹_› ‹_›
  · cases h
    exact .read ‹_›
  · split at h
    · obtain ⟨⟨r', pc'⟩, hcall, heq⟩ := Option.map_eq_some_iff.mp h
      cases heq
      exact .found ‹_› hcall ‹_›
    · cases h
  · cases h

end Drover.Client
