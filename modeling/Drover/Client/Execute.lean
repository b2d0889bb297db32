import Drover.Go.Errors
import Drover.Pool.Runner

set_option autoImplicit false

/-!
# Executing one job (`loop.go`, `middleware.go`, `errors.go`, `retry.go`)

`runJob` over handlers, middlewares, a retry policy and errors of the caller's own, any of
which may panic.  A handler or a middleware is a function of the job, so what it does with
the job on the way is not seen, only what it returns or panics with; the caller's errors
are of a type `ε` with whatever methods they have.

The logger and the metrics are taken to return: `Logging` and `metricsMiddleware` report an
execution and hand its outcome on.
-/

namespace Drover.Client

open Drover.Foundation
open Drover.Driver
open Drover.Go (Time Duration Value Result Unwrap Fuelled search)
open Drover.Pool (Fate)

/-! ## Errors -/

/-- The errors drover looks for by name. -/
inductive Sentinel where
  /-- `ErrCancelled` -/
  | cancelled
  /-- `ErrSnoozed` -/
  | snoozed
  deriving DecidableEq, Repr

/-- The errors a chain can return; `ε` are those not made by drover. -/
inductive Error (ε : Type) where
  | sentinel (target : Sentinel)
  /-- `snoozeError` -/
  | snooze (d : Duration)
  /-- `*panicError` -/
  | panic (value : Value) (stack : Bytes)
  /-- no worker registered for this kind -/
  | unregistered (kind : Bytes)
  | own (e : ε)

/-- The text of an error: what it says, and the values it says it of. -/
inductive Message where
  /-- `drover: job cancelled by handler`, `drover: job snoozed by handler` -/
  | sentinel (target : Sentinel)
  /-- `drover: job snoozed for %s` -/
  | snoozedFor (d : Duration)
  /-- `job panicked: %v` -/
  | panicked (value : Bytes)
  /-- `no worker registered for kind %q` -/
  | unregistered (kind : Bytes)
  | own (text : Bytes)
  deriving DecidableEq, Repr

/-- An `As` method: what it makes of a `*snoozeError` and of a `**panicError`, none when it
returns false.  A method that returns true may leave a nil pointer behind. -/
structure AsMethod where
  snooze : Result (Option Duration)
  panic : Result (Option (Option Bytes))

/-- The methods of an error. -/
structure Methods (ε : Type) where
  error : Result Bytes
  is : Option (Sentinel → Result Bool)
  as : Option AsMethod
  unwrap : Unwrap (Error ε)

section Errors

variable {ε : Type} (methods : ε → Methods ε)

/-- The `Error` methods. -/
def Error.error : Error ε → Result Message
  | .sentinel target => .returned (.sentinel target)
  | .snooze d => .returned (.snoozedFor d)
  | .panic value _ => value.print.bind fun text => .returned (.panicked text)
  | .unregistered kind => .returned (.unregistered kind)
  | .own e => (methods e).error.bind fun text => .returned (.own text)

/-- The `Unwrap` methods. -/
def Error.unwrap : Error ε → Unwrap (Error ε)
  | .snooze _ => .one (.returned (some (.sentinel .snoozed)))
  | .own e => (methods e).unwrap
  | _ => .none

/-- Whether an error is a sentinel, by identity or by its `Is` method. -/
def Error.isTarget (target : Sentinel) : Error ε → Result (Option Unit)
  | .sentinel s => .returned (if s = target then some () else none)
  | .own e =>
      match (methods e).is with
      | some is => (is target).bind fun yes => .returned (if yes then some () else none)
      | none => .returned none
  | _ => .returned none

/-- Whether an error is a `snoozeError`, by type or by its `As` method. -/
def Error.asSnooze : Error ε → Result (Option Duration)
  | .snooze d => .returned (some d)
  | .own e =>
      match (methods e).as with
      | some method => method.snooze
      | none => .returned none
  | _ => .returned none

/-- Whether an error is a `*panicError`, by type or by its `As` method. -/
def Error.asPanic : Error ε → Result (Option (Option Bytes))
  | .panic _ stack => .returned (some (some stack))
  | .own e =>
      match (methods e).as with
      | some method => method.panic
      | none => .returned none
  | _ => .returned none

/-- `jobOutcome`, with the deferral of a snooze. -/
inductive Outcome where
  | failed
  | cancelled
  | snoozed (d : Duration)
  deriving DecidableEq, Repr

/-- `classifyOutcome`. -/
def classifyOutcome (err : Error ε) : Fuelled Outcome := do
  if (← search (Error.unwrap methods) (Error.isTarget methods .cancelled) err).isSome then
    return .cancelled
  if let some d ← search (Error.unwrap methods) (Error.asSnooze methods) err then
    return .snoozed d
  if (← search (Error.unwrap methods) (Error.isTarget methods .snoozed) err).isSome then
    return .snoozed 0
  return .failed

/-- What a nil pointer panics with when it is followed. -/
def nilDereference : Value :=
  .speaking (Bytes.ofChars "runtime error: invalid memory address or nil pointer dereference".toList)

/-- `stackOf`; no trace is the empty one. -/
def stackOf (err : Error ε) : Fuelled Bytes := do
  match ← search (Error.unwrap methods) (Error.asPanic methods) err with
  | some (some stack) => return stack
  | some none => Fuelled.lift (.panicked nilDereference)
  | none => return []

end Errors

/-! ## The chain -/

/-- A `Handler`; nil is no error. -/
abbrev Handler (ε : Type) := JobRow → Result (Option (Error ε))

/-- A `Middleware`. -/
abbrev Middleware (ε : Type) := Handler ε → Handler ε

/-- What a client brings to the execution of its jobs. -/
structure Config (ε : Type) where
  methods : ε → Methods ε
  /-- the registered workers, by kind -/
  workers : Bytes → Option (Handler ε)
  middlewares : List (Middleware ε)
  retryPolicy : JobRow → Result Time

/-- `driver.AttemptError`. -/
structure AttemptError where
  attempt : Int
  atTime : Time
  error : Message
  trace : Bytes
  deriving DecidableEq, Repr

/-- What the surroundings bring to it. -/
structure Surroundings where
  /-- `debug.Stack()` where a value is recovered -/
  stack : Value → Bytes
  /-- the clock, when the attempt's error is recorded -/
  recordedAt : Time
  /-- the clock, when the retry is scheduled -/
  now : Time
  /-- the answer of `ExponentialRetryPolicy` -/
  fallback : Time
  /-- `json.Marshal`, which refuses some times -/
  marshal : AttemptError → Option Bytes

section Execute

variable {ε : Type} (cfg : Config ε) (env : Surroundings)

/-- The deferred `recover` of `execute` and `dispatch`. -/
def recovering (result : Result (Option (Error ε))) : Option (Error ε) :=
  match result with
  | .returned err => err
  | .panicked value => some (.panic value (env.stack value))

/-- `dispatch`. -/
def dispatch : Handler ε := fun job =>
  .returned (recovering env
    (match cfg.workers job.kind with
    | some fn => fn job
    | none => .returned (some (.unregistered job.kind))))

/-- `wrap`: the first middleware is the outermost. -/
def wrap (h : Handler ε) (mws : List (Middleware ε)) : Handler ε := mws.foldr (fun mw h => mw h) h

/-- `Logging` and `metricsMiddleware`. -/
def reporting : Middleware ε := fun next job => next job

/-- `c.chain`. -/
def chain : Handler ε := wrap (dispatch cfg env) ([reporting, reporting] ++ cfg.middlewares)

/-- `execute`. -/
def execute (job : JobRow) : Option (Error ε) := recovering env (chain cfg env job)

/-! ## The disposition -/

/-- `safeNextRetry`: the policy's answer, none when it panicked. -/
def safeNextRetry (job : JobRow) : Option Time :=
  match cfg.retryPolicy job with
  | .returned t => some t
  | .panicked _ => none

/-- `retryAt`. -/
def retryAt (job : JobRow) : Time :=
  let t := (safeNextRetry cfg job).getD env.fallback
  if t < env.now then env.now else t

/-- `dispose`: what becomes of the job; none when nothing is written. -/
def dispose (row : JobRow) (jobErr : Error ε) : Fuelled (Option Fate) := do
  match ← classifyOutcome cfg.methods jobErr with
  | .snoozed d => return some (.snoozed d)
  | outcome =>
      let text ← Fuelled.lift (jobErr.error cfg.methods)
      let trace ← stackOf cfg.methods jobErr
      return (env.marshal ⟨row.attempt, env.recordedAt, text, trace⟩).map fun detail =>
        match outcome with
        | .cancelled => .cancelled detail
        | _ => .failed (retryAt cfg env row) detail

/-- `runJob`, between the registration of the lease and the write. -/
def runJob (row : JobRow) : Fuelled (Option Fate) :=
  match execute cfg env row with
  | some err => dispose cfg env row err
  | none => pure (some .succeeded)

end Execute

end Drover.Client
