import Mathlib.Algebra.BigOperators.Group.List.Basic
import Mathlib.Algebra.Ring.Int.Defs
import Drover.Client.Execute
import Drover.Foundation.Map
import Drover.Go.Utf8

set_option autoImplicit false

/-!
# The counters of executions (`metrics.go`)

`metricsMiddleware` reports an execution as a list of events: it is entered, it is observed when
the rest of the chain returns, and it is left in any case.  The counters are what a run of events
makes of them, and a run may interleave the events of executions that overlap.

Handlers are given a pointer to the job, and the label of an observation is read when they have
returned; what they leave there is a parameter.  The logger is taken to return.
-/

namespace Drover.Metrics

open Drover.Foundation
open Drover.Foundation.Map (lookup lookup_put)
open Drover.Driver
open Drover.Go (Duration Result Fuelled)
open Drover.Client (Error Handler Config Surroundings dispatch wrap recovering dispose)
open Drover.Pool (Fate)

/-! ## The code -/

/-- The series of `metricSet` that executions write: `completed`, `failed`, `duration` and
`executing`.  A histogram is the list of what it has observed. -/
structure Executions where
  completed : Map Bytes Nat
  failed : Map Bytes Nat
  duration : Map Bytes (List Duration)
  executing : Int

/-- `Inc` of the counter of a queue. -/
def inc (counter : Map Bytes Nat) (queue : Bytes) : Map Bytes Nat :=
  counter.put (queue, (lookup counter queue).getD 0 + 1)

/-- `Observe` of the histogram of a queue. -/
def observe (histogram : Map Bytes (List Duration)) (queue : Bytes) (d : Duration) :
    Map Bytes (List Duration) :=
  histogram.put (queue, (lookup histogram queue).getD [] ++ [d])

/-- `observeExecution`; `failed` says whether there was an error.  A label that is not UTF-8 has
no series. -/
def observeExecution (m : Executions) (queue : Bytes) (d : Duration) (failed : Bool) : Executions :=
  if Go.Utf8.valid queue then
    if failed then
      { m with failed := inc m.failed queue, duration := observe m.duration queue d }
    else
      { m with completed := inc m.completed queue, duration := observe m.duration queue d }
  else m

/-- What an execution does to the series. -/
inductive Event where
  /-- `executing.Inc` -/
  | enter
  /-- `observeExecution` -/
  | observe (queue : Bytes) (took : Duration) (failed : Bool)
  /-- `executing.Dec` -/
  | leave

/-- The series after an event. -/
def Executions.apply (m : Executions) : Event → Executions
  | .enter => { m with executing := m.executing + 1 }
  | .observe queue took failed => observeExecution m queue took failed
  | .leave => { m with executing := m.executing - 1 }

/-- What the execution of a job brings with it: the job as its handlers leave it, and how long
they took. -/
structure Conduct where
  left : JobRow → JobRow
  took : JobRow → Duration

section Execute

variable {ε : Type} (conduct : Conduct) (cfg : Config ε) (env : Surroundings)

/-- `metricsMiddleware`.  The deferred `Dec` runs when a panic unwinds past it; what follows the
call of `next` does not. -/
def metricsMiddleware (next : Handler ε) (job : JobRow) :
    Result (Option (Error ε)) × List Event :=
  match next job with
  | .returned err =>
      (.returned err,
        [.enter, .observe (conduct.left job).queue (conduct.took job) err.isSome, .leave])
  | .panicked value => (.panicked value, [.enter, .leave])

/-- `c.chain`, inside `Logging`. -/
def chain (job : JobRow) : Result (Option (Error ε)) × List Event :=
  metricsMiddleware conduct (wrap (dispatch cfg env) cfg.middlewares) job

/-- `execute`. -/
def execute (job : JobRow) : Option (Error ε) × List Event :=
  let result := chain conduct cfg env job
  (recovering env result.1, result.2)

/-- `runJob`, between the registration of the lease and the write. -/
def runJob (row : JobRow) : Fuelled (Option Fate) × List Event :=
  let result := execute conduct cfg env row
  (match result.1 with
    | some err => dispose cfg env row err
    | none => pure (some .succeeded), result.2)

/-- The metrics do not change what becomes of a job. -/
theorem runJob_fst (row : JobRow) : (runJob conduct cfg env row).1 = Client.runJob cfg env row := by
  have hchain : (chain conduct cfg env row).1 = Client.chain cfg env row := by
    change _ = wrap (dispatch cfg env) cfg.middlewares row
    rw [chain, metricsMiddleware]
    split <;> simp_all
  rw [runJob, execute, hchain]
  rfl

end Execute

/-! ## What a run of events adds up to -/

section Events

/-- The count of a queue. -/
def count (counter : Map Bytes Nat) (queue : Bytes) : Nat := (lookup counter queue).getD 0

/-- The observations of a queue. -/
def observations (histogram : Map Bytes (List Duration)) (queue : Bytes) : List Duration :=
  (lookup histogram queue).getD []

@[simp] theorem count_inc (counter : Map Bytes Nat) (queue queue' : Bytes) :
    count (inc counter queue) queue' =
      count counter queue' + if queue = queue' then 1 else 0 := by
  rw [count, inc, lookup_put]
  split
  next h => rw [h]; rfl
  next => rfl

@[simp] theorem observations_observe (histogram : Map Bytes (List Duration)) (queue queue' : Bytes)
    (d : Duration) :
    observations (observe histogram queue d) queue' =
      observations histogram queue' ++ if queue = queue' then [d] else [] := by
  rw [observations, observe, lookup_put]
  split
  next h => rw [h]; rfl
  next => exact (List.append_nil _).symm

/-- Whether an event is an observation of a queue with a given outcome. -/
def Event.counts (queue : Bytes) (failed : Bool) : Event → Bool
  | .observe q _ f => Go.Utf8.valid q && q == queue && f == failed
  | _ => false

/-- What an event has a queue observe. -/
def Event.took? (queue : Bytes) : Event → Option Duration
  | .observe q took _ => if Go.Utf8.valid q = true ∧ q = queue then some took else none
  | _ => none

/-- What an event does to the gauge. -/
def Event.moves : Event → Int
  | .enter => 1
  | .observe _ _ _ => 0
  | .leave => -1

/-- What one event adds to the series of a queue. -/
theorem apply_adds (m : Executions) (e : Event) (queue : Bytes) :
    count (m.apply e).completed queue =
        count m.completed queue + (if Event.counts queue false e then 1 else 0) ∧
      count (m.apply e).failed queue =
        count m.failed queue + (if Event.counts queue true e then 1 else 0) ∧
      observations (m.apply e).duration queue =
        observations m.duration queue ++ (Event.took? queue e).toList ∧
      (m.apply e).executing = m.executing + e.moves := by
  cases e with
  | enter => simp [Executions.apply, Event.counts, Event.took?, Event.moves]
  | leave => simp [Executions.apply, Event.counts, Event.took?, Event.moves, Int.sub_eq_add_neg]
  | observe q took failed =>
      simp only [Executions.apply, observeExecution, Event.counts, Event.took?, Event.moves]
      by_cases husable : Go.Utf8.valid q = true
      · by_cases hq : q = queue
        · subst hq
          cases failed <;> simp [husable]
        · cases failed <;> simp [husable, hq]
      · simp [husable]

/-- What a run of events adds to the series of a queue, however the executions it is made of
overlap. -/
theorem run_adds (m : Executions) (es : List Event) (queue : Bytes) :
    count (run Executions.apply m es).completed queue =
        count m.completed queue + es.countP (Event.counts queue false) ∧
      count (run Executions.apply m es).failed queue =
        count m.failed queue + es.countP (Event.counts queue true) ∧
      observations (run Executions.apply m es).duration queue =
        observations m.duration queue ++ es.filterMap (Event.took? queue) ∧
      (run Executions.apply m es).executing = m.executing + (es.map Event.moves).sum := by
  induction es generalizing m with
  | nil => simp
  | cons e es ih =>
      obtain ⟨hcompleted, hfailed, hduration, hexecuting⟩ := ih (m.apply e)
      obtain ⟨hc, hf, hd, hx⟩ := apply_adds m e queue
      refine ⟨?_, ?_, ?_, ?_⟩
      · rw [run_cons, hcompleted, hc, List.countP_cons, Nat.add_assoc, Nat.add_comm (List.countP _ _)]
      · rw [run_cons, hfailed, hf, List.countP_cons, Nat.add_assoc, Nat.add_comm (List.countP _ _)]
      · rw [run_cons, hduration, hd, List.filterMap_cons]
        cases Event.took? queue e <;> simp
      · rw [run_cons, hexecuting, hx, List.map_cons, List.sum_cons, Int.add_assoc]

end Events

/-! ## Every execution -/

section Recorded

variable {ε : Type} {conduct : Conduct} {cfg : Config ε} {env : Surroundings} {row : JobRow}

/-- `dispose` never completes a job. -/
theorem not_succeeded_of_dispose {err : Error ε} {fate : Option Fate}
    (h : (dispose cfg env row err).Returns fate) : fate ≠ some .succeeded := by
  unfold dispose at h
  obtain ⟨outcome, -, hrest⟩ := Fuelled.returns_bind.mp h
  cases outcome with
  | snoozed d =>
      rw [← Fuelled.returns_pure.mp hrest]
      simp
  | cancelled =>
      obtain ⟨text, -, htext⟩ := Fuelled.returns_bind.mp hrest
      obtain ⟨trace, -, htrace⟩ := Fuelled.returns_bind.mp htext
      rw [← Fuelled.returns_pure.mp htrace]
      simp
  | failed =>
      obtain ⟨text, -, htext⟩ := Fuelled.returns_bind.mp hrest
      obtain ⟨trace, -, htrace⟩ := Fuelled.returns_bind.mp htext
      rw [← Fuelled.returns_pure.mp htrace]
      simp

/-- The outcome of an execution is a call of `MarkCompleted` exactly when its chain returned nil. -/
theorem returns_succeeded_iff :
    (runJob conduct cfg env row).1.Returns (some .succeeded) ↔
      wrap (dispatch cfg env) cfg.middlewares row = .returned none := by
  rw [runJob_fst, Client.runJob, Client.execute]
  change Fuelled.Returns (match recovering env (wrap (dispatch cfg env) cfg.middlewares row) with
    | some err => dispose cfg env row err
    | none => pure (some .succeeded)) _ ↔ _
  cases hchain : wrap (dispatch cfg env) cfg.middlewares row with
  | panicked value =>
      refine iff_of_false (fun h => not_succeeded_of_dispose h rfl) ?_
      simp
  | returned err =>
      cases err with
      | none => exact iff_of_true (Fuelled.returns_pure.mpr rfl) rfl
      | some err =>
          refine iff_of_false (fun h => not_succeeded_of_dispose h rfl) ?_
          simp

theorem runJob_snd_of_returned {err : Option (Error ε)}
    (h : wrap (dispatch cfg env) cfg.middlewares row = .returned err) :
    (runJob conduct cfg env row).2 =
      [.enter, .observe (conduct.left row).queue (conduct.took row) err.isSome, .leave] := by
  rw [runJob, execute, chain, metricsMiddleware, h]

theorem runJob_snd_of_panicked {value : Go.Value}
    (h : wrap (dispatch cfg env) cfg.middlewares row = .panicked value) :
    (runJob conduct cfg env row).2 = [.enter, .leave] := by
  rw [runJob, execute, chain, metricsMiddleware, h]

/-- What an execution on a queue should have added: one to exactly one of the two counters, to
that of the completed ones exactly when the job was completed, one duration, and nothing to the
other queues. -/
structure Recorded (before after : Executions) (queue : Bytes) (completed : Prop) : Prop where
  one : (count after.completed queue = count before.completed queue + 1 ∧
      count after.failed queue = count before.failed queue) ∨
    (count after.completed queue = count before.completed queue ∧
      count after.failed queue = count before.failed queue + 1)
  completed_iff : count after.completed queue = count before.completed queue + 1 ↔ completed
  observed : ∃ took,
    observations after.duration queue = observations before.duration queue ++ [took]
  others : ∀ other, other ≠ queue →
    count after.completed other = count before.completed other ∧
      count after.failed other = count before.failed other ∧
      observations after.duration other = observations before.duration other

/-- An observation of the queue of a job is what its execution should have added. -/
theorem recorded_of_observe {queue : Bytes} (husable : Go.Utf8.valid queue = true) (took : Duration)
    (err : Option (Error ε)) (m : Executions) :
    Recorded m (run Executions.apply m [.enter, .observe queue took err.isSome, .leave]) queue
      (err = none) := by
  have hadds := run_adds m [.enter, .observe queue took err.isSome, .leave]
  obtain ⟨hcompleted, hfailed, hduration, -⟩ := hadds queue
  refine ⟨?_, ?_, ⟨took, ?_⟩, fun other hne => ?_⟩
  · rw [hcompleted, hfailed]
    cases err <;> simp [Event.counts, husable]
  · rw [hcompleted]
    cases err <;> simp [Event.counts, husable]
  · rw [hduration]
    simp [List.filterMap_cons, Event.took?, husable]
  · obtain ⟨hcompleted, hfailed, hduration, -⟩ := hadds other
    rw [hcompleted, hfailed, hduration]
    simp [List.filterMap_cons, Event.counts, Event.took?, hne.symm]

/-- An execution is counted, and counted for what it was, exactly when the configured middlewares
around `dispatch` return and the handlers leave the queue of the job alone.  The gauge is back
where it was in any case. -/
theorem execution_recorded_iff {ε : Type} (conduct : Conduct) (cfg : Config ε) (env : Surroundings)
    (row : JobRow) (m : Executions) (husable : Go.Utf8.valid row.queue = true) :
    let after := run Executions.apply m (runJob conduct cfg env row).2
    (Recorded m after row.queue ((runJob conduct cfg env row).1.Returns (some .succeeded)) ↔
      (wrap (dispatch cfg env) cfg.middlewares row).returns ∧
        (conduct.left row).queue = row.queue) ∧
    after.executing = m.executing := by
  have hadds := run_adds m (runJob conduct cfg env row).2
  dsimp only
  cases hchain : wrap (dispatch cfg env) cfg.middlewares row with
  | panicked value =>
      simp only [runJob_snd_of_panicked hchain] at hadds ⊢
      obtain ⟨hcompleted, hfailed, -, hexecuting⟩ := hadds row.queue
      refine ⟨iff_of_false (fun h => ?_) fun h => h.1, by simpa [Event.moves] using hexecuting⟩
      rcases h.one with ⟨hone, -⟩ | ⟨-, hone⟩
      · rw [hcompleted] at hone
        simp [Event.counts] at hone
      · rw [hfailed] at hone
        simp [Event.counts] at hone
  | returned err =>
      have hsucceeded : (runJob conduct cfg env row).1.Returns (some .succeeded) ↔ err = none := by
        rw [returns_succeeded_iff, hchain, Result.returned.injEq]
      simp only [runJob_snd_of_returned hchain, hsucceeded] at hadds ⊢
      have hexecuting := (hadds row.queue).2.2.2
      refine ⟨⟨fun h => ⟨trivial, ?_⟩, fun h => ?_⟩, by simpa [Event.moves] using hexecuting⟩
      · by_contra hq
        obtain ⟨hcompleted, hfailed, -⟩ := hadds row.queue
        rcases h.one with ⟨hone, -⟩ | ⟨-, hone⟩
        · rw [hcompleted] at hone
          simp [Event.counts, hq] at hone
        · rw [hfailed] at hone
          simp [Event.counts, hq] at hone
      · rw [h.2]
        exact recorded_of_observe husable (conduct.took row) err m

/-- A client with one worker that does nothing and the middlewares it is given. -/
def sampleClient (middlewares : List (Client.Middleware Unit)) : Config Unit where
  methods _ := ⟨.returned [], none, none, .none⟩
  workers _ := some fun _ => .returned none
  middlewares := middlewares
  retryPolicy _ := .returned 0

/-- Surroundings in which every record can be marshalled. -/
def sampleSurroundings : Surroundings := ⟨fun _ => [], 0, 0, 0, fun _ => some []⟩

/-- A claimed job of the queue with the empty name. -/
def sampleJob : JobRow := ⟨1, [], [], [], .running, 1, 25, [], 0, some 1, 0, none, []⟩

/-- Handlers that leave the job alone. -/
def sampleConduct : Conduct := ⟨id, fun _ => 7⟩

/-- No series has been written. -/
def noExecutions : Executions := ⟨Table.empty, Table.empty, Table.empty, 0⟩

theorem quiet_recorded :
    let result := runJob sampleConduct (sampleClient [fun next => next]) sampleSurroundings sampleJob
    Recorded noExecutions (run Executions.apply noExecutions result.2) sampleJob.queue
      (result.1.Returns (some .succeeded)) :=
  (execution_recorded_iff sampleConduct (sampleClient [fun next => next]) sampleSurroundings sampleJob
    noExecutions (by decide)).1.mpr ⟨trivial, rfl⟩

/-- A middleware that panics fails its job without a trace in the counters. -/
theorem panic_not_recorded :
    let client := sampleClient [fun _ _ => .panicked (.plain [])]
    let result := runJob sampleConduct client sampleSurroundings sampleJob
    let after := run Executions.apply noExecutions result.2
    (∃ retryAt detail, result.1.Returns (some (.failed retryAt detail))) ∧
      count after.completed sampleJob.queue = 0 ∧ count after.failed sampleJob.queue = 0 ∧
      observations after.duration sampleJob.queue = [] :=
  ⟨⟨0, [], 3, rfl⟩, rfl, rfl, rfl⟩

end Recorded

/-! ## Executions that overlap -/

section Interleaved

variable {ε : Type}

/-- One execution of a client. -/
structure Execution where
  conduct : Conduct
  env : Surroundings
  row : JobRow

/-- The execution is one that is counted. -/
structure Execution.Counted (cfg : Config ε) (x : Execution) : Prop where
  usable : Go.Utf8.valid x.row.queue = true
  returns : (wrap (dispatch cfg x.env) cfg.middlewares x.row).returns
  left : (x.conduct.left x.row).queue = x.row.queue

/-- The events of an execution. -/
def Execution.events (cfg : Config ε) (x : Execution) : List Event :=
  (runJob x.conduct cfg x.env x.row).2

/-- The execution is one of a queue, with a given outcome. -/
def Execution.ends (cfg : Config ε) (queue : Bytes) (failed : Bool) (x : Execution) : Bool :=
  x.row.queue == queue && (Client.execute cfg x.env x.row).isSome == failed

theorem Execution.Counted.events_eq {cfg : Config ε} {x : Execution} (h : x.Counted cfg) :
    x.events cfg = [.enter, .observe x.row.queue (x.conduct.took x.row)
      (Client.execute cfg x.env x.row).isSome, .leave] := by
  have hexecute : Client.execute cfg x.env x.row =
      recovering x.env (wrap (dispatch cfg x.env) cfg.middlewares x.row) := rfl
  cases hchain : wrap (dispatch cfg x.env) cfg.middlewares x.row with
  | panicked value =>
      have hreturns := h.returns
      rw [hchain] at hreturns
      cases hreturns
  | returned err =>
      rw [Execution.events, runJob_snd_of_returned hchain, h.left, hexecute, hchain]
      rfl

theorem Execution.Counted.countP_events {cfg : Config ε} {x : Execution} (h : x.Counted cfg)
    (queue : Bytes) (failed : Bool) :
    (x.events cfg).countP (Event.counts queue failed) = if x.ends cfg queue failed then 1 else 0 := by
  rw [h.events_eq]
  simp [List.countP_cons, Event.counts, Execution.ends, h.usable]

/-- However the executions of a client overlap, each counter of a queue has gone up by as many of
them as ended that way, and the gauge is back where it was. -/
theorem overlapping_recorded {cfg : Config ε} {xs : List Execution}
    (hxs : ∀ x ∈ xs, x.Counted cfg) {es : List Event} (hes : es.Perm (xs.flatMap (·.events cfg)))
    (m : Executions) (queue : Bytes) :
    count (run Executions.apply m es).completed queue =
        count m.completed queue + xs.countP (·.ends cfg queue false) ∧
      count (run Executions.apply m es).failed queue =
        count m.failed queue + xs.countP (·.ends cfg queue true) ∧
      (run Executions.apply m es).executing = m.executing := by
  obtain ⟨hcompleted, hfailed, -, hexecuting⟩ := run_adds m es queue
  rw [hcompleted, hfailed, hexecuting, hes.countP_eq, hes.countP_eq, (hes.map _).sum_eq]
  clear hes hcompleted hfailed hexecuting
  induction xs with
  | nil => simp
  | cons x xs ih =>
      have hx := hxs x List.mem_cons_self
      obtain ⟨hcompleted, hfailed, hexecuting⟩ := ih fun y hy => hxs y (List.mem_cons_of_mem x hy)
      have hmoves : ((x.events cfg).map Event.moves).sum = 0 := by
        rw [hx.events_eq]
        rfl
      simp only [List.flatMap_cons, List.countP_append, List.countP_cons, List.map_append,
        List.sum_append, hx.countP_events, hmoves]
      omega

end Interleaved

end Drover.Metrics
