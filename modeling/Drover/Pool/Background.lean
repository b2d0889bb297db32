import Drover.Client.Rescue
import Drover.Foundation.Join
import Drover.Pool.Listen
import Drover.Pool.Progress

set_option autoImplicit false

/-!
# The goroutines `background` waits for

Before `drain` returns it waits for every goroutine `start` has put under `background`:
the heartbeat, which is part of the pool, and besides it the rescuer, the stats refresher,
the listener of a pool with `NotifyWakeup` and the scheduler of a client with periodic jobs.
These four run under `fetchCtx`, and none of them looks at the pool.  What they do to the
store and to the wake channel are steps of the pool's surroundings (`outside`, `nudge`);
here is where each of them is, which is what a shutdown has to wait for.

A goroutine that waits in a select leaves once `fetchCtx` is cancelled.  One that is inside
a call has to come out of it, and of what it does with the answer: the rescuer disposes of
every row it has claimed, and the scheduler looks at its other entries.
-/

namespace Drover.Pool

open Drover.Foundation
open Drover.Client (rescueBatch rescueRounds)

/-! ## The rescuer -/

/-- Where `rescueLoop` is. -/
inductive Rescuer where
  /-- the select -/
  | waiting
  /-- `rescueOnce`, in `FetchExpired`, with `round` rounds behind it -/
  | fetching (round : Nat)
  /-- `rescueOnce`, with `left` rows of the round to dispose of; the batch was `full` or not -/
  | disposing (round left : Nat) (full : Bool)
  | exited
  deriving DecidableEq, Repr

/-- How it takes a step. -/
inductive RescueStep where
  /-- the ticker has ticked -/
  | tick
  /-- the `ctx.Done()` case of the select -/
  | cancel
  /-- `FetchExpired` returns `n` rows; the driver keeps to the batch -/
  | rows (n : Nat)
  /-- `FetchExpired` fails -/
  | fail
  /-- `dispose` returns, or the round ends -/
  | go
  deriving DecidableEq, Repr

/-- A step of `rescueLoop` or `rescueOnce`. -/
def Rescuer.step (cancelled : Bool) : Rescuer → RescueStep → Option Rescuer
  | .waiting, .tick => some (.fetching 0)
  | .waiting, .cancel => if cancelled then some .exited else none
  | .fetching _, .fail => some (if cancelled then .exited else .waiting)
  | .fetching round, .rows n =>
      if n ≤ rescueBatch then some (.disposing round n (n == rescueBatch)) else none
  | .disposing round (left + 1) full, .go => some (.disposing round left full)
  | .disposing round 0 full, .go =>
      some (if !full || cancelled || rescueRounds ≤ round + 1 then .waiting
        else .fetching (round + 1))
  | _, _ => none

/-- How many steps it takes to leave, once `fetchCtx` is cancelled. -/
def Rescuer.rank : Rescuer → Nat
  | .fetching _ => rescueBatch + 3
  | .disposing _ left _ => left + 2
  | .waiting => 1
  | .exited => 0

theorem Rescuer.rank_lt_of_step {r r' : Rescuer} {how : RescueStep} (hhow : how ≠ .tick)
    (h : r.step true how = some r') : r'.rank < r.rank := by
  unfold Rescuer.step at h
  split at h
  · exact absurd rfl hhow
  · cases h
    exact Nat.zero_lt_one
  · cases h
    exact Nat.succ_pos _
  · split at h <;> cases h
    simp only [Rescuer.rank]
    omega
  · cases h
    simp only [Rescuer.rank]
    omega
  · rw [Bool.or_true, Bool.true_or, if_pos rfl] at h
    cases h
    simp only [Rescuer.rank]
    omega
  · cases h

theorem Rescuer.exists_step {r : Rescuer} (h : r ≠ .exited) :
    ∃ how r', how ≠ .tick ∧ r.step true how = some r' := by
  cases r with
  | waiting => exact ⟨.cancel, .exited, nofun, rfl⟩
  | fetching round => exact ⟨.fail, .exited, nofun, rfl⟩
  | disposing round left full =>
      cases left with
      | zero => exact ⟨.go, .waiting, nofun, by simp [Rescuer.step]⟩
      | succ left => exact ⟨.go, .disposing round left full, nofun, rfl⟩
  | exited => exact absurd rfl h

/-! ## The stats refresher -/

/-- Where `statsRefresher.run` is. -/
inductive Refresher where
  /-- in `refresh`, which it calls once before the first tick -/
  | refreshing
  /-- the select -/
  | waiting
  | exited
  deriving DecidableEq, Repr

/-- How it takes a step. -/
inductive RefreshStep where
  /-- the ticker has ticked -/
  | tick
  /-- the `ctx.Done()` case of the select -/
  | cancel
  /-- `refresh` returns an error or nil -/
  | returned (ok : Bool)
  deriving DecidableEq, Repr

/-- A step of `statsRefresher.run`. -/
def Refresher.step (cancelled : Bool) : Refresher → RefreshStep → Option Refresher
  | .refreshing, .returned ok => some (if !ok && cancelled then .exited else .waiting)
  | .waiting, .tick => some .refreshing
  | .waiting, .cancel => if cancelled then some .exited else none
  | _, _ => none

@[inherit_doc Rescuer.rank]
def Refresher.rank : Refresher → Nat
  | .refreshing => 2
  | .waiting => 1
  | .exited => 0

theorem Refresher.rank_lt_of_step {r r' : Refresher} {how : RefreshStep} (hhow : how ≠ .tick)
    (h : r.step true how = some r') : r'.rank < r.rank := by
  unfold Refresher.step at h
  split at h
  · cases h
    split <;> decide
  · exact absurd rfl hhow
  · cases h
    exact Nat.zero_lt_one
  · cases h

theorem Refresher.exists_step {r : Refresher} (h : r ≠ .exited) :
    ∃ how r', how ≠ .tick ∧ r.step true how = some r' := by
  cases r with
  | refreshing => exact ⟨.returned true, .waiting, nofun, rfl⟩
  | waiting => exact ⟨.cancel, .exited, nofun, rfl⟩
  | exited => exact absurd rfl h

/-! ## The listener -/

/-- A step of `ListenWakeups` or `listenForWakeups`, as far as the listener is concerned. -/
def Listener.step (cancelled : Bool) : Listener → ListenStep → Option Listener
  | .acquiring, .done => some .subscribing
  | .acquiring, .fail => some (.returned (if cancelled then none else some .acquire))
  | .subscribing, .done => some (.waiting 0)
  | .subscribing, .fail => some (.releasing (if cancelled then none else some .listen))
  | .waiting (pending + 1), .done => some (.signalling pending)
  | .waiting _, .fail => some (.unlistening (if cancelled then none else some .wait))
  | .signalling pending, .done => some (.waiting pending)
  | .unlistening err, .done | .unlistening err, .fail => some (.releasing err)
  | .releasing err, .done => some (.returned err)
  | .returned _, .done => some (if cancelled then .exited else .retrying)
  | .retrying, .timer => some .acquiring
  | .retrying, .cancel => if cancelled then some .exited else none
  | _, _ => none

/-- A notification is queued in the session, if there is one that listens. -/
def Listener.notified : Listener → Listener
  | .waiting pending => .waiting (pending + 1)
  | .signalling pending => .signalling (pending + 1)
  | l => l

/-- The listener of `Wired` is notified in this way. -/
theorem listener_of_notify (s : Wired) : s.notify.listener = s.listener.notified := by
  obtain ⟨pool, listener, conns, clock, noticed, begun, completed⟩ := s
  cases listener <;> rfl

/-- The listener of `Wired` takes these steps. -/
theorem listener_of_listenStep (cfg : Config) (s : Wired) (how : ListenStep) :
    (s.listenStep cfg how).map Wired.listener = s.listener.step s.cancelled how := by
  obtain ⟨pool, listener, conns, clock, noticed, begun, completed⟩ := s
  cases listener with
  | waiting pending => cases pending <;> cases how <;> rfl
  | retrying =>
      cases how with
      | cancel =>
          simp only [Wired.listenStep, Listener.step]
          split <;> rfl
      | _ => rfl
  | _ => cases how <;> rfl

theorem Listener.rank_lt_of_step {l l' : Listener} {how : ListenStep}
    (h : l.step true how = some l') : l'.rank < l.rank := by
  unfold Listener.step at h
  split at h
  all_goals cases h
  all_goals simp only [Listener.rank, if_true]
  all_goals omega

theorem Listener.exists_step {l : Listener} (h : l ≠ .exited) :
    ∃ how l', how ≠ .timer ∧ l.step true how = some l' := by
  cases l with
  | exited => exact absurd rfl h
  | retrying => exact ⟨.cancel, .exited, nofun, rfl⟩
  | waiting pending => exact ⟨.fail, .unlistening none, nofun, by simp [Listener.step]⟩
  | _ => exact ⟨.done, _, nofun, rfl⟩

/-! ## The scheduler -/

/-- Which of the goroutines there are, and what the scheduler looks after. -/
structure Staff where
  /-- `notifyWakeup` is set and the driver can listen -/
  listens : Bool
  /-- the number of periodic jobs -/
  periodic : Nat
  /-- the driver is a `leaderLocker` -/
  hasLocker : Bool
  deriving DecidableEq, Repr

/-- Where `schedulePeriodic` is. -/
inductive Scheduling where
  /-- the head of the loop -/
  | top
  /-- in `TryBecomeLeader` -/
  | locking
  /-- in `enqueueDuePeriodic`, with `left` entries to look at -/
  | looking (left : Nat)
  /-- in the `Insert` of a due tick, with `left` entries after its own -/
  | inserting (left : Nat)
  /-- in `waitFetch` -/
  | waiting
  /-- in the deferred `ReleaseLeader`; with no locker there is nothing to do -/
  | releasing
  | exited
  deriving DecidableEq, Repr

/-- How it takes a step. -/
inductive ScheduleStep where
  /-- the only way on -/
  | go
  /-- `TryBecomeLeader` makes this client the leader, or it does not or fails -/
  | locked (leader : Bool)
  /-- the entry has a tick that is due, or it has none -/
  | tick (due : Bool)
  /-- `insertPeriodicTick` returns -/
  | inserted (ok : Bool)
  /-- the timer of `waitFetch` -/
  | timer
  /-- the `fetchCtx.Done()` case of `waitFetch` -/
  | cancel
  deriving DecidableEq, Repr

/-- A step of `schedulePeriodic` or `enqueueDuePeriodic`. -/
def Scheduling.step (staff : Staff) (cancelled : Bool) : Scheduling → ScheduleStep →
    Option Scheduling
  | .top, .go =>
      some (if cancelled then .releasing else if staff.hasLocker then .locking
        else .looking staff.periodic)
  | .locking, .locked leader =>
      some (if cancelled then .releasing else if leader then .looking staff.periodic
        else .waiting)
  | .looking 0, .go => some .waiting
  | .looking (left + 1), .tick false => some (.looking left)
  -- a cancelled pass returns 0, and is followed by `waitFetch` like any other
  | .looking (left + 1), .tick true => some (if cancelled then .waiting else .inserting left)
  | .inserting left, .inserted true => some (.looking (left + 1))
  | .inserting left, .inserted false => some (.looking left)
  | .waiting, .timer => some (if cancelled then .releasing else .top)
  | .waiting, .cancel => if cancelled then some .releasing else none
  | .releasing, .go => some .exited
  | _, _ => none

@[inherit_doc Rescuer.rank]
def Scheduling.rank : Scheduling → Nat
  | .inserting left => left + 5
  | .looking left => left + 3
  | .top | .locking | .waiting => 2
  | .releasing => 1
  | .exited => 0

theorem Scheduling.rank_lt_of_step {staff : Staff} {c c' : Scheduling} {how : ScheduleStep}
    (h : c.step staff true how = some c') : c'.rank < c.rank := by
  unfold Scheduling.step at h
  split at h
  all_goals cases h
  all_goals simp only [Scheduling.rank, if_true]
  all_goals omega

theorem Scheduling.exists_step (staff : Staff) {c : Scheduling} (h : c ≠ .exited) :
    ∃ how c', how ≠ .timer ∧ c.step staff true how = some c' := by
  cases c with
  | exited => exact absurd rfl h
  | top => exact ⟨.go, .releasing, nofun, rfl⟩
  | locking => exact ⟨.locked false, .releasing, nofun, rfl⟩
  | looking left =>
      cases left with
      | zero => exact ⟨.go, .waiting, nofun, rfl⟩
      | succ left => exact ⟨.tick false, .looking left, nofun, rfl⟩
  | inserting left => exact ⟨.inserted false, .looking left, nofun, rfl⟩
  | waiting => exact ⟨.cancel, .releasing, nofun, rfl⟩
  | releasing => exact ⟨.go, .exited, nofun, rfl⟩

/-! ## Together -/

/-- The goroutines under `background` besides the heartbeat. -/
structure Crew where
  rescuer : Rescuer
  refresher : Refresher
  listener : Option Listener
  scheduler : Option Scheduling
  deriving DecidableEq, Repr

/-- The goroutines as `start` spawns them. -/
def Staff.crew (staff : Staff) : Crew :=
  { rescuer := .waiting
    refresher := .refreshing
    listener := if staff.listens then some .acquiring else none
    scheduler := if 0 < staff.periodic then some .top else none }

/-- How one of them takes a step. -/
inductive CrewStep where
  | rescue (how : RescueStep)
  | refresh (how : RefreshStep)
  | listen (how : ListenStep)
  | schedule (how : ScheduleStep)
  /-- a notification arrives -/
  | notified
  deriving DecidableEq, Repr

/-- The step waits for no ticker, no timer and no notification. -/
def CrewStep.prompt : CrewStep → Bool
  | .rescue .tick | .refresh .tick | .listen .timer | .schedule .timer | .notified => false
  | _ => true

/-- A step of one of them. -/
def Crew.step (staff : Staff) (cancelled : Bool) (c : Crew) : CrewStep → Option Crew
  | .rescue how => (c.rescuer.step cancelled how).map fun r => { c with rescuer := r }
  | .refresh how => (c.refresher.step cancelled how).map fun r => { c with refresher := r }
  | .listen how =>
      (c.listener.bind fun l => l.step cancelled how).map fun l => { c with listener := some l }
  | .schedule how =>
      (c.scheduler.bind fun p => p.step staff cancelled how).map fun p =>
        { c with scheduler := some p }
  | .notified => some { c with listener := c.listener.map Listener.notified }

/-- They have all returned. -/
def Crew.gone (c : Crew) : Bool :=
  c.rescuer == .exited && c.refresher == .exited && c.listener.all (· == .exited) &&
    c.scheduler.all (· == .exited)

@[inherit_doc Rescuer.rank]
def Crew.rank (c : Crew) : Nat :=
  c.rescuer.rank + c.refresher.rank + c.listener.elim 0 Listener.rank +
    c.scheduler.elim 0 Scheduling.rank

/-- Once `fetchCtx` is cancelled, each step that waits for nothing outside brings them nearer to
their end, whatever their calls answer. -/
theorem Crew.rank_lt_of_step {staff : Staff} {c c' : Crew} {how : CrewStep}
    (hprompt : how.prompt = true) (h : c.step staff true how = some c') : c'.rank < c.rank := by
  cases how with
  | rescue how =>
      obtain ⟨r, hr, rfl⟩ := Option.map_eq_some_iff.mp h
      have hlt := Rescuer.rank_lt_of_step (by rintro rfl; cases hprompt) hr
      simp only [Crew.rank]
      omega
  | refresh how =>
      obtain ⟨r, hr, rfl⟩ := Option.map_eq_some_iff.mp h
      have hlt := Refresher.rank_lt_of_step (by rintro rfl; cases hprompt) hr
      simp only [Crew.rank]
      omega
  | listen how =>
      obtain ⟨l', hl', rfl⟩ := Option.map_eq_some_iff.mp h
      obtain ⟨l, hl, hstep⟩ := Option.bind_eq_some_iff.mp hl'
      have hlt := Listener.rank_lt_of_step hstep
      simp only [Crew.rank, hl, Option.elim_some]
      omega
  | schedule how =>
      obtain ⟨p', hp', rfl⟩ := Option.map_eq_some_iff.mp h
      obtain ⟨p, hp, hstep⟩ := Option.bind_eq_some_iff.mp hp'
      have hlt := Scheduling.rank_lt_of_step hstep
      simp only [Crew.rank, hp, Option.elim_some]
      omega
  | notified => cases hprompt

/-- Until they have all returned, one of them has a way on. -/
theorem Crew.exists_step (staff : Staff) {c : Crew} (h : c.gone = false) :
    ∃ how c', how.prompt = true ∧ c.step staff true how = some c' := by
  obtain ⟨rescuer, refresher, listener, scheduler⟩ := c
  by_cases hrescuer : rescuer = .exited
  · by_cases hrefresher : refresher = .exited
    · cases hlistener : listener.all (· == .exited) with
      | false =>
          obtain ⟨l, rfl, hl⟩ : ∃ l, listener = some l ∧ l ≠ .exited := by
            cases listener <;> simp_all
          obtain ⟨how, l', hhow, hstep⟩ := Listener.exists_step hl
          refine ⟨.listen how, ⟨rescuer, refresher, some l', scheduler⟩, ?_, ?_⟩
          · cases how <;> first | rfl | exact absurd rfl hhow
          · simp only [Crew.step, Option.bind_some, hstep, Option.map_some]
      | true =>
          obtain ⟨p, rfl, hp⟩ : ∃ p, scheduler = some p ∧ p ≠ .exited := by
            cases scheduler <;> simp_all [Crew.gone]
          obtain ⟨how, p', hhow, hstep⟩ := Scheduling.exists_step staff hp
          refine ⟨.schedule how, ⟨rescuer, refresher, listener, some p'⟩, ?_, ?_⟩
          · cases how <;> first | rfl | exact absurd rfl hhow
          · simp only [Crew.step, Option.bind_some, hstep, Option.map_some]
    · obtain ⟨how, r, hhow, hstep⟩ := Refresher.exists_step hrefresher
      refine ⟨.refresh how, ⟨rescuer, r, listener, scheduler⟩, ?_, ?_⟩
      · cases how <;> first | rfl | exact absurd rfl hhow
      · simp only [Crew.step, hstep, Option.map_some]
  · obtain ⟨how, r, hhow, hstep⟩ := Rescuer.exists_step hrescuer
    refine ⟨.rescue how, ⟨r, refresher, listener, scheduler⟩, ?_, ?_⟩
    · cases how <;> first | rfl | exact absurd rfl hhow
    · simp only [Crew.step, hstep, Option.map_some]

/-! ## Beside the pool -/

/-- The step is the one past `background.Wait()`. -/
def State.joins (s : State) : DrainStep → Bool
  | .go =>
      match s.drain with
      | .joining _ => true
      | _ => false
  | _ => false

/-- A pool with the goroutines `start` has spawned beside it. -/
def staffed (cfg : Config) (staff : Staff) : Joint State Label Crew CrewStep where
  next := next cfg
  started _ := true
  told := State.fetchCancelled
  waits s label :=
    match label with
    | .drain how => s.joins how
    | _ => false
  step := Crew.step staff
  gone := Crew.gone

/-- Whatever the goroutines are beside, they leave once `fetchCtx` is cancelled. -/
theorem leaves_crew (staff : Staff) {σ ι : Type} {J : Joint σ ι Crew CrewStep}
    (hstep : J.step = Crew.step staff) (hgone : J.gone = Crew.gone) :
    J.Leaves (fun how => how.prompt = true) Crew.rank := by
  intro c hstays
  rw [hgone] at hstays
  rw [hstep]
  obtain ⟨how, c', hprompt, hstep⟩ := Crew.exists_step staff hstays
  exact ⟨how, c', hprompt, hstep, Crew.rank_lt_of_step hprompt hstep⟩

/-- A pool that listens and has a periodic job. -/
def busyStaff : Staff := ⟨true, 1, true⟩

/-- The one worker is in its handler, the rescuer has two rows to dispose of, two notifications
are queued and the scheduler is in `TryBecomeLeader` when `Stop` is called. -/
def stoppedBusy : List (Label ⊕ CrewStep) :=
  (claimOne ++ startOne).map .inl ++
    [.inr (.rescue .tick), .inr (.rescue (.rows 2)), .inr (.listen .done), .inr (.listen .done),
      .inr .notified, .inr .notified, .inr (.schedule .go), .inl (.drain .go), .inl (.drain .go)]

/-- There the job is reported, after twenty-five steps at most. -/
example :
    (run (staffed single busyStaff).after (single.start Memdriver.new, busyStaff.crew)
        stoppedBusy).2.rank = 16 ∧
      verdict (run (staffed single busyStaff).after (single.start Memdriver.new, busyStaff.crew)
        stoppedBusy).1.inflight.snapshot = [.drainIncomplete 1] := by
  decide

end Drover.Pool
