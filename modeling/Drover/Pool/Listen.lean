import Drover.Foundation.Progress
import Drover.Pool.Wakeup

set_option autoImplicit false

/-!
# Listening for notifications (`listenForWakeups`, `ListenWakeups`)

A pool that runs with `NotifyWakeup` has one more goroutine.  It takes a connection of its
own, listens on it and turns each notification into a nudge of the wake channel; when the
session breaks it gives the connection back and tries again after a poll interval, until
`fetchCtx` is cancelled.  A notification can therefore be in three places: queued in the
session, between `WaitForNotification` and the send, and in the channel.

`Wired` is the pool with its listener.  `clock`, `noticed`, `begun` and `completed` are
history, no step reads them.
-/

namespace Drover.Pool

open Drover.Foundation

/-- The errors of `ListenWakeups`. -/
inductive ListenError where
  /-- `acquire listen connection` -/
  | acquire
  /-- `listen drover` -/
  | listen
  /-- `wait for drover notification` -/
  | wait
  deriving DecidableEq, Repr

/-- Where the listener is.  `pending` notifications are queued in its session. -/
inductive Listener where
  /-- in `pool.Acquire` -/
  | acquiring
  /-- in the `LISTEN` statement -/
  | subscribing
  /-- in `WaitForNotification` -/
  | waiting (pending : Nat)
  /-- about to send on the wake channel -/
  | signalling (pending : Nat)
  /-- in the deferred `UNLISTEN` -/
  | unlistening (err : Option ListenError)
  /-- in the deferred `conn.Release` -/
  | releasing (err : Option ListenError)
  /-- `ListenWakeups` has returned -/
  | returned (err : Option ListenError)
  /-- waiting out a poll interval -/
  | retrying
  | exited
  deriving DecidableEq, Repr

/-- How the listener takes a step. -/
inductive ListenStep where
  /-- the call it is in succeeds -/
  | done
  /-- the call it is in fails -/
  | fail
  /-- the poll interval has passed -/
  | timer
  /-- the `fetchCtx.Done()` case of the select -/
  | cancel
  deriving DecidableEq, Repr

/-- A pool with its listener. -/
structure Wired where
  pool : State
  listener : Listener
  /-- the connections the listener has taken and not given back -/
  conns : Nat
  /-- the steps so far -/
  clock : Nat
  /-- when the listener's session was last sent a notification -/
  noticed : Option Nat
  /-- when the claim round begun last began -/
  begun : Option Nat
  /-- when the claim round completed last began -/
  completed : Option Nat

/-- A pool and its listener as `start` leaves them. -/
def Config.wired (cfg : Config) (db : Memdriver.Driver) : Wired :=
  { pool := cfg.start db
    listener := .acquiring
    conns := 0
    clock := 0
    noticed := none
    begun := none
    completed := none }

/-- `fetchCtx.Err() != nil`: `cancelBackground` has run. -/
def State.fetchCancelled (s : State) : Bool := s.drain ≠ .none

theorem State.fetchCancelled_iff {s : State} : s.fetchCancelled = true ↔ s.drain ≠ .none :=
  decide_eq_true_iff

def Wired.cancelled (s : Wired) : Bool := s.pool.fetchCancelled

/-- What a failed call makes `ListenWakeups` return. -/
def Wired.failure (s : Wired) (err : ListenError) : Option ListenError :=
  if s.cancelled then none else some err

/-- A step of `ListenWakeups` or `listenForWakeups`. -/
def Wired.listenStep (cfg : Config) (s : Wired) (how : ListenStep) : Option Wired :=
  match s.listener, how with
  | .acquiring, .done => some { s with conns := s.conns + 1, listener := .subscribing }
  | .acquiring, .fail => some { s with listener := .returned (s.failure .acquire) }
  | .subscribing, .done => some { s with listener := .waiting 0, noticed := none }
  | .subscribing, .fail => some { s with listener := .releasing (s.failure .listen) }
  | .waiting (pending + 1), .done => some { s with listener := .signalling pending }
  -- what is still queued goes with the session
  | .waiting _, .fail =>
      some { s with listener := .unlistening (s.failure .wait), noticed := none }
  | .signalling pending, .done =>
      some { s with pool := next cfg s.pool .nudge, listener := .waiting pending }
  -- the answer of `UNLISTEN` is discarded
  | .unlistening err, .done | .unlistening err, .fail => some { s with listener := .releasing err }
  | .releasing err, .done => some { s with conns := s.conns - 1, listener := .returned err }
  | .returned _, .done =>
      some { s with listener := if s.cancelled then .exited else .retrying }
  | .retrying, .timer => some { s with listener := .acquiring }
  | .retrying, .cancel => if s.cancelled then some { s with listener := .exited } else none
  | _, _ => none

/-- A notification is queued in the session, if there is one that listens. -/
def Wired.notify (s : Wired) : Wired :=
  match s.listener with
  | .waiting pending => { s with listener := .waiting (pending + 1), noticed := some s.clock }
  | .signalling pending => { s with listener := .signalling (pending + 1), noticed := some s.clock }
  | _ => s

/-- A step of the pool, with the rounds it begins and completes noted. -/
def Wired.work (cfg : Config) (s : Wired) (e : Event) : Wired :=
  let pool := after cfg s.pool e
  { s with
    pool := pool
    begun := if begins s.pool.fetch pool.fetch then some s.clock else s.begun
    completed := if completes s.pool.fetch pool.fetch then s.begun else s.completed }

/-- What can happen next. -/
inductive Signal where
  | work (e : Event)
  /-- somebody's `Notify`, or a transaction with a `NotifyTx`, commits -/
  | notify
  | listen (how : ListenStep)
  deriving DecidableEq, Repr

/-- The state after a step. -/
def Wired.next (cfg : Config) (s : Wired) (signal : Signal) : Wired :=
  let s' := match signal with
    | .work e => s.work cfg e
    | .notify => s.notify
    | .listen how => (s.listenStep cfg how).getD s
  { s' with clock := s.clock + 1 }

/-! ## What a step of the listener does -/

/-- A notification is on its way to the wake channel. -/
def Listener.behind : Listener → Bool
  | .waiting pending => pending ≠ 0
  | .signalling _ => true
  | _ => false

/-- The connections the listener is using. -/
def Listener.conns : Listener → Nat
  | .subscribing | .waiting _ | .signalling _ | .unlistening _ | .releasing _ => 1
  | .acquiring | .returned _ | .retrying | .exited => 0

/-- The notifications queued in the session. -/
def Listener.pending : Listener → Nat
  | .waiting pending | .signalling pending => pending
  | _ => 0

/-- A bound on the steps a listener still takes once `fetchCtx` is cancelled. -/
def Listener.rank : Listener → Nat
  | .retrying => 7
  | .acquiring => 6
  | .subscribing => 5
  | .signalling pending => 2 * pending + 5
  | .waiting pending => 2 * pending + 4
  | .unlistening _ => 3
  | .releasing _ => 2
  | .returned _ => 1
  | .exited => 0

theorem Listener.rank_le (l : Listener) : l.rank ≤ 7 + 2 * l.pending := by
  cases l <;> simp only [Listener.rank, Listener.pending] <;> omega

/-- What a step of the listener does to the listener and leaves to the pool. -/
structure Heard (s s' : Wired) : Prop where
  fetch : s'.pool.fetch = s.pool.fetch
  drain : s'.pool.drain = s.pool.drain
  begun : s'.begun = s.begun
  completed : s'.completed = s.completed
  noticed : ∀ t, s'.noticed = some t → s.noticed = some t
  /-- the notifications are with the listener or in the channel, gone with their session, or
  where they were -/
  notices : s'.listener.behind = true ∨ s'.pool.wake = true ∨ s'.noticed = none ∨
    s.listener.behind = false ∧ s'.pool.wake = s.pool.wake
  conns : s'.conns + s.listener.conns = s.conns + s'.listener.conns
  rank : s.cancelled = true → s'.listener.rank < s.listener.rank

theorem listenStep_heard {cfg : Config} {s s' : Wired} {how : ListenStep}
    (h : s.listenStep cfg how = some s') (hconns : s.conns = s.listener.conns) : Heard s s' := by
  unfold Wired.listenStep at h
  split at h
  all_goals (try split at h)
  all_goals cases h
  all_goals refine ⟨rfl, rfl, rfl, rfl, ?_, ?_, ?_, fun _ => ?_⟩
  all_goals simp_all [Listener.behind, Listener.conns, Listener.rank, Pool.next, step]
  all_goals omega

/-! ## No notification is lost -/

/-- A round began after the last notification, or a notification is on its way, or a token is
in the channel. -/
def Wired.Heeds (s : Wired) (round : Option Nat) : Prop :=
  s.listener.behind = true ∨ s.pool.wake = true ∨
    ∀ t, s.noticed = some t → ∃ began, round = some began ∧ t < began

/-- The notifications are heeded from the round on until the loop wakes up or dispatches. -/
structure Wired.Alert (s : Wired) : Prop where
  conns : s.conns = s.listener.conns
  past : ∀ t, s.noticed = some t → t < s.clock
  round : s.pool.fetch.inRound = true → s.Heeds s.begun
  rest : s.pool.fetch.resting = true → s.Heeds s.completed

theorem alert_start (cfg : Config) (db : Memdriver.Driver) : (cfg.wired db).Alert :=
  ⟨rfl, nofun, nofun, nofun⟩

theorem Heard.heeds {s s' : Wired} (hheard : Heard s s') {round : Option Nat} (h : s.Heeds round) :
    s'.Heeds round := by
  rcases hheard.notices with hbehind | hwake | hnone | ⟨hbehind, hwake⟩
  · exact Or.inl hbehind
  · exact Or.inr (Or.inl hwake)
  · exact Or.inr (Or.inr fun t ht => absurd (hnone.symm.trans ht) nofun)
  · rw [Wired.Heeds, hbehind] at h
    rcases h.resolve_left nofun with hwas | hround
    · exact Or.inr (Or.inl (hwake.trans hwas))
    · exact Or.inr (Or.inr fun t ht => hround t (hheard.noticed t ht))

/-- The listener takes a step. -/
theorem Heard.alert {s s' : Wired} (hheard : Heard s s') (h : s.Alert) :
    { s' with clock := s.clock + 1 : Wired }.Alert := by
  have hconns : s'.conns = s'.listener.conns := by
    have hmoved := hheard.conns
    have hheld := h.conns
    omega
  refine ⟨hconns, fun t ht => ?_, fun hin => ?_, fun hin => ?_⟩
  · exact Nat.lt_succ_of_lt (h.past t (hheard.noticed t ht))
  · show s'.Heeds s'.begun
    rw [hheard.begun]
    exact hheard.heeds (h.round (hheard.fetch ▸ hin))
  · show s'.Heeds s'.completed
    rw [hheard.completed]
    exact hheard.heeds (h.rest (hheard.fetch ▸ hin))

/-- A step of the pool that leaves the channel alone leaves the notifications where they are. -/
theorem Wired.Heeds.work {cfg : Config} {s : Wired} {e : Event} {round : Option Nat}
    (h : s.Heeds round) (hwake : (after cfg s.pool e).wake = s.pool.wake) :
    (s.work cfg e).Heeds round :=
  h.imp id (Or.imp hwake.trans id)

/-- The pool takes a step. -/
theorem Wired.Alert.work {cfg : Config} {s : Wired} (h : s.Alert) (e : Event) :
    { s.work cfg e with clock := s.clock + 1 : Wired }.Alert := by
  by_cases hnudge : e = .step .nudge
  · subst hnudge
    exact ⟨h.conns, fun t ht => Nat.lt_succ_of_lt (h.past t ht), fun _ => Or.inr (Or.inl rfl),
      fun _ => Or.inr (Or.inl rfl)⟩
  · obtain ⟨hround, hrest⟩ := after_orderly cfg s.pool hnudge
    refine ⟨h.conns, fun t ht => Nat.lt_succ_of_lt (h.past t ht), fun hin => ?_, fun hin => ?_⟩
    · show (s.work cfg e).Heeds (if begins s.pool.fetch (after cfg s.pool e).fetch then
        some s.clock else s.begun)
      obtain ⟨hwake, hbegins | ⟨hbegins, hbefore⟩⟩ := hround hin
      · -- the round begins now, and every notification is in the past
        rw [hbegins]
        exact Or.inr (Or.inr fun t ht => ⟨s.clock, rfl, h.past t ht⟩)
      · rw [hbegins]
        exact (h.round hbefore).work hwake
    · show (s.work cfg e).Heeds (if completes s.pool.fetch (after cfg s.pool e).fetch then
        s.begun else s.completed)
      obtain ⟨hwake, ⟨hcompletes, hbefore⟩ | ⟨hcompletes, hbefore⟩⟩ := hrest hin
      · rw [hcompletes]
        exact (h.round hbefore).work hwake
      · rw [hcompletes]
        exact (h.rest hbefore).work hwake

/-- A notification is sent. -/
theorem Wired.Alert.notify {s : Wired} (h : s.Alert) :
    { s.notify with clock := s.clock + 1 : Wired }.Alert := by
  have hconns := h.conns
  unfold Wired.notify
  split
  · rename_i heq
    rw [heq] at hconns
    refine ⟨hconns, fun t ht => ?_, fun _ => Or.inl ?_, fun _ => Or.inl ?_⟩
    · cases ht
      exact Nat.lt_succ_self s.clock
    · simp [Listener.behind]
    · simp [Listener.behind]
  · rename_i heq
    rw [heq] at hconns
    refine ⟨hconns, fun t ht => ?_, fun _ => Or.inl rfl, fun _ => Or.inl rfl⟩
    cases ht
    exact Nat.lt_succ_self s.clock
  · exact ⟨hconns, fun t ht => Nat.lt_succ_of_lt (h.past t ht), h.round, h.rest⟩

theorem Wired.Alert.next {cfg : Config} {s : Wired} (h : s.Alert) (signal : Signal) :
    (s.next cfg signal).Alert := by
  cases signal with
  | work e => exact h.work e
  | notify => exact h.notify
  | listen how =>
      cases hstep : s.listenStep cfg how with
      | none =>
          rw [Wired.next, hstep]
          exact ⟨h.conns, fun t ht => Nat.lt_succ_of_lt (h.past t ht), h.round, h.rest⟩
      | some s' =>
          rw [Wired.next, hstep]
          exact (listenStep_heard hstep h.conns).alert h

theorem run_alert (cfg : Config) (db : Memdriver.Driver) (signals : List Signal) :
    (run (Wired.next cfg) (cfg.wired db) signals).Alert :=
  run_invariant (fun _ signal h => h.next signal) (alert_start cfg db) signals

/-- In every state of every run in which the loop is blocked in `sleep` on an empty channel and
the listener is blocked in `WaitForNotification` on an empty queue, the claim round completed
last began after every notification sent to the session. -/
theorem run_no_lost_notification (cfg : Config) (db : Memdriver.Driver) (signals : List Signal)
    (hsleep : (run (Wired.next cfg) (cfg.wired db) signals).pool.fetch = .sleep)
    (hwake : (run (Wired.next cfg) (cfg.wired db) signals).pool.wake = false)
    (hwait : (run (Wired.next cfg) (cfg.wired db) signals).listener = .waiting 0) (t : Nat)
    (hnoticed : (run (Wired.next cfg) (cfg.wired db) signals).noticed = some t) :
    ∃ began, (run (Wired.next cfg) (cfg.wired db) signals).completed = some began ∧ t < began := by
  have hrest := (run_alert cfg db signals).rest (by rw [hsleep]; rfl)
  rw [Wired.Heeds, hwait, hwake] at hrest
  rcases hrest with hbehind | hwake | hround
  · cases hbehind
  · cases hwake
  · exact hround t hnoticed

/-- A notification reaches the session while a round that finds nothing is under way; the
listener passes it on and the loop goes on until it sleeps on an empty channel. -/
def notifiedRun : List Signal :=
  [.listen .done, .listen .done] ++
    List.map .work [.step (.fetch .go), .step (.fetch (.order [[]])), .reply []] ++
    [.notify, .listen .done, .listen .done] ++
    List.map .work (List.replicate 9 (.step (.fetch .go)) ++
      [.step (.fetch (.order [[]])), .reply []] ++ List.replicate 6 (.step (.fetch .go)))

theorem notifiedRun_not_lost :
    (run (Wired.next single) (single.wired Memdriver.new) notifiedRun).pool.fetch = .sleep ∧
      (run (Wired.next single) (single.wired Memdriver.new) notifiedRun).noticed = some 5 ∧
      ∃ began, (run (Wired.next single) (single.wired Memdriver.new) notifiedRun).completed =
        some began ∧ 5 < began :=
  ⟨by decide, by decide,
    run_no_lost_notification single Memdriver.new notifiedRun (by decide) (by decide) (by decide) 5
      (by decide)⟩

/-! ## The listener leaves -/

/-- The listener takes a step. -/
def Wired.listens (cfg : Config) (s : Wired) : Signal → Bool
  | .listen how => (s.listenStep cfg how).isSome
  | _ => false

/-- A notification is sent. -/
def Signal.notifies : Signal → Bool
  | .notify => true
  | _ => false

/-- A shutdown that has begun has begun. -/
theorem drainStep_ne_none {cfg : Config} {s s' : State} {how : DrainStep}
    (h : drainStep cfg s how = some s') : s'.drain ≠ .none := by
  cases DrainTurn.of_step h <;> exact nofun

theorem after_ne_none (cfg : Config) {s : State} (h : s.drain ≠ .none) (e : Event) :
    (after cfg s e).drain ≠ .none := by
  cases e with
  | reply rows =>
      rw [after, State.receive]
      split <;> exact h
  | step label =>
      rw [after, Pool.next]
      cases hstep : step cfg s label with
      | none => exact h
      | some s' =>
          cases label with
          | drain how => exact drainStep_ne_none hstep
          | _ =>
              rw [Option.getD_some, step_drain hstep (by simp)]
              exact h

/-- Cancelled, in a state that a run can reach. -/
structure Wired.Ending (s : Wired) : Prop where
  alert : s.Alert
  cancelled : s.cancelled = true

theorem Wired.Ending.next {cfg : Config} {s : Wired} (h : s.Ending) (signal : Signal) :
    (s.next cfg signal).Ending := by
  refine ⟨h.alert.next signal, ?_⟩
  have hdrain : s.pool.drain ≠ .none := State.fetchCancelled_iff.mp h.cancelled
  refine State.fetchCancelled_iff.mpr ?_
  cases signal with
  | work e => exact after_ne_none cfg hdrain e
  | notify =>
      show s.notify.pool.drain ≠ .none
      unfold Wired.notify
      split <;> exact hdrain
  | listen how =>
      show ((s.listenStep cfg how).getD s).pool.drain ≠ .none
      cases hstep : s.listenStep cfg how with
      | none => exact hdrain
      | some s' =>
          rw [Option.getD_some, (listenStep_heard hstep h.alert.conns).drain]
          exact hdrain

/-- Its own steps bring a cancelled listener closer to its exit, and only a notification
takes it further away. -/
theorem rank_next {cfg : Config} {s : Wired} (h : s.Ending) (signal : Signal) :
    (s.next cfg signal).listener.rank + (s.listens cfg signal).toNat ≤
      s.listener.rank + 2 * signal.notifies.toNat := by
  cases signal with
  | work e => exact Nat.le_refl _
  | notify =>
      show s.notify.listener.rank + 0 ≤ s.listener.rank + 2
      unfold Wired.notify
      split
      · rename_i heq
        simp only [heq, Listener.rank]
        omega
      · rename_i heq
        simp only [heq, Listener.rank]
        omega
      · omega
  | listen how =>
      show ((s.listenStep cfg how).getD s).listener.rank + (s.listenStep cfg how).isSome.toNat ≤ _
      cases hstep : s.listenStep cfg how with
      | none => exact Nat.le_refl _
      | some s' => exact (listenStep_heard hstep h.alert.conns).rank h.cancelled

theorem Wired.Ending.steps_le {cfg : Config} {s : Wired} (h : s.Ending) (signals : List Signal) :
    tally (Wired.next cfg) (Wired.listens cfg) s signals ≤
      7 + 2 * (s.listener.pending + signals.countP Signal.notifies) := by
  have hsteps : (run (Wired.next cfg) s signals).listener.rank +
      tally (Wired.next cfg) (Wired.listens cfg) s signals ≤
      s.listener.rank + 2 * tally (Wired.next cfg) (fun _ signal => signal.notifies) s signals :=
    rank_add_tally_le (P := Wired.Ending) (fun s => s.listener.rank)
      (fun _ signal h => h.next signal) (fun _ signal h => rank_next h signal) h signals
  have hrank := s.listener.rank_le
  rw [tally_label] at hsteps
  omega

/-- A listener is never stuck: every call it makes runs under `fetchCtx` or under a timeout of
its own, so that it fails in the end if it does not succeed. -/
theorem listenStep_enabled (cfg : Config) {s : Wired} (h : s.listener ≠ .exited) :
    ∃ how, (s.listenStep cfg how).isSome = true := by
  cases hpc : s.listener with
  | acquiring => exact ⟨.fail, by simp [Wired.listenStep, hpc]⟩
  | subscribing => exact ⟨.fail, by simp [Wired.listenStep, hpc]⟩
  | waiting pending => exact ⟨.fail, by simp [Wired.listenStep, hpc]⟩
  | signalling pending => exact ⟨.done, by simp [Wired.listenStep, hpc]⟩
  | unlistening err => exact ⟨.fail, by simp [Wired.listenStep, hpc]⟩
  | releasing err => exact ⟨.done, by simp [Wired.listenStep, hpc]⟩
  | returned err => exact ⟨.done, by simp [Wired.listenStep, hpc]⟩
  | retrying => exact ⟨.timer, by simp [Wired.listenStep, hpc]⟩
  | exited => exact absurd hpc h

/-- Once `fetchCtx` is cancelled the listener leaves, whatever the database answers and whatever
else happens: it takes at most seven steps, and two more for each notification of its session,
it has a next step as long as it has not left, and it has then given its connection back. -/
theorem run_listener_leaves (cfg : Config) (db : Memdriver.Driver) (before signals : List Signal)
    (h : (run (Wired.next cfg) (cfg.wired db) before).cancelled = true) :
    tally (Wired.next cfg) (Wired.listens cfg) (run (Wired.next cfg) (cfg.wired db) before) signals ≤
      7 + 2 * ((run (Wired.next cfg) (cfg.wired db) before).listener.pending +
        signals.countP Signal.notifies) ∧
    ((run (Wired.next cfg) (cfg.wired db) (before ++ signals)).listener ≠ .exited →
      ∃ how, ((run (Wired.next cfg) (cfg.wired db) (before ++ signals)).listenStep cfg how).isSome) ∧
    ((run (Wired.next cfg) (cfg.wired db) (before ++ signals)).listener = .exited →
      (run (Wired.next cfg) (cfg.wired db) (before ++ signals)).conns = 0) := by
  refine ⟨?_, listenStep_enabled cfg, fun hexited => ?_⟩
  · exact Wired.Ending.steps_le ⟨run_alert cfg db before, h⟩ signals
  · rw [(run_alert cfg db (before ++ signals)).conns, hexited]
    rfl

/-- A session with two notifications queued when the shutdown begins, and one more later. -/
def endingRun : List Signal :=
  [.listen .done, .listen .done, .notify, .notify, .work (.step (.drain .go))]

/-- The three notifications are still passed on. -/
def endingSteps : List Signal :=
  [.listen .done, .listen .done, .listen .done, .notify, .listen .done, .listen .done, .listen .done] ++
    [.listen .fail, .listen .fail, .listen .done, .listen .done]

theorem endingRun_leaves :
    (run (Wired.next single) (single.wired Memdriver.new) (endingRun ++ endingSteps)).listener = .exited ∧
      tally (Wired.next single) (Wired.listens single)
        (run (Wired.next single) (single.wired Memdriver.new) endingRun) endingSteps ≤ 13 ∧
      (run (Wired.next single) (single.wired Memdriver.new) (endingRun ++ endingSteps)).conns = 0 := by
  obtain ⟨hsteps, -, hconns⟩ :=
    run_listener_leaves single Memdriver.new endingRun endingSteps (by decide)
  exact ⟨by decide, hsteps, hconns (by decide)⟩

end Drover.Pool
