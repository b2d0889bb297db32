import Mathlib.Data.Fintype.Basic
import Mathlib.Data.Int.Interval
import Drover.Foundation.Successor
import Drover.Scheduler.Loop

set_option autoImplicit false

/-!
# Catching up (`enqueueDuePeriodic`)

A pass over the periodic entries: for each of them the due ticks are inserted in order, and
the watermark follows the last one that the store took.  A schedule is any function with the
contract of `cron.Schedule`; the clock reading of a call, what the store answers to each
insert and whether `fetchCtx` is done come from outside.

The loop over the due ticks of an entry is given fuel, since a schedule without the contract
may keep it going; `none` is a loop that has not come to its end.
-/

namespace Drover.Scheduler

open Drover.Foundation
open Drover.Go (Time Duration)

/-! ## The code -/

/-- How the insert of a tick ends; `failed` is an error of the store, or any error once
`fetchCtx` is done. -/
inductive Reply where
  | inserted
  | duplicate
  | failed
  deriving DecidableEq, Repr

/-- What `insertPeriodicTick` reports. -/
def Reply.advances : Reply → Bool
  | .inserted => true
  | .duplicate => true
  | .failed => false

/-- What a call of `enqueueDuePeriodic` finds: the clock reading, whether `fetchCtx` is done
before the insert of a tick of an entry, and how the insert ends. -/
structure Call (n : Nat) where
  now : Time
  done : Fin n → Time → Bool
  reply : Fin n → Time → Reply

/-- An insert that was made. -/
structure Attempt (n : Nat) where
  entry : Fin n
  fire : Time
  reply : Reply
  deriving DecidableEq, Repr

/-- How the loop over the due ticks of an entry ends: with its watermark, the tick that is
pending, whether the call returns there and the inserts it made. -/
structure Caught (n : Nat) where
  lastFire : Time
  fire : Time
  stopped : Bool
  attempts : List (Attempt n)
  deriving DecidableEq, Repr

/-- The inner loop of `enqueueDuePeriodic` for an entry with a schedule. -/
def catchUp {n : Nat} (call : Call n) (i : Fin n) (schedule : Time → Time) :
    Nat → Time → Option (Caught n)
  | 0, _ => none
  | fuel + 1, last =>
      let fire := schedule last
      if fire = 0 ∨ call.now < fire then some ⟨last, fire, false, []⟩
      else if call.done i fire then some ⟨last, fire, true, []⟩
      else
        let attempt : Attempt n := ⟨i, fire, call.reply i fire⟩
        if attempt.reply.advances then
          (catchUp call i schedule fuel fire).map fun c =>
            { c with attempts := attempt :: c.attempts }
        else some ⟨last, fire, false, [attempt]⟩

/-- What a call leaves and returns, with the inserts it made. -/
structure Pass (n : Nat) where
  lastFire : Fin n → Time
  wait : Duration
  attempts : List (Attempt n)

/-- `soonest` after an entry whose pending tick is `fire`. -/
def earlier (soonest fire : Time) : Time :=
  if fire = 0 then soonest else if soonest = 0 ∨ fire < soonest then fire else soonest

/-- The wait that is returned at the end of a call. -/
def waitFor (pollInterval : Duration) (now soonest : Time) : Duration :=
  if soonest = 0 then pollInterval else soonest.sub now

/-- The outer loop of `enqueueDuePeriodic`, over the entries that are left. -/
def enqueueEntries {n : Nat} (pollInterval : Duration) (periodic : Fin n → Time → Time)
    (fuel : Nat) (call : Call n) : List (Fin n) → (Fin n → Time) → Time → Option (Pass n)
  | [], lastFire, soonest => some ⟨lastFire, waitFor pollInterval call.now soonest, []⟩
  | i :: entries, lastFire, soonest =>
      (catchUp call i (periodic i) fuel (lastFire i)).bind fun c =>
        let lastFire := Function.update lastFire i c.lastFire
        if c.stopped then some ⟨lastFire, 0, c.attempts⟩
        else
          (enqueueEntries pollInterval periodic fuel call entries lastFire
            (earlier soonest c.fire)).map fun p => { p with attempts := c.attempts ++ p.attempts }

/-- `enqueueDuePeriodic`. -/
def enqueueDuePeriodic {n : Nat} (pollInterval : Duration) (periodic : Fin n → Time → Time)
    (fuel : Nat) (call : Call n) (lastFire : Fin n → Time) : Option (Pass n) :=
  enqueueEntries pollInterval periodic fuel call (List.finRange n) lastFire 0

/-- Calls in a row, each with the watermarks the one before left. -/
def enqueueAll {n : Nat} (pollInterval : Duration) (periodic : Fin n → Time → Time) (fuel : Nat) :
    List (Call n) → (Fin n → Time) → Option (List (Pass n))
  | [], _ => some []
  | call :: calls, lastFire =>
      (enqueueDuePeriodic pollInterval periodic fuel call lastFire).bind fun p =>
        (enqueueAll pollInterval periodic fuel calls p.lastFire).map (p :: ·)

/-! ## Schedules -/

/-- The answer of a schedule, which is the zero time when it has none. -/
def answer (schedule : Time → Time) (t : Time) : Option Time :=
  if schedule t = 0 then none else some (schedule t)

/-- The contract of `cron.Schedule` from an instant on: `Next` gives the earliest fire strictly
after an instant, and the zero time when there is none. -/
def Contract (schedule : Time → Time) (fires : Set Time) (start : Time) : Prop :=
  Enumerates (answer schedule) fires start

theorem answer_eq_some {schedule : Time → Time} {t u : Time} :
    answer schedule t = some u ↔ schedule t = u ∧ u ≠ 0 := by
  unfold answer
  split
  · rename_i h
    constructor
    · intro hnone
      cases hnone
    · rintro ⟨rfl, hne⟩
      exact absurd h hne
  · rename_i h
    rw [Option.some.injEq]
    refine ⟨?_, And.left⟩
    rintro rfl
    exact ⟨rfl, h⟩

theorem answer_eq_none {schedule : Time → Time} {t : Time} :
    answer schedule t = none ↔ schedule t = 0 := by
  unfold answer
  split
  · rename_i h
    exact ⟨fun _ => h, fun _ => rfl⟩
  · rename_i h
    exact ⟨fun hsome => absurd hsome (Option.some_ne_none _), fun hzero => absurd hzero h⟩

namespace Contract

variable {schedule : Time → Time} {fires : Set Time} {start t u : Time}

/-- An answer is a fire after the instant it was asked for. -/
theorem fire (h : Contract schedule fires start) (ht : start ≤ t) (hne : schedule t ≠ 0) :
    schedule t ∈ fires ∧ t < schedule t :=
  (h.least ht (answer_eq_some.mpr ⟨rfl, hne⟩)).1

/-- A fire after `t` leaves the schedule an answer, which is not later. -/
theorem le_of_fire (h : Contract schedule fires start) (ht : start ≤ t) (hu : u ∈ fires)
    (htu : t < u) : schedule t ≠ 0 ∧ schedule t ≤ u := by
  have hne : schedule t ≠ 0 := fun hzero =>
    absurd htu (h.none ht (answer_eq_none.mpr hzero) hu).not_gt
  exact ⟨hne, (h.least ht (answer_eq_some.mpr ⟨rfl, hne⟩)).2 ⟨hu, htu⟩⟩

/-- A schedule that never answers with the zero time meets the contract when its answers are
the least fires. -/
theorem of_isLeast (hne : ∀ t, start ≤ t → schedule t ≠ 0)
    (hleast : ∀ t, start ≤ t → IsLeast {u | u ∈ fires ∧ t < u} (schedule t)) :
    Contract schedule fires start where
  least ht h := by
    obtain ⟨rfl, -⟩ := answer_eq_some.mp h
    exact hleast _ ht
  none ht h := absurd (answer_eq_none.mp h) (hne _ ht)

/-- An `@every` schedule meets it from the zero time on. -/
theorem every {d : Duration} (hd : 0 < d) :
    Contract (Cron.everyNext d) {u | d ∣ u} 0 := by
  refine of_isLeast (fun t ht hzero => ?_) fun t _ => ?_
  · have hlt := (Cron.everyNext_isLeast hd t).1.1
    rw [hzero] at hlt
    exact absurd ht hlt.not_ge
  · have hset : {u | u ∈ {u | d ∣ u} ∧ t < u} = {u | t < u ∧ d ∣ u} := Set.ext fun u => and_comm
    rw [hset]
    exact Cron.everyNext_isLeast hd t

end Contract

/-! ## One entry in one call -/

section Entry

variable {n : Nat} {call : Call n} {i : Fin n} {schedule : Time → Time} {last : Time}

/-- `fetchCtx` stays live. -/
def Call.Live (call : Call n) : Prop := ∀ i fire, call.done i fire = false

/-- The insert of a tick. -/
def Call.attempt (call : Call n) (i : Fin n) (fire : Time) : Attempt n :=
  ⟨i, fire, call.reply i fire⟩

/-- How the loop of an entry can end: nothing is due any more, or an insert failed and its
tick is still pending.  The ticks before are those the schedule gives in a row. -/
inductive Catches (call : Call n) (i : Fin n) (schedule : Time → Time) (last : Time) :
    Caught n → Prop where
  | current (us : List Time) {w : Time} (walk : Walk (answer schedule) last us w)
      (taken : ∀ u ∈ us, u ≤ call.now ∧ (call.reply i u).advances)
      (pending : schedule w = 0 ∨ call.now < schedule w) :
      Catches call i schedule last ⟨w, schedule w, false, us.map (call.attempt i)⟩
  | failed (us : List Time) {w : Time} (walk : Walk (answer schedule) last us w)
      (taken : ∀ u ∈ us, u ≤ call.now ∧ (call.reply i u).advances)
      (due : schedule w ≠ 0 ∧ schedule w ≤ call.now)
      (refused : (call.reply i (schedule w)).advances = false) :
      Catches call i schedule last
        ⟨w, schedule w, false, us.map (call.attempt i) ++ [call.attempt i (schedule w)]⟩

theorem Catches.going {c : Caught n} (h : Catches call i schedule last c) : c.stopped = false := by
  cases h with
  | current => rfl
  | failed => rfl

theorem Catches.entry {c : Caught n} (h : Catches call i schedule last c) :
    ∀ a ∈ c.attempts, a.entry = i := by
  intro a ha
  cases h with
  | current us walk taken pending =>
      obtain ⟨u, -, rfl⟩ := List.mem_map.mp ha
      rfl
  | failed us walk taken due refused =>
      rcases List.mem_append.mp ha with ha | ha
      · obtain ⟨u, -, rfl⟩ := List.mem_map.mp ha
        rfl
      · obtain rfl := List.mem_singleton.mp ha
        rfl

/-- The end of the loop is the same when a tick is taken first. -/
theorem Catches.cons {c : Caught n} (hdue : schedule last ≠ 0 ∧ schedule last ≤ call.now)
    (htaken : (call.reply i (schedule last)).advances)
    (h : Catches call i schedule (schedule last) c) :
    Catches call i schedule last
      { c with attempts := call.attempt i (schedule last) :: c.attempts } := by
  have hnext : answer schedule last = some (schedule last) := answer_eq_some.mpr ⟨rfl, hdue.1⟩
  cases h with
  | current us walk taken pending =>
      refine .current (schedule last :: us) (.cons hnext walk) ?_ pending
      rintro u (_ | ⟨_, hu⟩)
      · exact ⟨hdue.2, htaken⟩
      · exact taken u hu
  | failed us walk taken due refused =>
      refine .failed (schedule last :: us) (.cons hnext walk) ?_ due refused
      rintro u (_ | ⟨_, hu⟩)
      · exact ⟨hdue.2, htaken⟩
      · exact taken u hu

theorem catchUp_catches (hlive : call.Live) : ∀ {fuel : Nat} {last : Time} {c : Caught n},
    catchUp call i schedule fuel last = some c → Catches call i schedule last c := by
  intro fuel
  induction fuel with
  | zero =>
      intro last c h
      cases h
  | succ fuel ih =>
      intro last c h
      simp only [catchUp, hlive i _, Bool.false_eq_true, if_false] at h
      split at h
      · rename_i hpending
        cases h
        exact .current [] (.nil last) (fun u hu => absurd hu List.not_mem_nil) hpending
      · rename_i hdue
        rw [not_or, not_lt] at hdue
        split at h
        · rename_i htaken
          obtain ⟨c', hc', rfl⟩ := Option.map_eq_some_iff.mp h
          exact (ih hc').cons hdue htaken
        · rename_i hrefused
          cases h
          exact .failed [] (.nil last) (fun u hu => absurd hu List.not_mem_nil) hdue
            (Bool.eq_false_iff.mpr hrefused)

/-- The loop comes to its end. -/
theorem catchUp_terminates {fires : Set Time} {start : Time}
    (hcontract : Contract schedule fires start) :
    ∀ {fuel : Nat} {last : Time}, start ≤ last → (call.now - last).toNat < fuel →
      ∃ c, catchUp call i schedule fuel last = some c := by
  intro fuel
  induction fuel with
  | zero => exact fun _ h => absurd h (Nat.not_lt_zero _)
  | succ fuel ih =>
      intro last hlast hfuel
      simp only [catchUp]
      split
      · exact ⟨_, rfl⟩
      · rename_i hdue
        rw [not_or, not_lt] at hdue
        split
        · exact ⟨_, rfl⟩
        · split
          · -- the watermark has moved towards `now`
            have hlt := (hcontract.fire hlast hdue.1).2
            have hmoved : (call.now - schedule last).toNat < fuel := by
              have hle := hdue.2
              grind
            obtain ⟨c, hc⟩ := ih (hlast.trans hlt.le) hmoved
            exact ⟨_, by rw [hc]; rfl⟩
          · exact ⟨_, rfl⟩

/-- More fuel changes nothing. -/
theorem catchUp_stable : ∀ {fuel : Nat} {last : Time} {c : Caught n},
    catchUp call i schedule fuel last = some c →
      catchUp call i schedule (fuel + 1) last = some c := by
  intro fuel
  induction fuel with
  | zero =>
      intro last c h
      cases h
  | succ fuel ih =>
      intro last c h
      rw [catchUp] at h ⊢
      dsimp only at h ⊢
      split
      · rename_i hpending
        rwa [if_pos hpending] at h
      · rename_i hdue
        rw [if_neg hdue] at h
        split
        · rename_i hdone
          rwa [if_pos hdone] at h
        · rename_i hdone
          rw [if_neg hdone] at h
          split
          · rename_i htaken
            rw [if_pos htaken] at h
            obtain ⟨c', hc', rfl⟩ := Option.map_eq_some_iff.mp h
            rw [ih hc']
            rfl
          · rename_i hrefused
            rwa [if_neg hrefused] at h

theorem catchUp_of_le {m k : Nat} {c : Caught n} (hle : m ≤ k)
    (h : catchUp call i schedule m last = some c) : catchUp call i schedule k last = some c := by
  induction hle with
  | refl => exact h
  | step _ ih => exact catchUp_stable ih

end Entry

end Drover.Scheduler
