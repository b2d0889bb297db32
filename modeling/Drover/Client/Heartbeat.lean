import Mathlib.Tactic.Linarith
import Drover.Client.Settings
import Drover.Memdriver.Renewal

set_option autoImplicit false

/-!
# Beating on a fraction of the lease (`heartbeat`)

`heartbeat` renews every held lease once an interval, with one interval as the timeout of
the call.  Whether that is often enough is a matter of time, so the store stands here beside
a clock: a ticker fires, the loop takes the tick, `ExtendLeases` lands some time within its
timeout or does not, and anybody may call the driver in between.  The loop is taken to react
at once; what is left of an interval is the database's.
-/

namespace Drover.Client

open Drover.Foundation
open Drover.Driver
open Drover.Memdriver (Op)
open Drover.Go (Time Duration second minute)
open Drover.Queues (WeightedQueue checkedQueues)
open Drover.Scheduler (PeriodicJob Entry checkedPeriodicJobs)

variable {μ : Type}

/-! ## The loop and its clock -/

/-- Where `heartbeat` is. -/
inductive Beat where
  | waiting
  /-- in `ExtendLeases`, called at `since` with a snapshot of the leases -/
  | extending (since : Time) (leases : List Lease)
  deriving DecidableEq, Repr

/-- The store, the clock, and the ticker of one client's heartbeat. -/
structure Clocked where
  db : Memdriver.Driver
  now : Time
  /-- when the ticker fires next -/
  nextTick : Time
  /-- a tick is in the ticker's channel -/
  ticked : Bool
  beat : Beat

/-- What can happen next. -/
inductive Happening where
  /-- time passes -/
  | pass (d : Duration)
  /-- the ticker fires -/
  | fire
  /-- the loop takes a tick, and `extendLeases` its snapshot -/
  | begin (leases : List Lease)
  /-- `ExtendLeases` takes effect and returns -/
  | land
  /-- `ExtendLeases` fails, at its timeout at the latest -/
  | miss
  /-- somebody calls the driver -/
  | call (op : Op)
  deriving DecidableEq, Repr

/-- The loop has nothing to do before `t`. -/
def Clocked.idleUntil (settings : Settings μ) (w : Clocked) (t : Time) : Bool :=
  match w.beat with
  | .waiting => !w.ticked
  | .extending since _ => t ≤ since + settings.heartbeatInterval

/-- One step; `none` when it cannot be taken. -/
def Clocked.step (settings : Settings μ) (w : Clocked) : Happening → Option Clocked
  | .pass d =>
      if 0 < d ∧ w.now + d ≤ w.nextTick ∧ w.idleUntil settings (w.now + d) then
        some { w with now := w.now + d }
      else none
  | .fire =>
      if w.now = w.nextTick then
        some { w with nextTick := w.nextTick + settings.heartbeatInterval, ticked := true }
      else none
  | .begin leases =>
      match w.beat with
      | .waiting =>
          if w.ticked then
            -- an empty snapshot is not sent
            some { w with ticked := false, beat := if leases = [] then .waiting else .extending w.now leases }
          else none
      | .extending _ _ => none
  | .land =>
      match w.beat with
      | .extending since leases =>
          if w.now < since + settings.heartbeatInterval then
            some { w with
              db := w.db.extendLeases w.now leases settings.leaseDuration
              beat := .waiting }
          else none
      | .waiting => none
  | .miss =>
      match w.beat with
      | .extending _ _ => some { w with beat := .waiting }
      | .waiting => none
  | .call op => some { w with db := Memdriver.next w.db op }

/-- The state after a step; a step that cannot be taken does nothing. -/
def Clocked.next (settings : Settings μ) (w : Clocked) (e : Happening) : Clocked :=
  (w.step settings e).getD w

/-- A loop that starts at `t`, over an empty store. -/
def Settings.clocked (settings : Settings μ) (t : Time) : Clocked :=
  ⟨Memdriver.new, t, t + settings.heartbeatInterval, false, .waiting⟩

/-- What a step can do. -/
inductive Clocked.Move (settings : Settings μ) (w : Clocked) : Happening → Clocked → Prop where
  | stuck {e : Happening} (h : w.step settings e = none) : Move settings w e w
  | pass {d : Duration} (hpos : 0 < d) (htick : w.now + d ≤ w.nextTick)
      (hidle : w.idleUntil settings (w.now + d) = true) :
      Move settings w (.pass d) { w with now := w.now + d }
  | fire (hnow : w.now = w.nextTick) :
      Move settings w .fire
        { w with nextTick := w.nextTick + settings.heartbeatInterval, ticked := true }
  | skip (hbeat : w.beat = .waiting) (hticked : w.ticked = true) :
      Move settings w (.begin []) { w with ticked := false, beat := .waiting }
  | begin {leases : List Lease} (hbeat : w.beat = .waiting) (hticked : w.ticked = true)
      (hleases : leases ≠ []) :
      Move settings w (.begin leases) { w with ticked := false, beat := .extending w.now leases }
  | land {since : Time} {leases : List Lease} (hbeat : w.beat = .extending since leases)
      (hnow : w.now < since + settings.heartbeatInterval) :
      Move settings w .land { w with
        db := w.db.extendLeases w.now leases settings.leaseDuration
        beat := .waiting }
  | miss {since : Time} {leases : List Lease} (hbeat : w.beat = .extending since leases) :
      Move settings w .miss { w with beat := .waiting }
  | call {op : Op} : Move settings w (.call op) { w with db := Memdriver.next w.db op }

theorem Clocked.move_next (settings : Settings μ) (w : Clocked) (e : Happening) :
    w.Move settings e (w.next settings e) := by
  rw [Clocked.next]
  cases hstep : w.step settings e with
  | none => exact .stuck hstep
  | some w' =>
      rw [Option.getD_some]
      cases e with
      | pass d =>
          obtain ⟨⟨hpos, htick, hidle⟩, ⟨⟩⟩ := Option.ite_none_right_eq_some.mp hstep
          exact .pass hpos htick hidle
      | fire =>
          obtain ⟨hnow, ⟨⟩⟩ := Option.ite_none_right_eq_some.mp hstep
          exact .fire hnow
      | begin leases =>
          simp only [Clocked.step] at hstep
          split at hstep
          · rename_i hbeat
            obtain ⟨hticked, ⟨⟩⟩ := Option.ite_none_right_eq_some.mp hstep
            by_cases hleases : leases = []
            · subst hleases
              exact .skip hbeat hticked
            · rw [if_neg hleases]
              exact .begin hbeat hticked hleases
          · cases hstep
      | land =>
          simp only [Clocked.step] at hstep
          split at hstep
          · rename_i hbeat
            obtain ⟨hnow, ⟨⟩⟩ := Option.ite_none_right_eq_some.mp hstep
            exact .land hbeat hnow
          · cases hstep
      | miss =>
          simp only [Clocked.step] at hstep
          split at hstep
          · rename_i hbeat
            cases hstep
            exact .miss hbeat
          · cases hstep
      | call op =>
          cases hstep
          exact .call

/-- The ticker keeps its beat, and every call of `ExtendLeases` is over by the next tick. -/
structure Clocked.Ticking (settings : Settings μ) (w : Clocked) : Prop where
  fresh : w.db.Fresh
  early : w.now ≤ w.nextTick
  late : w.nextTick ≤ w.now + settings.heartbeatInterval
  ticked : w.ticked = true → w.nextTick = w.now + settings.heartbeatInterval
  extending : ∀ since leases, w.beat = .extending since leases → since ≤ w.now ∧
    w.now ≤ since + settings.heartbeatInterval ∧
    (w.ticked = false ∧ w.nextTick = since + settings.heartbeatInterval ∨
      w.ticked = true ∧ w.now = since + settings.heartbeatInterval)

theorem ticking_start {settings : Settings μ} (h : 0 < settings.heartbeatInterval) (t : Time) :
    (settings.clocked t).Ticking settings := by
  refine ⟨Memdriver.fresh_new, ?_, le_refl _, nofun, nofun⟩
  exact le_add_of_nonneg_right h.le

theorem Clocked.Ticking.next {settings : Settings μ} (hpos : 0 < settings.heartbeatInterval)
    {w : Clocked} (hw : w.Ticking settings) (e : Happening) : (w.next settings e).Ticking settings := by
  have hmove := w.move_next settings e
  generalize w.next settings e = w' at hmove ⊢
  obtain ⟨hfresh, hearly, hlate, hticked, hextending⟩ := hw
  cases hmove with
  | stuck h => exact ⟨hfresh, hearly, hlate, hticked, hextending⟩
  | @pass d hd htick hidle =>
      -- a tick or a timeout that is due would not let time pass
      have hopen : w.ticked = false := by
        cases hbeat : w.beat with
        | waiting => simpa [Clocked.idleUntil, hbeat] using hidle
        | extending since leases =>
            obtain ⟨-, -, ⟨hopen, -⟩ | ⟨-, hover⟩⟩ := hextending since leases hbeat
            · exact hopen
            · simp only [Clocked.idleUntil, hbeat, decide_eq_true_eq] at hidle
              linarith
      refine ⟨hfresh, htick, ?_, fun h => absurd (hopen.symm.trans h) nofun, ?_⟩
      · show w.nextTick ≤ w.now + d + settings.heartbeatInterval
        linarith
      · intro since leases hbeat
        obtain ⟨hsince, -, ⟨-, hnext⟩ | ⟨hclosed, -⟩⟩ := hextending since leases hbeat
        · refine ⟨?_, ?_, Or.inl ⟨hopen, hnext⟩⟩
          · show since ≤ w.now + d
            linarith
          · exact htick.trans hnext.le
        · exact absurd (hopen.symm.trans hclosed) nofun
  | fire hnow =>
      have hopen : w.ticked = false := by
        by_contra hclosed
        have hnext := hticked (by simpa using hclosed)
        linarith
      refine ⟨hfresh, ?_, ?_, fun _ => ?_, ?_⟩
      · show w.now ≤ w.nextTick + settings.heartbeatInterval
        linarith
      · show w.nextTick + settings.heartbeatInterval ≤ w.now + settings.heartbeatInterval
        linarith
      · show w.nextTick + settings.heartbeatInterval = w.now + settings.heartbeatInterval
        rw [hnow]
      · intro since leases hbeat
        obtain ⟨hsince, hover, ⟨-, hnext⟩ | ⟨hclosed, -⟩⟩ := hextending since leases hbeat
        · exact ⟨hsince, hover, Or.inr ⟨rfl, hnow.trans hnext⟩⟩
        · exact absurd (hopen.symm.trans hclosed) nofun
  | skip hbeat ht =>
      exact ⟨hfresh, hearly, hlate, nofun, nofun⟩
  | begin hbeat ht hleases =>
      refine ⟨hfresh, hearly, hlate, nofun, ?_⟩
      rintro since leases ⟨⟩
      exact ⟨le_refl _, le_add_of_nonneg_right hpos.le, Or.inl ⟨rfl, hticked ht⟩⟩
  | @land since leases hbeat hnow =>
      exact ⟨hfresh.next (.extendLeases w.now leases settings.leaseDuration), hearly, hlate, hticked, nofun⟩
  | miss hbeat => exact ⟨hfresh, hearly, hlate, hticked, nofun⟩
  | @call op => exact ⟨hfresh.next op, hearly, hlate, hticked, hextending⟩

/-! ## One lease -/

/-- The heartbeat, and how it has served one lease. -/
structure Followed where
  clock : Clocked
  /-- when the job was claimed, or the lease renewed last -/
  renewed : Time
  /-- the beats begun and ended since, without a renewal -/
  missed : Nat

/-- When the beat began that ends in this step. -/
def Clocked.ending (settings : Settings μ) (w : Clocked) : Happening → Option Time
  | .begin leases => if w.beat = .waiting ∧ w.ticked = true ∧ leases = [] then some w.now else none
  | .land =>
      match w.beat with
      | .extending since _ => if w.now < since + settings.heartbeatInterval then some since else none
      | .waiting => none
  | .miss =>
      match w.beat with
      | .extending since _ => some since
      | .waiting => none
  | _ => none

/-- The beat that ends in this step renews the lease. -/
def Clocked.renews (settings : Settings μ) (lease : Lease) (w : Clocked) : Happening → Bool
  | .land =>
      match w.beat with
      | .extending since leases => w.now < since + settings.heartbeatInterval ∧ lease ∈ leases
      | .waiting => false
  | _ => false

/-- A step, noted. -/
def Followed.next (settings : Settings μ) (lease : Lease) (w : Followed) (e : Happening) : Followed :=
  { clock := w.clock.next settings e
    renewed := if w.clock.renews settings lease e then w.clock.now else w.renewed
    missed :=
      if w.clock.renews settings lease e then 0
      else
        match w.clock.ending settings e with
        | some since => if w.renewed ≤ since then w.missed + 1 else w.missed
        | none => w.missed }

/-- The beats that have missed the lease in a row; one that has run into its timeout is one of
them. -/
def Followed.misses (settings : Settings μ) (w : Followed) : Nat :=
  match w.clock.beat with
  | .extending since _ =>
      if w.renewed ≤ since ∧ since + settings.heartbeatInterval ≤ w.clock.now then w.missed + 1
      else w.missed
  | .waiting => w.missed

/-- When the next beat begins, or the one under way began. -/
def Clocked.upcoming (w : Clocked) : Time :=
  match w.beat with
  | .extending since _ => since
  | .waiting => if w.ticked then w.now else w.nextTick

/-- The beat comes no later than one interval for each that was missed and one more. -/
structure Followed.Timely (settings : Settings μ) (w : Followed) : Prop where
  ticking : w.clock.Ticking settings
  renewed : w.renewed ≤ w.clock.now
  upcoming : w.clock.upcoming ≤ w.renewed + (w.missed + 1) * settings.heartbeatInterval

/-- The beat after one that ends is an interval later. -/
theorem Clocked.Ticking.upcoming_waiting {settings : Settings μ} {w : Clocked}
    (hw : w.Ticking settings) {since : Time} {leases : List Lease}
    (hbeat : w.beat = .extending since leases) (db : Memdriver.Driver) :
    { w with db := db, beat := .waiting : Clocked }.upcoming =
      since + settings.heartbeatInterval := by
  obtain ⟨-, -, ⟨hopen, hnext⟩ | ⟨hclosed, hnow⟩⟩ := hw.extending since leases hbeat
  · simp [Clocked.upcoming, hopen, hnext]
  · simp [Clocked.upcoming, hclosed, hnow]

/-- A beat has ended without a renewal. -/
theorem missed_bound {renewed since h : Int} {missed : Nat} (hpos : 0 < h)
    (hsince : since ≤ renewed + (missed + 1) * h) :
    since + h ≤ renewed + ((if renewed ≤ since then missed + 1 else missed : Nat) + 1) * h := by
  split
  · push_cast
    linarith
  · have hmissed : 0 ≤ missed * h := mul_nonneg (Int.natCast_nonneg missed) hpos.le
    linarith

/-- No beat ends in a step that cannot be taken. -/
theorem Clocked.quiet_of_stuck {settings : Settings μ} {w : Clocked} {e : Happening} (lease : Lease)
    (h : w.step settings e = none) : w.ending settings e = none ∧ w.renews settings lease e = false := by
  cases e with
  | begin leases =>
      simp only [Clocked.step] at h
      split at h
      · rename_i hbeat
        have hopen : w.ticked = false := by simpa using h
        simp [Clocked.ending, Clocked.renews, hopen]
      · rename_i hbeat
        simp [Clocked.ending, Clocked.renews, hbeat]
  | land =>
      simp only [Clocked.step] at h
      split at h
      · rename_i hbeat
        split at h
        · cases h
        · rename_i hlate
          simp [Clocked.ending, Clocked.renews, hbeat, hlate]
      · rename_i hbeat
        simp [Clocked.ending, Clocked.renews, hbeat]
  | miss =>
      simp only [Clocked.step] at h
      split at h
      · cases h
      · rename_i hbeat
        simp [Clocked.ending, Clocked.renews, hbeat]
  | _ => exact ⟨rfl, rfl⟩

/-- A step in which no beat ends. -/
theorem Followed.next_of_quiet {settings : Settings μ} {lease : Lease} {w : Followed} {e : Happening}
    (hending : w.clock.ending settings e = none) (hrenews : w.clock.renews settings lease e = false) :
    w.next settings lease e = ⟨w.clock.next settings e, w.renewed, w.missed⟩ := by
  simp [Followed.next, hending, hrenews]

/-- A step in which a beat ends that does not renew the lease. -/
theorem Followed.next_of_missed {settings : Settings μ} {lease : Lease} {w : Followed} {e : Happening}
    {since : Time} (hending : w.clock.ending settings e = some since)
    (hrenews : w.clock.renews settings lease e = false) :
    w.next settings lease e = ⟨w.clock.next settings e, w.renewed,
      if w.renewed ≤ since then w.missed + 1 else w.missed⟩ := by
  simp [Followed.next, hending, hrenews]

theorem Followed.Timely.next {settings : Settings μ} (hpos : 0 < settings.heartbeatInterval)
    {lease : Lease} {w : Followed} (hw : w.Timely settings) (e : Happening) :
    (w.next settings lease e).Timely settings := by
  have hticking := hw.ticking.next hpos e
  have hmove := w.clock.move_next settings e
  obtain ⟨hold, hrenewed, hupcoming⟩ := hw
  generalize hclock : w.clock.next settings e = clock at hticking hmove
  cases hmove with
  | stuck h =>
      obtain ⟨hending, hrenews⟩ := w.clock.quiet_of_stuck lease h
      rw [Followed.next_of_quiet hending hrenews, hclock]
      exact ⟨hticking, hrenewed, hupcoming⟩
  | @pass d hd htick hidle =>
      rw [Followed.next_of_quiet rfl rfl, hclock]
      refine ⟨hticking, ?_, ?_⟩
      · show w.renewed ≤ w.clock.now + d
        linarith
      · refine le_of_eq_of_le ?_ hupcoming
        cases hbeat : w.clock.beat with
        | waiting =>
            have hopen : w.clock.ticked = false := by simpa [Clocked.idleUntil, hbeat] using hidle
            simp [Clocked.upcoming, hbeat, hopen]
        | extending since leases => simp [Clocked.upcoming, hbeat]
  | fire hnow =>
      rw [Followed.next_of_quiet rfl rfl, hclock]
      refine ⟨hticking, hrenewed, le_of_eq_of_le ?_ hupcoming⟩
      cases hbeat : w.clock.beat with
      | waiting => simp [Clocked.upcoming, hbeat, hnow]
      | extending since leases => simp [Clocked.upcoming, hbeat]
  | skip hbeat ht =>
      have hending : w.clock.ending settings (.begin []) = some w.clock.now := by
        simp [Clocked.ending, hbeat, ht]
      rw [Followed.next_of_missed hending rfl, hclock]
      have hnow : w.clock.upcoming = w.clock.now := by simp [Clocked.upcoming, hbeat, ht]
      rw [hnow] at hupcoming
      refine ⟨hticking, hrenewed, le_of_eq_of_le ?_ (missed_bound hpos hupcoming)⟩
      simp [Clocked.upcoming, hold.ticked ht]
  | @begin leases hbeat ht hleases =>
      have hending : w.clock.ending settings (.begin leases) = none := by
        simp [Clocked.ending, hleases]
      rw [Followed.next_of_quiet hending rfl, hclock]
      refine ⟨hticking, hrenewed, le_of_eq_of_le ?_ hupcoming⟩
      simp [Clocked.upcoming, hbeat, ht]
  | @land since leases hbeat hnow =>
      have hnext := hold.upcoming_waiting hbeat
        (w.clock.db.extendLeases w.clock.now leases settings.leaseDuration)
      by_cases hmem : lease ∈ leases
      · have hrenews : w.clock.renews settings lease .land = true := by
          simp [Clocked.renews, hbeat, hnow, hmem]
        have hsince := (hold.extending since leases hbeat).1
        simp only [Followed.next, hrenews, if_true, hclock]
        refine ⟨hticking, le_refl _, ?_⟩
        rw [hnext]
        push_cast
        linarith
      · have hrenews : w.clock.renews settings lease .land = false := by
          simp [Clocked.renews, hbeat, hmem]
        have hending : w.clock.ending settings .land = some since := by
          simp [Clocked.ending, hbeat, hnow]
        rw [Clocked.upcoming, hbeat] at hupcoming
        rw [Followed.next_of_missed hending hrenews, hclock]
        exact ⟨hticking, hrenewed, le_of_eq_of_le hnext (missed_bound hpos hupcoming)⟩
  | @miss since leases hbeat =>
      have hending : w.clock.ending settings .miss = some since := by
        simp [Clocked.ending, hbeat]
      rw [Followed.next_of_missed hending rfl, hclock]
      rw [Clocked.upcoming, hbeat] at hupcoming
      exact ⟨hticking, hrenewed,
        le_of_eq_of_le (hold.upcoming_waiting hbeat w.clock.db) (missed_bound hpos hupcoming)⟩
  | call =>
      rw [Followed.next_of_quiet rfl rfl, hclock]
      exact ⟨hticking, hrenewed, hupcoming⟩

/-- The clock does not get to the deadline. -/
theorem Followed.Timely.in_time {settings : Settings μ} (hpos : 0 < settings.heartbeatInterval)
    {m : Nat} (hslack : (m + 2) * settings.heartbeatInterval ≤ settings.leaseDuration) {w : Followed}
    (hw : w.Timely settings) (hmisses : w.misses settings ≤ m) :
    w.clock.now < w.renewed + settings.leaseDuration := by
  have hm : 0 ≤ m * settings.heartbeatInterval := mul_nonneg (Int.natCast_nonneg m) hpos.le
  obtain ⟨hticking, hrenewed, hupcoming⟩ := hw
  have hscale : ∀ {k : Nat}, k ≤ m → k * settings.heartbeatInterval ≤ m * settings.heartbeatInterval :=
    fun hk => mul_le_mul_of_nonneg_right (by exact_mod_cast hk) hpos.le
  cases hbeat : w.clock.beat with
  | waiting =>
      have hmissed := hscale (show w.missed ≤ m by simpa [Followed.misses, hbeat] using hmisses)
      have hnow : w.clock.now ≤ w.clock.upcoming := by
        rw [Clocked.upcoming, hbeat]
        dsimp only
        split
        · exact le_refl _
        · exact hticking.early
      linarith
  | extending since leases =>
      obtain ⟨hsince, hover, -⟩ := hticking.extending since leases hbeat
      rw [Clocked.upcoming, hbeat] at hupcoming
      simp only [Followed.misses, hbeat] at hmisses
      split at hmisses
      · -- the beat has run into its timeout, and is one of those that missed
        have hmissed := hscale hmisses
        push_cast at hmissed
        linarith
      · rename_i hnot
        have hmissed := hscale hmisses
        by_cases hbefore : w.renewed ≤ since
        · have hnow : w.clock.now < since + settings.heartbeatInterval :=
            not_le.mp fun hle => hnot ⟨hbefore, hle⟩
          linarith
        · linarith

/-- What the others do while a job is held: they do not present its lease, and a sweep of the
rescuer reads the clock. -/
def Outside (lease : Lease) (now : Time) : Op → Prop
  | .mark lease' _ => lease' ≠ lease
  | .extendLeases _ leases _ => lease ∉ leases
  | .fetchExpired t _ _ => t = now
  | _ => True

instance Outside.decidable (lease : Lease) (now : Time) : (op : Op) → Decidable (Outside lease now op)
  | .mark lease' _ => inferInstanceAs (Decidable (lease' ≠ lease))
  | .extendLeases _ leases _ => inferInstanceAs (Decidable (lease ∉ leases))
  | .fetchExpired t _ _ => inferInstanceAs (Decidable (t = now))
  | .insert _ _ | .insertMany _ _ | .fetchAvailable _ _ _ _ | .operatorCancel _ _
  | .redriveDead _ _ | .getJob _ | .listJobs _ | .stats _ => .isTrue trivial

/-- Everybody keeps to their part, and no more than `m` beats have missed the lease in a row. -/
def Followed.Served (settings : Settings μ) (lease : Lease) (m : Nat) (w : Followed) :
    Happening → Prop
  | .call op => Outside lease w.clock.now op ∧ w.misses settings ≤ m
  | _ => w.misses settings ≤ m

instance Followed.Served.decidable (settings : Settings μ) (lease : Lease) (m : Nat) (w : Followed) :
    (e : Happening) → Decidable (w.Served settings lease m e)
  | .call op =>
      inferInstanceAs (Decidable (Outside lease w.clock.now op ∧ w.misses settings ≤ m))
  | .pass _ | .fire | .begin _ | .land | .miss =>
      inferInstanceAs (Decidable (w.misses settings ≤ m))

/-- The jobs a step hands out. -/
def Clocked.fetched (w : Clocked) : Happening → List JobRow
  | .call op => Memdriver.fetched w.db op
  | _ => []

/-- The job is held until a lease after the last renewal. -/
structure Followed.Kept (settings : Settings μ) (lease : Lease) (w : Followed) : Prop where
  timely : w.Timely settings
  held : Memdriver.Watched.Held lease ⟨w.clock.db, w.renewed + settings.leaseDuration⟩

theorem undisturbed_of_outside {lease : Lease} {now deadline : Time} {db : Memdriver.Driver} {op : Op}
    (h : Outside lease now op) (hnow : now < deadline) : Memdriver.Undisturbed lease ⟨db, deadline⟩ op := by
  cases op with
  | mark lease' m => exact h
  | fetchExpired t leaseFor limit =>
      show t < deadline
      rw [show t = now from h]
      exact hnow
  | _ => trivial

section Kept

variable {settings : Settings μ} (hpos : 0 < settings.heartbeatInterval) {m : Nat}
  (hslack : (m + 2) * settings.heartbeatInterval ≤ settings.leaseDuration) {lease : Lease}

include hpos hslack

theorem Followed.Kept.next {w : Followed} (hw : w.Kept settings lease) {e : Happening}
    (h : w.Served settings lease m e) : (w.next settings lease e).Kept settings lease := by
  refine ⟨hw.timely.next hpos e, ?_⟩
  have hheld := hw.held
  have hmove := w.clock.move_next settings e
  generalize hclock : w.clock.next settings e = clock at hmove
  cases hmove with
  | stuck hstuck =>
      obtain ⟨hending, hrenews⟩ := w.clock.quiet_of_stuck lease hstuck
      rw [Followed.next_of_quiet hending hrenews, hclock]
      exact hheld
  | pass hd htick hidle =>
      rw [Followed.next_of_quiet rfl rfl, hclock]
      exact hheld
  | fire hnow =>
      rw [Followed.next_of_quiet rfl rfl, hclock]
      exact hheld
  | skip hbeat ht =>
      have hending : w.clock.ending settings (.begin []) = some w.clock.now := by
        simp [Clocked.ending, hbeat, ht]
      rw [Followed.next_of_missed hending rfl, hclock]
      exact hheld
  | @begin leases hbeat ht hleases =>
      have hending : w.clock.ending settings (.begin leases) = none := by
        simp [Clocked.ending, hleases]
      rw [Followed.next_of_quiet hending rfl, hclock]
      exact hheld
  | @land since leases hbeat hnow =>
      have hextended : (Memdriver.Watched.next lease ⟨w.clock.db, w.renewed + settings.leaseDuration⟩
          (.extendLeases w.clock.now leases settings.leaseDuration)).Held lease := hheld.next trivial
      have hrenews : w.clock.renews settings lease .land = decide (lease ∈ leases) := by
        simp [Clocked.renews, hbeat, hnow]
      by_cases hmem : lease ∈ leases
      · simp only [Memdriver.Watched.next, if_pos hmem] at hextended
        simp only [Followed.next, hrenews, hmem, decide_true, if_true, hclock]
        exact hextended
      · simp only [Memdriver.Watched.next, if_neg hmem] at hextended
        simp only [Followed.next, hrenews, hmem, decide_false, hclock]
        exact hextended
  | @miss since leases hbeat =>
      have hending : w.clock.ending settings .miss = some since := by
        simp [Clocked.ending, hbeat]
      rw [Followed.next_of_missed hending rfl, hclock]
      exact hheld
  | @call op =>
      obtain ⟨houtside, hmisses⟩ := h
      have hcalled := hheld.next (undisturbed_of_outside houtside (hw.timely.in_time hpos hslack hmisses))
      rw [Followed.next_of_quiet rfl rfl, hclock]
      cases op with
      | extendLeases t leases leaseFor =>
          simp only [Memdriver.Watched.next, if_neg (show lease ∉ leases from houtside)] at hcalled
          exact hcalled
      | _ => exact hcalled

/-- While the job is held the deadline is ahead, and nobody is handed the job. -/
theorem Followed.Kept.exclusive {w : Followed} (hw : w.Kept settings lease) {e : Happening}
    (h : w.Served settings lease m e) :
    w.clock.now < w.renewed + settings.leaseDuration ∧
      ∀ row ∈ w.clock.fetched e, row.id ≠ lease.id := by
  have hmisses : w.misses settings ≤ m := by
    cases e with
    | call op => exact h.2
    | _ => exact h
  have hnow := hw.timely.in_time hpos hslack hmisses
  refine ⟨hnow, ?_⟩
  cases e with
  | call op => exact hw.held.not_fetched (undisturbed_of_outside h.1 hnow)
  | _ => exact fun row hrow => absurd hrow List.not_mem_nil

end Kept

/-- A client claims jobs and follows the lease of one of them. -/
def Clocked.claimed (settings : Settings μ) (w : Clocked) (queue : Bytes) (limit : Int) : Followed :=
  ⟨w.next settings (.call (.fetchAvailable w.now queue settings.leaseDuration limit)), w.now, 0⟩

/-- A claim begins a lease, whatever the heartbeat is doing. -/
theorem kept_of_claim {settings : Settings μ} (hpos : 0 < settings.heartbeatInterval) {w : Clocked}
    (hw : w.Ticking settings) {queue : Bytes} {limit : Int} {row : JobRow}
    (h : row ∈ (w.db.fetchAvailable w.now queue settings.leaseDuration limit).2) :
    (w.claimed settings queue limit).Kept settings row.lease := by
  have hticking := hw.next hpos (.call (.fetchAvailable w.now queue settings.leaseDuration limit))
  refine ⟨⟨hticking, le_refl _, ?_⟩, ?_⟩
  · show w.upcoming ≤ w.now + ((0 : Nat) + 1) * settings.heartbeatInterval
    have hlate := hw.late
    rw [Clocked.upcoming]
    split
    · rename_i hbeat
      have hsince := (hw.extending _ _ hbeat).1
      push_cast
      linarith
    · split
      · push_cast
        linarith
      · push_cast
        linarith
  · have hmem : row ∈ Memdriver.fetched w.db
        (.fetchAvailable w.now queue settings.leaseDuration limit) := h
    have hheld := Memdriver.held_of_fetched hw.fresh hmem
    obtain ⟨-, old, -, hchange⟩ := Memdriver.mem_fetched hmem
    cases hchange with
    | claim hdue => exact hheld

/-- A configuration that leaves everything to its default. -/
def unset : Options Unit := ⟨0, false, 0, 0, 0, 0, 0, [], Table.empty, [], []⟩

/-- What a client runs with under it. -/
def byDefault : Settings Unit :=
  { pollInterval := second
    notifyWakeup := false
    leaseDuration := 60 * second
    heartbeatInterval := 20 * second
    rescueInterval := 60 * second
    statsInterval := 15 * second
    concurrency := 10
    opsAddr := []
    queues := [⟨Scheduler.defaultQueue, 1⟩]
    middleware := []
    periodic := [] }

/-- Maps are visited as they are. -/
def asListed : Visit (Bytes × Int64) := ⟨id, List.Perm.refl⟩

/-- The job is claimed just after a tick.  The next beat fails at its timeout, the one after
it takes almost its whole interval to land, and the rescuer sweeps right before it. -/
def lateBeat : List Happening :=
  [.pass (20 * second - 1), .fire, .begin [⟨1, 1⟩], .pass (20 * second), .fire, .miss,
    .begin [⟨1, 1⟩], .pass (20 * second - 1), .call (.fetchExpired (80 * second - 1) (60 * second) (-1)),
    .land, .call (.fetchExpired (80 * second - 1) (60 * second) (-1))]

/-- A minute's lease, a job in the store, and one beat with nothing to renew. -/
def beforeClaim : List Happening :=
  [.call (.insert 0 Memdriver.sample), .pass (20 * second), .fire, .begin [], .pass 1]

/-- The row of the job when it is claimed. -/
def lateRow : JobRow :=
  Memdriver.claim (20 * second + 1) (60 * second) (Memdriver.jobFromParams 1 Memdriver.sample 0)

/-- The same client with a heartbeat that `newClient` accepts, two thirds of the lease. -/
def rarely : Settings Unit := { byDefault with heartbeatInterval := 40 * second }

-- The bound is needed: no beat fails, but the first one is still on its way when the lease
-- lapses, and the rescuer takes the job.
example :
    newClient asListed { unset with heartbeatInterval := 40 * second } = .ok rarely ∧
      ∃ w : Followed, w = run (Followed.next rarely ⟨1, 1⟩)
          ((run (Clocked.next rarely) (rarely.clocked 0)
            [.call (.insert 0 Memdriver.sample), .pass (40 * second), .fire, .begin [], .pass 1]).claimed
            rarely [] 1)
          [.pass (40 * second - 1), .fire, .begin [⟨1, 1⟩], .pass (20 * second + 1)] ∧
        w.misses rarely = 0 ∧
        (w.clock.fetched (.call (.fetchExpired w.clock.now (60 * second) 1))).map JobRow.id = [1] :=
  ⟨rfl, _, rfl, by decide, by decide⟩

end Drover.Client
