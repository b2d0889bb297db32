import Drover.Scheduler.Turns

set_option autoImplicit false

/-!
# Ticks and the lock

The watermark of an entry is the last instant a client has dealt with; what it inserts
next is later.  When a client becomes leader it moves its watermarks to the present, and
whatever it inserts in that session is then later than the session's beginning.

But it moves them only when it notices that it was not leader before, and
`TryBecomeLeader` can lose one session and take another without anybody noticing.
-/

namespace Drover.Scheduler

open Drover.Foundation
open Drover.Driver
open Drover.Foundation.Bytes (ofChars)
open Drover.Go (Time)

/-! ## What is asked of the steps -/

/-- The entry a pass is at. -/
def Pc.entry : Pc → Option Nat
  | .pass _ i => some i
  | _ => none

/-- A lock is granted to a client that knows that it does not lead, and a tick is inserted
where its schedule does not turn back. -/
def Steady (cfg : Config) (s : State) : Label → Prop
  | .client n (.lock true) => (s.clients n).pc = .acquire → (s.clients n).wasLeader = false
  | .client n (.insert _) =>
      ∀ i ∈ (s.clients n).pc.entry, ∀ entry ∈ cfg.periodic[i]?, ∀ last ∈ (s.clients n).lastFire[i]?,
        ¬entry.schedule.Repeats last
  | _ => True

instance Steady.decidable (cfg : Config) (s : State) : (label : Label) →
    Decidable (Steady cfg s label)
  | .client n (.lock true) => inferInstanceAs (Decidable ((s.clients n).pc = .acquire → _))
  | .client n (.insert _) =>
      inferInstanceAs (Decidable (∀ i ∈ (s.clients n).pc.entry, ∀ entry ∈ cfg.periodic[i]?,
        ∀ last ∈ (s.clients n).lastFire[i]?, ¬entry.schedule.Repeats last))
  | .client _ .go | .client _ (.ping _) | .client _ (.lock false) | .client _ .fail
  | .client _ .quit | .tick _ | .die | .outside _ => inferInstanceAs (Decidable True)

/-- What `checkedPeriodicJobs` has seen of a job it goes past. -/
theorem checkJobs_cons {i : Nat} {seen : List (Bytes × Nat)} {job : PeriodicJob}
    {jobs : List PeriodicJob} {entries : List Entry}
    (h : checkJobs i seen (job :: jobs) = .ok entries) :
    ∃ args schedule rest, seen.lookup job.id = none ∧
      Cron.parseIn job.cron job.location = .ok schedule ∧
      checkJobs (i + 1) ((job.id, i) :: seen) jobs = .ok rest ∧
      entries = ⟨job, args, schedule⟩ :: rest := by
  unfold checkJobs at h
  split at h
  · cases h
  · split at h
    · cases h
    · rename_i hnew
      split at h
      · cases h
      · rename_i args _
        split at h
        · cases h
        · split at h
          · cases h
          · rename_i schedule hparse
            cases hrest : checkJobs (i + 1) ((job.id, i) :: seen) jobs with
            | error err =>
                rw [hrest] at h
                cases h
            | ok rest =>
                rw [hrest] at h
                cases h
                exact ⟨args, schedule, rest, hnew, hparse, rfl, rfl⟩

/-- An entry's schedule is what `ParseIn` made of its spec. -/
theorem parseIn_of_checkJobs {i : Nat} {seen : List (Bytes × Nat)} {jobs : List PeriodicJob}
    {entries : List Entry} (h : checkJobs i seen jobs = .ok entries) {entry : Entry}
    (hentry : entry ∈ entries) :
    Cron.parseIn entry.job.cron entry.job.location = .ok entry.schedule := by
  induction jobs generalizing i seen entries with
  | nil =>
      cases h
      cases hentry
  | cons job jobs ih =>
      obtain ⟨args, schedule, rest, -, hparse, hrest, rfl⟩ := checkJobs_cons h
      rcases List.mem_cons.mp hentry with rfl | hmem
      · exact hparse
      · exact ih hrest hmem

/-- What a steady client inserts is later than its watermark. -/
theorem Steady.lt_fire {cfg : Config} {s : State} {n i : Nat} {ok : Bool} {now last : Time}
    {entry : Entry} (h : Steady cfg s (.client n (.insert ok)))
    (hpc : (s.clients n).pc = .pass now i) (hentry : cfg.periodic[i]? = some entry)
    (hlast : (s.clients n).lastFire[i]? = some last) (hne : entry.schedule.next last ≠ 0) :
    last < entry.schedule.next last := by
  have hparse := parseIn_of_checkJobs cfg.checked (List.mem_of_getElem? hentry)
  exact Cron.lt_next_of_not_repeats hparse (h i (by rw [hpc]; rfl) entry hentry last hlast) hne

/-! ## Watermarks and sessions -/

/-- A client between two steps, as far as its session and its watermarks go. -/
structure Client.Marked (acquired : List Time) (c : Client) : Prop where
  session : ∀ sid, c.leaderConn = some sid → sid < acquired.length
  /-- a leader's watermarks are not before the beginning of its session -/
  after : ∀ sid t, c.leaderConn = some sid → c.wasLeader = true → acquired[sid]? = some t →
    ∀ last ∈ c.lastFire, t ≤ last

/-- The tick is later than the beginning of the session its client had. -/
def Tick.After (acquired : List Time) (tick : Tick) : Prop :=
  ∃ sid ∈ tick.session, ∃ t ∈ acquired[sid]?, t < tick.fire

instance (acquired : List Time) (tick : Tick) : Decidable (tick.After acquired) :=
  inferInstanceAs (Decidable (∃ sid ∈ tick.session, ∃ t ∈ acquired[sid]?, t < tick.fire))

/-- What clients keep that move their watermarks forward whenever they lead anew. -/
structure State.Led (cfg : Config) (s : State) : Prop where
  fits : ∀ n, (s.clients n).Fits cfg
  clock : ∀ t ∈ s.acquired, t ≤ s.clock
  marked : ∀ n, (s.clients n).Marked s.acquired
  log : cfg.hasLocker = true → ∀ tick ∈ s.log, tick.After s.acquired

theorem led_start (cfg : Config) (db : Memdriver.Driver) (clock : Time) :
    (start db clock).Led cfg := by
  refine ⟨fun n => ⟨?_, ?_, ?_, ?_, ?_⟩, ?_, fun n => ⟨?_, ?_⟩, ?_⟩
  all_goals simp [start, Pc.leads, Pc.settled]

/-- A client without a session has nothing to answer for. -/
theorem marked_of_none {acquired : List Time} {c : Client} (h : c.leaderConn = none) :
    c.Marked acquired := by
  constructor
  · intro sid hsid
    rw [h] at hsid
    cases hsid
  · intro sid t hsid
    rw [h] at hsid
    cases hsid

/-- A client that keeps its session, its watermarks and its flag. -/
theorem Client.Marked.keep {acquired : List Time} {c c' : Client} (h : c.Marked acquired)
    (hconn : c'.leaderConn = c.leaderConn) (hwas : c'.wasLeader = c.wasLeader)
    (hlast : c'.lastFire = c.lastFire) : c'.Marked acquired := by
  refine ⟨?_, ?_⟩
  · rw [hconn]
    exact h.session
  · rw [hconn, hwas, hlast]
    exact h.after

/-- Sessions that come later change nothing for a client. -/
theorem Client.Marked.append {acquired : List Time} {c : Client} (h : c.Marked acquired)
    (t : Time) : c.Marked (acquired ++ [t]) := by
  refine ⟨fun sid hsid => ?_, fun sid u hsid hwas hu => ?_⟩
  · have hlt := h.session sid hsid
    rw [List.length_append]
    omega
  · rw [List.getElem?_append_left (h.session sid hsid)] at hu
    exact h.after sid u hsid hwas hu

/-- A watermark that moves forward. -/
theorem Client.Marked.set {acquired : List Time} {c : Client} (h : c.Marked acquired) {i : Nat}
    {last fire : Time} (hlast : c.lastFire[i]? = some last) (hlt : last < fire) :
    Client.Marked acquired { c with lastFire := c.lastFire.set i fire } := by
  refine ⟨h.session, fun sid t hsid hwas ht mark hmark => ?_⟩
  have hafter := h.after sid t hsid hwas ht
  rcases List.mem_or_eq_of_mem_set hmark with hold | rfl
  · exact hafter mark hold
  · exact Int.le_of_lt (Int.lt_of_le_of_lt (hafter last (List.mem_of_getElem? hlast)) hlt)

theorem Tick.After.append {acquired : List Time} {tick : Tick} (h : tick.After acquired)
    (t : Time) : tick.After (acquired ++ [t]) := by
  obtain ⟨sid, hsid, u, hu, hlt⟩ := h
  refine ⟨sid, hsid, u, ?_, hlt⟩
  rw [List.getElem?_append_left (List.getElem?_eq_some_iff.mp hu).1]
  exact hu

/-- What a leader inserts after its watermark is after the beginning of its session. -/
theorem Client.Marked.after_of_lt {acquired : List Time} {c : Client} (h : c.Marked acquired)
    (hconn : c.leaderConn ≠ none) (hwas : c.wasLeader = true) {i : Nat} {last fire : Time}
    (hlast : c.lastFire[i]? = some last) (hlt : last < fire) (id : Bytes) (n : Nat) :
    Tick.After acquired ⟨id, fire, n, c.leaderConn⟩ := by
  obtain ⟨sid, hsid⟩ := Option.ne_none_iff_exists'.mp hconn
  have ht := List.getElem?_eq_getElem (h.session sid hsid)
  have hle := h.after sid _ hsid hwas ht last (List.mem_of_getElem? hlast)
  exact ⟨sid, hsid, _, ht, Int.lt_of_le_of_lt hle hlt⟩

/-- Replacing one client. -/
theorem forall_marked_update {acquired : List Time} {clients : Nat → Client} {n : Nat} {c : Client}
    (hc : c.Marked acquired) (h : ∀ m, (clients m).Marked acquired) (m : Nat) :
    (Function.update clients n c m).Marked acquired :=
  (Function.forall_update_iff clients fun _ c => c.Marked acquired).mpr ⟨hc, fun m _ => h m⟩ m

/-- The step lemma, for the steps of the clients. -/
theorem State.Led.turn {cfg : Config} {s s' : State} {n : Nat} {how : ClientStep} (h : s.Led cfg)
    (hsteady : Steady cfg s (.client n how)) (hturn : Turn cfg s n how s') : s'.Led cfg := by
  have hfits := hturn.fits h.fits
  have hc := h.marked n
  cases hturn with
  | keep _ hkeep _ =>
      refine ⟨hfits, h.clock, forall_marked_update ?_ h.marked, h.log⟩
      rcases hkeep with ⟨hnone, -⟩ | ⟨hconn, hwas, hlast⟩
      · exact marked_of_none hnone
      · exact hc.keep hconn hwas hlast
  | grant hpc _ =>
      refine ⟨hfits, ?_, forall_marked_update ⟨?_, ?_⟩ fun m => (h.marked m).append s.clock,
        fun hlocker tick htick => (h.log hlocker tick htick).append s.clock⟩
      · intro t ht
        rcases List.mem_append.mp ht with hold | hnew
        · exact h.clock t hold
        · rw [List.mem_singleton.mp hnew]
      · intro sid hsid
        cases hsid
        simp
      · -- its watermarks may be from any time, but it will not lead on them
        intro sid t _ hwas
        exact absurd (hwas.symm.trans (hsteady hpc)) (by decide)
  | lead _ _ =>
      refine ⟨hfits, h.clock, forall_marked_update ⟨hc.session, ?_⟩ h.marked, h.log⟩
      intro sid t _ _ ht last hlast
      rw [List.eq_of_mem_replicate hlast]
      exact h.clock t (List.mem_of_getElem? ht)
  | read _ => exact ⟨hfits, h.clock, forall_marked_update (hc.keep rfl rfl rfl) h.marked, h.log⟩
  | advance hpc hentry hlast hfire hne hdue hlog =>
      have hlt := hsteady.lt_fire hpc hentry hlast (by rw [hfire]; exact hne)
      rw [hfire] at hlt
      refine ⟨hfits, h.clock, forall_marked_update (hc.set hlast hlt) h.marked, ?_⟩
      intro hlocker tick htick
      rcases hlog with rfl | rfl
      · exact h.log hlocker tick htick
      · rcases List.mem_cons.mp htick with rfl | hold
        · have hconn := (h.fits n).leads (by rw [hpc]; rfl) hlocker
          have hwas := (h.fits n).settled (by rw [hpc]; rfl)
          exact hc.after_of_lt hconn hwas hlast hlt _ n
        · exact h.log hlocker tick hold

theorem led_next {cfg : Config} (s : State) (label : Label) (h : s.Led cfg)
    (hsteady : Steady cfg s label) : (next cfg s label).Led cfg := by
  refine next_rule h.fits label h ?_ ?_ ?_ ?_
  · rintro n how s' rfl hturn
    exact h.turn hsteady hturn
  · intro d
    have hle : s.clock ≤ s.clock + d := Int.le_add_of_nonneg_right (Int.natCast_nonneg d)
    exact ⟨h.fits, fun t ht => Int.le_trans (h.clock t ht) hle, h.marked, h.log⟩
  · exact ⟨h.fits, h.clock, h.marked, h.log⟩
  · intro db
    exact ⟨h.fits, h.clock, h.marked, h.log⟩

/-- In every run of any number of clients over one lock, in which a client is granted the
lock only when it knows that it did not lead before and no tick is inserted where its
schedule turns back, every inserted tick is strictly later than the instant at which its
client's session acquired the lock. -/
theorem run_ticks_after_lock (cfg : Config) (hlocker : cfg.hasLocker = true)
    (db : Memdriver.Driver) (clock : Time) (labels : List Label)
    (h : Steps (next cfg) (Steady cfg) (start db clock) labels) :
    ∀ tick ∈ (run (next cfg) (start db clock) labels).log,
      tick.After (run (next cfg) (start db clock) labels).acquired :=
  (run_of_steps led_next (led_start cfg db clock) h).log hlocker

/-- A job for every thirty seconds. -/
def thirtyJob : PeriodicJob :=
  ⟨ofChars ['t'], Cron.everyThirty, some ⟨ofChars ['k'], some (ofChars ['0'])⟩, [], none⟩

/-- Clients with that job. -/
def thirty : Config where
  jobs := [thirtyJob]
  periodic := [⟨thirtyJob, ⟨ofChars ['k'], some (ofChars ['0'])⟩, .every (30 * Go.second)⟩]
  checked := by
    have hid : thirtyJob.id ≠ [] := by decide
    have hkind : ofChars ['k'] ≠ [] := by decide
    have hparse : Cron.parseIn thirtyJob.cron thirtyJob.location = .ok (.every (30 * Go.second)) :=
      Cron.parseIn_everyThirty
    have hargs : thirtyJob.args = some ⟨ofChars ['k'], some (ofChars ['0'])⟩ := rfl
    simp only [checkedPeriodicJobs, checkJobs, if_neg hid, List.lookup_nil, hargs, if_neg hkind,
      hparse]
    rfl
  hasLocker := true

/-- A client takes the lock and finds nothing due. -/
def leadOnce (n : Nat) : List Label :=
  [.client n .go, .client n (.lock true), .client n .go, .client n .go, .client n .go,
    .client n .go]

/-- The tick comes, and the waiting leader inserts it. -/
def insertOnce (n : Nat) : List Label :=
  [.client n .go, .client n (.ping true), .client n .go, .client n .go, .client n (.insert true),
    .client n .go, .client n .go]

/-- A leader inserts a tick and dies, a second client takes over and inserts the next, and
the first finds the lock taken. -/
def handOver : List Label :=
  .client 0 .go :: .client 1 .go :: leadOnce 0 ++ .tick 30000000000 :: insertOnce 0 ++
    .die :: leadOnce 1 ++ .tick 30000000000 :: insertOnce 1 ++
    [.client 0 .go, .client 0 (.ping false), .client 0 (.lock false)]

theorem handOver_ticks_after_lock :
    (run (next thirty) (start Memdriver.new 1) handOver).log =
        [⟨ofChars ['t'], 60 * Go.second, 1, some 1⟩, ⟨ofChars ['t'], 30 * Go.second, 0, some 0⟩] ∧
      ∀ tick ∈ (run (next thirty) (start Memdriver.new 1) handOver).log,
        tick.After (run (next thirty) (start Memdriver.new 1) handOver).acquired :=
  ⟨by decide +kernel, run_ticks_after_lock thirty rfl _ 1 handOver (by decide +kernel)⟩

/-- A leader's session dies while it waits, a tick goes by, and the next `TryBecomeLeader`
pings the dead session, takes the lock in a new one and returns true as before. -/
def unnoticed : List Label :=
  .client 0 .go :: leadOnce 0 ++
    [.die, .tick 30000000000, .client 0 .go, .client 0 (.ping false), .client 0 (.lock true),
      .client 0 .go, .client 0 .go, .client 0 (.insert true)]

/-- The tick from before the new session is inserted. -/
theorem unnoticed_tick_before_lock :
    ¬∀ tick ∈ (run (next thirty) (start Memdriver.new 1) unnoticed).log,
      tick.After (run (next thirty) (start Memdriver.new 1) unnoticed).acquired := by
  decide +kernel

end Drover.Scheduler
