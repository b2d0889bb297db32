import Drover.Foundation.SkipLocked
import Drover.Pgdriver.Simulation

set_option autoImplicit false

/-!
# Claims under way at the same time

`FetchAvailable` and `FetchExpired` are one statement each, and elsewhere in this development
they happen at once.  Postgres does not run them at once: each reads its own snapshot and
locks rows one by one, while other fetches do the same and other transactions write.
`FOR UPDATE SKIP LOCKED` is what makes up for it.  Here the two statements are claims in
the sense of `Foundation.SkipLocked`; by themselves they do what the statements of the
model do, and together they hand no job to two callers.
-/

namespace Drover.Pgdriver

open Drover.Foundation
open Drover.Driver
open Drover.Go (Time Duration)

variable {pg : Postgres}

/-- The statements that claim jobs, with the time of their transaction and the end of the leases
they write. -/
inductive Fetch where
  | available (now : Time) (queue : Bytes) (until_ : Time) (maxJobs : Int)
  | expired (now : Time) (until_ : Time) (maxJobs : Int)
  deriving DecidableEq, Repr

theorem claimSet_id (until_ : Time) (job : DroverJob pg) : (claimSet until_ job).id = job.id := rfl

theorem leaseSet_id (until_ : Time) (job : DroverJob pg) : (leaseSet until_ job).id = job.id := rfl

/-- What they claim, in which order, and how. -/
def Fetch.claim (pg : Postgres) : Fetch → Claim (DroverJob.id : DroverJob pg → Int)
  | .available now queue until_ maxJobs =>
      { keep := dueWhere now queue
        order := fun rows => rows.insertionSort (orderedBy DroverJob.scheduledAt DroverJob.id)
        limit := maxJobs.toNat
        set := claimSet until_
        perm := List.perm_insertionSort _
        key_set := claimSet_id until_ }
  | .expired now until_ maxJobs =>
      { keep := expiredWhere now
        order := fun rows =>
          rows.insertionSort (orderedBy (fun job => job.leasedUntil.getD 0) DroverJob.id)
        limit := maxJobs.toNat
        set := leaseSet until_
        perm := List.perm_insertionSort _
        key_set := leaseSet_id until_ }

/-- The end of the leases it writes. -/
def Fetch.leaseEnd : Fetch → Time
  | .available _ _ until_ _ => until_
  | .expired _ until_ _ => until_

/-- A fetch from its first statement to its commit, with nobody else about. -/
def Fetch.alone (jobs : Jobs pg) (f : Fetch) : List (SkipLocked.Label (DroverJob pg) Int Fetch) :=
  .begin 0 f ::
    (List.replicate (min (f.claim pg).limit ((f.claim pg).found jobs).length) (.look 0) ++ [.finish 0])

/-- The `UPDATE` of a claim is the one of the statement. -/
theorem apply_of_updateIds {db db' : Database pg} {ids : List Int} {claimed : List (DroverJob pg)}
    (c : Claim (DroverJob.id : DroverJob pg → Int))
    (h : db.updateIds ids c.set c.key_set = .ok (db', claimed)) : c.apply db.jobs ids = db'.jobs := by
  unfold Database.updateIds at h
  cases hcommit : commit (db.jobs.updateWhere (fun job => ids.contains job.id) c.set c.key_set) with
  | error err =>
      rw [hcommit] at h
      cases h
  | ok db'' =>
      rw [hcommit] at h
      cases h
      rw [jobs_of_commit hcommit, Claim.apply]
      congr 1
      funext job
      rw [List.contains_eq_mem]

theorem run_fetch_alone (jobs : Jobs pg) (f : Fetch) :
    (run (SkipLocked.World.next (Fetch.claim pg)) (SkipLocked.World.quiet jobs) (f.alone jobs)).table =
      (f.claim pg).apply jobs
        ((((f.claim pg).found jobs).take (f.claim pg).limit).map DroverJob.id) :=
  SkipLocked.run_alone (w := SkipLocked.World.quiet jobs) rfl fun _ => rfl

/-- By itself a fetch does what the statement of the model does. -/
theorem fetchAvailable_alone {db db' : Database pg} {now : Time} {leaseFor : Duration}
    {queue : Bytes} {maxJobs : Int} {claimed : List (DroverJob pg)}
    (h : db.fetchAvailable now leaseFor queue maxJobs = .ok (db', claimed)) :
    ∃ queue' until_, pg.text queue = some queue' ∧ pg.leaseEnd now leaseFor = some until_ ∧
      (run (SkipLocked.World.next (Fetch.claim pg)) (SkipLocked.World.quiet db.jobs)
        ((Fetch.available now queue' until_ maxJobs).alone db.jobs)).table = db'.jobs := by
  unfold Database.fetchAvailable at h
  split at h
  · rename_i queue' until_ hqueue hlease
    refine ⟨queue', until_, hqueue, hlease, ?_⟩
    rw [run_fetch_alone]
    dsimp only at h
    split at h
    · cases h
    · exact apply_of_updateIds ((Fetch.available now queue' until_ maxJobs).claim pg) h
  · cases h

theorem fetchExpired_alone {db db' : Database pg} {now : Time} {leaseFor : Duration} {maxJobs : Int}
    {claimed : List (DroverJob pg)} (h : db.fetchExpired now leaseFor maxJobs = .ok (db', claimed)) :
    ∃ until_, pg.leaseEnd now leaseFor = some until_ ∧
      (run (SkipLocked.World.next (Fetch.claim pg)) (SkipLocked.World.quiet db.jobs)
        ((Fetch.expired now until_ maxJobs).alone db.jobs)).table = db'.jobs := by
  unfold Database.fetchExpired at h
  split at h
  · rename_i until_ hlease
    refine ⟨until_, hlease, ?_⟩
    rw [run_fetch_alone]
    exact apply_of_updateIds ((Fetch.expired now until_ maxJobs).claim pg) h
  · cases h

/-- The commits of a run of fetches and other transactions. -/
def commitsOf (jobs : Jobs pg) (labels : List (SkipLocked.Label (DroverJob pg) Int Fetch)) :
    List (SkipLocked.Commit (DroverJob pg) Int Fetch) :=
  emitted (SkipLocked.World.next (Fetch.claim pg)) (SkipLocked.World.commits (Fetch.claim pg))
    (SkipLocked.World.quiet jobs) labels

/-- Two fetches hand out the same job only if somebody has written it in between.  That holds
of a sweep of the rescuer as long as its clock is before the end of every lease written
since. -/
theorem write_between_fetches {jobs : Jobs pg}
    {pre mid post : List (SkipLocked.Commit (DroverJob pg) Int Fetch)} {f f' : Fetch}
    {ids ids' : List Int}
    (hproper : Steps (SkipLocked.Commit.next (Fetch.claim pg)) (SkipLocked.Commit.Proper (Fetch.claim pg))
      jobs (pre ++ .claim f ids :: (mid ++ .claim f' ids' :: post)))
    (hlease : ∀ now until_ maxJobs, f' = .expired now until_ maxJobs → now < f.leaseEnd ∧
      ∀ f'' ids'', .claim f'' ids'' ∈ mid → now < f''.leaseEnd)
    {id : Int} (hid : id ∈ ids) (hid' : id ∈ ids') :
    ∃ rows, .write rows ∈ mid ∧ id ∈ rows.map DroverJob.id := by
  cases f' with
  | available now queue until_ maxJobs =>
      refine SkipLocked.write_between (J := fun job => job.state = .running) ?_ ?_ ?_ hproper hid hid'
      · intro job hkeep
        cases f with
        | available now queue until_ maxJobs => rfl
        | expired now until_ maxJobs =>
            simp only [Fetch.claim, expiredWhere, Bool.and_eq_true, beq_iff_eq] at hkeep
            exact hkeep.1
      · intro job hrunning
        simp [Fetch.claim, dueWhere, hrunning, fetchedState]
      · intro f'' ids'' _ job hrunning
        cases f'' with
        | available now queue until_ maxJobs => rfl
        | expired now until_ maxJobs => exact hrunning
  | expired now until_ maxJobs =>
      obtain ⟨hfirst, hmid⟩ := hlease now until_ maxJobs rfl
      have hset : ∀ g : Fetch, now < g.leaseEnd → ∀ job : DroverJob pg,
          ∃ t, ((g.claim pg).set job).leasedUntil = some t ∧ now < t := by
        intro g hlt job
        cases g with
        | available _ _ until_ _ => exact ⟨until_, rfl, hlt⟩
        | expired _ until_ _ => exact ⟨until_, rfl, hlt⟩
      refine SkipLocked.write_between (J := fun job => ∃ t, job.leasedUntil = some t ∧ now < t) ?_ ?_ ?_
        hproper hid hid'
      · exact fun job _ => hset f hfirst job
      · rintro job ⟨t, ht, hlt⟩
        simp [Fetch.claim, expiredWhere, ht, hlt]
      · exact fun f'' ids'' hmem job _ => hset f'' (hmid f'' ids'' hmem) job

/-- However many fetches are under way at once, each with its snapshot and its locks, and
whatever other transactions write meanwhile: the table is what the commits alone make of it,
one after another.  A job that a fetch hands out was due, or its lease had passed, in the table
at that moment, and no other fetch hands it out unless somebody has written it in between, or
the other is a `FetchExpired` of a time at which one of the leases written since has passed. -/
theorem run_fetches_apart (jobs : Jobs pg)
    (labels : List (SkipLocked.Label (DroverJob pg) Int Fetch)) :
    run (SkipLocked.Commit.next (Fetch.claim pg)) jobs (commitsOf jobs labels) =
        (run (SkipLocked.World.next (Fetch.claim pg)) (SkipLocked.World.quiet jobs) labels).table ∧
      (∀ pre post f ids, commitsOf jobs labels = pre ++ .claim f ids :: post →
        ids.Nodup ∧ ids.length ≤ (f.claim pg).limit ∧
          ∀ id ∈ ids, ∃ job, (run (SkipLocked.Commit.next (Fetch.claim pg)) jobs pre).get? id = some job ∧
            (f.claim pg).keep job = true) ∧
      ∀ pre mid post f f' ids ids',
        commitsOf jobs labels = pre ++ .claim f ids :: (mid ++ .claim f' ids' :: post) →
        (∀ now until_ maxJobs, f' = .expired now until_ maxJobs → now < f.leaseEnd ∧
          ∀ f'' ids'', .claim f'' ids'' ∈ mid → now < f''.leaseEnd) →
        ∀ id ∈ ids, id ∈ ids' → ∃ rows, .write rows ∈ mid ∧ id ∈ rows.map DroverJob.id := by
  obtain ⟨hrun, hproper⟩ := SkipLocked.run_commits (Fetch.claim pg) jobs labels
  refine ⟨hrun, fun pre post f ids h => ?_, fun pre mid post f f' ids ids' h hlease id hid hid' => ?_⟩
  · rw [← commitsOf, h] at hproper
    exact (steps_append.mp hproper).2.1
  · rw [← commitsOf, h] at hproper
    exact write_between_fetches hproper hlease hid hid'

/-- A job without arguments. -/
def plainJob (id : Int) (state : JobState) (attempt : Int) : DroverJob micros :=
  { id := id
    kind := []
    queue := []
    args := micros.array []
    state := state
    attempt := attempt
    maxAttempts := 25
    errors := micros.array []
    scheduledAt := 0
    leasedUntil := none
    createdAt := 0
    finalizedAt := none
    uniqueKey := none }

def twoWaiting : Jobs micros := Table.empty.putAll [plainJob 1 .available 0, plainJob 2 .available 0]

/-- A fetch of one job. -/
def fetchOne : Fetch := .available 1 [] 10 1

/-- Two fetches find the same job first; the second passes it over and takes the next one, and
commits before the first.  The first job fails, and a third fetch takes it again. -/
def crossing : List (SkipLocked.Label (DroverJob micros) Int Fetch) :=
  [.begin 0 fetchOne, .begin 1 fetchOne, .look 0, .look 1, .look 1, .finish 1, .finish 0, .open_ 2,
    .lock 2 1, .close 2 [plainJob 1 .retryable 1], .begin 3 fetchOne, .look 3, .finish 3]

theorem crossing_apart :
    commitsOf twoWaiting crossing = [.claim fetchOne [2], .claim fetchOne [1],
        .write [plainJob 1 .retryable 1], .claim fetchOne [1]] ∧
      ∃ rows, .write rows ∈ [SkipLocked.Commit.write (κ := Int) (γ := Fetch) [plainJob 1 .retryable 1]] ∧
        1 ∈ rows.map DroverJob.id := by
  have hcommits : commitsOf twoWaiting crossing = [.claim fetchOne [2]] ++ .claim fetchOne [1] ::
      ([.write [plainJob 1 .retryable 1]] ++ .claim fetchOne [1] :: []) := rfl
  exact ⟨hcommits, (run_fetches_apart twoWaiting crossing).2.2 _ _ _ _ _ _ _ hcommits nofun 1
    (by decide) (by decide)⟩

end Drover.Pgdriver
