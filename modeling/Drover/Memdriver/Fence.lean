import Drover.Memdriver.Attempts

set_option autoImplicit false

/-!
# The attempt as a fence

A lease is a job and an attempt number, and a call that presents one is accepted
while the job runs on that attempt.  A claim raises the number, so a holder that has
been overtaken is refused, as long as the number does not come round again.  Two
calls lower it: `MarkSnoozed` gives one attempt back and `RedriveDead` starts over
from zero.  From the number a job is on, counted along a run, this file reads off
exactly when a stale lease is accepted again.
-/

namespace Drover.Memdriver

open Drover.Foundation
open Drover.Driver
open Drover.Go (Time Duration)

/-! ## When a lease is accepted -/

/-- The job runs on the attempt the lease names. -/
def Driver.Holds (d : Driver) (lease : Lease) : Prop :=
  ∃ row, d.jobs.get? lease.id = some row ∧ row.state = .running ∧ row.attempt = lease.attempt

theorem appendError_not_stale {row row' : JobRow} {detail : Option Bytes} {err : DriverError}
    (h : appendError row detail = (row', some err)) : err.isStale = false := by
  unfold appendError at h
  split at h
  · cases h
  · split at h
    · cases h
      rfl
    · split at h <;> cases h
      rfl

/-- A `Mark` of a stored job is refused as stale, the store left as it was, exactly
when the job does not run on the attempt of the lease. -/
theorem mark_stale_iff {d : Driver} {lease : Lease} {row : JobRow}
    (hrow : d.jobs.get? lease.id = some row) (m : Mark) :
    (∃ err, d.mark lease m = (d, some err) ∧ err.isStale = true) ↔ ¬d.Holds lease := by
  rw [mark_eq_transition, Driver.transition, hrow]
  by_cases hrunning : row.state = .running
  · by_cases hattempt : row.attempt = lease.attempt
    · simp only [hrunning, hattempt, ne_eq, not_true_eq_false, if_false]
      refine iff_of_false ?_ (not_not_intro ⟨row, hrow, hrunning, hattempt⟩)
      rintro ⟨err, heq, hstale⟩
      rw [Mark.apply_eq] at heq
      cases happend : appendError row m.detail with
      | mk appended result =>
          rw [happend] at heq
          cases result with
          | none => cases (Prod.mk.inj heq).2
          | some err' =>
              cases (Prod.mk.inj heq).2
              rw [appendError_not_stale happend] at hstale
              cases hstale
    · simp only [hrunning, hattempt, ne_eq, not_true_eq_false, not_false_eq_true, if_false, if_true]
      refine iff_of_true ⟨_, rfl, rfl⟩ ?_
      rintro ⟨row', hrow', -, hattempt'⟩
      rw [hrow] at hrow'
      cases hrow'
      exact hattempt hattempt'
  · simp only [hrunning, ne_eq, not_false_eq_true, if_true]
    refine iff_of_true ⟨_, rfl, rfl⟩ ?_
    rintro ⟨row', hrow', hrunning', -⟩
    rw [hrow] at hrow'
    cases hrow'
    exact hrunning hrunning'

/-- `ExtendLeases` handed one lease of a stored job leaves the row alone, whatever the
clock and the duration, exactly when the job does not run on the attempt of the
lease. -/
theorem extendLeases_unchanged_iff {d : Driver} {lease : Lease} {row : JobRow}
    (hrow : d.jobs.get? lease.id = some row) {leases : List Lease} (hmem : lease ∈ leases)
    (honly : ∀ other ∈ leases, other.id = lease.id → other = lease) :
    (∀ now leaseFor, (next d (.extendLeases now leases leaseFor)).jobs.get? lease.id =
      d.jobs.get? lease.id) ↔ ¬d.Holds lease := by
  have hkey : row.id = lease.id := Table.key_of_get? hrow
  by_cases hholds : d.Holds lease
  · refine iff_of_false ?_ (not_not_intro hholds)
    obtain ⟨row', hrow', hrunning, hattempt⟩ := hholds
    rw [hrow] at hrow'
    cases hrow'
    have hlease : row.lease = lease := by rw [JobRow.lease, hkey, hattempt]
    intro hsame
    -- Two different clock readings cannot both leave the lease as it is.
    have hat : ∀ now, row.leasedUntil = some now := by
      intro now
      have hnow := hsame now 0
      rw [get?_extendLeases, hrow, Option.map_some, if_pos ⟨hrunning, by rw [hlease]; exact hmem⟩] at hnow
      simpa [reclaim] using (congrArg JobRow.leasedUntil (Option.some.inj hnow)).symm
    have hboth := (hat 0).symm.trans (hat 1)
    cases hboth
  · refine iff_of_true ?_ hholds
    intro now leaseFor
    rw [get?_extendLeases, hrow, Option.map_some, if_neg]
    rintro ⟨hrunning, hheld⟩
    have hlease := honly _ hheld hkey
    exact hholds ⟨row, hrow, hrunning, by rw [← hlease, JobRow.lease]⟩

/-! ## Stale leases without a redrive -/

/-- After the calls `mid` the job runs again and every claim among them was undone by
a snooze, so its attempt is the one it was on before them. -/
def ComesRound (id : Int) (d : Driver) (mid : List Op) : Prop :=
  (∃ row, (run next d mid).jobs.get? id = some row ∧ row.state = .running) ∧
    tally next (claims id) d mid = tally next (snoozes id) d mid

theorem steps_not_redrives {id : Int} {ops : List Op}
    (h : ∀ op ∈ ops, ∀ now, op ≠ .redriveDead now id) (d : Driver) :
    Steps next (fun d op => redrives id d op = false) d ops := by
  rw [steps_iff]
  rintro pre op post rfl
  have hop := h op (by simp)
  cases op with
  | redriveDead now id' =>
      have hne : id' ≠ id := by
        rintro rfl
        exact hop now rfl
      simp [redrives, hne]
  | _ => rfl

/-- Between the fetch that issued a lease and a later state without a redrive, the job
is on the attempt of the lease exactly when the number has come round. -/
theorem holds_iff_comesRound {pre mid : List Op} {issue : Op} {row : JobRow}
    (hissued : row ∈ fetched (run next new pre) issue)
    (hredrive : ∀ op ∈ mid, ∀ now, op ≠ .redriveDead now row.id) :
    (run next new (pre ++ issue :: mid)).Holds row.lease ↔
      ComesRound row.id (run next new (pre ++ [issue])) mid := by
  have hstart : run next new (pre ++ [issue]) = next (run next new pre) issue := by
    rw [run_append, run_cons, run_nil]
  have hend : run next new (pre ++ issue :: mid) = run next (run next new (pre ++ [issue])) mid := by
    rw [hstart, run_append, run_cons]
  obtain ⟨hrow, -⟩ := mem_fetched hissued
  rw [← hstart] at hrow
  have hattempt := attempt_run (fresh_run (pre ++ [issue]) fresh_new) (allSound_run _)
    (steps_not_redrives hredrive _)
  rw [attempt_of_get? hrow] at hattempt
  rw [hend, ComesRound, Driver.Holds]
  constructor
  · rintro ⟨row', hrow', hrunning, hsame⟩
    have hsame : row'.attempt = row.attempt := hsame
    rw [show row.lease.id = row.id from rfl] at hrow'
    rw [attempt_of_get? hrow'] at hattempt
    exact ⟨⟨row', hrow', hrunning⟩, by omega⟩
  · rintro ⟨⟨row', hrow', hrunning⟩, hcount⟩
    rw [attempt_of_get? hrow'] at hattempt
    refine ⟨row', hrow', hrunning, ?_⟩
    show row'.attempt = row.attempt
    omega

/-- A lease a fetch issued, presented after any calls that redrive nothing of its job.
A `Mark` is refused as stale with the store left alone, and an `ExtendLeases` leaves
the row alone, exactly unless the number has come round: the job runs again, and as
many snoozes of it were accepted since the lease was issued as it was claimed.  A
job claimed again without a snooze in between refuses every earlier holder. -/
theorem stale_lease_refused_iff {pre mid : List Op} {issue : Op} {row : JobRow}
    (hissued : row ∈ fetched (run next new pre) issue)
    (hredrive : ∀ op ∈ mid, ∀ now, op ≠ .redriveDead now row.id) :
    (∀ m, (∃ err, (run next new (pre ++ issue :: mid)).mark row.lease m =
        (run next new (pre ++ issue :: mid), some err) ∧ err.isStale = true) ↔
      ¬ComesRound row.id (run next new (pre ++ [issue])) mid) ∧
    ∀ leases, row.lease ∈ leases → (∀ other ∈ leases, other.id = row.id → other = row.lease) →
      ((∀ now leaseFor,
        (run next new (pre ++ issue :: mid ++ [.extendLeases now leases leaseFor])).jobs.get? row.id =
          (run next new (pre ++ issue :: mid)).jobs.get? row.id) ↔
        ¬ComesRound row.id (run next new (pre ++ [issue])) mid) := by
  obtain ⟨hrow, -⟩ := mem_fetched hissued
  obtain ⟨row', hrow'⟩ := present_run ((fresh_run pre fresh_new).next issue) mid hrow
  have hstored : (run next new (pre ++ issue :: mid)).jobs.get? row.lease.id = some row' := by
    rw [run_append, run_cons]
    exact hrow'
  rw [← holds_iff_comesRound hissued hredrive]
  refine ⟨mark_stale_iff hstored, ?_⟩
  intro leases hmem honly
  rw [← extendLeases_unchanged_iff hstored hmem honly]
  simp only [run_append _ (pre ++ issue :: mid), run_cons, run_nil]
  rfl

/-- The job the runs below insert. -/
def sample : InsertParams := ⟨[], [], [], 0, []⟩

/-- A worker claims the job, fails it, and the job is claimed again. -/
theorem overtaken_lease_refused :
    ∃ err, (run next new ([.insert 1 sample] ++ .fetchAvailable 2 [] 1 1 ::
        [.mark ⟨1, 1⟩ (.retryable 3 none), .fetchAvailable 4 [] 1 1])).mark ⟨1, 1⟩ (.completed 5) =
      (run next new ([.insert 1 sample] ++ .fetchAvailable 2 [] 1 1 ::
        [.mark ⟨1, 1⟩ (.retryable 3 none), .fetchAvailable 4 [] 1 1]), some err) ∧
      err.isStale = true :=
  have hissued : claim 2 1 (jobFromParams 1 sample 1) ∈
      fetched (run next new [.insert 1 sample]) (.fetchAvailable 2 [] 1 1) := by decide
  ((stale_lease_refused_iff hissued (by simp)).1 (.completed 5)).mpr fun h => absurd h.2 (by decide)

/-- A worker claims the job and its lease runs out; a rescuer takes the same claim up;
the worker, late, snoozes the job, and it is claimed again. -/
def roundRun : List Op :=
  [.insert 1 sample, .fetchAvailable 2 [] 1 1, .fetchExpired 4 1 1, .mark ⟨1, 1⟩ (.snoozed 5),
    .fetchAvailable 6 [] 1 1]

/-- The new claim is on attempt 1 again, and the rescuer's write for the earlier claim
is accepted: the job is back in the queue while its new holder works on it. -/
theorem roundRun_accepts_rescuer :
    (∃ row ∈ fetched (run next new (roundRun.take 2)) (.fetchExpired 4 1 1), row.lease = ⟨1, 1⟩) ∧
      claims 1 (run next new (roundRun.take 4)) (.fetchAvailable 6 [] 1 1) = true ∧
      ((run next new roundRun).mark ⟨1, 1⟩ (.retryable 7 none)).2 = none ∧
      ((run next new (roundRun ++ [.mark ⟨1, 1⟩ (.retryable 7 none)])).jobs.get? 1).map
        JobRow.state = some .retryable := by
  decide

/-! ## Stale leases after a redrive -/

/-- A `Mark` of a stored job is refused with the store left alone exactly unless the
job runs on the attempt of the lease and the detail can be appended. -/
theorem mark_refused_iff {d : Driver} {lease : Lease} (m : Mark) :
    (∃ err, d.mark lease m = (d, some err)) ↔
      ¬∃ row, d.jobs.get? lease.id = some row ∧ row.state = .running ∧
        row.attempt = lease.attempt ∧ (appendError row m.detail).2 = none := by
  constructor
  · rintro ⟨err, herr⟩ ⟨row, hrow, hrunning, hattempt, happend⟩
    have hlease : row.lease = lease := by
      rw [JobRow.lease, hattempt, show row.id = lease.id from Table.key_of_get? hrow]
    rw [← hlease, mark_of_running (by rw [← hlease] at hrow; exact hrow) hrunning
      (Prod.ext rfl happend)] at herr
    cases (Prod.mk.inj herr).2
  · intro hnot
    rcases mark_cases d lease m with ⟨row, appended, hrow, hrunning, hlease, happend, -⟩ | herr
    · refine absurd ⟨row, hrow, hrunning, ?_, by rw [happend]⟩ hnot
      rw [← hlease, JobRow.lease]
    · exact herr

theorem tally_snoozes_eq_zero {id : Int} {ops : List Op}
    (h : ∀ op ∈ ops, ∀ lease runAt, op ≠ .mark lease (.snoozed runAt)) (d : Driver) :
    tally next (snoozes id) d ops = 0 := by
  induction ops generalizing d with
  | nil => rfl
  | cons op ops ih =>
      have hop : snoozes id d op = false := by
        unfold snoozes
        split
        · rename_i lease runAt
          exact absurd rfl (h _ List.mem_cons_self lease runAt)
        · rfl
      rw [tally_cons, hop, ih (fun op hmem => h op (List.mem_cons_of_mem _ hmem))]
      rfl

/-- A lease issued before an accepted `RedriveDead` of its job, presented after the last
such redrive and any calls without a snooze.  The `Mark` is refused with the store
left alone exactly unless the job runs, has been claimed since the redrive as often
as the number of the lease says, and the detail can be appended. -/
theorem redriven_lease_refused_iff {pre mid rest : List Op} {issue : Op} {row : JobRow} {now : Time}
    (hissued : row ∈ fetched (run next new pre) issue)
    (hredriven : redrives row.id (run next new (pre ++ issue :: mid)) (.redriveDead now row.id) = true)
    (hlast : Steps next (fun d op => redrives row.id d op = false)
      (run next new (pre ++ issue :: mid ++ [.redriveDead now row.id])) rest)
    (hsnooze : ∀ op ∈ rest, ∀ lease runAt, op ≠ .mark lease (.snoozed runAt)) (m : Mark) :
    (∃ err, (run next new (pre ++ issue :: mid ++ .redriveDead now row.id :: rest)).mark row.lease m =
        (run next new (pre ++ issue :: mid ++ .redriveDead now row.id :: rest), some err)) ↔
      ¬∃ row', (run next new (pre ++ issue :: mid ++ .redriveDead now row.id :: rest)).jobs.get?
          row.id = some row' ∧ row'.state = .running ∧
        (tally next (claims row.id) (run next new (pre ++ issue :: mid ++ [.redriveDead now row.id]))
          rest : Int) = row.attempt ∧
        (appendError row' m.detail).2 = none := by
  have hstart : run next new (pre ++ issue :: mid ++ [.redriveDead now row.id]) =
      next (run next new (pre ++ issue :: mid)) (.redriveDead now row.id) := by
    rw [run_append, run_cons, run_nil]
  have hend : run next new (pre ++ issue :: mid ++ .redriveDead now row.id :: rest) =
      run next (run next new (pre ++ issue :: mid ++ [.redriveDead now row.id])) rest := by
    rw [hstart, run_append, run_cons]
  obtain ⟨hrow, -⟩ := mem_fetched hissued
  have hfresh := fresh_run (pre ++ issue :: mid ++ [.redriveDead now row.id]) fresh_new
  have hstored : ∃ row', (run next new (pre ++ issue :: mid ++ [.redriveDead now row.id])).jobs.get?
      row.id = some row' := by
    have hlater := present_run ((fresh_run pre fresh_new).next issue)
      (mid ++ [.redriveDead now row.id]) hrow
    rwa [← run_cons, ← run_append, ← List.cons_append, ← List.append_assoc] at hlater
  obtain ⟨row₀, hrow₀⟩ := hstored
  have hattempt := attempt_run hfresh (allSound_run _) hlast
  rw [tally_snoozes_eq_zero hsnooze, ← hend, hstart, attempt_of_redrives hredriven, ← hstart]
    at hattempt
  rw [mark_refused_iff, not_iff_not]
  -- The number the job is on is the number of its claims since the redrive.
  refine exists_congr fun row' => and_congr_right fun hrow' => and_congr_right fun _ =>
    and_congr_left fun _ => ?_
  rw [show row.lease.id = row.id from rfl] at hrow'
  rw [attempt_of_get? hrow'] at hattempt
  show row'.attempt = row.attempt ↔ _
  omega

/-- A job that died on its first attempt is claimed again after the redrive. -/
def reclaims : List Op :=
  [.fetchAvailable 5 [] 1 1, .mark ⟨1, 1⟩ (.retryable 6 none), .fetchAvailable 7 [] 1 1]

/-- It is on its second attempt since, and the lease of the one that died is refused. -/
theorem reclaimed_lease_refused :
    ∃ err, (run next new ([.insert 1 sample] ++ .fetchAvailable 2 [] 1 1 ::
        [.mark ⟨1, 1⟩ (.dead 3 none)] ++ .redriveDead 4 1 :: reclaims)).mark ⟨1, 1⟩ (.completed 8) =
      (run next new ([.insert 1 sample] ++ .fetchAvailable 2 [] 1 1 ::
        [.mark ⟨1, 1⟩ (.dead 3 none)] ++ .redriveDead 4 1 :: reclaims), some err) := by
  have hissued : claim 2 1 (jobFromParams 1 sample 1) ∈
      fetched (run next new [.insert 1 sample]) (.fetchAvailable 2 [] 1 1) := by decide
  refine (redriven_lease_refused_iff hissued (by decide)
    (show Steps next _ _ reclaims from ⟨by decide, by decide, by decide, trivial⟩)
    (by simp [reclaims]) (.completed 8)).mpr ?_
  rintro ⟨row', -, -, hcount, -⟩
  exact absurd hcount (by decide)

/-- A worker claims the job and its lease runs out; a rescuer takes the claim up and
finalizes the job as dead; an operator redrives it, and it is claimed again. -/
def redrivenRun : List Op :=
  [.insert 1 sample, .fetchAvailable 2 [] 1 1, .fetchExpired 4 1 1, .mark ⟨1, 1⟩ (.dead 5 none),
    .redriveDead 6 1, .fetchAvailable 7 [] 1 1]

/-- The new claim is on attempt 1 again, and the first worker's late write completes
the job under its new holder. -/
theorem redrivenRun_accepts_worker :
    (∃ row ∈ fetched (run next new (redrivenRun.take 1)) (.fetchAvailable 2 [] 1 1),
        row.lease = ⟨1, 1⟩) ∧
      redrives 1 (run next new (redrivenRun.take 4)) (.redriveDead 6 1) = true ∧
      ((run next new redrivenRun).mark ⟨1, 1⟩ (.completed 8)).2 = none ∧
      ((run next new (redrivenRun ++ [.mark ⟨1, 1⟩ (.completed 8)])).jobs.get? 1).map
        JobRow.state = some .completed := by
  decide

end Drover.Memdriver
