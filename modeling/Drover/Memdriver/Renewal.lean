import Drover.Memdriver.Claims
import Drover.Memdriver.Fence

set_option autoImplicit false

/-!
# A lease that is renewed in time

A fetch hands a job out until a deadline, and `ExtendLeases` moves that deadline.  The
rescuer takes jobs whose deadline has passed, so a job is its holder's own exactly as long
as every sweep comes before the deadline the last renewal has set.  This file follows one
lease and its deadline along a run of calls by anybody.
-/

namespace Drover.Memdriver

open Drover.Foundation
open Drover.Driver
open Drover.Go (Time Duration)

/-! ## The deadline of a lease -/

/-- A store, and until when one lease is good. -/
structure Watched where
  db : Driver
  deadline : Time

/-- The store after a call; a renewal that names the lease moves its deadline. -/
def Watched.next (lease : Lease) (w : Watched) (op : Op) : Watched where
  db := Memdriver.next w.db op
  deadline :=
    match op with
    | .extendLeases now leases leaseFor =>
        if lease ∈ leases then now + leaseFor else w.deadline
    | _ => w.deadline

/-- The call leaves the lease to its holder: it is not the write that ends the attempt, and
if it is a sweep of the rescuer it comes before the deadline. -/
def Undisturbed (lease : Lease) (w : Watched) : Op → Prop
  | .mark lease' _ => lease' ≠ lease
  | .fetchExpired now _ _ => now < w.deadline
  | _ => True

instance Undisturbed.decidable (lease : Lease) (w : Watched) :
    (op : Op) → Decidable (Undisturbed lease w op)
  | .mark lease' _ => inferInstanceAs (Decidable (lease' ≠ lease))
  | .fetchExpired now _ _ => inferInstanceAs (Decidable (now < w.deadline))
  | .insert _ _ | .insertMany _ _ | .fetchAvailable _ _ _ _ | .extendLeases _ _ _
  | .operatorCancel _ _ | .redriveDead _ _ | .getJob _ | .listJobs _ | .stats _ => .isTrue trivial

/-- The job runs on the attempt of the lease, and is leased until the deadline. -/
structure Watched.Held (lease : Lease) (w : Watched) : Prop where
  fresh : w.db.Fresh
  row : ∃ row, w.db.jobs.get? lease.id = some row ∧ row.state = .running ∧
    row.attempt = lease.attempt ∧ row.leasedUntil = some w.deadline

theorem Watched.Held.holds {lease : Lease} {w : Watched} (h : w.Held lease) : w.db.Holds lease := by
  obtain ⟨row, hrow, hrunning, hattempt, -⟩ := h.row
  exact ⟨row, hrow, hrunning, hattempt⟩

/-- The only change an undisturbed call makes to the job is a renewal. -/
theorem not_change_of_undisturbed {lease : Lease} {w : Watched} {op : Op} {row row' : JobRow}
    (hrow : w.db.jobs.get? lease.id = some row) (hrunning : row.state = .running)
    (hattempt : row.attempt = lease.attempt) (hdeadline : row.leasedUntil = some w.deadline)
    (h : Undisturbed lease w op) (hchange : Change op row row') :
    ∃ now leases leaseFor, op = .extendLeases now leases leaseFor := by
  cases hchange with
  | claim hdue =>
      rw [not_due_of_running hrunning] at hdue
      cases hdue
  | reclaim hexpired =>
      simp only [expired, hdeadline, Bool.and_eq_true, Bool.not_eq_true', decide_eq_false_iff_not]
        at hexpired
      exact absurd h hexpired.2
  | extend hrun hheld => exact ⟨_, _, _, rfl⟩
  | mark hrun happend =>
      refine absurd ?_ h
      rw [JobRow.lease, hattempt, show row.id = lease.id from Table.key_of_get? hrow]
  | operatorCancel hcan =>
      rw [hrunning] at hcan
      cases hcan
  | redriveDead hdead =>
      rw [hrunning] at hdead
      cases hdead

/-- One call. -/
theorem Watched.Held.next {lease : Lease} {w : Watched} (hw : w.Held lease) {op : Op}
    (h : Undisturbed lease w op) : (w.next lease op).Held lease := by
  obtain ⟨row, hrow, hrunning, hattempt, hdeadline⟩ := hw.row
  have hlease : row.lease = lease := by
    rw [JobRow.lease, hattempt, show row.id = lease.id from Table.key_of_get? hrow]
  refine ⟨hw.fresh.next op, ?_⟩
  by_cases hextend : ∃ now leases leaseFor, op = .extendLeases now leases leaseFor
  · obtain ⟨now, leases, leaseFor, rfl⟩ := hextend
    have hget := get?_extendLeases w.db now leases leaseFor lease.id
    rw [hrow, Option.map_some, hlease] at hget
    by_cases hmem : lease ∈ leases
    · rw [if_pos ⟨hrunning, hmem⟩] at hget
      refine ⟨_, hget, hrunning, hattempt, ?_⟩
      simp only [Watched.next, if_pos hmem, reclaim]
    · rw [if_neg fun hand => hmem hand.2] at hget
      refine ⟨row, hget, hrunning, hattempt, ?_⟩
      simp only [Watched.next, if_neg hmem, hdeadline]
  · obtain ⟨row', hrow', hsame | hchange⟩ := next_row hw.fresh op hrow
    · subst hsame
      refine ⟨_, hrow', hrunning, hattempt, ?_⟩
      cases op with
      | extendLeases now leases leaseFor => exact absurd ⟨now, leases, leaseFor, rfl⟩ hextend
      | _ => exact hdeadline
    · exact absurd (not_change_of_undisturbed hrow hrunning hattempt hdeadline h hchange) hextend

/-- And no fetch hands the job out. -/
theorem Watched.Held.not_fetched {lease : Lease} {w : Watched} (hw : w.Held lease) {op : Op}
    (h : Undisturbed lease w op) : ∀ row ∈ fetched w.db op, row.id ≠ lease.id := by
  intro fetchedRow hmem heq
  obtain ⟨row, hrow, hrunning, hattempt, hdeadline⟩ := hw.row
  obtain ⟨-, old, hold, hchange⟩ := mem_fetched hmem
  rw [heq, hrow, Option.some.injEq] at hold
  subst hold
  obtain ⟨now, leases, leaseFor, rfl⟩ :=
    not_change_of_undisturbed hrow hrunning hattempt hdeadline h hchange
  cases hmem

/-! ## A job is its holder's own -/

/-- A fetch hands a job out until the time it writes. -/
theorem held_of_fetched {d : Driver} (hfresh : d.Fresh) {issue : Op} {row : JobRow}
    (h : row ∈ fetched d issue) :
    Watched.Held row.lease ⟨next d issue, byLeasedUntil row⟩ := by
  obtain ⟨hrow, old, -, hchange⟩ := mem_fetched h
  refine ⟨hfresh.next issue, row, hrow, ?_⟩
  cases hchange with
  | claim hdue => exact ⟨rfl, rfl, rfl⟩
  | reclaim hexpired =>
      simp only [expired, Bool.and_eq_true, beq_iff_eq] at hexpired
      exact ⟨hexpired.1, rfl, rfl⟩
  | _ => cases h

/-- In every run of calls by anybody: from the fetch that hands a job out on, as long as
its holder does not end the attempt and every sweep of the rescuer comes before the
deadline set by the last renewal, the job runs under that lease until that deadline, no
fetch hands it out again, and a `Mark` of the job is refused as stale exactly when it
presents another lease. -/
theorem renewed_lease_exclusive {pre mid : List Op} {issue : Op} {row : JobRow}
    (hissued : row ∈ fetched (run next new pre) issue)
    (h : Steps (Watched.next row.lease) (Undisturbed row.lease)
      ⟨run next new (pre ++ [issue]), byLeasedUntil row⟩ mid) :
    (∃ row', (run next new (pre ++ issue :: mid)).jobs.get? row.id = some row' ∧
        row'.state = .running ∧ row'.lease = row.lease ∧
        row'.leasedUntil = some (run (Watched.next row.lease)
          ⟨run next new (pre ++ [issue]), byLeasedUntil row⟩ mid).deadline) ∧
      Steps next (fun d op => ∀ fetchedRow ∈ fetched d op, fetchedRow.id ≠ row.id)
        (run next new (pre ++ [issue])) mid ∧
      ∀ (lease : Lease) (m : Mark), lease.id = row.id →
        ((∃ err, (run next new (pre ++ issue :: mid)).mark lease m =
            (run next new (pre ++ issue :: mid), some err) ∧ err.isStale = true) ↔
          lease ≠ row.lease) := by
  have hstart : run next new (pre ++ [issue]) = next (run next new pre) issue := by
    rw [run_append, run_cons, run_nil]
  have hheld : Watched.Held row.lease ⟨run next new (pre ++ [issue]), byLeasedUntil row⟩ := by
    rw [hstart]
    exact held_of_fetched (fresh_run pre fresh_new) hissued
  have hdb : ∀ (w : Watched) op, (w.next row.lease op).db = next w.db op := fun _ _ => rfl
  have hend : run next new (pre ++ issue :: mid) = (run (Watched.next row.lease)
      ⟨run next new (pre ++ [issue]), byLeasedUntil row⟩ mid).db := by
    rw [run_map hdb, hstart, run_append, run_cons]
  have hlast := run_of_steps (fun w op hw hop => hw.next hop) hheld h
  rw [hend]
  obtain ⟨row', hrow', hrunning, hattempt, hdeadline⟩ := hlast.row
  have hlease : row'.lease = row.lease := by
    rw [JobRow.lease, hattempt, show row'.id = row.lease.id from Table.key_of_get? hrow']
  refine ⟨⟨row', hrow', hrunning, hlease, hdeadline⟩, ?_, fun lease m hid => ?_⟩
  · exact steps_map hdb (steps_of_steps (fun w op hw hop => hw.next hop)
      (fun w op hw hop => hw.not_fetched hop) hheld h)
  · have hstored := hrow'
    rw [show row.lease.id = lease.id from hid.symm] at hstored
    rw [mark_stale_iff hstored m]
    constructor
    · rintro hnot rfl
      exact hnot hlast.holds
    · rintro hne ⟨row'', hrow'', -, hattempt''⟩
      rw [hstored, Option.some.injEq] at hrow''
      subst hrow''
      refine hne ?_
      rw [← hlease, JobRow.lease, hattempt'', show row'.id = lease.id from Table.key_of_get? hstored]

/-- A job claimed at 2 for 10 is renewed at 11, and the rescuer sweeps at 11 and at 20. -/
def renewedRun : List Op :=
  [.fetchExpired 11 10 (-1), .extendLeases 11 [⟨1, 1⟩] 10, .fetchExpired 20 10 (-1)]

/-- The row of that job. -/
def renewedRow : JobRow := claim 2 10 (jobFromParams 1 sample 1)

theorem renewedRun_exclusive :
    renewedRow ∈ fetched (run next new [.insert 1 sample]) (.fetchAvailable 2 [] 10 1) ∧
      Steps (Watched.next renewedRow.lease) (Undisturbed renewedRow.lease)
        ⟨run next new [.insert 1 sample, .fetchAvailable 2 [] 10 1], byLeasedUntil renewedRow⟩
        renewedRun ∧
      Steps next (fun d op => ∀ row ∈ fetched d op, row.id ≠ renewedRow.id)
        (run next new [.insert 1 sample, .fetchAvailable 2 [] 10 1]) renewedRun := by
  have hissued : renewedRow ∈ fetched (run next new [.insert 1 sample]) (.fetchAvailable 2 [] 10 1) := by
    decide
  have hsteps : Steps (Watched.next renewedRow.lease) (Undisturbed renewedRow.lease)
      ⟨run next new [.insert 1 sample, .fetchAvailable 2 [] 10 1], byLeasedUntil renewedRow⟩
      renewedRun := by
    decide
  exact ⟨hissued, hsteps, (renewed_lease_exclusive hissued hsteps).2.1⟩

end Drover.Memdriver
