import Drover.Memdriver.History

set_option autoImplicit false

/-!
# What an attempt number counts

A claim raises the attempt of a job, a snooze gives the attempt back and a redrive
starts over.  Nothing else moves it, and a job that runs is on an attempt of at least
one, so the subtraction `MarkSnoozed` clamps at zero is never clamped.  The number a
job is on is therefore its claims less its snoozes since the last redrive.
-/

namespace Drover.Memdriver

open Drover.Foundation
open Drover.Driver
open Drover.Go (Time Duration)

/-! ## The calls that move the attempt -/

/-- The call is a `FetchAvailable` that hands out the job. -/
def claims (id : Int) (d : Driver) (op : Op) : Bool :=
  op.isClaim && (fetched d op).any (·.id == id)

/-- The call is an accepted `MarkSnoozed` of the job. -/
def snoozes (id : Int) (d : Driver) : Op → Bool
  | .mark lease (.snoozed runAt) => lease.id == id && (d.markSnoozed lease runAt).2.isNone
  | _ => false

/-- The attempt the job is on. -/
def Driver.attempt (d : Driver) (id : Int) : Int := ((d.jobs.get? id).map JobRow.attempt).getD 0

theorem attempt_of_get? {d : Driver} {id : Int} {row : JobRow} (h : d.jobs.get? id = some row) :
    d.attempt id = row.attempt := by
  rw [Driver.attempt, h]
  rfl

theorem claims_iff {id : Int} {d : Driver} {op : Op} :
    claims id d op = true ↔ op.isClaim = true ∧ ∃ row ∈ fetched d op, row.id = id := by
  simp [claims]

theorem snoozes_of_claim {id : Int} {d : Driver} {op : Op} (h : op.isClaim = true) :
    snoozes id d op = false := by
  cases op <;> first | rfl | cases h

theorem attempt_of_claims {id : Int} {d : Driver} {op : Op} (h : claims id d op = true) :
    (next d op).attempt id = d.attempt id + 1 := by
  obtain ⟨hop, row, hrow, rfl⟩ := claims_iff.mp h
  obtain ⟨hnew, old, hold, hchange⟩ := mem_fetched hrow
  rw [attempt_of_get? hnew, attempt_of_get? hold]
  cases hchange with
  | claim hdue => rfl
  | _ => cases hop

/-- Every row of the store is sound. -/
def Driver.AllSound (d : Driver) : Prop := ∀ row ∈ d.jobs.rows, Sound row

theorem attempt_of_snoozes {id : Int} {d : Driver} (hsound : d.AllSound) {op : Op}
    (h : snoozes id d op = true) : (next d op).attempt id = d.attempt id - 1 := by
  unfold snoozes at h
  split at h
  · rename_i lease runAt
    simp only [Bool.and_eq_true, beq_iff_eq] at h
    obtain ⟨rfl, haccepted⟩ := h
    rcases mark_cases d lease (.snoozed runAt) with
      ⟨row, appended, hrow, hrunning, hlease, happend, heq⟩ | ⟨err, heq⟩
    · have hpos := (hsound row (Table.mem_of_get? hrow)).attempt_pos hrunning
      have hsame : appended = row := by
        simpa [Mark.detail, appendError, eq_comm] using happend
      subst hsame
      have hkey : appended.id = lease.id := Table.key_of_get? hrow
      have hid : ((Mark.snoozed runAt).result appended).id = lease.id := hkey
      have hnew : (next d (.mark lease (.snoozed runAt))).jobs.get? lease.id =
          some ((Mark.snoozed runAt).result appended) := by
        rw [next, step, heq, ← hid]
        exact Table.get?_put_self _ _
      rw [attempt_of_get? hnew, attempt_of_get? hrow]
      simp only [Mark.result, Mark.write]
      omega
    · rw [show d.markSnoozed lease runAt = d.mark lease (.snoozed runAt) from rfl, heq] at haccepted
      cases haccepted
  · cases h

/-- A call that neither claims, snoozes nor redrives the job leaves its attempt. -/
theorem attempt_of_other {id : Int} {d : Driver} (hfresh : d.Fresh) {op : Op} {row : JobRow}
    (hrow : d.jobs.get? id = some row) (hclaims : claims id d op = false)
    (hsnoozes : snoozes id d op = false) (hredrives : redrives id d op = false) :
    (next d op).attempt id = d.attempt id := by
  obtain ⟨row', hrow', hcases⟩ := next_row hfresh op hrow
  rw [attempt_of_get? hrow', attempt_of_get? hrow]
  have hkey : row.id = id := Table.key_of_get? hrow
  subst hkey
  rcases hcases with rfl | hchange
  · rfl
  · cases hchange with
    | @claim now queue leaseFor limit row hdue =>
        -- A row the call claimed is one it handed out.
        have hne : claim now leaseFor row ≠ row := by
          intro hsame
          have hattempt := congrArg JobRow.attempt hsame
          simp only [claim] at hattempt
          omega
        have hmem := mem_fetched_of_claim rfl hrow hrow' hne
        have hclaimed := claims_iff.mpr ⟨rfl, _, hmem, rfl⟩
        rw [show (claim now leaseFor row).id = row.id from rfl, hclaims] at hclaimed
        cases hclaimed
    | reclaim hexpired => rfl
    | extend hrunning hheld => rfl
    | @mark m row appended hrunning happend =>
        have hsame : appended.attempt = row.attempt := by rw [(appendError_ok happend).1]
        have haccepted := congrArg Prod.snd (mark_of_running hrow hrunning happend)
        cases m with
        | snoozed runAt =>
            simp only [snoozes, JobRow.lease, beq_self_eq_true, Bool.true_and] at hsnoozes
            rw [show (d.markSnoozed ⟨row.id, row.attempt⟩ runAt).2 = none from haccepted] at hsnoozes
            cases hsnoozes
        | _ => exact hsame
    | operatorCancel hcan => rfl
    | @redriveDead now row hdead =>
        simp [redrives, Driver.redriveDead, operatorAction_eq, hrow, hdead, Except.isOk,
          Except.toBool] at hredrives

theorem Driver.AllSound.next {d : Driver} (hfresh : d.Fresh) (h : d.AllSound) (op : Op) :
    (Memdriver.next d op).AllSound :=
  fun row' => row_invariant (C := fun _ => True) Sound.created
    (fun _ hchange hrow => hrow.change hchange) hfresh h (fun op' (_ : op' ∈ [op]) => trivial) row'

theorem allSound_run (ops : List Op) : (run next new ops).AllSound := fun _ => sound_of_mem_run

theorem present_of_redrives {id : Int} {d : Driver} {op : Op} (h : redrives id d op = true) :
    ∃ row, d.jobs.get? id = some row := by
  cases op with
  | redriveDead now id' =>
      simp only [redrives, Bool.and_eq_true, beq_iff_eq] at h
      obtain ⟨rfl, hok⟩ := h
      cases hrow : d.jobs.get? id' with
      | none => simp [Driver.redriveDead, operatorAction_eq, hrow, Except.isOk, Except.toBool] at hok
      | some row => exact ⟨row, rfl⟩
  | _ => cases h

theorem attempt_of_redrives {id : Int} {d : Driver} {op : Op} (h : redrives id d op = true) :
    (next d op).attempt id = 0 := by
  obtain ⟨row, hrow⟩ := present_of_redrives h
  cases op with
  | redriveDead now id' =>
      simp only [redrives, Bool.and_eq_true, beq_iff_eq] at h
      obtain ⟨rfl, hok⟩ := h
      by_cases hdead : row.state = .dead
      · have hkey : (redriveRow now row).id = id' := Table.key_of_get? (r := row) hrow
        rw [Driver.attempt, redriveDead_of_dead hrow hdead, ← hkey, Table.get?_put_self]
        rfl
      · simp [Driver.redriveDead, operatorAction_eq, hrow, hdead, Except.isOk, Except.toBool] at hok
  | _ => cases h

theorem present_of_snoozes {id : Int} {d : Driver} {op : Op} (h : snoozes id d op = true) :
    ∃ row, d.jobs.get? id = some row := by
  unfold snoozes at h
  split at h
  · rename_i lease runAt
    simp only [Bool.and_eq_true, beq_iff_eq] at h
    obtain ⟨rfl, haccepted⟩ := h
    rcases mark_cases d lease (.snoozed runAt) with ⟨row, -, hrow, -⟩ | ⟨err, heq⟩
    · exact ⟨row, hrow⟩
    · rw [show d.markSnoozed lease runAt = d.mark lease (.snoozed runAt) from rfl, heq] at haccepted
      cases haccepted
  · cases h

theorem present_of_claims {id : Int} {d : Driver} {op : Op} (h : claims id d op = true) :
    ∃ row, d.jobs.get? id = some row := by
  obtain ⟨-, row, hrow, rfl⟩ := claims_iff.mp h
  obtain ⟨-, old, hold, -⟩ := mem_fetched hrow
  exact ⟨old, hold⟩

theorem false_of_absent {id : Int} {d : Driver} {p : Bool} (habsent : d.jobs.get? id = none)
    (h : p = true → ∃ row, d.jobs.get? id = some row) : p = false := by
  rw [Bool.eq_false_iff]
  intro hp
  obtain ⟨row, hrow⟩ := h hp
  rw [habsent] at hrow
  cases hrow

/-- A job that is not stored yet is on attempt zero after the call, too. -/
theorem attempt_of_absent {id : Int} {d : Driver} (op : Op) (habsent : d.jobs.get? id = none) :
    (next d op).attempt id = 0 := by
  unfold Driver.attempt
  cases hrow : (next d op).jobs.get? id with
  | none => rfl
  | some row =>
      obtain ⟨-, -, hcreated⟩ := next_new op habsent hrow
      obtain ⟨id', params, now, rfl⟩ := hcreated.eq_jobFromParams
      rfl

/-- What a call does to the attempt of a job, stored or not. -/
theorem attempt_next {id : Int} {d : Driver} (hfresh : d.Fresh) (hsound : d.AllSound) (op : Op) :
    (next d op).attempt id =
      if redrives id d op then 0
      else d.attempt id + (claims id d op).toNat - (snoozes id d op).toNat := by
  cases hrow : d.jobs.get? id with
  | none =>
      rw [attempt_of_absent op hrow, false_of_absent hrow present_of_redrives,
        false_of_absent hrow present_of_claims, false_of_absent hrow present_of_snoozes,
        Driver.attempt, hrow]
      rfl
  | some row =>
      cases hredrives : redrives id d op with
      | true => exact attempt_of_redrives hredrives
      | false =>
          cases hclaims : claims id d op with
          | true =>
              rw [attempt_of_claims hclaims, snoozes_of_claim (claims_iff.mp hclaims).1]
              simp
          | false =>
              cases hsnoozes : snoozes id d op with
              | true =>
                  rw [attempt_of_snoozes hsound hsnoozes]
                  simp
              | false =>
                  rw [attempt_of_other hfresh hrow hclaims hsnoozes hredrives]
                  simp

/-- Over a run that does not redrive the job, its attempt moves by the claims less
the snoozes. -/
theorem attempt_run {d : Driver} (hfresh : d.Fresh) (hsound : d.AllSound) {id : Int}
    {ops : List Op} (hops : Steps next (fun d op => redrives id d op = false) d ops) :
    (run next d ops).attempt id =
      d.attempt id + tally next (claims id) d ops - tally next (snoozes id) d ops := by
  refine run_measure (P := fun d => d.Fresh ∧ d.AllSound) (p := claims id) (q := snoozes id)
    (f := fun d => d.attempt id) ?_ ?_ ⟨hfresh, hsound⟩ hops
  · rintro d op ⟨hfresh, hsound⟩
    exact ⟨hfresh.next op, hsound.next hfresh op⟩
  · rintro d op ⟨hfresh, hsound⟩ hredrives
    simp only [attempt_next hfresh hsound op, hredrives, Bool.false_eq_true, if_false]

/-! ## The accounts of a run -/

/-- The call never touches an attempt, whatever it answers. -/
def Op.isQuiet : Op → Bool
  | .fetchExpired _ _ _ | .extendLeases _ _ _ | .mark _ (.retryable _ _) => true
  | _ => false

/-- The call answers an error. -/
def Reply.isError : Reply → Bool
  | .done err => err.isSome
  | .row result => !result.isOk
  | .rows result => !result.isOk
  | .stats _ => false

theorem Reply.isError_eq (r : Reply) : r.isError = r.error?.isSome := by
  cases r with
  | done err => rfl
  | row result => cases result <;> rfl
  | rows result => cases result <;> rfl
  | stats stats => rfl

/-- A call that fails leaves the store as it was. -/
theorem next_of_error {d : Driver} {op : Op} (h : (reply d op).isError = true) : next d op = d := by
  rcases kept_or_answered d op with hkept | hanswered
  · exact hkept
  · rw [Reply.isError_eq, hanswered] at h
    cases h

theorem attempt_of_quiet {id : Int} {d : Driver} (hfresh : d.Fresh) (hsound : d.AllSound) {op : Op}
    (h : op.isQuiet = true) : (next d op).attempt id = d.attempt id := by
  have hredrives : redrives id d op = false := by
    cases op <;> first | rfl | cases h
  have hclaims : claims id d op = false := by
    cases op <;> first | rfl | cases h
  have hsnoozes : snoozes id d op = false := by
    cases op with
    | mark lease m => cases m <;> first | rfl | cases h
    | _ => rfl
  simp [attempt_next hfresh hsound op, hredrives, hclaims, hsnoozes]

/-- In every state of every run, the attempt of a job is the number of its claims less
the number of its accepted snoozes, both since it was inserted or last redriven.  So an
accepted snooze lowers the attempt by one, unclamped; `FetchExpired`, `ExtendLeases`,
`MarkRetryable` and calls that fail leave every attempt; and over any further calls that
do not redrive the job, the attempts it has left go down by its claims and up by its
snoozes, wherever among them the snoozes are. -/
theorem run_attempt_accounts (ops : List Op) :
    (∀ id row, (run next new ops).jobs.get? id = some row →
      row.attempt = tallySince next (redrives id) (claims id) new 0 ops -
        tallySince next (redrives id) (snoozes id) new 0 ops) ∧
    (∀ lease runAt row, (run next new ops).jobs.get? lease.id = some row →
      ((run next new ops).markSnoozed lease runAt).2 = none →
      ((run next new ops).markSnoozed lease runAt).1.attempt lease.id = row.attempt - 1) ∧
    (∀ op, op.isQuiet = true ∨ (reply (run next new ops) op).isError = true →
      ∀ id, (run next new (ops ++ [op])).attempt id = (run next new ops).attempt id) ∧
    ∀ id row more, (run next new ops).jobs.get? id = some row →
      Steps next (fun d op => redrives id d op = false) (run next new ops) more →
      ∃ row', (run next new (ops ++ more)).jobs.get? id = some row' ∧
        row'.maxAttempts - row'.attempt =
          row.maxAttempts - row.attempt - tally next (claims id) (run next new ops) more +
            tally next (snoozes id) (run next new ops) more := by
  have hfresh := fresh_run ops fresh_new
  have hsound := allSound_run ops
  refine ⟨?_, ?_, ?_, ?_⟩
  · intro id row hrow
    rw [← attempt_of_get? hrow]
    refine run_measure_since (P := fun d : Driver => d.Fresh ∧ d.AllSound)
      (f := fun d : Driver => d.attempt id) ?_ ?_ ⟨fresh_new, allSound_run []⟩ rfl ops
    · rintro d op ⟨hfresh, hsound⟩
      exact ⟨hfresh.next op, hsound.next hfresh op⟩
    · rintro d op ⟨hfresh, hsound⟩
      exact attempt_next hfresh hsound op
  · intro lease runAt row hrow haccepted
    have hsnoozes : snoozes lease.id (run next new ops) (.mark lease (.snoozed runAt)) = true := by
      simp [snoozes, haccepted]
    rw [← attempt_of_get? hrow]
    exact attempt_of_snoozes hsound hsnoozes
  · rintro op (hquiet | herror) id <;> rw [run_append, run_cons, run_nil]
    · exact attempt_of_quiet hfresh hsound hquiet
    · rw [next_of_error herror]
  · intro id row more hrow hmore
    obtain ⟨entries, hrecorded⟩ := recorded_of_mem_run (Table.mem_of_get? hrow)
    obtain ⟨row', -, hrow', hsame, -⟩ := run_row hfresh more hrow hrecorded
    have hattempt := attempt_run hfresh hsound hmore
    rw [attempt_of_get? hrow, attempt_of_get? hrow'] at hattempt
    refine ⟨row', by rw [run_append]; exact hrow', ?_⟩
    rw [hsame.maxAttempts]
    omega

/-- A job is claimed, snoozed, claimed and failed. -/
def snoozedRun : List Op :=
  [.insert 1 ⟨[], [], [], 0, []⟩, .fetchAvailable 2 [] 1 1, .mark ⟨1, 1⟩ (.snoozed 3),
    .fetchAvailable 4 [] 1 1, .mark ⟨1, 1⟩ (.retryable 5 none)]

/-- The row it ends as. -/
def snoozedRow : JobRow :=
  { jobFromParams 1 ⟨[], [], [], 0, []⟩ 1 with state := .retryable, attempt := 1, scheduledAt := 5 }

/-- Two claims less one snooze: the job has spent one attempt. -/
theorem snoozedRun_accounts :
    (run next new snoozedRun).jobs.get? 1 = some snoozedRow ∧
      snoozedRow.attempt = tallySince next (redrives 1) (claims 1) new 0 snoozedRun -
        tallySince next (redrives 1) (snoozes 1) new 0 snoozedRun ∧
      tallySince next (redrives 1) (claims 1) new 0 snoozedRun = 2 :=
  ⟨by decide, (run_attempt_accounts snoozedRun).1 1 snoozedRow (by decide), by decide⟩

end Drover.Memdriver
