import Drover.Memdriver.Attempts
import Drover.Fleet.Clients

set_option autoImplicit false

/-!
# The attempt ceiling

`dispose` sends a job to the dead once its attempts are spent.  A hand-back does not ask:
it returns a job that was cut short to the queue on its last attempt as on any other, and
the next claim takes it one attempt further.  That is the only way past the ceiling, and
each time costs one hand-back.
-/

namespace Drover.Fleet

open Drover.Foundation
open Drover.Driver
open Drover.Go (Time Duration)
open Drover.Memdriver (Mark Op Created fetched waiting)
open Drover.Pool (Fate)

/-- A store of jobs nobody has claimed yet. -/
structure Unclaimed (db : Memdriver.Driver) : Prop where
  fresh : db.Fresh
  sound : db.AllSound
  waiting : ∀ row ∈ db.jobs.rows, waiting row.state = true
  attempt : ∀ row ∈ db.jobs.rows, row.attempt = 0
  maxAttempts : ∀ row ∈ db.jobs.rows, 1 ≤ row.maxAttempts

/-- A row that waits has an attempt left, and one that runs is on an attempt it had, not
counting those its late hand-backs have added. -/
structure Within (row : JobRow) (late : Nat) : Prop where
  waiting : waiting row.state = true → row.attempt + 1 ≤ row.maxAttempts + late
  running : row.state = .running → row.attempt ≤ row.maxAttempts + late

/-- What a fleet keeps. -/
structure State.Bounded (f : State) : Prop where
  fresh : f.db.Fresh
  sound : f.db.AllSound
  within : ∀ id row, f.db.jobs.get? id = some row → Within row (f.late.count id)
  held : ∀ row ∈ f.held, ∃ stored, f.db.jobs.get? row.id = some stored ∧
    stored.maxAttempts = row.maxAttempts

theorem Within.mono {row : JobRow} {late late' : Nat} (h : Within row late) (hle : late ≤ late') :
    Within row late' := by
  refine ⟨fun hwaiting => ?_, fun hrunning => ?_⟩
  · have hbound := h.waiting hwaiting
    omega
  · have hbound := h.running hrunning
    omega

/-- A finished row is within any ceiling. -/
theorem within_of_finished {row : JobRow} {late : Nat}
    (hfinished : Memdriver.finished row.state = true) : Within row late := by
  refine ⟨fun hwaiting => ?_, fun hrunning => ?_⟩
  · rw [Memdriver.not_finished_of_waiting hwaiting] at hfinished
    cases hfinished
  · rw [hrunning] at hfinished
    cases hfinished

/-- A row that waits and has an attempt left is within its ceiling. -/
theorem within_of_waiting {row : JobRow} {late : Nat} (hwaiting : waiting row.state = true)
    (hleft : row.attempt + 1 ≤ row.maxAttempts + late) : Within row late := by
  refine ⟨fun _ => hleft, fun hrunning => ?_⟩
  rw [hrunning] at hwaiting
  cases hwaiting

theorem within_created {op : Op} {row : JobRow} (h : Created op row) (late : Nat) :
    Within row late := by
  obtain ⟨id, params, now, rfl⟩ := h.eq_jobFromParams
  have hattempt : (Memdriver.jobFromParams id params now).attempt = 0 := rfl
  have hmax : (Memdriver.jobFromParams id params now).maxAttempts = 25 := rfl
  constructor <;> intro _ <;> omega

/-- A claim spends the attempt the row had left. -/
theorem Within.claim {row : JobRow} {late : Nat} (h : Within row late)
    (hwaiting : Memdriver.waiting row.state = true) (now : Time) (leaseFor : Duration) :
    Within (Memdriver.claim now leaseFor row) late := by
  refine ⟨fun hrunning => ?_, fun _ => h.waiting hwaiting⟩
  cases hrunning

/-- The write that ends an attempt, accepted, leaves the row within its ceiling. -/
theorem within_of_fate {row held appended : JobRow} {late : Nat} {fate : Fate} {now : Time}
    (hwithin : Within row late) (hsound : Memdriver.Sound row) (hrunning : row.state = .running)
    (hattempt : held.attempt = row.attempt) (hmax : row.maxAttempts = held.maxAttempts)
    (happended : appended.attempt = row.attempt ∧ appended.maxAttempts = row.maxAttempts) :
    Within ((fate.mark held now).result appended) late := by
  have hbound := hwithin.running hrunning
  have hpos := hsound.attempt_pos hrunning
  obtain ⟨hsameAttempt, hsameMax⟩ := happended
  cases fate with
  | succeeded => exact within_of_finished rfl
  | cancelled detail => exact within_of_finished rfl
  | snoozed d =>
      refine within_of_waiting rfl ?_
      simp only [Fate.mark, Mark.result, Mark.write]
      omega
  | failed retryAt detail =>
      simp only [Fate.mark]
      split
      · exact within_of_finished rfl
      · refine within_of_waiting rfl ?_
        simp only [Mark.result, Mark.write]
        omega

/-- A hand-back at or past the ceiling is noted, and one short of it needs no note. -/
theorem within_of_requeue {db : Memdriver.Driver} {row appended : JobRow} {late : List Int}
    {now : Time} {detail : Bytes} (hrow : db.jobs.get? row.id = some row)
    (hrunning : row.state = .running) (hwithin : Within row (late.count row.id))
    (happend : Memdriver.appendError row (some detail) = (appended, none)) :
    Within ((Mark.retryable now (some detail)).result appended)
      ((Call.late db (.requeue row.lease now detail) ++ late).count row.id) := by
  have hsame := (Memdriver.appendError_ok happend).1
  have hbound := hwithin.running hrunning
  have haccepted : (db.mark row.lease (.retryable now (some detail))).2 = none := by
    rw [Memdriver.mark_of_running (m := .retryable now (some detail)) hrow hrunning happend]
  refine within_of_waiting rfl ?_
  simp only [Mark.result, Mark.write]
  rw [hsame]
  have hget : db.jobs.get? row.lease.id = some row := hrow
  simp only [Call.late, hget, haccepted, and_true]
  split
  · rw [List.count_append, show row.lease.id = row.id from rfl, List.count_singleton_self]
    omega
  · rw [List.nil_append]
    omega

theorem State.Bounded.within_next {f : State} (h : f.Bounded) {c : Call} (hallowed : c.Allowed f)
    {id : Int} {row' : JobRow} (hrow' : (Memdriver.next f.db c.op).jobs.get? id = some row') :
    Within row' ((c.late f.db ++ f.late).count id) := by
  have hgrown : f.late.count id ≤ (c.late f.db ++ f.late).count id := by
    rw [List.count_append]
    exact Nat.le_add_left _ _
  cases hrow : f.db.jobs.get? id with
  | none =>
      obtain ⟨-, -, hcreated⟩ := Memdriver.next_new c.op hrow hrow'
      exact within_created hcreated _
  | some row =>
      have hwithin := h.within id row hrow
      have hkey : row.id = id := Table.key_of_get? hrow
      subst hkey
      obtain ⟨row'', hget, hcases⟩ := Memdriver.next_row h.fresh c.op hrow
      rw [hrow'] at hget
      cases hget
      rcases hcases with rfl | hchange
      · exact hwithin.mono hgrown
      generalize hop : c.op = op at hchange
      cases hchange with
      | claim hdue =>
          simp only [Memdriver.due, Bool.and_eq_true] at hdue
          exact (hwithin.claim hdue.1.1 _ _).mono hgrown
      | reclaim hexpired => exact Within.mono ⟨hwithin.waiting, hwithin.running⟩ hgrown
      | extend hrunning hheld => exact Within.mono ⟨hwithin.waiting, hwithin.running⟩ hgrown
      | operatorCancel hcan => exact absurd hop (op_ne_operatorCancel c _ _)
      | redriveDead hdead => exact absurd hop (op_ne_redriveDead c _ _)
      | mark hrunning happend =>
          cases c with
          | finish held fate now =>
              obtain ⟨hlease, rfl⟩ := Op.mark.inj hop
              obtain ⟨hid, hattempt⟩ := Lease.mk.inj hlease
              obtain ⟨stored, hstored, hmax⟩ := h.held held hallowed
              rw [hid, hrow] at hstored
              cases hstored
              have hsame := (Memdriver.appendError_ok happend).1
              exact (within_of_fate hwithin (h.sound row (Table.mem_of_get? hrow)) hrunning hattempt
                hmax (by rw [hsame]; exact ⟨rfl, rfl⟩)).mono hgrown
          | requeue lease now detail =>
              obtain ⟨rfl, rfl⟩ := Op.mark.inj hop
              exact within_of_requeue hrow hrunning hwithin happend
          | _ => cases hop

theorem State.Bounded.next {f : State} (h : f.Bounded) (c : Call) : (next f c).Bounded := by
  unfold Fleet.next
  split
  · rename_i hallowed
    refine ⟨h.fresh.next c.op, h.sound.next h.fresh c.op, fun id row => h.within_next hallowed, ?_⟩
    intro row hrow
    rcases List.mem_append.mp hrow with hrow | hrow
    · exact ⟨row, (Memdriver.mem_fetched hrow).1, rfl⟩
    · obtain ⟨stored, hstored, hmax⟩ := h.held row hrow
      obtain ⟨stored', hstored', hcases⟩ := Memdriver.next_row h.fresh c.op hstored
      refine ⟨stored', hstored', ?_⟩
      rcases hcases with rfl | hchange
      · exact hmax
      · exact (Memdriver.sameJob_of_change hchange).maxAttempts.trans hmax
  · exact h

theorem Unclaimed.bounded {db : Memdriver.Driver} (h : Unclaimed db) : (start db).Bounded := by
  refine ⟨h.fresh, h.sound, ?_, fun row hrow => absurd hrow List.not_mem_nil⟩
  intro id row hrow
  have hmem := Table.mem_of_get? hrow
  have hattempt := h.attempt row hmem
  have hmax := h.maxAttempts row hmem
  constructor <;> intro _ <;> simp only [start, List.count_nil] <;> omega

theorem fresh_next {f : State} (h : f.db.Fresh) (c : Call) : (next f c).db.Fresh := by
  unfold Fleet.next
  split
  · exact h.next c.op
  · exact h

/-- A dead job stays dead. -/
theorem dead_next {f : State} (hfresh : f.db.Fresh) (c : Call) {id : Int}
    (h : ∃ row, f.db.jobs.get? id = some row ∧ row.state = .dead) :
    ∃ row, (next f c).db.jobs.get? id = some row ∧ row.state = .dead := by
  obtain ⟨row, hrow, hdead⟩ := h
  unfold Fleet.next
  split
  · obtain ⟨row', hrow', -⟩ := Memdriver.next_row hfresh c.op hrow
    refine ⟨row', hrow', ?_⟩
    by_contra hne
    rcases (Memdriver.next_state hfresh c.op hrow hrow').2.1 hdead hne with
      ⟨now, hop, -⟩ | ⟨now, hop, -⟩
    · exact op_ne_redriveDead c now id hop
    · exact op_ne_operatorCancel c now id hop
  · exact ⟨row, hrow, hdead⟩

/-- No fetch hands out a dead job. -/
theorem not_fetched_of_dead {db : Memdriver.Driver} {row : JobRow} (hdead : row.state = .dead)
    (hrow : db.jobs.get? row.id = some row) {op : Op} {other : JobRow}
    (hother : other ∈ fetched db op) : other.id ≠ row.id := by
  intro hid
  obtain ⟨-, old, hold, hchange⟩ := Memdriver.mem_fetched hother
  rw [hid, hrow] at hold
  cases hold
  cases op with
  | fetchAvailable now queue leaseFor limit =>
      cases hchange with
      | claim hdue => simp [Memdriver.due, hdead, Memdriver.waiting] at hdue
  | fetchExpired now leaseFor limit =>
      cases hchange with
      | reclaim hexpired => simp [Memdriver.expired, hdead] at hexpired
  | _ => cases hother

/-- A failure recorded on the last attempt kills the job. -/
theorem dead_of_failed {f : State} {row : JobRow} (hheld : row ∈ f.held)
    (hspent : row.maxAttempts ≤ row.attempt) {retryAt now : Time} {detail : Bytes}
    (haccepted : (f.db.mark row.lease ((Fate.failed retryAt detail).mark row now)).2 = none) :
    ∃ stored, (next f (.finish row (.failed retryAt detail) now)).db.jobs.get? row.id = some stored ∧
      stored.state = .dead := by
  have hmark : (Fate.failed retryAt detail).mark row now = .dead now (some detail) := if_pos hspent
  rw [hmark] at haccepted
  rcases Memdriver.mark_cases f.db row.lease (.dead now (some detail)) with
    ⟨stored, appended, hstored, hrunning, hlease, happend, heq⟩ | ⟨err, heq⟩
  · have hid : appended.id = row.id := by
      rw [(Memdriver.appendError_ok happend).1]
      exact congrArg Lease.id hlease
    refine ⟨(Mark.dead now (some detail)).result appended, ?_, rfl⟩
    rw [next, if_pos (show Call.Allowed f (.finish row _ now) from hheld)]
    simp only [Call.op, hmark, Memdriver.next, Memdriver.step, heq]
    rw [← hid]
    exact Table.get?_put_self _ _
  · rw [heq] at haccepted
    cases haccepted

/-- A fetch takes a job past its ceiling at most once for each hand-back it had there, and a
job that fails on its last attempt is dead and never fetched again. -/
theorem run_attempt_ceiling {db : Memdriver.Driver} (hdb : Unclaimed db) (calls : List Call) :
    (∀ now queue leaseFor limit,
        ∀ row ∈ ((run next (start db) calls).db.fetchAvailable now queue leaseFor limit).2,
          row.attempt ≤ row.maxAttempts + (run next (start db) calls).late.count row.id) ∧
      ∀ row ∈ (run next (start db) calls).held, row.maxAttempts ≤ row.attempt →
        ∀ retryAt detail now,
          ((run next (start db) calls).db.mark row.lease
            ((Fate.failed retryAt detail).mark row now)).2 = none →
          ∀ more,
            (∃ stored,
                (run next (start db) (calls ++ .finish row (.failed retryAt detail) now :: more)).db.jobs.get?
                  row.id = some stored ∧ stored.state = .dead) ∧
              ∀ op, ∀ other ∈ fetched
                (run next (start db) (calls ++ .finish row (.failed retryAt detail) now :: more)).db op,
                other.id ≠ row.id := by
  have hbounded : (run next (start db) calls).Bounded :=
    run_invariant (P := State.Bounded) (fun _ c h => h.next c) hdb.bounded calls
  refine ⟨?_, ?_⟩
  · intro now queue leaseFor limit row hrow
    have hfetched : row ∈ fetched (run next (start db) calls).db
        (.fetchAvailable now queue leaseFor limit) := hrow
    obtain ⟨-, old, hold, hchange⟩ := Memdriver.mem_fetched hfetched
    cases hchange with
    | claim hdue =>
        have hwaiting : waiting old.state = true := by
          simp only [Memdriver.due, Bool.and_eq_true] at hdue
          exact hdue.1.1
        exact (hbounded.within _ old hold).waiting hwaiting
  · intro row hheld hspent retryAt detail now haccepted more
    rw [run_append, run_cons]
    have hkept := run_invariant
      (P := fun f : State => f.db.Fresh ∧
        ∃ stored, f.db.jobs.get? row.id = some stored ∧ stored.state = .dead)
      (fun f c h => ⟨fresh_next h.1 c, dead_next h.1 c h.2⟩)
      ⟨(hbounded.next _).fresh, dead_of_failed hheld hspent haccepted⟩ more
    obtain ⟨-, stored, hstored, hdead⟩ := hkept
    refine ⟨⟨stored, hstored, hdead⟩, fun op other hother => ?_⟩
    have hid : stored.id = row.id := Table.key_of_get? hstored
    rw [← hid] at hstored ⊢
    exact not_fetched_of_dead hdead hstored hother

/-- A store with one job that has one attempt. -/
def onceStore : Memdriver.Driver :=
  { nextID := 1
    jobs := Table.empty.put
      { Memdriver.jobFromParams 1 ⟨[], [], [], 0, []⟩ 1 with maxAttempts := 1 } }

theorem unclaimed_onceStore : Unclaimed onceStore := by
  have hrows : ∀ row ∈ onceStore.jobs.rows,
      row = { Memdriver.jobFromParams 1 ⟨[], [], [], 0, []⟩ 1 with maxAttempts := 1 } := by
    intro row hrow
    exact List.mem_singleton.mp hrow
  refine ⟨⟨by decide, ?_⟩, ?_, ?_, ?_, ?_⟩ <;> intro row hrow <;> rw [hrows row hrow]
  · decide
  · exact ⟨by decide, by decide, by decide, by decide⟩
  all_goals decide

/-- A client claims the job and is stopped before it ends, and another claims it. -/
def interruptedRun : List Call :=
  [.fetchAvailable 2 [] 1 1, .requeue ⟨1, 1⟩ 3 (Bytes.ofChars ['\x7b', '\x7d'])]

/-- One late hand-back, and the job is fetched on an attempt it did not have. -/
theorem interruptedRun_ceiling :
    Unclaimed onceStore ∧
      ∀ row ∈ ((run next (start onceStore) interruptedRun).db.fetchAvailable 4 [] 1 1).2,
        row.attempt ≤ row.maxAttempts + (run next (start onceStore) interruptedRun).late.count row.id :=
  ⟨unclaimed_onceStore, (run_attempt_ceiling unclaimed_onceStore interruptedRun).1 4 [] 1 1⟩

/-- The claim after the hand-back is past the ceiling. -/
theorem interruptedRun_past_ceiling :
    Unclaimed onceStore ∧
      ∃ row ∈ ((run next (start onceStore) interruptedRun).db.fetchAvailable 4 [] 1 1).2,
        row.maxAttempts < row.attempt :=
  ⟨unclaimed_onceStore, by decide⟩

end Drover.Fleet
