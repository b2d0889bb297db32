import Drover.Driver.Operator
import Drover.Memdriver.Batch

set_option autoImplicit false

/-!
# Operator actions of the in-memory driver, section by section

`operatorCancel` and `redriveDead` release the mutex between their sections.  The driver's
own definitions run them back to back; here each is a step, and any call of the driver may
come in between.
-/

namespace Drover.Memdriver

open Drover.Foundation
open Drover.Driver
open Drover.Driver.Operator
open Drover.Go (Time)

/-- What an action may be done to. -/
def eligible : Action → JobState → Bool
  | .cancel => cancellable
  | .redrive => (· == .dead)

/-- What an action writes. -/
def write (now : Time) : Action → JobRow → JobRow
  | .cancel => cancelRow now
  | .redrive => redriveRow now

/-- The action with nothing between its sections. -/
def Driver.operator (d : Driver) (now : Time) (id : Int) : Action → Driver × Except DriverError JobRow
  | .cancel => d.operatorCancel now id
  | .redrive => d.redriveDead now id

/-- One locked section of `operatorCancel` or `redriveDead`.  Without a retry left, a miss
is an error at once: `afterOperatorMiss` does not read again. -/
def operatorSection (action : Action) (id : Int) (now : Time) (d : Driver) :
    Pc DriverError → Driver × Pc DriverError
  | .update allowRetry =>
      match d.jobs.get? id with
      | none => (d, .returned (.error (.notFound id)))
      | some row =>
          if eligible action row.state then
            ({ d with jobs := d.jobs.put (write now action row) },
              .returned (.ok (write now action row)))
          else if allowRetry then (d, .reread true)
          else (d, .returned (.error (.invalidTransition id row.state action.want)))
  | .reread allowRetry =>
      match d.jobs.get? id with
      | none => (d, .returned (.error (.notFound id)))
      | some row =>
          -- a section that gets here has its retry
          if allowRetry && eligible action row.state then (d, .update false)
          else (d, .returned (.error (.invalidTransition id row.state action.want)))
  | .returned result => (d, .returned result)

theorem operator_eq (d : Driver) (now : Time) (id : Int) (action : Action) :
    d.operator now id action = d.operatorAction id action.want (eligible action) (write now action) := by
  cases action <;> rfl

/-- What an update writes is not what it may be done to. -/
theorem not_eligible_write (now : Time) (action : Action) (row : JobRow) :
    eligible action (write now action row).state = false := by
  cases action <;> rfl

theorem id_write (now : Time) (action : Action) (row : JobRow) : (write now action row).id = row.id := by
  cases action <;> rfl

/-- With nobody in between, the sections are the action. -/
theorem run_operatorSection (action : Action) (id : Int) (now : Time) (d : Driver) :
    let r := run (Operator.next (operatorSection action id) next) (begin_ d) [.call now, .call now]
    r.store = (d.operator now id action).1 ∧ r.pc = .returned (d.operator now id action).2 := by
  rw [operator_eq, operatorAction_eq]
  cases hrow : d.jobs.get? id with
  | none => simp [begin_, Operator.next, Pc.kind, operatorSection, hrow]
  | some row =>
      by_cases heligible : eligible action row.state = true
      · simp [begin_, Operator.next, Pc.kind, operatorSection, hrow, heligible]
      · simp [begin_, Operator.next, Pc.kind, operatorSection, hrow, heligible]

/-- The action as others see it. -/
def contract (action : Action) (id : Int) : Contract Driver DriverError where
  state d := (d.jobs.get? id).map JobRow.state
  eligible := eligible action
  Took now d d' row := ∃ old, d.jobs.get? id = some old ∧ eligible action old.state = true ∧
    row = write now action old ∧ d' = { d with jobs := d.jobs.put row }
  refusal := refusal
  whole now d := d.operator now id action
  took_changes := by
    rintro now d d' row ⟨old, hold, heligible, rfl, rfl⟩ hsame
    have hkey : (write now action old).id = id := (id_write now action old).trans (Table.key_of_get? hold)
    have hget := congrArg (fun d => d.jobs.get? id) hsame
    simp only [← hkey, Table.get?_put_self] at hget
    rw [hkey, hold] at hget
    have hnot := not_eligible_write now action old
    rw [Option.some.inj hget, heligible] at hnot
    cases hnot
  whole_refuses := by
    intro now d why hwhy
    rw [operator_eq, operatorAction_eq]
    cases hrow : d.jobs.get? id with
    | none =>
        rw [hrow] at hwhy
        cases hwhy
        exact ⟨_, rfl, rfl⟩
    | some row =>
        rw [hrow] at hwhy
        simp only [Option.map_some, refuses] at hwhy
        split_ifs at hwhy with heligible
        cases hwhy
        simp only [heligible]
        exact ⟨_, rfl, rfl⟩

/-- Why an action is refused on the row that is there. -/
theorem refuses_row {action : Action} {id : Int} {d : Driver} {row : JobRow}
    (hrow : d.jobs.get? id = some row) (heligible : ¬eligible action row.state = true) :
    refuses (contract action id).eligible ((contract action id).state d) = some .invalidTransition := by
  simp [contract, refuses, hrow, heligible]

theorem operatorSection_spec (action : Action) (id : Int) (now : Time) (d : Driver)
    (pc : Pc DriverError) (hpc : pc.kind ≠ none) :
    CallStep (contract action id) now d pc (operatorSection action id now d pc).1
      (operatorSection action id now d pc).2 := by
  have hnone : d.jobs.get? id = none →
      refuses (contract action id).eligible ((contract action id).state d) = some .notFound := by
    intro h
    simp [contract, refuses, h]
  cases pc with
  | update allowRetry =>
      rw [operatorSection]
      cases hrow : d.jobs.get? id with
      | none => exact .refused hpc (hnone hrow) rfl
      | some row =>
          simp only
          split_ifs with heligible hretry
          · exact .wrote ⟨row, hrow, heligible, rfl, rfl⟩
          · rw [hretry]
            exact .missed (refuses_row hrow heligible)
          · exact .refused hpc (refuses_row hrow heligible) rfl
  | reread allowRetry =>
      rw [operatorSection]
      cases hrow : d.jobs.get? id with
      | none => exact .refused hpc (hnone hrow) rfl
      | some row =>
          have hthere : (contract action id).state d ≠ none := by simp [contract, hrow]
          simp only
          split_ifs with hagain
          · simp only [Bool.and_eq_true] at hagain
            rw [hagain.1]
            exact .again hthere
          · cases allowRetry with
            | false => exact .late hthere rfl
            | true => exact .refused hpc (refuses_row hrow (by simpa using hagain)) rfl
  | returned result => exact absurd rfl hpc

/-- A section leaves the store as it was, or as the whole action would. -/
theorem operatorSection_store (action : Action) (id : Int) (now : Time) (d : Driver)
    (pc : Pc DriverError) :
    (operatorSection action id now d pc).1 = d ∨
      (operatorSection action id now d pc).1 = (d.operator now id action).1 := by
  cases pc with
  | update allowRetry =>
      rw [operator_eq, operatorAction_eq, operatorSection]
      cases hrow : d.jobs.get? id with
      | none => exact Or.inl rfl
      | some row =>
          by_cases heligible : eligible action row.state = true
          · simp [heligible]
          · cases allowRetry <;> simp [heligible]
  | reread allowRetry =>
      rw [operatorSection]
      cases hrow : d.jobs.get? id with
      | none => exact Or.inl rfl
      | some row =>
          simp only
          split_ifs <;> exact Or.inl rfl
  | returned result => exact Or.inl rfl

theorem Driver.Fresh.operatorSection {d : Driver} (h : d.Fresh) (action : Action) (id : Int)
    (now : Time) (pc : Pc DriverError) : (operatorSection action id now d pc).1.Fresh := by
  rcases operatorSection_store action id now d pc with heq | heq
  · rwa [heq]
  · rw [heq]
    cases action with
    | cancel => exact h.next (.operatorCancel now id)
    | redrive => exact h.next (.redriveDead now id)

/-- Whatever runs between its sections, an operator action of the in-memory driver is atomic. -/
theorem race_atomic (action : Action) (id : Int) (store : Store) (labels : List (Label Op)) :
    Atomic (contract action id)
      (run (Operator.next (operatorSection action id) next) (begin_ store.toDriver) labels) := by
  refine (inv_run Driver.Fresh (operatorSection_spec action id)
    (fun now d pc h => h.operatorSection action id now pc) (fun d op h => ⟨h.next op, ?_⟩)
    store.fresh labels).atomic
  intro hthere
  simp only [contract, ne_eq, Option.map_eq_none_iff] at hthere ⊢
  obtain ⟨row, hrow⟩ := Option.ne_none_iff_exists'.mp hthere
  obtain ⟨row', hrow', -⟩ := next_row h op hrow
  simp [hrow']

-- A running job snoozes after the first section missed it: the re-read sees it, the retry cancels it.
example :
    let claimed := run next new [.insert 1 ⟨[], [], [], 0, []⟩, .fetchAvailable 2 [] 1 1]
    let r := run (Operator.next (operatorSection .cancel 1) next) (begin_ claimed)
      [.call 3, .other (.mark ⟨1, 1⟩ (.snoozed 9)), .call 4, .call 5]
    (r.store.jobs.get? 1).map JobRow.state = some .cancelled ∧ r.log.length = 3 := by
  decide

end Drover.Memdriver
