import Drover.Memdriver.Operator
import Drover.Pgdriver.Batch

set_option autoImplicit false

/-!
# Operator actions of both drivers under races

The Postgres driver's action is a guarded `UPDATE`, a `SELECT` when it matched no row, and
both once more.  Each statement is atomic, and any call of the driver may come between two
of them.  No call removes a job, so what the first `SELECT` saw is still there for the
second `UPDATE`: it can only have missed because of the state.
-/

namespace Drover.Pgdriver

open Drover.Foundation
open Drover.Driver
open Drover.Driver.Operator
open Drover.Go (Time Duration)
open Drover.Memdriver (Op Mark)

variable {pg : Postgres}

/-! ## Statements -/

/-- The `SET` of an action. -/
def operatorSet (now : Time) : Action → DroverJob pg → DroverJob pg
  | .cancel => finalizeSet .cancelled now
  | .redrive => redriveSet now

/-- The `UPDATE` of an action. -/
def Database.operatorStatement (db : Database pg) (now : Time) (id : Int) :
    Action → Except DbError (Database pg × Option (DroverJob pg))
  | .cancel => db.operatorCancel now id
  | .redrive => db.redriveDead now id

/-- The action with nothing between its statements. -/
def Database.operator (db : Database pg) (now : Time) (id : Int) :
    Action → Database pg × Except PgError JobRow
  | .cancel => db.cancel now id
  | .redrive => db.redrive now id

/-- One statement of `operatorCancel` or `redriveDead`. -/
def operatorCall (action : Action) (id : Int) (now : Time) (db : Database pg) :
    Pc PgError → Database pg × Pc PgError
  | .update allowRetry =>
      match db.operatorStatement now id action with
      | .error err => (db, .returned (.error (.database err)))
      | .ok (db', none) => (db', .reread allowRetry)
      | .ok (db', some job) => (db', .returned (.ok (rowFromDB job)))
  | .reread allowRetry =>
      match db.getJob id with
      | none => (db, .returned (.error (.driver (.notFound id))))
      | some job =>
          if allowRetry && operatorEligible job.state action.want then (db, .update false)
          else (db, .returned (.error (.driver (.invalidTransition id job.state action.want))))
  | .returned result => (db, .returned result)

/-- A call of somebody else, with the ids its inserts would get. -/
inductive Other where
  | op (fresh : Int) (op : Op)
  | insertMany (now : Time) (ids : Nat → Int) (batch : List InsertParams)

/-- The database after it. -/
def other (db : Database pg) : Other → Database pg
  | .op fresh op => ((step db fresh op).map Prod.fst).getD db
  | .insertMany now ids batch => (db.insertMany now ids batch).1

/-! ## No call removes a job -/

/-- Every job of the one database is in the other. -/
def Keeps (db db' : Database pg) : Prop := ∀ id, db.jobs.get? id ≠ none → db'.jobs.get? id ≠ none

theorem Keeps.refl (db : Database pg) : Keeps db db := fun _ h => h

theorem Keeps.trans {a b c : Database pg} (hab : Keeps a b) (hbc : Keeps b c) : Keeps a c :=
  fun id h => hbc id (hab id h)

theorem get?_put_ne_none {jobs : Jobs pg} (job : DroverJob pg) {id : Int} (h : jobs.get? id ≠ none) :
    (jobs.put job).get? id ≠ none := by
  by_cases hid : job.id = id
  · subst hid
    simp [Table.get?_put_self]
  · rwa [Table.get?_put_of_ne hid]

/-- What a statement leaves, if it succeeds, has every job it found. -/
def KeepsJobs {α : Type} (db : Database pg) (result : Except DbError (Database pg × α)) : Prop :=
  ∀ db' answer, result = .ok (db', answer) → Keeps db db'

theorem keepsJobs_error {α : Type} (db : Database pg) (err : DbError) :
    KeepsJobs (α := α) db (.error err) := by
  intro db' answer h
  cases h

theorem keepsJobs_ok {α : Type} {db db' : Database pg} (h : Keeps db db') (answer : α) :
    KeepsJobs db (.ok (db', answer)) := by
  intro _ _ heq
  cases heq
  exact h

theorem keepsJobs_commit {α : Type} {db : Database pg} {jobs : Jobs pg} (f : Database pg → α)
    (h : ∀ id, db.jobs.get? id ≠ none → jobs.get? id ≠ none) :
    KeepsJobs db ((commit jobs).map fun db' => (db', f db')) := by
  intro db' answer heq id hid
  cases hcommit : commit jobs with
  | error err =>
      rw [hcommit] at heq
      cases heq
  | ok db'' =>
      rw [hcommit] at heq
      cases heq
      rw [jobs_of_commit hcommit]
      exact h id hid

theorem get?_updateWhere_ne_none {jobs : Jobs pg} {p : DroverJob pg → Bool}
    {set : DroverJob pg → DroverJob pg} (hset : ∀ job, (set job).id = job.id) {id : Int}
    (h : jobs.get? id ≠ none) : (jobs.updateWhere p set hset).get? id ≠ none := by
  rw [Table.get?_updateWhere hset id]
  simpa using h

theorem get?_putAll_ne_none {jobs : Jobs pg} (new : List (DroverJob pg)) {id : Int}
    (h : jobs.get? id ≠ none) : (jobs.putAll new).get? id ≠ none := by
  induction new generalizing jobs with
  | nil => exact h
  | cons job new ih => exact ih (get?_put_ne_none job h)

theorem keepsJobs_updateIds (db : Database pg) (ids : List Int) {set : DroverJob pg → DroverJob pg}
    (hset : ∀ job, (set job).id = job.id) : KeepsJobs db (db.updateIds ids set hset) :=
  keepsJobs_commit _ fun _ => get?_updateWhere_ne_none hset

theorem keepsJobs_transition (db : Database pg) (id attempt : Int)
    {set : DroverJob pg → DroverJob pg} (hset : ∀ job, (set job).id = job.id) :
    KeepsJobs db (db.transition id attempt set hset) :=
  keepsJobs_commit _ fun _ => get?_updateWhere_ne_none hset

theorem keepsJobs_appendTransition (db : Database pg) (id attempt : Int) (error : Option Bytes)
    {set : DroverJob pg → DroverJob pg} (hset : ∀ job, (set job).id = job.id) :
    KeepsJobs db (db.appendTransition id attempt error set hset) := by
  unfold Database.appendTransition
  split
  · exact keepsJobs_transition db id attempt _
  · split_ifs
    · exact keepsJobs_error db _
    · exact keepsJobs_ok (.refl db) _
  · exact keepsJobs_error db _

theorem keepsJobs_markStatement (db : Database pg) (lease : Lease) (m : Mark) :
    KeepsJobs db (db.markStatement lease m) := by
  cases m with
  | completed now => exact keepsJobs_transition db _ _ _
  | retryable retryAt errDetail =>
      simp only [Database.markStatement, Database.markRetryable]
      split
      · exact keepsJobs_appendTransition db _ _ _ _
      · exact keepsJobs_error db _
  | dead now errDetail =>
      rw [Database.markStatement, Database.markDead]
      exact keepsJobs_appendTransition db _ _ _ _
  | cancelled now errDetail =>
      rw [Database.markStatement, Database.markCancelled]
      exact keepsJobs_appendTransition db _ _ _ _
  | snoozed runAt =>
      simp only [Database.markStatement, Database.markSnoozed]
      split
      · exact keepsJobs_transition db _ _ _
      · exact keepsJobs_error db _

theorem keepsJobs_operatorStatement (db : Database pg) (now : Time) (id : Int) (action : Action) :
    KeepsJobs db (db.operatorStatement now id action) := by
  cases action <;> exact keepsJobs_commit _ fun _ => get?_updateWhere_ne_none _

theorem keeps_fetch (db : Database pg) (limit : Int)
    {statement : Except DbError (Database pg × List (DroverJob pg))} (h : KeepsJobs db statement) :
    Keeps db (db.fetch limit statement).1 := by
  unfold Database.fetch
  split_ifs
  · exact .refl db
  · split
    · exact .refl db
    · exact h _ _ rfl

theorem keeps_operatorUpdate {a db : Database pg} (h : Keeps a db)
    {statement : Except DbError (Database pg × Option (DroverJob pg))}
    {miss : Database pg → Database pg × Except PgError JobRow} (hstatement : KeepsJobs db statement)
    (hmiss : ∀ db', Keeps a db' → Keeps a (miss db').1) :
    Keeps a (db.operatorUpdate statement miss).1 := by
  unfold Database.operatorUpdate
  split
  · exact h
  · exact hmiss _ (h.trans (hstatement _ _ rfl))
  · exact h.trans (hstatement _ _ rfl)

theorem keeps_afterOperatorMiss {a db : Database pg} (h : Keeps a db) (id : Int) (want : Want)
    {retry : Option (Database pg → Database pg × Except PgError JobRow)}
    (hretry : ∀ f, retry = some f → ∀ db', Keeps a db' → Keeps a (f db').1) :
    Keeps a (db.afterOperatorMiss id want retry).1 := by
  unfold Database.afterOperatorMiss
  split
  · exact h
  · split
    · split_ifs
      · exact hretry _ rfl db h
      · exact h
    · exact h

/-- An operator action, as another caller's. -/
theorem keeps_operator (db : Database pg) (now : Time) (id : Int) (action : Action) :
    Keeps db (db.operator now id action).1 := by
  have hall : Keeps db (db.operatorAction id action.want
      fun db => db.operatorStatement now id action).1 := by
    refine keeps_operatorUpdate (.refl db) (keepsJobs_operatorStatement db now id action) ?_
    intro db₁ h₁
    refine keeps_afterOperatorMiss h₁ id action.want ?_
    rintro f ⟨⟩ db₂ h₂
    refine keeps_operatorUpdate h₂ (keepsJobs_operatorStatement db₂ now id action) ?_
    intro db₃ h₃
    exact keeps_afterOperatorMiss h₃ id action.want (by simp)
  cases action <;> exact hall

theorem keeps_insert (db : Database pg) (now : Time) (id : Int) (params : InsertParams) :
    Keeps db (db.insert now id params).1 := by
  have hkeeps : KeepsJobs db (db.insertJob now id (insertParams params)) := by
    unfold Database.insertJob
    split
    · exact keepsJobs_error db _
    · exact keepsJobs_commit _ fun _ => get?_put_ne_none _
  unfold Database.insert
  split
  · exact .refl db
  · rename_i heq
    exact hkeeps _ _ heq

theorem keeps_insertMany (db : Database pg) (now : Time) (ids : Nat → Int)
    (batch : List InsertParams) : Keeps db (db.insertMany now ids batch).1 := by
  have hkeeps : ∀ staged, KeepsJobs db (db.insertJobsFromStaging now ids staged) :=
    fun _ => keepsJobs_commit _ fun _ => get?_putAll_ne_none _
  unfold Database.insertMany
  split_ifs
  · exact .refl db
  · split
    · exact .refl db
    · split
      · exact .refl db
      · rename_i heq
        exact hkeeps _ _ _ heq

theorem keepsJobs_fetchAvailable (db : Database pg) (now : Time) (leaseFor : Duration)
    (queue : Bytes) (maxJobs : Int) :
    KeepsJobs db (db.fetchAvailable now leaseFor queue maxJobs) := by
  unfold Database.fetchAvailable
  split
  · simp only
    split_ifs
    · exact keepsJobs_error db _
    · exact keepsJobs_updateIds db _ _
  · exact keepsJobs_error db _

theorem keepsJobs_fetchExpired (db : Database pg) (now : Time) (leaseFor : Duration)
    (maxJobs : Int) : KeepsJobs db (db.fetchExpired now leaseFor maxJobs) := by
  unfold Database.fetchExpired
  split
  · exact keepsJobs_updateIds db _ _
  · exact keepsJobs_error db _

theorem keeps_extendHeld (db : Database pg) (now : Time) (leases : List Lease)
    (leaseFor : Duration) : Keeps db (db.extendHeld now leases leaseFor).1 := by
  unfold Database.extendHeld
  split_ifs
  · exact .refl db
  · split
    · exact .refl db
    · rename_i db' heq
      unfold Database.extendLeases at heq
      split at heq
      · intro id hid
        rw [jobs_of_commit heq]
        exact get?_updateWhere_ne_none _ hid
      · cases heq

theorem keeps_mark (db : Database pg) (lease : Lease) (m : Mark) :
    Keeps db (db.mark lease m).1 := by
  unfold Database.mark
  split
  · exact .refl db
  · rename_i heq
    exact keepsJobs_markStatement db lease m _ _ heq

/-- Whatever another caller does, every job is still there. -/
theorem keeps_other (db : Database pg) (o : Other) : Keeps db (other db o) := by
  cases o with
  | insertMany now ids batch => exact keeps_insertMany db now ids batch
  | op fresh op =>
      cases op with
      | insert now params => exact keeps_insert db now fresh params
      | fetchAvailable now queue leaseFor limit =>
          exact keeps_fetch db limit (keepsJobs_fetchAvailable db now leaseFor queue limit)
      | fetchExpired now leaseFor limit =>
          exact keeps_fetch db limit (keepsJobs_fetchExpired db now leaseFor limit)
      | extendLeases now leases leaseFor => exact keeps_extendHeld db now leases leaseFor
      | mark lease m => exact keeps_mark db lease m
      | operatorCancel now id => exact keeps_operator db now id .cancel
      | redriveDead now id => exact keeps_operator db now id .redrive
      | _ => exact .refl db

/-! ## The action as others see it -/

theorem id_operatorSet (now : Time) (action : Action) (job : DroverJob pg) :
    (operatorSet now action job).id = job.id := by
  cases action <;> rfl

theorem operatorStatement_eq (db : Database pg) (now : Time) (id : Int) (action : Action) :
    db.operatorStatement now id action =
      db.updateOne id (operatorEligible · action.want) (operatorSet now action)
        (id_operatorSet now action) := by
  cases action <;> rfl

theorem operator_eq (db : Database pg) (now : Time) (id : Int) (action : Action) :
    db.operator now id action =
      db.operatorAction id action.want fun db => db.operatorStatement now id action := by
  cases action <;> rfl

/-- What an update writes is not what it may be done to. -/
theorem not_eligible_operatorSet (now : Time) (action : Action) (job : DroverJob pg) :
    operatorEligible (operatorSet now action job).state action.want = false := by
  cases action <;> rfl

/-- A statement that may not write leaves the database as it is. -/
theorem operatorStatement_miss {db : Database pg} {id : Int} {action : Action} (now : Time)
    (h : ∀ job, db.getJob id = some job → operatorEligible job.state action.want = false) :
    db.operatorStatement now id action = .ok (db, none) := by
  rw [operatorStatement_eq]
  exact updateOne_of_not_eligible _ h

/-- One that may is stopped by the index only. -/
theorem operatorStatement_hit {db : Database pg} {id : Int} {action : Action} (now : Time)
    {job : DroverJob pg} (hjob : db.getJob id = some job)
    (heligible : operatorEligible job.state action.want = true) :
    db.operatorStatement now id action =
      (commit (db.jobs.put (operatorSet now action job))).map
        fun db' => (db', some (operatorSet now action job)) := by
  rw [operatorStatement_eq]
  exact updateOne_eq_commit _ hjob heligible

theorem operator_miss {db : Database pg} {id : Int} {action : Action} (now : Time)
    (h : ∀ job, db.getJob id = some job → operatorEligible job.state action.want = false) :
    db.operator now id action =
      (db, match db.getJob id with
        | none => .error (.driver (.notFound id))
        | some job => .error (.driver (.invalidTransition id job.state action.want))) := by
  simp only [operator_eq, operatorStatement_eq]
  exact operatorAction_miss _ (fun _ => rfl) h

/-- With nobody in between, the statements are the action. -/
theorem run_operatorCall (action : Action) (id : Int) (now : Time) (db : Database pg) :
    let r := run (Operator.next (operatorCall action id) other) (begin_ db) [.call now, .call now]
    r.store = (db.operator now id action).1 ∧ r.pc = .returned (db.operator now id action).2 := by
  cases hjob : db.getJob id with
  | none =>
      have hmiss : ∀ job, db.getJob id = some job → operatorEligible job.state action.want = false := by
        simp [hjob]
      simp [begin_, Operator.next, Pc.kind, operatorCall, operatorStatement_miss now hmiss,
        operator_miss now hmiss, hjob]
  | some job =>
      by_cases heligible : operatorEligible job.state action.want = true
      · rw [operator_eq, Database.operatorAction]
        cases hcommit : commit (db.jobs.put (operatorSet now action job)) with
        | error err =>
            simp [begin_, Operator.next, Pc.kind, operatorCall, Database.operatorUpdate,
              operatorStatement_hit now hjob heligible, hcommit, Except.map]
        | ok db' =>
            simp [begin_, Operator.next, Pc.kind, operatorCall, Database.operatorUpdate,
              operatorStatement_hit now hjob heligible, hcommit, Except.map]
      · have hmiss : ∀ job, db.getJob id = some job →
            operatorEligible job.state action.want = false := by
          rintro _ hsame
          rw [hjob] at hsame
          cases hsame
          simpa using heligible
        simp [begin_, Operator.next, Pc.kind, operatorCall, operatorStatement_miss now hmiss,
          operator_miss now hmiss, hjob, heligible]

/-- The errors of the driver that explain a miss. -/
def refusal : PgError → Option Refusal
  | .driver err => Operator.refusal err
  | _ => none

/-- The action as others see it. -/
def contract (pg : Postgres) (action : Action) (id : Int) : Contract (Database pg) PgError where
  state db := (db.getJob id).map DroverJob.state
  eligible := (operatorEligible · action.want)
  Took now db db' row := ∃ old, db.getJob id = some old ∧
    operatorEligible old.state action.want = true ∧
    db'.jobs = db.jobs.put (operatorSet now action old) ∧ row = rowFromDB (operatorSet now action old)
  refusal := refusal
  whole now db := db.operator now id action
  took_changes := by
    rintro now db db' row ⟨old, hold, heligible, hjobs, -⟩ rfl
    have hkey : (operatorSet now action old).id = id :=
      (id_operatorSet now action old).trans (Table.key_of_get? hold)
    have hget := congrArg (fun jobs => jobs.get? id) hjobs
    simp only [← hkey, Table.get?_put_self] at hget
    rw [hkey] at hget
    have hsame := Option.some.inj (hold.symm.trans hget)
    have hnot := not_eligible_operatorSet now action old
    rw [← hsame, heligible] at hnot
    cases hnot
  whole_refuses := by
    intro now db why hwhy
    cases hjob : db.getJob id with
    | none =>
        rw [hjob] at hwhy
        cases hwhy
        rw [operator_miss now (by simp [hjob]), hjob]
        exact ⟨_, rfl, rfl⟩
    | some job =>
        rw [hjob] at hwhy
        simp only [Option.map_some, refuses] at hwhy
        split_ifs at hwhy with heligible
        cases hwhy
        rw [operator_miss now (by simpa [hjob] using heligible), hjob]
        exact ⟨_, rfl, rfl⟩

/-- Why an action is refused on the job that is there. -/
theorem refuses_job {action : Action} {id : Int} {db : Database pg} {job : DroverJob pg}
    (hjob : db.getJob id = some job) (heligible : ¬operatorEligible job.state action.want = true) :
    refuses (contract pg action id).eligible ((contract pg action id).state db) =
      some .invalidTransition := by
  simp [contract, refuses, hjob, heligible]

theorem operatorCall_spec (action : Action) (id : Int) (now : Time) (db : Database pg)
    (pc : Pc PgError) (hpc : pc.kind ≠ none) :
    CallStep (contract pg action id) now db pc (operatorCall action id now db pc).1
      (operatorCall action id now db pc).2 := by
  have hnone : db.getJob id = none →
      refuses (contract pg action id).eligible ((contract pg action id).state db) = some .notFound := by
    intro h
    simp [contract, refuses, h]
  cases pc with
  | update allowRetry =>
      rw [operatorCall]
      cases hjob : db.getJob id with
      | none =>
          rw [operatorStatement_miss now (by simp [hjob])]
          exact .missed (hnone hjob)
      | some job =>
          by_cases heligible : operatorEligible job.state action.want = true
          · rw [operatorStatement_hit now hjob heligible]
            cases hcommit : commit (db.jobs.put (operatorSet now action job)) with
            | error err => exact .failed rfl
            | ok db' => exact .wrote ⟨job, hjob, heligible, jobs_of_commit hcommit, rfl⟩
          · rw [operatorStatement_miss now (by simpa [hjob] using heligible)]
            exact .missed (refuses_job hjob heligible)
  | reread allowRetry =>
      rw [operatorCall]
      cases hjob : db.getJob id with
      | none => exact .refused hpc (hnone hjob) rfl
      | some job =>
          have hthere : (contract pg action id).state db ≠ none := by simp [contract, hjob]
          simp only
          split_ifs with hagain
          · simp only [Bool.and_eq_true] at hagain
            rw [hagain.1]
            exact .again hthere
          · cases allowRetry with
            | false => exact .late hthere rfl
            | true => exact .refused hpc (refuses_job hjob (by simpa using hagain)) rfl
  | returned result => exact absurd rfl hpc

/-- Whatever runs between its statements, an operator action of the Postgres driver is atomic. -/
theorem race_atomic (action : Action) (id : Int) (db : Database pg) (labels : List (Label Other)) :
    Atomic (contract pg action id)
      (run (Operator.next (operatorCall action id) other) (begin_ db) labels) := by
  refine (inv_run (fun _ => True) (operatorCall_spec action id) (fun _ _ _ _ => trivial)
    (fun db o _ => ⟨trivial, fun hthere => ?_⟩) trivial labels).atomic
  simp only [contract, Database.getJob, ne_eq, Option.map_eq_none_iff] at hthere ⊢
  exact keeps_other db o id hthere

/-- `OperatorCancel` and `RedriveDead` are atomic in both drivers, whatever other calls run
between their statements: they issue at most two updates and two re-reads, change the job at
most once, return a row exactly when their update took effect, and an error that explains a miss
is one a whole attempt would have met at the instant of one of their statements. -/
theorem operator_actions_atomic (action : Action) (id : Int) :
    (∀ (store : Memdriver.Store) (labels : List (Label Op)),
      Atomic (Memdriver.contract action id)
        (run (Operator.next (Memdriver.operatorSection action id) Memdriver.next)
          (begin_ store.toDriver) labels)) ∧
    (∀ (pg : Postgres) (db : Database pg) (labels : List (Label Other)),
      Atomic (contract pg action id)
        (run (Operator.next (operatorCall action id) other) (begin_ db) labels)) :=
  ⟨fun store labels => Memdriver.race_atomic action id store labels,
    fun _ db labels => race_atomic action id db labels⟩

end Drover.Pgdriver
