import Drover.Foundation.Run
import Drover.Memdriver.Driver

set_option autoImplicit false

/-!
# One call on the in-memory store

`Op` is a call of a driver method, with its arguments and the clock reading it
takes; `step` is what the call leaves behind and what it answers.  A run of any
number of clients is a list of calls.

`Change` says once what a call can do to a stored row.  `next_row` and `next_new`
are the inversion of a step: a stored row stays or goes through a `Change`, and a
row that appears was built by an insert.  Every invariant of the store is proved
from these, never from the bodies of the methods.
-/

namespace Drover.Memdriver

open Drover.Foundation
open Drover.Driver
open Drover.Go (Time Duration)

/-! ## Calls -/

/-- The five ways to end an attempt, with what the caller hands over. -/
inductive Mark where
  | completed (now : Time)
  | retryable (retryAt : Time) (errDetail : Option Bytes)
  | dead (now : Time) (errDetail : Option Bytes)
  | cancelled (now : Time) (errDetail : Option Bytes)
  | snoozed (runAt : Time)
  deriving DecidableEq, Repr

/-- A driver call. -/
inductive Op where
  | insert (now : Time) (params : InsertParams)
  | insertMany (now : Time) (batch : List InsertParams)
  | fetchAvailable (now : Time) (queue : Bytes) (leaseFor : Duration) (limit : Int)
  | fetchExpired (now : Time) (leaseFor : Duration) (limit : Int)
  | extendLeases (now : Time) (leases : List Lease) (leaseFor : Duration)
  | mark (lease : Lease) (m : Mark)
  | operatorCancel (now : Time) (id : Int)
  | redriveDead (now : Time) (id : Int)
  | getJob (id : Int)
  | listJobs (p : ListJobsParams)
  | stats (now : Time)
  deriving DecidableEq, Repr

/-- What a call answers. -/
inductive Reply where
  /-- a call that returns only an error -/
  | done (err : Option DriverError)
  /-- a call that returns one row -/
  | row (result : Except DriverError JobRow)
  /-- a call that returns rows -/
  | rows (result : Except DriverError (List JobRow))
  /-- `Stats` -/
  | stats (stats : Stats)

/-- The error of an answer. -/
def Reply.error? : Reply → Option DriverError
  | .done err => err
  | .row (.error err) => some err
  | .rows (.error err) => some err
  | _ => none

/-- The `Mark` methods. -/
def Driver.mark (d : Driver) (lease : Lease) : Mark → Driver × Option DriverError
  | .completed now => d.markCompleted now lease
  | .retryable retryAt errDetail => d.markRetryable lease retryAt errDetail
  | .dead now errDetail => d.markDead now lease errDetail
  | .cancelled now errDetail => d.markCancelled now lease errDetail
  | .snoozed runAt => d.markSnoozed lease runAt

/-- One call: the store it leaves behind and its answer. -/
def step (d : Driver) : Op → Driver × Reply
  | .insert now params => ((d.insert now params).1, .row (d.insert now params).2)
  | .insertMany now batch => ((d.insertMany now batch).1, .rows (d.insertMany now batch).2)
  | .fetchAvailable now queue leaseFor limit =>
      ((d.fetchAvailable now queue leaseFor limit).1,
        .rows (.ok (d.fetchAvailable now queue leaseFor limit).2))
  | .fetchExpired now leaseFor limit =>
      ((d.fetchExpired now leaseFor limit).1, .rows (.ok (d.fetchExpired now leaseFor limit).2))
  | .extendLeases now leases leaseFor => (d.extendLeases now leases leaseFor, .done none)
  | .mark lease m => ((d.mark lease m).1, .done (d.mark lease m).2)
  | .operatorCancel now id => ((d.operatorCancel now id).1, .row (d.operatorCancel now id).2)
  | .redriveDead now id => ((d.redriveDead now id).1, .row (d.redriveDead now id).2)
  | .getJob id => (d, .row (d.getJob id))
  | .listJobs p => (d, .rows (d.listJobs p))
  | .stats now => (d, .stats (d.stats now))

/-- The store after a call. -/
def next (d : Driver) (op : Op) : Driver := (step d op).1

/-- The answer of a call. -/
def reply (d : Driver) (op : Op) : Reply := (step d op).2

/-- The rows a fetch hands its caller. -/
def fetched (d : Driver) : Op → List JobRow
  | .fetchAvailable now queue leaseFor limit => (d.fetchAvailable now queue leaseFor limit).2
  | .fetchExpired now leaseFor limit => (d.fetchExpired now leaseFor limit).2
  | _ => []

/-! ## What the closures of `transition` do -/

/-- The closure each `Mark` hands to `transition`. -/
def Mark.apply : Mark → JobRow → JobRow × Option DriverError
  | .completed now => finalizeRow .completed now none
  | .retryable retryAt errDetail => retryRow retryAt errDetail
  | .dead now errDetail => finalizeRow .dead now errDetail
  | .cancelled now errDetail => finalizeRow .cancelled now errDetail
  | .snoozed runAt => snoozeRow runAt

theorem mark_eq_transition (d : Driver) (lease : Lease) (m : Mark) :
    d.mark lease m = d.transition lease m.apply := by
  cases m <;> rfl

/-- The error detail a `Mark` carries. -/
def Mark.detail : Mark → Option Bytes
  | .completed _ => none
  | .retryable _ errDetail => errDetail
  | .dead _ errDetail => errDetail
  | .cancelled _ errDetail => errDetail
  | .snoozed _ => none

/-- What an accepted `Mark` writes, given the row with the error appended. -/
def Mark.write : Mark → JobRow → JobRow
  | .completed now, row => { row with state := .completed, finalizedAt := some now }
  | .retryable retryAt _, row => { row with state := .retryable, scheduledAt := retryAt }
  | .dead now _, row => { row with state := .dead, finalizedAt := some now }
  | .cancelled now _, row => { row with state := .cancelled, finalizedAt := some now }
  | .snoozed runAt, row =>
      { row with
        state := .scheduled, scheduledAt := runAt, attempt := max (row.attempt - 1) 0 }

/-- Every closure appends the error first and writes only if that succeeded. -/
theorem Mark.apply_eq (m : Mark) (row : JobRow) :
    m.apply row =
      match appendError row m.detail with
      | (row, some err) => (row, some err)
      | (row, none) => (m.write row, none) := by
  cases m <;> rfl

/-- A failed append leaves the row alone. -/
theorem appendError_error {row row' : JobRow} {detail : Option Bytes} {err : DriverError}
    (h : appendError row detail = (row', some err)) : row' = row := by
  unfold appendError at h
  split at h
  · cases h
  · split at h
    · cases h
      rfl
    · split at h <;> cases h
      rfl

/-- An append touches nothing but the errors array. -/
theorem appendError_ok {row row' : JobRow} {detail : Option Bytes}
    (h : appendError row detail = (row', none)) :
    row' = { row with errors := row'.errors } ∧
      (row'.errors = row.errors ∨ ∃ list x, Json.unmarshalList row.errors = some list ∧
        row'.errors = Json.marshalList (list ++ [x])) := by
  unfold appendError at h
  split at h
  · cases h
    exact ⟨rfl, Or.inl rfl⟩
  · split at h
    · cases h
    · rename_i list hlist
      split at h
      · cases h
      · cases h
        exact ⟨rfl, Or.inr ⟨list, _, hlist, rfl⟩⟩

theorem appendError_of_list {row : JobRow} {list : List Json.Value} {text : Bytes}
    {detail : Json.Value} (hlist : Json.unmarshalList row.errors = some list)
    (hscan : Json.scan text = some detail) :
    appendError row (some text) =
      ({ row with errors := Json.marshalList (list ++ [detail]) }, none) := by
  rw [appendError, hlist, hscan]

theorem appendError_id {row row' : JobRow} {detail : Option Bytes}
    (h : appendError row detail = (row', none)) : row'.id = row.id := by
  rw [(appendError_ok h).1]

/-- The row an accepted `Mark` leaves: written, and the lease cleared. -/
def Mark.result (m : Mark) (row : JobRow) : JobRow := { m.write row with leasedUntil := none }

@[simp] theorem Mark.result_id (m : Mark) (row : JobRow) : (m.result row).id = row.id := by
  cases m <;> rfl

/-! ## What a call can do to a row -/

/-- What a call can do to a stored row. -/
inductive Change : Op → JobRow → JobRow → Prop
  /-- `FetchAvailable` claims a due row. -/
  | claim {now : Time} {queue : Bytes} {leaseFor : Duration} {limit : Int} {row : JobRow}
      (hdue : due now queue row = true) :
      Change (.fetchAvailable now queue leaseFor limit) row (claim now leaseFor row)
  /-- `FetchExpired` re-claims a row whose lease has passed. -/
  | reclaim {now : Time} {leaseFor : Duration} {limit : Int} {row : JobRow}
      (hexpired : expired now row = true) :
      Change (.fetchExpired now leaseFor limit) row (reclaim now leaseFor row)
  /-- `ExtendLeases` renews a lease its caller names. -/
  | extend {now : Time} {leases : List Lease} {leaseFor : Duration} {row : JobRow}
      (hrunning : row.state = .running) (hheld : row.lease ∈ leases) :
      Change (.extendLeases now leases leaseFor) row (reclaim now leaseFor row)
  /-- A `Mark` ends the attempt its lease names. -/
  | mark {m : Mark} {row appended : JobRow} (hrunning : row.state = .running)
      (happend : appendError row m.detail = (appended, none)) :
      Change (.mark row.lease m) row (m.result appended)
  /-- `OperatorCancel` cancels a waiting or dead row. -/
  | operatorCancel {now : Time} {row : JobRow} (hcan : cancellable row.state = true) :
      Change (.operatorCancel now row.id) row (cancelRow now row)
  /-- `RedriveDead` revives a dead row. -/
  | redriveDead {now : Time} {row : JobRow} (hdead : row.state = .dead) :
      Change (.redriveDead now row.id) row (redriveRow now row)

theorem change_redriveDead {now : Time} {id : Int} {row row' : JobRow}
    (h : Change (.redriveDead now id) row row') :
    row.id = id ∧ row.state = .dead ∧ row' = redriveRow now row := by
  cases h with
  | redriveDead hdead => exact ⟨rfl, hdead, rfl⟩

/-- The fields no call writes once a row is stored. -/
structure SameJob (row row' : JobRow) : Prop where
  id : row'.id = row.id
  kind : row'.kind = row.kind
  queue : row'.queue = row.queue
  args : row'.args = row.args
  maxAttempts : row'.maxAttempts = row.maxAttempts
  createdAt : row'.createdAt = row.createdAt
  uniqueKey : row'.uniqueKey = row.uniqueKey

theorem SameJob.refl (row : JobRow) : SameJob row row := ⟨rfl, rfl, rfl, rfl, rfl, rfl, rfl⟩

theorem SameJob.trans {a b c : JobRow} (hab : SameJob a b) (hbc : SameJob b c) : SameJob a c :=
  ⟨hbc.id.trans hab.id, hbc.kind.trans hab.kind, hbc.queue.trans hab.queue,
    hbc.args.trans hab.args, hbc.maxAttempts.trans hab.maxAttempts,
    hbc.createdAt.trans hab.createdAt, hbc.uniqueKey.trans hab.uniqueKey⟩

theorem sameJob_of_change {op : Op} {row row' : JobRow} (h : Change op row row') :
    SameJob row row' := by
  cases h with
  | @mark m row appended hrunning happend =>
      have hwrite : SameJob appended (m.result appended) := by
        cases m <;> exact ⟨rfl, rfl, rfl, rfl, rfl, rfl, rfl⟩
      have hsame : SameJob row appended := by
        rw [(appendError_ok happend).1]
        exact ⟨rfl, rfl, rfl, rfl, rfl, rfl, rfl⟩
      exact hsame.trans hwrite
  | _ => exact ⟨rfl, rfl, rfl, rfl, rfl, rfl, rfl⟩

/-! ## Fetches -/

/-- The first `limit` rows, or all of them when the limit is negative: a loop that
stops when exactly `limit` rows are taken never stops then. -/
def upTo (limit : Int) (rows : List JobRow) : List JobRow :=
  if limit < 0 then rows else rows.take limit.toNat

theorem upTo_sublist (limit : Int) (rows : List JobRow) : (upTo limit rows).Sublist rows := by
  unfold upTo
  split
  · exact List.Sublist.refl rows
  · exact List.take_sublist _ rows

theorem upTo_zero (rows : List JobRow) : upTo 0 rows = [] := by
  simp [upTo]

theorem upTo_cons {limit : Int} (h : limit ≠ 0) (row : JobRow) (rows : List JobRow) :
    upTo limit (row :: rows) = row :: upTo (limit - 1) rows := by
  unfold upTo
  by_cases hneg : limit < 0
  · rw [if_pos hneg, if_pos (by omega)]
  · have htake : limit.toNat = (limit - 1).toNat + 1 := by omega
    rw [if_neg hneg, if_neg (by omega), htake, List.take_succ_cons]

/-- The loop touches the first rows it is given, as many as the limit leaves. -/
theorem fetchLoop_eq (touch : JobRow → JobRow) (limit : Int) (rows taken : List JobRow)
    (jobs : Table JobRow.id) :
    fetchLoop touch limit rows taken jobs =
      (jobs.putAll ((upTo (limit - taken.length) rows).map touch),
        taken ++ (upTo (limit - taken.length) rows).map touch) := by
  induction rows generalizing taken jobs with
  | nil => simp [fetchLoop, upTo]
  | cons row rows ih =>
      rw [fetchLoop]
      by_cases hlen : (taken.length : Int) = limit
      · rw [if_pos hlen, hlen, Int.sub_self, upTo_zero]
        simp
      · have hrest : limit - ((taken ++ [touch row]).length : Int) = limit - taken.length - 1 := by
          simp only [List.length_append, List.length_singleton]
          omega
        rw [if_neg hlen, ih, upTo_cons (by omega), hrest]
        simp

/-- The rows `FetchAvailable` takes, in the order it takes them. -/
def Driver.claimable (d : Driver) (now : Time) (queue : Bytes) (limit : Int) : List JobRow :=
  upTo limit (d.selectRows byScheduledAt (due now queue))

/-- The rows `FetchExpired` takes, in the order it takes them. -/
def Driver.reclaimable (d : Driver) (now : Time) (limit : Int) : List JobRow :=
  upTo limit (d.selectRows byLeasedUntil (expired now))

theorem fetchAvailable_eq (d : Driver) (now : Time) (queue : Bytes) (leaseFor : Duration)
    (limit : Int) :
    d.fetchAvailable now queue leaseFor limit =
      ({ d with jobs := d.jobs.putAll ((d.claimable now queue limit).map (claim now leaseFor)) },
        (d.claimable now queue limit).map (claim now leaseFor)) := by
  simp [Driver.fetchAvailable, fetchLoop_eq, Driver.claimable]

theorem fetchExpired_eq (d : Driver) (now : Time) (leaseFor : Duration) (limit : Int) :
    d.fetchExpired now leaseFor limit =
      ({ d with jobs := d.jobs.putAll ((d.reclaimable now limit).map (reclaim now leaseFor)) },
        (d.reclaimable now limit).map (reclaim now leaseFor)) := by
  simp [Driver.fetchExpired, fetchLoop_eq, Driver.reclaimable]

theorem mem_selectRows {d : Driver} {order : JobRow → Time} {keep : JobRow → Bool}
    {row : JobRow} : row ∈ d.selectRows order keep ↔ row ∈ d.jobs.rows ∧ keep row = true := by
  simp [Driver.selectRows]

theorem nodup_selectRows (d : Driver) (order : JobRow → Time) (keep : JobRow → Bool) :
    ((d.selectRows order keep).map JobRow.id).Nodup := by
  have hperm := List.perm_insertionSort (rowLE order) (d.jobs.rows.filter keep)
  have hsub : (d.jobs.rows.filter keep).Sublist d.jobs.rows := List.filter_sublist
  exact ((hperm.map JobRow.id).nodup_iff).mpr (d.jobs.nodup.sublist (hsub.map JobRow.id))

theorem nodup_upTo (d : Driver) (order : JobRow → Time) (keep : JobRow → Bool) (limit : Int) :
    ((upTo limit (d.selectRows order keep)).map JobRow.id).Nodup :=
  (nodup_selectRows d order keep).sublist ((upTo_sublist limit _).map JobRow.id)

/-- `FetchAvailable` hands back no job twice. -/
theorem fetchAvailable_nodup (d : Driver) (now : Time) (queue : Bytes) (leaseFor : Duration)
    (limit : Int) : ((d.fetchAvailable now queue leaseFor limit).2.map JobRow.id).Nodup := by
  rw [fetchAvailable_eq, List.map_map]
  exact nodup_upTo d byScheduledAt (due now queue) limit

/-- What a fetch does to the store, row by row: the rows it takes are touched,
every other row is left. -/
theorem get?_upTo {d : Driver} {order : JobRow → Time} {keep : JobRow → Bool} {limit : Int}
    {touch : JobRow → JobRow} (htouch : ∀ row, (touch row).id = row.id) (id : Int) :
    (d.jobs.putAll ((upTo limit (d.selectRows order keep)).map touch)).get? id =
      (d.jobs.get? id).map fun row =>
        if row ∈ upTo limit (d.selectRows order keep) then touch row else row := by
  have hsub := upTo_sublist limit (d.selectRows order keep)
  exact Table.get?_putAll_map htouch
    (fun row hrow => (mem_selectRows.mp (hsub.subset hrow)).1)
    (nodup_upTo d order keep limit) id

theorem get?_fetchAvailable (d : Driver) (now : Time) (queue : Bytes) (leaseFor : Duration)
    (limit id : Int) :
    (next d (.fetchAvailable now queue leaseFor limit)).jobs.get? id =
      (d.jobs.get? id).map fun row =>
        if row ∈ d.claimable now queue limit then claim now leaseFor row else row := by
  have htouch : ∀ row, (claim now leaseFor row).id = row.id := fun _ => rfl
  rw [next, step, fetchAvailable_eq]
  exact get?_upTo htouch id

theorem get?_fetchExpired (d : Driver) (now : Time) (leaseFor : Duration) (limit id : Int) :
    (next d (.fetchExpired now leaseFor limit)).jobs.get? id =
      (d.jobs.get? id).map fun row =>
        if row ∈ d.reclaimable now limit then reclaim now leaseFor row else row := by
  have htouch : ∀ row, (reclaim now leaseFor row).id = row.id := fun _ => rfl
  rw [next, step, fetchExpired_eq]
  exact get?_upTo htouch id

theorem due_of_mem_claimable {d : Driver} {now : Time} {queue : Bytes} {limit : Int}
    {row : JobRow} (h : row ∈ d.claimable now queue limit) :
    row ∈ d.jobs.rows ∧ due now queue row = true :=
  mem_selectRows.mp ((upTo_sublist limit _).subset h)

theorem expired_of_mem_reclaimable {d : Driver} {now : Time} {limit : Int} {row : JobRow}
    (h : row ∈ d.reclaimable now limit) : row ∈ d.jobs.rows ∧ expired now row = true :=
  mem_selectRows.mp ((upTo_sublist limit _).subset h)

/-! ## `ExtendLeases` -/

/-- One turn of the loop is an update of the row that is running under the lease. -/
theorem extendOne_eq (until_ : Time) (jobs : Table JobRow.id) (held : Lease) :
    extendOne until_ jobs held =
      jobs.updateWhere (fun row => decide (row.state = .running ∧ row.lease = held))
        (fun row => { row with leasedUntil := some until_ }) fun _ => rfl := by
  have hlook : ∀ row ∈ jobs.rows, row.lease = held → jobs.get? held.id = some row := by
    rintro row hrow rfl
    exact Table.get?_of_mem hrow
  unfold extendOne
  cases hheld : jobs.get? held.id with
  | none =>
      refine (Table.updateWhere_of_none _ fun row hrow => decide_eq_false ?_).symm
      rintro ⟨-, hlease⟩
      rw [hlook row hrow hlease] at hheld
      cases hheld
  | some found =>
      have hfound : found.id = held.id := Table.key_of_get? hheld
      by_cases hmatch : found.state = .running ∧ found.attempt = held.attempt
      · have hlease : found.lease = held := by rw [JobRow.lease, hfound, hmatch.2]
        have hcond : ¬(found.state ≠ .running ∨ found.attempt ≠ held.attempt) := by
          simpa [not_or] using hmatch
        simp only [if_neg hcond]
        symm
        refine Table.updateWhere_of_one _ (Table.mem_of_get? hheld)
          (decide_eq_true ⟨hmatch.1, hlease⟩) fun row hrow hp => ?_
        have hsame := hlook row hrow (of_decide_eq_true hp).2
        rw [hheld] at hsame
        rw [Option.some.inj hsame]
      · have hcond : found.state ≠ .running ∨ found.attempt ≠ held.attempt := by
          by_cases hrun : found.state = .running
          · exact Or.inr fun hattempt => hmatch ⟨hrun, hattempt⟩
          · exact Or.inl hrun
        simp only [if_pos hcond]
        refine (Table.updateWhere_of_none _ fun row hrow => decide_eq_false ?_).symm
        rintro ⟨hrun, hlease⟩
        have hsame := hlook row hrow hlease
        rw [hheld] at hsame
        cases hsame
        exact hmatch ⟨hrun, by rw [← hlease, JobRow.lease]⟩

theorem get?_extendOne (until_ : Time) (jobs : Table JobRow.id) (held : Lease) (id : Int) :
    (extendOne until_ jobs held).get? id =
      (jobs.get? id).map fun row =>
        if row.state = .running ∧ row.lease = held then
          { row with leasedUntil := some until_ }
        else row := by
  rw [extendOne_eq, Table.get?_updateWhere]
  simp only [decide_eq_true_eq]

theorem get?_foldl_extendOne (until_ : Time) (leases : List Lease) (jobs : Table JobRow.id)
    (id : Int) :
    (leases.foldl (extendOne until_) jobs).get? id =
      (jobs.get? id).map fun row =>
        if row.state = .running ∧ row.lease ∈ leases then
          { row with leasedUntil := some until_ }
        else row := by
  induction leases generalizing jobs with
  | nil => simp
  | cons held leases ih =>
      rw [List.foldl_cons, ih, get?_extendOne, Option.map_map]
      congr 1
      funext row
      by_cases hrun : row.state = .running
      · by_cases hheld : row.lease = held
        · subst hheld
          by_cases hrest : row.lease ∈ leases <;> simp [hrun, JobRow.lease]
        · simp [hrun, hheld]
      · simp [hrun]

/-- `ExtendLeases` renews the running rows whose lease it was handed. -/
theorem get?_extendLeases (d : Driver) (now : Time) (leases : List Lease) (leaseFor : Duration)
    (id : Int) :
    (next d (.extendLeases now leases leaseFor)).jobs.get? id =
      (d.jobs.get? id).map fun row =>
        if row.state = .running ∧ row.lease ∈ leases then reclaim now leaseFor row else row :=
  get?_foldl_extendOne (now + leaseFor) leases d.jobs id

/-! ## `transition` -/

/-- A `Mark` that succeeds found its job running on the attempt of the lease and
wrote the row; one that fails leaves the store as it was. -/
theorem mark_cases (d : Driver) (lease : Lease) (m : Mark) :
    (∃ row appended, d.jobs.get? lease.id = some row ∧ row.state = .running ∧
        row.lease = lease ∧ appendError row m.detail = (appended, none) ∧
        d.mark lease m = ({ d with jobs := d.jobs.put (m.result appended) }, none)) ∨
      ∃ err, d.mark lease m = (d, some err) := by
  rw [mark_eq_transition]
  unfold Driver.transition
  cases hrow : d.jobs.get? lease.id with
  | none => exact Or.inr ⟨_, rfl⟩
  | some row =>
      by_cases hrun : row.state = .running
      · by_cases hattempt : row.attempt = lease.attempt
        · simp only [hrun, hattempt, ne_eq, not_true_eq_false, if_false]
          rw [Mark.apply_eq]
          cases happend : appendError row m.detail with
          | mk appended result =>
              cases result with
              | none =>
                  refine Or.inl ⟨row, appended, rfl, hrun, ?_, happend, rfl⟩
                  rw [JobRow.lease, hattempt, show row.id = lease.id from Table.key_of_get? hrow]
              | some err =>
                  have hsame := appendError_error happend
                  subst hsame
                  refine Or.inr ⟨err, ?_⟩
                  show ((⟨d.nextID, d.jobs.put appended⟩, some err) : Driver × Option DriverError) = _
                  rw [Table.put_of_get? hrow]
        · simp only [hrun, hattempt, ne_eq, not_true_eq_false, not_false_eq_true, if_true, if_false]
          exact Or.inr ⟨_, rfl⟩
      · simp only [hrun, ne_eq, not_false_eq_true, if_true]
        exact Or.inr ⟨_, rfl⟩

/-- A `Mark` that presents the lease of a running row is accepted when its detail can
be appended. -/
theorem mark_of_running {d : Driver} {m : Mark} {row appended : JobRow}
    (hrow : d.jobs.get? row.id = some row) (hrunning : row.state = .running)
    (happend : appendError row m.detail = (appended, none)) :
    d.mark row.lease m = ({ d with jobs := d.jobs.put (m.result appended) }, none) := by
  rw [mark_eq_transition, Driver.transition, show row.lease.id = row.id from rfl, hrow]
  simp only [hrunning, JobRow.lease, ne_eq, not_true_eq_false, if_false, Mark.apply_eq, happend]
  rfl

/-! ## Operator actions -/

/-- With no other caller between its sections, an operator action is one guarded
write: the re-read sees the state the first section saw, so the retry never runs. -/
theorem operatorAction_eq (d : Driver) (id : Int) (want : Want) (eligible : JobState → Bool)
    (write : JobRow → JobRow) :
    d.operatorAction id want eligible write =
      match d.jobs.get? id with
      | none => (d, .error (.notFound id))
      | some row =>
          if eligible row.state then ({ d with jobs := d.jobs.put (write row) }, .ok (write row))
          else (d, .error (.invalidTransition id row.state want)) := by
  unfold Driver.operatorAction Driver.operatorUpdate Driver.afterOperatorMiss
  cases hrow : d.jobs.get? id with
  | none => rfl
  | some row =>
      by_cases heligible : eligible row.state = true
      · simp [heligible]
      · simp [heligible]

/-- The mutex is released between the sections of an operator action.  None of them
changes anything before one of them writes, so an action that other callers interrupt
answers as the whole action would from the store its last section finds: the retry, or
the re-read that finds nothing to retry. -/
theorem operatorAction_interrupted (d : Driver) (id : Int) (want : Want)
    (eligible : JobState → Bool) (write : JobRow → JobRow) :
    (d.operatorUpdate id eligible write fun observed =>
        d.afterOperatorMiss id observed want eligible none) =
      d.operatorAction id want eligible write ∧
    ((∀ row, d.jobs.get? id = some row → eligible row.state = false) → ∀ observed retry,
      d.afterOperatorMiss id observed want eligible (some retry) =
        d.operatorAction id want eligible write) := by
  rw [operatorAction_eq]
  constructor
  · unfold Driver.operatorUpdate Driver.afterOperatorMiss
    rfl
  · intro hmiss observed retry
    unfold Driver.afterOperatorMiss
    cases hrow : d.jobs.get? id with
    | none => rfl
    | some row => simp [hmiss row hrow]

theorem redriveDead_of_dead {d : Driver} {now : Time} {id : Int} {row : JobRow}
    (hrow : d.jobs.get? id = some row) (hdead : row.state = .dead) :
    (next d (.redriveDead now id)).jobs = d.jobs.put (redriveRow now row) := by
  simp [next, step, Driver.redriveDead, operatorAction_eq, hrow, hdead]

/-- What an operator action does to a stored row. -/
theorem operatorAction_row {d : Driver} {id : Int} {row : JobRow}
    (h : d.jobs.get? id = some row) (want : Want) (eligible : JobState → Bool)
    {write : JobRow → JobRow} (hwrite : ∀ row, (write row).id = row.id) (id' : Int) :
    (id' = id ∧ eligible row.state = true ∧
        (d.operatorAction id' want eligible write).1.jobs.get? id = some (write row)) ∨
      (d.operatorAction id' want eligible write).1.jobs.get? id = some row := by
  have hkey : row.id = id := Table.key_of_get? h
  rw [operatorAction_eq]
  cases hfound : d.jobs.get? id' with
  | none => exact Or.inr h
  | some found =>
      have hfoundKey : found.id = id' := Table.key_of_get? hfound
      by_cases hcan : eligible found.state = true
      · simp only [hcan, if_true]
        by_cases hsame : id' = id
        · subst hsame
          rw [h] at hfound
          cases hfound
          refine Or.inl ⟨rfl, hcan, ?_⟩
          rw [Table.get?_put, if_pos ((hwrite row).trans hkey)]
        · right
          rw [Table.get?_put_of_ne (by rw [hwrite, hfoundKey]; exact hsame)]
          exact h
      · simp only [hcan]
        exact Or.inr h

/-! ## Inserts -/

/-- A new row occupies its key. -/
theorem uniqueActive_jobFromParams (id : Int) (params : InsertParams) (now : Time) :
    uniqueActive (jobFromParams id params now).state = true := by
  simp only [jobFromParams]
  split <;> split <;> rfl

/-- The rows of a batch, numbered from `first` on. -/
def buildRows (now : Time) : Int → List InsertParams → List JobRow
  | _, [] => []
  | first, params :: batch => jobFromParams first params now :: buildRows now (first + 1) batch

theorem pendingRows_eq {d : Driver} {now : Time} {batch : List InsertParams}
    {pending out : List JobRow} (h : d.pendingRows now batch pending = some out) :
    out = pending ++ buildRows now (d.nextID + pending.length + 1) batch := by
  induction batch generalizing pending with
  | nil =>
      simp only [Driver.pendingRows, Option.some.injEq] at h
      simp [buildRows, h]
  | cons params batch ih =>
      rw [Driver.pendingRows] at h
      split at h
      · cases h
      · have hrest := ih h
        rw [hrest, buildRows]
        have hlen : d.nextID + ((pending ++
            [jobFromParams (d.nextID + pending.length + 1) params now]).length : Int) + 1 =
            d.nextID + pending.length + 1 + 1 := by
          simp only [List.length_append, List.length_singleton]
          omega
        rw [hlen]
        simp

theorem mem_buildRows {now : Time} {batch : List InsertParams} {first : Int} {row : JobRow}
    (h : row ∈ buildRows now first batch) :
    first ≤ row.id ∧ row.id < first + batch.length ∧
      ∃ params ∈ batch, row = jobFromParams row.id params now := by
  induction batch generalizing first with
  | nil => simp [buildRows] at h
  | cons params batch ih =>
      rcases List.mem_cons.mp h with rfl | hrest
      · refine ⟨Int.le_refl _, ?_, params, List.mem_cons_self, rfl⟩
        simp only [jobFromParams, List.length_cons]
        omega
      · obtain ⟨hlow, hhigh, params', hmem, heq⟩ := ih hrest
        refine ⟨by omega, ?_, params', List.mem_cons_of_mem _ hmem, heq⟩
        simp only [List.length_cons]
        omega

theorem nodup_buildRows (now : Time) (batch : List InsertParams) (first : Int) :
    ((buildRows now first batch).map JobRow.id).Nodup := by
  induction batch generalizing first with
  | nil => simp [buildRows]
  | cons params batch ih =>
      rw [buildRows, List.map_cons, List.nodup_cons]
      refine ⟨?_, ih (first + 1)⟩
      intro hmem
      obtain ⟨row, hrow, hid⟩ := List.mem_map.mp hmem
      have hlow := (mem_buildRows hrow).1
      have hfirst : (jobFromParams first params now).id = first := rfl
      omega

/-- An insert either reports a duplicate and leaves the store, or files one row
under the next id. -/
theorem insert_cases (d : Driver) (now : Time) (params : InsertParams) :
    d.insert now params = (d, .error .duplicateJob) ∨
      (d.uniqueConflict params.queue params.kind params.uniqueKey [] = false ∧
        d.insert now params =
          (⟨d.nextID + 1, d.jobs.put (jobFromParams (d.nextID + 1) params now)⟩,
            .ok (jobFromParams (d.nextID + 1) params now))) := by
  unfold Driver.insert
  cases hconflict : d.uniqueConflict params.queue params.kind params.uniqueKey [] with
  | true => exact Or.inl rfl
  | false => exact Or.inr ⟨rfl, rfl⟩

/-- A batch insert either leaves the store or files the whole batch under
consecutive ids. -/
theorem insertMany_cases (d : Driver) (now : Time) (batch : List InsertParams) :
    (d.insertMany now batch).1 = d ∨
      (d.pendingRows now batch [] = some (buildRows now (d.nextID + 1) batch) ∧
        d.insertMany now batch =
          (⟨d.nextID + batch.length, d.jobs.putAll (buildRows now (d.nextID + 1) batch)⟩,
            .ok (buildRows now (d.nextID + 1) batch))) := by
  unfold Driver.insertMany
  split
  · exact Or.inl rfl
  · cases hpending : d.pendingRows now batch [] with
    | none => exact Or.inl rfl
    | some pending =>
        have heq : pending = buildRows now (d.nextID + 1) batch := by
          simpa using pendingRows_eq hpending
        subst heq
        exact Or.inr ⟨rfl, rfl⟩

/-! ## Inversion of a step -/

/-- Ids are positive and were handed out by the counter. -/
def Driver.Fresh (d : Driver) : Prop :=
  0 ≤ d.nextID ∧ ∀ row ∈ d.jobs.rows, 0 < row.id ∧ row.id ≤ d.nextID

theorem Driver.Fresh.le {d : Driver} (h : d.Fresh) {id : Int} {row : JobRow}
    (hrow : d.jobs.get? id = some row) : 0 < id ∧ id ≤ d.nextID := by
  have hkey : row.id = id := Table.key_of_get? hrow
  subst hkey
  exact h.2 row (Table.mem_of_get? hrow)

theorem Driver.Fresh.get?_next {d : Driver} (h : d.Fresh) : d.jobs.get? (d.nextID + 1) = none := by
  cases hrow : d.jobs.get? (d.nextID + 1) with
  | none => rfl
  | some row =>
      have hle := (h.le hrow).2
      omega

/-- A `Mark` writes the row of its lease, if it writes at all. -/
theorem mark_row {d : Driver} {id : Int} {row : JobRow} (h : d.jobs.get? id = some row)
    (lease : Lease) (m : Mark) :
    ∃ row', (d.mark lease m).1.jobs.get? id = some row' ∧
      (row' = row ∨ Change (.mark lease m) row row') := by
  rcases mark_cases d lease m with
    ⟨found, appended, hfound, hrun, hlease, happend, heq⟩ | ⟨err, heq⟩
  · have hwritten : (m.result appended).id = lease.id := by
      rw [m.result_id, appendError_id happend, ← hlease, JobRow.lease]
    rw [heq, Table.get?_put]
    by_cases hsame : lease.id = id
    · rw [if_pos (hwritten.trans hsame)]
      have hrow : row = found := by
        rw [← hsame, hfound] at h
        exact (Option.some.inj h).symm
      subst hrow
      subst hlease
      exact ⟨_, rfl, Or.inr (.mark hrun happend)⟩
    · rw [if_neg (fun hcontra => hsame (hwritten.symm.trans hcontra))]
      exact ⟨row, h, Or.inl rfl⟩
  · rw [heq]
    exact ⟨row, h, Or.inl rfl⟩

/-- A `Mark` leaves the other rows. -/
theorem get?_mark_of_ne (d : Driver) {lease : Lease} (m : Mark) {id : Int} (hne : id ≠ lease.id) :
    (d.mark lease m).1.jobs.get? id = d.jobs.get? id := by
  rcases mark_cases d lease m with
    ⟨found, appended, -, -, hlease, happend, heq⟩ | ⟨err, heq⟩
  · have hwritten : (m.result appended).id = lease.id := by
      rw [m.result_id, appendError_id happend, ← hlease, JobRow.lease]
    rw [heq]
    exact Table.get?_put_of_ne (hwritten ▸ hne.symm)
  · rw [heq]

/-- A stored row stays as it is or goes through a `Change`. -/
theorem next_row {d : Driver} (hfresh : d.Fresh) (op : Op) {id : Int} {row : JobRow}
    (h : d.jobs.get? id = some row) :
    ∃ row', (next d op).jobs.get? id = some row' ∧ (row' = row ∨ Change op row row') := by
  have hid := hfresh.le h
  have hkey : row.id = id := Table.key_of_get? h
  cases op with
  | insert now params =>
      refine ⟨row, ?_, Or.inl rfl⟩
      rcases insert_cases d now params with heq | ⟨-, heq⟩
      · simpa [next, step, heq] using h
      · have hne : (jobFromParams (d.nextID + 1) params now).id ≠ id := by
          show d.nextID + 1 ≠ id
          omega
        simpa [next, step, heq, Table.get?_put_of_ne hne] using h
  | insertMany now batch =>
      refine ⟨row, ?_, Or.inl rfl⟩
      rcases insertMany_cases d now batch with heq | ⟨-, heq⟩
      · simpa [next, step, heq] using h
      · have hnot : id ∉ (buildRows now (d.nextID + 1) batch).map JobRow.id := by
          intro hmem
          obtain ⟨new, hnew, hnewId⟩ := List.mem_map.mp hmem
          have hlow := (mem_buildRows hnew).1
          omega
        simpa [next, step, heq, Table.get?_putAll_of_notMem hnot] using h
  | fetchAvailable now queue leaseFor limit =>
      refine ⟨_, by rw [get?_fetchAvailable, h, Option.map_some], ?_⟩
      split
      · rename_i hmem
        exact Or.inr (.claim (due_of_mem_claimable hmem).2)
      · exact Or.inl rfl
  | fetchExpired now leaseFor limit =>
      refine ⟨_, by rw [get?_fetchExpired, h, Option.map_some], ?_⟩
      split
      · rename_i hmem
        exact Or.inr (.reclaim (expired_of_mem_reclaimable hmem).2)
      · exact Or.inl rfl
  | extendLeases now leases leaseFor =>
      refine ⟨_, by rw [get?_extendLeases, h, Option.map_some], ?_⟩
      split
      · rename_i hheld
        exact Or.inr (.extend hheld.1 hheld.2)
      · exact Or.inl rfl
  | mark lease m => exact mark_row h lease m
  | operatorCancel now id' =>
      have hwrite : ∀ row, (cancelRow now row).id = row.id := fun _ => rfl
      rcases operatorAction_row h .cancellable cancellable hwrite id' with ⟨rfl, hcan, heq⟩ | heq
      · subst hkey
        exact ⟨_, heq, Or.inr (.operatorCancel hcan)⟩
      · exact ⟨row, heq, Or.inl rfl⟩
  | redriveDead now id' =>
      have hwrite : ∀ row, (redriveRow now row).id = row.id := fun _ => rfl
      rcases operatorAction_row h .dead (· == .dead) hwrite id' with ⟨rfl, hdead, heq⟩ | heq
      · subst hkey
        exact ⟨_, heq, Or.inr (.redriveDead (by simpa using hdead))⟩
      · exact ⟨row, heq, Or.inl rfl⟩
  | getJob id' => exact ⟨row, h, Or.inl rfl⟩
  | listJobs p => exact ⟨row, h, Or.inl rfl⟩
  | stats now => exact ⟨row, h, Or.inl rfl⟩

/-- An operator action files no row under a new id. -/
theorem operatorAction_none {d : Driver} {id : Int} (h : d.jobs.get? id = none) (want : Want)
    (eligible : JobState → Bool) {write : JobRow → JobRow}
    (hwrite : ∀ row, (write row).id = row.id) (id' : Int) :
    (d.operatorAction id' want eligible write).1.jobs.get? id = none := by
  rw [operatorAction_eq]
  cases hfound : d.jobs.get? id' with
  | none => exact h
  | some found =>
      by_cases hcan : eligible found.state = true
      · have hne : (write found).id ≠ id := by
          rw [hwrite, show found.id = id' from Table.key_of_get? hfound]
          rintro rfl
          rw [h] at hfound
          cases hfound
        simp only [hcan, if_true]
        rw [Table.get?_put_of_ne hne]
        exact h
      · simp only [hcan]
        exact h

/-- The row an insert builds. -/
inductive Created : Op → JobRow → Prop
  | insert {now : Time} {params : InsertParams} {id : Int} :
      Created (.insert now params) (jobFromParams id params now)
  | insertMany {now : Time} {batch : List InsertParams} {params : InsertParams} {id : Int}
      (hmem : params ∈ batch) : Created (.insertMany now batch) (jobFromParams id params now)

theorem Created.eq_jobFromParams {op : Op} {row : JobRow} (h : Created op row) :
    ∃ id params now, row = jobFromParams id params now := by
  cases h with
  | insert => exact ⟨_, _, _, rfl⟩
  | insertMany hmem => exact ⟨_, _, _, rfl⟩

/-- A `Mark` files no row under a new id. -/
theorem mark_none {d : Driver} {id : Int} (h : d.jobs.get? id = none) (lease : Lease) (m : Mark) :
    (d.mark lease m).1.jobs.get? id = none := by
  rcases mark_cases d lease m with
    ⟨found, appended, hfound, -, hlease, happend, heq⟩ | ⟨err, heq⟩
  · have hne : (m.result appended).id ≠ id := by
      rw [m.result_id, appendError_id happend]
      rintro rfl
      rw [show lease.id = found.id by rw [← hlease, JobRow.lease], h] at hfound
      cases hfound
    rw [heq]
    exact (Table.get?_put_of_ne hne).trans h
  · rw [heq]
    exact h

/-- A row that appears was built by an insert, under an id the counter had not
reached. -/
theorem next_new {d : Driver} (op : Op) {id : Int} {row : JobRow} (h : d.jobs.get? id = none)
    (hnew : (next d op).jobs.get? id = some row) :
    d.nextID < id ∧ id ≤ (next d op).nextID ∧ Created op row := by
  have habsurd : ∀ {d' : Driver}, d'.jobs.get? id = none → d'.jobs.get? id = some row → False := by
    intro d' hnone hsome
    rw [hnone] at hsome
    cases hsome
  cases op with
  | insert now params =>
      rcases insert_cases d now params with heq | ⟨-, heq⟩
      · rw [next, step, heq] at hnew
        exact (habsurd h hnew).elim
      · simp only [next, step, heq] at hnew ⊢
        have hkey : row.id = id := Table.key_of_get? hnew
        rw [Table.get?_put] at hnew
        split at hnew
        · cases hnew
          have hid : d.nextID + 1 = id := hkey
          exact ⟨by omega, by omega, .insert⟩
        · exact (habsurd h hnew).elim
  | insertMany now batch =>
      rcases insertMany_cases d now batch with heq | ⟨-, heq⟩
      · rw [next, step, heq] at hnew
        exact (habsurd h hnew).elim
      · simp only [next, step, heq] at hnew ⊢
        have hkey : row.id = id := Table.key_of_get? hnew
        by_cases hmem : id ∈ (buildRows now (d.nextID + 1) batch).map JobRow.id
        · obtain ⟨built, hbuilt, hid⟩ := List.mem_map.mp hmem
          rw [← hid, Table.get?_putAll_of_mem (nodup_buildRows now batch _) hbuilt] at hnew
          cases hnew
          obtain ⟨hlow, hhigh, params, hparams, heq⟩ := mem_buildRows hbuilt
          rw [heq]
          exact ⟨by omega, by omega, .insertMany hparams⟩
        · rw [Table.get?_putAll_of_notMem hmem] at hnew
          exact (habsurd h hnew).elim
  | fetchAvailable now queue leaseFor limit =>
      rw [get?_fetchAvailable, h] at hnew
      cases hnew
  | fetchExpired now leaseFor limit =>
      rw [get?_fetchExpired, h] at hnew
      cases hnew
  | extendLeases now leases leaseFor =>
      rw [get?_extendLeases, h] at hnew
      cases hnew
  | mark lease m => exact (habsurd (mark_none h lease m) hnew).elim
  | operatorCancel now id' =>
      have hwrite : ∀ row, (cancelRow now row).id = row.id := fun _ => rfl
      exact (habsurd (operatorAction_none h .cancellable cancellable hwrite id') hnew).elim
  | redriveDead now id' =>
      have hwrite : ∀ row, (redriveRow now row).id = row.id := fun _ => rfl
      exact (habsurd (operatorAction_none h .dead (· == .dead) hwrite id') hnew).elim
  | getJob id' => exact (habsurd h hnew).elim
  | listJobs p => exact (habsurd h hnew).elim
  | stats now => exact (habsurd h hnew).elim

/-- A row a fetch hands out is the one it stored, and came from a stored row. -/
theorem mem_fetched {d : Driver} {op : Op} {row : JobRow} (h : row ∈ fetched d op) :
    (next d op).jobs.get? row.id = some row ∧
      ∃ old, d.jobs.get? row.id = some old ∧ Change op old row := by
  cases op with
  | fetchAvailable now queue leaseFor limit =>
      rw [fetched, fetchAvailable_eq] at h
      obtain ⟨old, hold, rfl⟩ := List.mem_map.mp h
      have hget := Table.get?_of_mem (due_of_mem_claimable hold).1
      refine ⟨?_, old, hget, .claim (due_of_mem_claimable hold).2⟩
      rw [show (claim now leaseFor old).id = old.id from rfl, get?_fetchAvailable, hget,
        Option.map_some, if_pos hold]
  | fetchExpired now leaseFor limit =>
      rw [fetched, fetchExpired_eq] at h
      obtain ⟨old, hold, rfl⟩ := List.mem_map.mp h
      have hget := Table.get?_of_mem (expired_of_mem_reclaimable hold).1
      refine ⟨?_, old, hget, .reclaim (expired_of_mem_reclaimable hold).2⟩
      rw [show (reclaim now leaseFor old).id = old.id from rfl, get?_fetchExpired, hget,
        Option.map_some, if_pos hold]
  | _ => cases h

/-- The counter never goes back. -/
theorem nextID_le (d : Driver) (op : Op) : d.nextID ≤ (next d op).nextID := by
  cases op with
  | insert now params =>
      rcases insert_cases d now params with heq | ⟨-, heq⟩
      · simp [next, step, heq]
      · simp only [next, step, heq]
        omega
  | insertMany now batch =>
      rcases insertMany_cases d now batch with heq | ⟨-, heq⟩
      · simp [next, step, heq]
      · simp only [next, step, heq]
        omega
  | mark lease m =>
      rcases mark_cases d lease m with ⟨_, _, -, -, -, -, heq⟩ | ⟨err, heq⟩ <;>
        simp [next, step, heq]
  | operatorCancel now id =>
      simp only [next, step, Driver.operatorCancel, operatorAction_eq]
      split
      · exact Int.le_refl _
      · split <;> exact Int.le_refl _
  | redriveDead now id =>
      simp only [next, step, Driver.redriveDead, operatorAction_eq]
      split
      · exact Int.le_refl _
      · split <;> exact Int.le_refl _
  | _ => exact Int.le_refl _

/-! ## Ids over runs -/

theorem fresh_new : new.Fresh := by
  refine ⟨Int.le_refl _, ?_⟩
  intro row hrow
  cases hrow

theorem Driver.Fresh.next {d : Driver} (h : d.Fresh) (op : Op) : (next d op).Fresh := by
  have hle := nextID_le d op
  refine ⟨Int.le_trans h.1 hle, ?_⟩
  intro row hrow
  have hget := Table.get?_of_mem hrow
  cases hold : d.jobs.get? row.id with
  | none =>
      have hnew := next_new op hold hget
      have hzero := h.1
      exact ⟨by omega, hnew.2.1⟩
  | some old =>
      have hbound := h.le hold
      exact ⟨hbound.1, by omega⟩

theorem fresh_run (ops : List Op) {d : Driver} (h : d.Fresh) : (run next d ops).Fresh :=
  run_invariant (P := Driver.Fresh) (fun _ op hd => hd.next op) h ops

end Drover.Memdriver
