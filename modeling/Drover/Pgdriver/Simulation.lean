import Drover.Memdriver.Unique
import Drover.Pgdriver.Represents

set_option autoImplicit false

/-!
# The two drivers agree

Every method is written twice: check, then write, under a mutex; and a guarded statement
with a second one that explains a miss.  From stores that hold the same jobs both leave
the same jobs and give the same answer.

What the database cannot hold as it is (a time between two microseconds, a string with a
zero byte, arguments that are not JSON) the in-memory store keeps, so the calls are those
whose arguments the columns hold exactly.
-/

namespace Drover.Pgdriver

open Drover.Foundation
open Drover.Driver
open Drover.Go (Time Duration)
open Drover.Memdriver (Mark Op next reply)

variable {pg : Postgres}

/-! ## Mark transitions -/

/-- What a `Mark` hands over is held exactly by the columns. -/
def ExactMark (pg : Postgres) : Mark → Prop
  | .completed _ => True
  | .retryable retryAt errDetail => pg.timestamptz retryAt = some retryAt ∧ ExactDetail pg errDetail
  | .dead _ errDetail => ExactDetail pg errDetail
  | .cancelled _ errDetail => ExactDetail pg errDetail
  | .snoozed runAt => pg.timestamptz runAt = some runAt

/-- There is no error to append, or `json.Unmarshal` reads those the row has. -/
def Appendable (m : Mark) (row : JobRow) : Prop :=
  m.detail = none ∨ Json.unmarshalList row.errors ≠ none

/-- A `Mark` runs one guarded transition, and its `SET` does what the closure handed to
`transition` does. -/
def Mirrors (pg : Postgres) (m : Mark) : Prop :=
  ∃ (set : DroverJob pg → DroverJob pg) (hset : ∀ job, (set job).id = job.id),
    (∀ (db : Database pg) (lease : Lease), db.markStatement lease m =
      db.transition lease.id (attemptArg lease.attempt) set hset) ∧
    (∀ job : DroverJob pg, job.state = .running → Shrinks set job) ∧
    ∀ row job, Regular row → Appendable m row → Represents pg row job →
      ∃ appended, Memdriver.appendError row m.detail = (appended, none) ∧
        Represents pg (m.result appended) (set job)

theorem shrinks_of_running {set : DroverJob pg → DroverJob pg} {job : DroverJob pg}
    (hqueue : (set job).queue = job.queue) (hkind : (set job).kind = job.kind)
    (hkey : (set job).uniqueKey = job.uniqueKey) (hrunning : job.state = .running) :
    Shrinks set job :=
  shrinks_of_state hqueue hkind hkey fun _ => by rw [hrunning]; rfl

/-- The marks that append an error and then write as `set` does. -/
theorem mirrors_append {m : Mark} (hdetail : ExactDetail pg m.detail)
    {set : DroverJob pg → DroverJob pg}
    (hwrite : ∀ row job, Represents pg row job → Represents pg (m.result row) (set job))
    (hset : ∀ job, (set job).id = job.id) (hqueue : ∀ job, (set job).queue = job.queue)
    (hkind : ∀ job, (set job).kind = job.kind) (hkey : ∀ job, (set job).uniqueKey = job.uniqueKey)
    (hstatement : ∀ (db : Database pg) (lease : Lease), db.markStatement lease m =
      db.appendTransition lease.id (attemptArg lease.attempt) m.detail set hset) :
    Mirrors pg m := by
  obtain ⟨v, hcast, happend⟩ := appendError_exact hdetail
  refine ⟨fun job => set (appendSet v job), fun _ => hset _, fun db lease => ?_,
    fun job hrunning => shrinks_of_running (hqueue _) (hkind _) (hkey _) hrunning, ?_⟩
  · simp only [hstatement, Database.appendTransition, hcast]
  · intro row job hregular hreads h
    have hsome : m.detail ≠ none := by
      intro hnone
      rw [hnone] at hcast
      cases hcast
    obtain ⟨appended, hok, hrep⟩ :=
      happend row job hregular (hreads.resolve_left hsome) h
    exact ⟨appended, hok, hwrite appended (appendSet v job) hrep⟩

theorem mirrors_of_exact {m : Mark} (hexact : ExactMark pg m) : Mirrors pg m := by
  cases m with
  | completed now =>
      refine ⟨finalizeSet .completed now, fun _ => rfl, fun _ _ => rfl,
        fun job hrunning => shrinks_of_running rfl rfl rfl hrunning, ?_⟩
      exact fun row job _ _ h => ⟨row, rfl, { h with
        state := rfl, leasedUntil := rfl, finalizedAt := rfl }⟩
  | retryable retryAt errDetail =>
      have hwrite : ∀ row job, Represents pg row job →
          Represents pg ((Mark.retryable retryAt errDetail).result row) (retrySet retryAt job) :=
        fun row job h => { h with state := rfl, scheduledAt := rfl, leasedUntil := rfl }
      refine mirrors_append hexact.2 hwrite (fun _ => rfl) (fun _ => rfl) (fun _ => rfl)
        (fun _ => rfl) fun db lease => ?_
      simp only [Database.markStatement, Database.markRetryable, hexact.1, Mark.detail]
  | dead now errDetail =>
      have hdetail : ExactDetail pg (Mark.dead now errDetail).detail := hexact
      have hwrite : ∀ row job, Represents pg row job →
          Represents pg ((Mark.dead now errDetail).result row) (finalizeSet .dead now job) :=
        fun row job h => { h with state := rfl, leasedUntil := rfl, finalizedAt := rfl }
      exact mirrors_append hdetail hwrite (fun _ => rfl) (fun _ => rfl) (fun _ => rfl)
        (fun _ => rfl) fun _ _ => rfl
  | cancelled now errDetail =>
      have hdetail : ExactDetail pg (Mark.cancelled now errDetail).detail := hexact
      have hwrite : ∀ row job, Represents pg row job → Represents pg
          ((Mark.cancelled now errDetail).result row) (finalizeSet .cancelled now job) :=
        fun row job h => { h with state := rfl, leasedUntil := rfl, finalizedAt := rfl }
      exact mirrors_append hdetail hwrite (fun _ => rfl) (fun _ => rfl) (fun _ => rfl)
        (fun _ => rfl) fun _ _ => rfl
  | snoozed runAt =>
      have hrunAt : pg.timestamptz runAt = some runAt := hexact
      refine ⟨snoozeSet runAt, fun _ => rfl, fun db lease => ?_,
        fun job hrunning => shrinks_of_running rfl rfl rfl hrunning, ?_⟩
      · simp only [Database.markStatement, Database.markSnoozed, hrunAt]
      · intro row job _ _ h
        refine ⟨row, rfl, { h with
          state := rfl, scheduledAt := rfl, leasedUntil := rfl, attempt := ?_ }⟩
        show max (job.attempt - 1) 0 = max (row.attempt - 1) 0
        rw [h.attempt]

section Steps

variable {d : Memdriver.Driver} {db : Database pg}

/-- The store and the database hold the same jobs under the same ids. -/
def Same (pg : Postgres) (d : Memdriver.Driver) (db : Database pg) : Prop :=
  Corresponds (Represents pg) id d.jobs db.jobs

theorem Same.job (h : Same pg d db) {id : Int} {row : JobRow} (hrow : d.jobs.get? id = some row) :
    ∃ job, db.jobs.get? id = some job ∧ Represents pg row job ∧ job.id = row.id := by
  obtain ⟨job, hjob, hrep⟩ := h.right hrow
  have hkey : row.id = id := Table.key_of_get? hrow
  have hkey' : job.id = id := Table.key_of_get? hjob
  exact ⟨job, hjob, hrep, hkey'.trans hkey.symm⟩

theorem Same.row (h : Same pg d db) {id : Int} {job : DroverJob pg}
    (hjob : db.jobs.get? id = some job) :
    ∃ row, d.jobs.get? id = some row ∧ Represents pg row job ∧ job.id = row.id := by
  obtain ⟨row, hrow, hrep⟩ := h.left (k := id) hjob
  have hkey : row.id = id := Table.key_of_get? hrow
  have hkey' : job.id = id := Table.key_of_get? hjob
  exact ⟨row, hrow, hrep, hkey'.trans hkey.symm⟩

theorem Same.none (h : Same pg d db) {id : Int} (hrow : d.jobs.get? id = none) :
    db.jobs.get? id = none :=
  (h.none_iff id).mp hrow

/-- What `finalizeFailure` reports when the transition matched no row is what
`transition` reports. -/
theorem mark_miss (h : Same pg d db) {lease : Lease} (m : Mark)
    (hmiss : ∀ row, d.jobs.get? lease.id = some row →
      ¬(row.state = .running ∧ row.lease = lease)) :
    d.mark lease m = (d, some (db.finalizeFailure lease)) := by
  rw [Memdriver.mark_eq_transition, Memdriver.Driver.transition, Database.finalizeFailure,
    Database.getJob]
  cases hrow : d.jobs.get? lease.id with
  | none => rw [h.none hrow]
  | some row =>
      obtain ⟨job, hjob, hrep, -⟩ := h.job hrow
      have hkey : row.id = lease.id := Table.key_of_get? hrow
      simp only [hjob, hrep.state, hrep.attempt]
      by_cases hrunning : row.state = .running
      · have hattempt : row.attempt ≠ lease.attempt := by
          intro heq
          refine hmiss row hrow ⟨hrunning, ?_⟩
          rw [JobRow.lease, hkey, heq]
        simp [hrunning, hattempt]
      · simp [hrunning]

theorem mark_simulates (h : Same pg d db) (hrows : ∀ row ∈ d.jobs.rows, Regular row)
    {lease : Lease} {m : Mark} (hexact : ExactMark pg m)
    (hreads : ∀ row, d.jobs.get? lease.id = some row → Appendable m row) :
    Same pg (d.mark lease m).1 (db.mark lease m).1 ∧
      (db.mark lease m).2 = (d.mark lease m).2.map .driver := by
  obtain ⟨set, hset, hstatement, hentry, hmirror⟩ := mirrors_of_exact hexact
  rw [Database.mark, hstatement]
  by_cases hheld : ∃ row, d.jobs.get? lease.id = some row ∧ row.state = .running ∧
      row.lease = lease
  · obtain ⟨row, hrow, hrunning, rfl⟩ := hheld
    have hregular := hrows row (Table.mem_of_get? hrow)
    obtain ⟨job, hjob, hrep, hid⟩ := h.job hrow
    obtain ⟨appended, happend, hrep'⟩ := hmirror row job hregular (hreads row hrow) hrep
    have hmatch := (heldWhere_attemptArg hregular hrep hid row.lease).mpr ⟨hrunning, rfl⟩
    obtain ⟨hindexed, n, hok⟩ := transition_of_held hset hjob hmatch
      (hentry job (hrep.state.trans hrunning))
    rw [hok, Memdriver.mark_of_running hrow hrunning happend]
    refine ⟨h.put Function.injective_id hrep' ?_, rfl⟩
    rw [hset, hid, m.result_id, Memdriver.appendError_id happend]
    rfl
  · have hmiss : ∀ row, d.jobs.get? lease.id = some row →
        ¬(row.state = .running ∧ row.lease = lease) :=
      fun row hrow hrunning => hheld ⟨row, hrow, hrunning⟩
    have hnot : ∀ job, db.jobs.get? lease.id = some job →
        heldWhere lease.id (attemptArg lease.attempt) job = false := by
      intro job hjob
      obtain ⟨row, hrow, hrep, hid⟩ := h.row hjob
      have hiff := heldWhere_attemptArg (hrows row (Table.mem_of_get? hrow)) hrep hid lease
      simpa using fun hmatch => hmiss row hrow (hiff.mp hmatch)
    rw [transition_of_not_held hset hnot, mark_miss h m hmiss]
    exact ⟨h, rfl⟩

/-! ## Claims -/

/-- The rows a selection of the database takes. -/
def Database.selected (db : Database pg) (keep : DroverJob pg → Bool)
    (order : DroverJob pg → Time) (maxJobs : Int) : List (DroverJob pg) :=
  ((db.jobs.rows.filter keep).insertionSort (orderedBy order DroverJob.id)).take maxJobs.toNat

theorem mem_of_mem_selected {keep : DroverJob pg → Bool} {order : DroverJob pg → Time}
    {maxJobs : Int} {job : DroverJob pg} (h : job ∈ db.selected keep order maxJobs) :
    job ∈ db.jobs.rows ∧ keep job = true := by
  have hsorted := (List.take_sublist _ _).subset h
  exact List.mem_filter.mp ((List.mem_insertionSort _).mp hsorted)

/-- A `SET` that adds no entry for the rows a selection may take adds none for those it
takes. -/
theorem shrinks_of_selected {keep : DroverJob pg → Bool} {order : DroverJob pg → Time}
    {maxJobs : Int} {set : DroverJob pg → DroverJob pg}
    (hentry : ∀ job, keep job = true → Shrinks set job) {job : DroverJob pg}
    (hjob : job ∈ db.jobs.rows)
    (hmem : (db.selectIds keep order maxJobs).contains job.id = true) : Shrinks set job := by
  have hselected : job ∈ db.selected keep order maxJobs :=
    (Table.mem_iff_key_mem (fun _ hjob => (mem_of_mem_selected hjob).1) hjob).mpr
      (List.contains_iff_mem.mp hmem)
  exact hentry job (mem_of_mem_selected hselected).2

section Fetch

variable {keepA : JobRow → Bool} {keepB : DroverJob pg → Bool} {orderA : JobRow → Time}
  {orderB : DroverJob pg → Time} {touch : JobRow → JobRow} {set : DroverJob pg → DroverJob pg}
  {limit : Int}

/-- Both drivers select the same jobs. -/
theorem selected_ids (h : Same pg d db)
    (hkeep : ∀ row job, Represents pg row job → keepA row = keepB job)
    (horder : ∀ row job, Represents pg row job → keepA row = true → orderA row = orderB job)
    (hlimit : 0 ≤ limit) :
    (Memdriver.upTo limit (d.selectRows orderA keepA)).map JobRow.id =
      db.selectIds keepB orderB limit := by
  have hids := h.select hkeep horder
  rw [Memdriver.upTo, if_neg (by omega), Database.selectIds, List.map_take, List.map_take]
  exact congrArg (List.take limit.toNat) hids

/-- The statement returns the rows it selected, whatever order it finds them in. -/
theorem perm_sortedRows (hnodup : (db.selectIds keepB orderB limit).Nodup) :
    ((db.selected keepB orderB limit).map (rowFromDB ∘ set)).Perm (sortedRows
      ((db.jobs.rows.filter fun job =>
        (db.selectIds keepB orderB limit).contains job.id).map set)) := by
  have hperm := Table.perm_filter_keys (t := db.jobs)
    (fun job hjob => (mem_of_mem_selected hjob).1) hnodup
  have hfilter : (db.jobs.rows.filter fun job =>
      (db.selectIds keepB orderB limit).contains job.id) = db.jobs.rows.filter fun job =>
        decide (job.id ∈ (db.selected keepB orderB limit).map DroverJob.id) := by
    congr 1
    funext job
    rw [List.contains_eq_mem]
    rfl
  rw [hfilter, sortedRows, List.map_map]
  exact (hperm.map _).trans (List.perm_insertionSort _ _).symm

/-- A fetch takes the same jobs on both sides, does the same to them and hands them out. -/
theorem fetch_simulates (h : Same pg d db)
    (hkeep : ∀ row job, Represents pg row job → keepA row = keepB job)
    (horder : ∀ row job, Represents pg row job → keepA row = true → orderA row = orderB job)
    (hlimit : 0 ≤ limit) (htouch : ∀ row, (touch row).id = row.id)
    (hset : ∀ job, (set job).id = job.id)
    (hmirror : ∀ row job, Represents pg row job → Represents pg (touch row) (set job))
    (hentry : ∀ job, keepB job = true → Shrinks set job) :
    ∃ db' jobs, db.updateIds (db.selectIds keepB orderB limit) set hset = .ok (db', jobs) ∧
      Same pg ⟨d.nextID, d.jobs.putAll
        ((Memdriver.upTo limit (d.selectRows orderA keepA)).map touch)⟩ db' ∧
      SameRows pg id ((Memdriver.upTo limit (d.selectRows orderA keepA)).map touch)
        (sortedRows jobs) := by
  have hids : (Memdriver.upTo limit (d.selectRows orderA keepA)).map JobRow.id =
      db.selectIds keepB orderB limit := selected_ids h hkeep horder hlimit
  have hsubA : ∀ row ∈ Memdriver.upTo limit (d.selectRows orderA keepA), row ∈ d.jobs.rows :=
    fun row hrow => (Memdriver.mem_selectRows.mp ((Memdriver.upTo_sublist _ _).subset hrow)).1
  have hsubB : ∀ job ∈ db.selected keepB orderB limit, job ∈ db.jobs.rows :=
    fun job hjob => (mem_of_mem_selected hjob).1
  obtain ⟨db', hok, hget⟩ := updateIds_spec db (db.selectIds keepB orderB limit) hset
    fun _ => shrinks_of_selected hentry
  refine ⟨db', _, hok, ?_, ?_⟩
  · refine h.map (fun k => Memdriver.get?_upTo htouch k) hget fun k row job hrow hjob hrep => ?_
    have hkey : row.id = job.id := by
      rw [show row.id = k from Table.key_of_get? hrow, show job.id = k from Table.key_of_get? hjob]
    have hiff : row ∈ Memdriver.upTo limit (d.selectRows orderA keepA) ↔
        (db.selectIds keepB orderB limit).contains job.id = true := by
      rw [Table.mem_iff_key_mem hsubA (Table.mem_of_get? hrow), hids, hkey]
      simp
    by_cases hmem : row ∈ Memdriver.upTo limit (d.selectRows orderA keepA)
    · rw [if_pos hmem, if_pos (hiff.mp hmem)]
      exact hmirror row job hrep
    · rw [if_neg hmem, if_neg (fun hcontra => hmem (hiff.mpr hcontra))]
      exact hrep
  · refine ⟨(db.selected keepB orderB limit).map (rowFromDB ∘ set), perm_sortedRows ?_, ?_⟩
    · rw [← hids]
      exact Memdriver.nodup_upTo d orderA keepA limit
    · rw [List.forall₂_map_left_iff, List.forall₂_map_right_iff]
      refine (h.forall₂ hsubA hsubB hids).imp ?_
      rintro row job ⟨hrep, hid⟩
      exact (hmirror row job hrep).agrees (by rw [hset, htouch, ← hid]; rfl)

end Fetch

theorem fetchedState_eq_waiting (state : JobState) :
    fetchedState state = Memdriver.waiting state := by
  cases state <;> rfl

theorem indexedState_eq_uniqueActive (state : JobState) :
    indexedState state = Memdriver.uniqueActive state := by
  cases state <;> rfl

theorem not_after_eq (t now : Time) : (!decide (t > now)) = decide (t ≤ now) := by
  rw [← decide_not, decide_eq_decide]
  exact Int.not_lt

theorem due_eq (now : Time) (queue : Bytes) {row : JobRow} {job : DroverJob pg}
    (h : Represents pg row job) : Memdriver.due now queue row = dueWhere now queue job := by
  rw [Memdriver.due, dueWhere, h.state, h.queue, h.scheduledAt, fetchedState_eq_waiting,
    not_after_eq]

theorem expired_eq (now : Time) {row : JobRow} {job : DroverJob pg}
    (h : Represents pg row job) : Memdriver.expired now row = expiredWhere now job := by
  rw [Memdriver.expired, expiredWhere, h.state, h.leasedUntil]
  cases row.leasedUntil with
  | none => rfl
  | some t => simp only [not_after_eq]

theorem fetch_of_ok {limit : Int} (hlow : 0 ≤ limit) (hhigh : limit ≤ maxInt32)
    (db' : Database pg) (jobs : List (DroverJob pg)) :
    db.fetch limit (.ok (db', jobs)) = (db', .ok (sortedRows jobs)) := by
  unfold Database.fetch
  rw [if_neg (by omega)]

/-- A claimed row was in the index before. -/
theorem shrinks_claimSet {now : Time} {queue : Bytes} (until_ : Time) {job : DroverJob pg}
    (hdue : dueWhere now queue job = true) : Shrinks (claimSet until_) job := by
  refine shrinks_of_state rfl rfl rfl fun _ => ?_
  simp only [dueWhere, Bool.and_eq_true] at hdue
  cases hstate : job.state <;> rw [hstate] at hdue <;> first | rfl | cases hdue.1.1

/-- No sum `attempt + 1` leaves the range of its column. -/
theorem any_attempt_eq_false (h : Same pg d db) (hrows : ∀ row ∈ d.jobs.rows, row.attempt < maxInt32)
    (ids : List Int) : (db.jobs.rows.any fun job =>
      ids.contains job.id && decide (maxInt32 ≤ job.attempt)) = false := by
  rw [List.any_eq_false]
  intro job hjob
  obtain ⟨row, hrow, hrep, -⟩ := h.row (Table.get?_of_mem hjob)
  have hlt := hrows row (Table.mem_of_get? hrow)
  rw [← hrep.attempt] at hlt
  have hnot : ¬maxInt32 ≤ job.attempt := by omega
  simp [hnot]

/-- The claims of both drivers, with the answer. -/
theorem fetchAvailable_simulates (h : Same pg d db) (hrows : ∀ row ∈ d.jobs.rows, Regular row)
    {now : Time} {queue : Bytes} {leaseFor : Duration} {limit : Int}
    (hqueue : pg.text queue = some queue) (hlease : pg.leaseEnd now leaseFor = some (now + leaseFor))
    (hlow : 0 ≤ limit) (hhigh : limit ≤ maxInt32) :
    ∃ db' rows, db.fetchAvailableRows now queue leaseFor limit = (db', .ok rows) ∧
      Same pg (d.fetchAvailable now queue leaseFor limit).1 db' ∧
      SameRows pg id (d.fetchAvailable now queue leaseFor limit).2 rows := by
  have hmirror : ∀ row job, Represents pg row job →
      Represents pg (Memdriver.claim now leaseFor row) (claimSet (now + leaseFor) job) :=
    fun row job hrep => { hrep with
      state := rfl, attempt := congrArg (· + 1) hrep.attempt, leasedUntil := rfl }
  have horder : ∀ row (job : DroverJob pg), Represents pg row job →
      Memdriver.due now queue row = true → Memdriver.byScheduledAt row = job.scheduledAt :=
    fun _ _ hrep _ => hrep.scheduledAt.symm
  have htouch : ∀ row, (Memdriver.claim now leaseFor row).id = row.id := fun _ => rfl
  have hset : ∀ job : DroverJob pg, (claimSet (now + leaseFor) job).id = job.id := fun _ => rfl
  obtain ⟨db', jobs, hok, hsame, hreply⟩ := fetch_simulates h
    (fun _ _ hrep => due_eq now queue hrep) horder hlow htouch hset hmirror
    fun _ hdue => shrinks_claimSet (now + leaseFor) hdue
  refine ⟨db', sortedRows jobs, ?_, ?_⟩
  · have hstatement : db.fetchAvailable now leaseFor queue limit = .ok (db', jobs) := by
      rw [Database.fetchAvailable, hqueue, hlease]
      simp only [any_attempt_eq_false h fun row hrow => (hrows row hrow).attempt_lt]
      exact hok
    rw [Database.fetchAvailableRows, hstatement, fetch_of_ok hlow hhigh]
  · rw [Memdriver.fetchAvailable_eq]
    exact ⟨hsame, hreply⟩

/-- The re-claims of both drivers, with the answer. -/
theorem fetchExpired_simulates (h : Same pg d db) {now : Time} {leaseFor : Duration} {limit : Int}
    (hlease : pg.leaseEnd now leaseFor = some (now + leaseFor)) (hlow : 0 ≤ limit)
    (hhigh : limit ≤ maxInt32) :
    ∃ db' rows, db.fetchExpiredRows now leaseFor limit = (db', .ok rows) ∧
      Same pg (d.fetchExpired now leaseFor limit).1 db' ∧
      SameRows pg id (d.fetchExpired now leaseFor limit).2 rows := by
  have hmirror : ∀ row job, Represents pg row job →
      Represents pg (Memdriver.reclaim now leaseFor row) (leaseSet (now + leaseFor) job) :=
    fun row job hrep => { hrep with leasedUntil := rfl }
  have horder : ∀ row job, Represents pg row job → Memdriver.expired now row = true →
      Memdriver.byLeasedUntil row = job.leasedUntil.getD 0 := by
    intro row job hrep _
    rw [Memdriver.byLeasedUntil, hrep.leasedUntil]
  have htouch : ∀ row, (Memdriver.reclaim now leaseFor row).id = row.id := fun _ => rfl
  have hset : ∀ job : DroverJob pg, (leaseSet (now + leaseFor) job).id = job.id := fun _ => rfl
  obtain ⟨db', jobs, hok, hsame, hreply⟩ := fetch_simulates h
    (fun _ _ hrep => expired_eq now hrep) horder hlow htouch hset hmirror
    (fun job _ => shrinks_of_state rfl rfl rfl id)
  refine ⟨db', sortedRows jobs, ?_, ?_⟩
  · have hstatement : db.fetchExpired now leaseFor limit = .ok (db', jobs) := by
      rw [Database.fetchExpired, hlease]
      exact hok
    rw [Database.fetchExpiredRows, hstatement, fetch_of_ok hlow hhigh]
  · rw [Memdriver.fetchExpired_eq]
    exact ⟨hsame, hreply⟩

/-- The heartbeat renews a row on both sides or on neither. -/
theorem heldBy_iff {row : JobRow} {job : DroverJob pg} (hregular : Regular row)
    (h : Represents pg row job) (hid : job.id = row.id) (leases : List Lease) :
    (job.state == .running &&
        (leases.map fun l => (l.id, attemptArg l.attempt)).contains (job.id, job.attempt)) = true ↔
      row.state = .running ∧ row.lease ∈ leases := by
  have hstatement : (job.state == .running &&
      (leases.map fun l => (l.id, attemptArg l.attempt)).contains (job.id, job.attempt)) = true ↔
        ∃ l ∈ leases, heldWhere l.id (attemptArg l.attempt) job = true := by
    simp only [Bool.and_eq_true, beq_iff_eq, List.contains_iff_mem, List.mem_map, Prod.mk.injEq,
      heldWhere_iff]
    constructor
    · rintro ⟨hrunning, l, hl, hl_id, hl_attempt⟩
      exact ⟨l, hl, hl_id.symm, hl_attempt.symm, hrunning⟩
    · rintro ⟨l, hl, hl_id, hl_attempt, hrunning⟩
      exact ⟨hrunning, l, hl, hl_id.symm, hl_attempt.symm⟩
  rw [hstatement]
  simp only [heldWhere_attemptArg hregular h hid]
  constructor
  · rintro ⟨l, hl, hrunning, rfl⟩
    exact ⟨hrunning, hl⟩
  · rintro ⟨hrunning, hheld⟩
    exact ⟨row.lease, hheld, hrunning, rfl⟩

/-- The heartbeats of both drivers. -/
theorem extendLeases_simulates (h : Same pg d db) (hrows : ∀ row ∈ d.jobs.rows, Regular row)
    {now : Time} (leases : List Lease) {leaseFor : Duration}
    (hlease : pg.leaseEnd now leaseFor = some (now + leaseFor)) :
    ∃ db', db.extendHeld now leases leaseFor = (db', none) ∧
      Same pg (d.extendLeases now leases leaseFor) db' := by
  rw [Database.extendHeld]
  by_cases hnone : leases.length = 0
  · rw [if_pos hnone, List.length_eq_zero_iff.mp hnone]
    exact ⟨db, rfl, h⟩
  · have hset : ∀ job : DroverJob pg, (leaseSet (now + leaseFor) job).id = job.id := fun _ => rfl
    have hindexed : Indexed (db.jobs.updateWhere (fun job => job.state == .running &&
        (leases.map fun l => (l.id, attemptArg l.attempt)).contains (job.id, job.attempt))
        (leaseSet (now + leaseFor)) hset) :=
      db.unique.updateWhere hset fun job _ _ => shrinks_of_state rfl rfl rfl id
    rw [if_neg hnone, Database.extendLeases, hlease]
    simp only [commit_of_indexed hindexed]
    refine ⟨_, rfl, h.map (Memdriver.get?_extendLeases d now leases leaseFor)
      (Table.get?_updateWhere hset) ?_⟩
    intro k row job hrow hjob hrep
    have hid : job.id = row.id := by
      rw [show job.id = k from Table.key_of_get? hjob, show row.id = k from Table.key_of_get? hrow]
    have hiff := heldBy_iff (hrows row (Table.mem_of_get? hrow)) hrep hid leases
    by_cases hheld : row.state = .running ∧ row.lease ∈ leases
    · rw [if_pos hheld, if_pos (hiff.mpr hheld)]
      exact { hrep with leasedUntil := rfl }
    · rw [if_neg hheld, if_neg (fun hcontra => hheld (hiff.mp hcontra))]
      exact hrep

/-! ## The unique key -/

/-- The index holds an entry for a row that occupies a unique key. -/
theorem entry_eq {row : JobRow} {job : DroverJob pg} (h : Represents pg row job) :
    job.entry = if Memdriver.uniqueActive row.state = true ∧ row.uniqueKey ≠ [] then
      some (row.queue, row.kind, row.uniqueKey) else none := by
  rw [DroverJob.entry, h.state, h.queue, h.kind, h.uniqueKey, indexedState_eq_uniqueActive]
  by_cases hkey : row.uniqueKey = []
  · simp [hkey]
  · simp [hkey]

/-- `uniqueConflict` finds what the index holds. -/
theorem uniqueConflict_iff (h : Same pg d db) {queue kind key : Bytes} (hkey : key ≠ []) :
    d.uniqueConflict queue kind key [] = true ↔
      ∃ job ∈ db.jobs.rows, job.entry = some (queue, kind, key) := by
  constructor
  · intro hconflict
    obtain ⟨-, row, hrow, hoccupied⟩ := Memdriver.uniqueConflict_eq_true hconflict
    obtain ⟨⟨rfl, rfl, rfl⟩, hactive⟩ := Memdriver.occupies_iff.mp hoccupied
    obtain ⟨job, hjob, hrep, -⟩ := h.job (Table.get?_of_mem hrow)
    exact ⟨job, Table.mem_of_get? hjob, (entry_eq hrep).trans (if_pos ⟨hactive, hkey⟩)⟩
  · rintro ⟨job, hjob, hentry⟩
    obtain ⟨row, hrow, hrep, -⟩ := h.row (Table.get?_of_mem hjob)
    rw [entry_eq hrep] at hentry
    split at hentry
    · rename_i hactive
      cases hentry
      by_contra hfree
      have hfree' := (Memdriver.uniqueConflict_eq_false hkey (by simpa using hfree)).1 row
        (Table.mem_of_get? hrow)
      rw [Memdriver.occupies_iff.mpr ⟨⟨rfl, rfl, rfl⟩, hactive.1⟩] at hfree'
      cases hfree'
    · cases hentry

/-- The index takes an active row exactly when `uniqueConflict` finds no other one. -/
theorem indexed_put_iff_free (h : Same pg d db) {row : JobRow} {job : DroverJob pg}
    (hrep : Represents pg row job) (hactive : Memdriver.uniqueActive row.state = true)
    (hidle : ∀ other ∈ db.jobs.rows, other.id = job.id → other.entry = none) :
    Indexed (db.jobs.put job) ↔
      d.uniqueConflict row.queue row.kind row.uniqueKey [] = false := by
  rw [indexed_put_iff db.unique, entry_eq hrep]
  by_cases hkey : row.uniqueKey = []
  · simp [hkey, Memdriver.Driver.uniqueConflict]
  · rw [if_pos ⟨hactive, hkey⟩, ← Bool.not_eq_true, uniqueConflict_iff h hkey]
    constructor
    · rintro hfree ⟨other, hother, hentry⟩
      by_cases hid : other.id = job.id
      · rw [hidle other hother hid] at hentry
        cases hentry
      · exact hfree.resolve_left (by simp) other hother hid hentry
    · exact fun hfree => Or.inr fun other hother _ hentry => hfree ⟨other, hother, hentry⟩

/-! ## Operator actions -/

section Operator

variable {jobID : Int} {want : Want} {eligible : JobState → Bool} {write : JobRow → JobRow}
  {set : DroverJob pg → DroverJob pg}

/-- The re-read that explains a miss finds the state that caused it, so the retry never
runs. -/
theorem operatorAction_miss (hset : ∀ job, (set job).id = job.id)
    (hwant : ∀ state, operatorEligible state want = eligible state)
    (h : ∀ job, db.jobs.get? jobID = some job → eligible job.state = false) :
    db.operatorAction jobID want (fun db => db.updateOne jobID eligible set hset) =
      (db, match db.jobs.get? jobID with
        | none => .error (.driver (.notFound jobID))
        | some job => .error (.driver (.invalidTransition jobID job.state want))) := by
  rw [Database.operatorAction, updateOne_of_not_eligible hset h]
  simp only [Database.operatorUpdate, Database.afterOperatorMiss, Database.getJob]
  cases hjob : db.jobs.get? jobID with
  | none => rfl
  | some job => simp only [hwant, h job hjob, Bool.false_eq_true, if_false]

/-- An operator action does and answers the same on both sides. -/
theorem operator_simulates (h : Same pg d db)
    (hwant : ∀ state, operatorEligible state want = eligible state)
    (hwrite : ∀ row, (write row).id = row.id) (hset : ∀ job, (set job).id = job.id)
    (hmirror : ∀ row job, Represents pg row job → Represents pg (write row) (set job))
    (hindexed : ∀ row job, d.jobs.get? jobID = some row → db.jobs.get? jobID = some job →
      Represents pg row job → eligible row.state = true → Indexed (db.jobs.put (set job))) :
    ∃ db' result,
      db.operatorAction jobID want (fun db => db.updateOne jobID eligible set hset) =
        (db', result) ∧
      Same pg (d.operatorAction jobID want eligible write).1 db' ∧
      SameReply pg id (.row (d.operatorAction jobID want eligible write).2) (.row result) := by
  rw [Memdriver.operatorAction_eq]
  cases hrow : d.jobs.get? jobID with
  | none =>
      have hnone := h.none hrow
      rw [operatorAction_miss hset hwant (fun job hjob => by rw [hnone] at hjob; cases hjob), hnone]
      exact ⟨db, _, rfl, h, rfl⟩
  | some row =>
      obtain ⟨job, hjob, hrep, hid⟩ := h.job hrow
      cases heligible : eligible row.state with
      | false =>
          have hmiss : ∀ job, db.jobs.get? jobID = some job → eligible job.state = false := by
            intro job' hjob'
            rw [hjob] at hjob'
            cases hjob'
            rw [hrep.state, heligible]
          rw [operatorAction_miss hset hwant hmiss, hjob]
          refine ⟨db, _, rfl, ?_, ?_⟩
          · simpa [heligible] using h
          · simp [heligible, SameReply, hrep.state]
      | true =>
          have hput := hindexed row job hrow hjob hrep heligible
          rw [Database.operatorAction,
            updateOne_of_eligible hset hjob (by rw [hrep.state, heligible]) hput]
          have hrep' := hmirror row job hrep
          have hid' : (set job).id = id (write row).id := by rw [hset, hwrite, hid]; rfl
          refine ⟨_, _, rfl, ?_, ?_⟩
          · simp only [heligible, if_true]
            exact h.put Function.injective_id hrep' hid'
          · simp only [heligible, if_true]
            exact hrep'.agrees hid'

end Operator

/-- `OperatorCancel` of both drivers. -/
theorem operatorCancel_simulates (h : Same pg d db) (now : Time) (jobID : Int) :
    ∃ db' result, db.cancel now jobID = (db', result) ∧
      Same pg (d.operatorCancel now jobID).1 db' ∧
      SameReply pg id (.row (d.operatorCancel now jobID).2) (.row result) := by
  have hwant : ∀ state, operatorEligible state .cancellable = cancellableState state :=
    fun _ => rfl
  have hcancellable : Memdriver.cancellable = cancellableState := by
    funext state
    cases state <;> rfl
  have hset : ∀ job : DroverJob pg, (finalizeSet .cancelled now job).id = job.id := fun _ => rfl
  have hwrite : ∀ row, (Memdriver.cancelRow now row).id = row.id := fun _ => rfl
  have hmirror : ∀ row job, Represents pg row job →
      Represents pg (Memdriver.cancelRow now row) (finalizeSet .cancelled now job) :=
    fun row job hrep => { hrep with state := rfl, leasedUntil := rfl, finalizedAt := rfl }
  have hindexed : ∀ row job, d.jobs.get? jobID = some row → db.jobs.get? jobID = some job →
      Represents pg row job → cancellableState row.state = true →
        Indexed (db.jobs.put (finalizeSet .cancelled now job)) :=
    fun row job _ hjob _ _ =>
      db.unique.put_of_shrinks (hset job) (Table.mem_of_get? hjob) (Or.inl rfl)
  rw [Memdriver.Driver.operatorCancel, hcancellable]
  exact operator_simulates h hwant hwrite hset hmirror hindexed

/-- `RedriveDead` of both drivers, when no active row holds the key. -/
theorem redriveDead_simulates (h : Same pg d db) (now : Time) {jobID : Int}
    (hadmits : d.Admits (.redriveDead now jobID)) :
    ∃ db' result, db.redrive now jobID = (db', result) ∧
      Same pg (d.redriveDead now jobID).1 db' ∧
      SameReply pg id (.row (d.redriveDead now jobID).2) (.row result) := by
  have hwant : ∀ state, operatorEligible state .dead = (state == .dead) := fun _ => rfl
  have hset : ∀ job : DroverJob pg, (redriveSet now job).id = job.id := fun _ => rfl
  have hwrite : ∀ row, (Memdriver.redriveRow now row).id = row.id := fun _ => rfl
  have hmirror : ∀ row job, Represents pg row job →
      Represents pg (Memdriver.redriveRow now row) (redriveSet now job) :=
    fun row job hrep => { hrep with
      state := rfl, attempt := rfl, leasedUntil := rfl, finalizedAt := rfl, scheduledAt := rfl }
  have hindexed : ∀ row job, d.jobs.get? jobID = some row → db.jobs.get? jobID = some job →
      Represents pg row job → (row.state == .dead) = true →
        Indexed (db.jobs.put (redriveSet now job)) := by
    intro row job hrow hjob hrep hdead
    have hdead' : row.state = .dead := by simpa using hdead
    refine (indexed_put_iff_free h (hmirror row job hrep) rfl ?_).mpr (hadmits row hrow hdead')
    intro other hother hid
    have hsame : other = job :=
      List.inj_on_of_nodup_map db.jobs.nodup hother (Table.mem_of_get? hjob) hid
    rw [hsame, entry_eq hrep, hdead']
    exact if_neg fun hoccupied => Bool.false_ne_true hoccupied.1
  exact operator_simulates h hwant hwrite hset hmirror hindexed

/-! ## Inserts -/

/-- What a new job carries is held exactly by the columns. -/
structure ExactInsert (pg : Postgres) (params : InsertParams) : Prop where
  kind : pg.text params.kind = some params.kind
  queue : pg.text params.queue = some params.queue
  args : pg.cast params.args ≠ none
  scheduledAt : params.scheduledAt = 0 ∨ pg.timestamptz params.scheduledAt = some params.scheduledAt
  uniqueKey : params.uniqueKey = [] ∨ pg.text params.uniqueKey = some params.uniqueKey

theorem cast_emptyErrors (pg : Postgres) : pg.cast Memdriver.emptyErrors = some (pg.array []) := by
  rw [show Memdriver.emptyErrors = Json.print (.arr []) by decide, cast_print, pg.value_array]
  rfl

theorem nullable_exact {α : Type} [DecidableEq α] {f : α → Option α} {a zero : α}
    (h : a = zero ∨ f a = some a) :
    nullable f (if a = zero then none else some a) =
      some (if a = zero then none else some a) := by
  by_cases hzero : a = zero
  · rw [if_pos hzero]
    rfl
  · rw [if_neg hzero, nullable, h.resolve_left hzero]
    rfl

/-- Both drivers build the same row. -/
theorem newJob_represents {params : InsertParams} (hexact : ExactInsert pg params) (now : Time)
    (id fresh : Int) :
    ∃ job, newJob pg now fresh (insertParams params) = some job ∧ job.id = fresh ∧
      Represents pg (Memdriver.jobFromParams id params now) job := by
  obtain ⟨args, hargs⟩ := Option.ne_none_iff_exists'.mp hexact.args
  have hscheduled := nullable_exact hexact.scheduledAt
  have hkey := nullable_exact hexact.uniqueKey
  have hdue : (if params.scheduledAt = 0 then none else some params.scheduledAt).getD now =
      if params.scheduledAt = 0 then now else params.scheduledAt := by
    split <;> rfl
  simp only [newJob, insertParams, hexact.kind, hexact.queue, hargs, hscheduled, hkey,
    Option.bind_eq_bind, Option.bind_some, Option.pure_def]
  refine ⟨_, rfl, rfl, ?_⟩
  exact ⟨rfl, rfl, hargs, by simp only [hdue]; rfl, rfl, rfl, cast_emptyErrors pg,
    hdue, rfl, rfl, rfl, rfl⟩

/-- `Insert` of both drivers; the ids they hand out are exchanged. -/
theorem insert_simulates (h : Same pg d db) (hfresh : d.Fresh) {fresh : Int}
    (hfree : db.jobs.get? fresh = none) (now : Time) {params : InsertParams}
    (hexact : ExactInsert pg params) :
    Corresponds (Represents pg) (Equiv.swap (d.nextID + 1) fresh) (d.insert now params).1.jobs
        (db.insert now fresh params).1.jobs ∧
      SameReply pg (Equiv.swap (d.nextID + 1) fresh) (.row (d.insert now params).2)
        (.row (db.insert now fresh params).2) := by
  obtain ⟨job, hjob, hid, hrep⟩ := newJob_represents hexact now (d.nextID + 1) fresh
  have hswap := h.swap hfresh.get?_next hfree
  have hactive := Memdriver.uniqueActive_jobFromParams (d.nextID + 1) params now
  have hidle : ∀ other ∈ db.jobs.rows, other.id = job.id → other.entry = none := by
    intro other hother hsame
    have hget := Table.get?_of_mem hother
    rw [hsame, hid, hfree] at hget
    cases hget
  have hiff := indexed_put_iff_free h hrep hactive hidle
  rw [Database.insert, Database.insertJob, hjob, Memdriver.Driver.insert]
  cases hconflict : d.uniqueConflict params.queue params.kind params.uniqueKey [] with
  | true =>
      have hnot : ¬Indexed (db.jobs.put job) := fun hindexed => by
        have hfalse : d.uniqueConflict params.queue params.kind params.uniqueKey [] = false :=
          hiff.mp hindexed
        rw [hconflict] at hfalse
        cases hfalse
      simp only [commit, dif_neg hnot]
      exact ⟨hswap, rfl⟩
  | false =>
      simp only [commit_of_indexed (hiff.mpr hconflict)]
      have hkey : job.id = Equiv.swap (d.nextID + 1) fresh (d.nextID + 1) := by
        rw [Equiv.swap_apply_left, hid]
      exact ⟨hswap.put (Equiv.injective _) hrep hkey, hrep.agrees hkey⟩

/-- When both hand out the same id, they hold the same jobs afterwards. -/
theorem Same.insert (h : Same pg d db) (hfresh : d.Fresh) (now : Time) {params : InsertParams}
    (hexact : ExactInsert pg params) :
    Same pg (d.insert now params).1 (db.insert now (d.nextID + 1) params).1 := by
  have hsame := (insert_simulates h hfresh (h.none hfresh.get?_next) now hexact).1
  rwa [Equiv.swap_self] at hsame

/-! ## Calls -/

/-- A call both drivers answer alike: the columns hold its arguments exactly, its limit
is an `int` of the database, the errors it appends to can be read, and a job it redrives
has its unique key to itself. -/
def Exact (pg : Postgres) (d : Memdriver.Driver) : Op → Prop
  | .insert _ params => ExactInsert pg params
  | .fetchAvailable now queue leaseFor limit =>
      pg.text queue = some queue ∧ pg.leaseEnd now leaseFor = some (now + leaseFor) ∧
        0 ≤ limit ∧ limit ≤ maxInt32
  | .fetchExpired now leaseFor limit =>
      pg.leaseEnd now leaseFor = some (now + leaseFor) ∧ 0 ≤ limit ∧ limit ≤ maxInt32
  | .extendLeases now _ leaseFor => pg.leaseEnd now leaseFor = some (now + leaseFor)
  | .mark lease m =>
      ExactMark pg m ∧ ∀ row, d.jobs.get? lease.id = some row → Appendable m row
  | .operatorCancel _ _ => True
  | .redriveDead now id => d.Admits (.redriveDead now id)
  | _ => False

/-- The stores after a call hold the same jobs and the answers say the same, where `σ`
exchanges the ids the two drivers hand out. -/
def Simulates (d : Memdriver.Driver) (db : Database pg) (fresh : Int) (op : Op)
    (σ : Equiv.Perm Int) : Prop :=
  ∃ db' answer, step db fresh op = some (db', answer) ∧
    (∀ id row, d.jobs.get? id = some row → σ id = id) ∧
    Corresponds (Represents pg) σ (next d op).jobs db'.jobs ∧ SameReply pg σ (reply d op) answer

/-- A call that hands out no id. -/
theorem simulates_refl {fresh : Int} {op : Op} {db' : Database pg} {answer : Reply}
    (hstep : step db fresh op = some (db', answer)) (hsame : Same pg (next d op) db')
    (hreply : SameReply pg id (reply d op) answer) :
    Simulates d db fresh op (Equiv.refl Int) :=
  ⟨db', answer, hstep, fun _ _ _ => rfl, hsame, hreply⟩

theorem step_simulates (h : Same pg d db) (hids : d.Fresh)
    (hrows : ∀ row ∈ d.jobs.rows, Regular row) {fresh : Int} (hfree : db.jobs.get? fresh = none)
    {op : Op} (hexact : Exact pg d op) :
    ∃ σ : Equiv.Perm Int, (fresh = d.nextID + 1 → σ = Equiv.refl Int) ∧
      Simulates d db fresh op σ := by
  cases op with
  | insert now params =>
      refine ⟨Equiv.swap (d.nextID + 1) fresh, ?_, _, _, rfl, ?_,
        insert_simulates h hids hfree now hexact⟩
      · rintro rfl
        exact Equiv.swap_self _
      · intro id row hrow
        have hle := (hids.le hrow).2
        refine Equiv.swap_apply_of_ne_of_ne (by omega) ?_
        rintro rfl
        rw [(h.none_iff id).mpr hfree] at hrow
        cases hrow
  | fetchAvailable now queue leaseFor limit =>
      obtain ⟨hqueue, hlease, hlow, hhigh⟩ := hexact
      obtain ⟨db', rows, hok, hsame, hreply⟩ :=
        fetchAvailable_simulates h hrows hqueue hlease hlow hhigh
      have hstep : step db fresh (.fetchAvailable now queue leaseFor limit) =
          some (db', .rows (.ok rows)) := by rw [step, hok]
      exact ⟨_, fun _ => rfl, simulates_refl hstep hsame hreply⟩
  | fetchExpired now leaseFor limit =>
      obtain ⟨hlease, hlow, hhigh⟩ := hexact
      obtain ⟨db', rows, hok, hsame, hreply⟩ := fetchExpired_simulates h hlease hlow hhigh
      have hstep : step db fresh (.fetchExpired now leaseFor limit) =
          some (db', .rows (.ok rows)) := by rw [step, hok]
      exact ⟨_, fun _ => rfl, simulates_refl hstep hsame hreply⟩
  | extendLeases now leases leaseFor =>
      obtain ⟨db', hok, hsame⟩ := extendLeases_simulates h hrows leases hexact
      have hstep : step db fresh (.extendLeases now leases leaseFor) = some (db', .done none) := by
        rw [step, hok]
      exact ⟨_, fun _ => rfl, simulates_refl hstep hsame rfl⟩
  | mark lease m =>
      obtain ⟨hsame, hreply⟩ := mark_simulates h hrows hexact.1 hexact.2
      exact ⟨_, fun _ => rfl, simulates_refl rfl hsame hreply⟩
  | operatorCancel now id =>
      obtain ⟨db', result, hok, hsame, hreply⟩ := operatorCancel_simulates h now id
      exact ⟨_, fun _ => rfl, simulates_refl (by rw [step, hok]) hsame hreply⟩
  | redriveDead now id =>
      obtain ⟨db', result, hok, hsame, hreply⟩ := redriveDead_simulates h now hexact
      exact ⟨_, fun _ => rfl, simulates_refl (by rw [step, hok]) hsame hreply⟩
  | insertMany now batch => exact hexact.elim
  | getJob id => exact hexact.elim
  | listJobs p => exact hexact.elim
  | stats now => exact hexact.elim

end Steps

/-- The empty table. -/
def Database.empty (pg : Postgres) : Database pg :=
  ⟨Table.empty, fun a ha => by cases ha⟩

/-- Whatever exact calls lead to, the database can hold: from the empty table, when it
hands out the ids the in-memory store hands out, it holds the same jobs. -/
theorem run_same {ops : List Op}
    (hops : Steps next (Exact pg) Memdriver.new ops)
    (hattempts : Along next (fun d => ∀ row ∈ d.jobs.rows, row.attempt < maxInt32)
      Memdriver.new ops) :
    ∃ db, Same pg (run next Memdriver.new ops) db := by
  induction ops using List.reverseRecOn with
  | nil => exact ⟨.empty pg, fun _ => .none⟩
  | append_singleton ops op ih =>
      have hsteps := steps_iff.mp hops
      have hstates := along_iff.mp hattempts
      obtain ⟨db, hsame⟩ := ih
        (steps_iff.mpr fun pre op' post hsplit => hsteps pre op' (post ++ [op]) (by simp [hsplit]))
        (along_iff.mpr fun pre post hsplit => hstates pre (post ++ [op]) (by simp [hsplit]))
      have hrows : ∀ row ∈ (run next Memdriver.new ops).jobs.rows, Regular row :=
        fun row hrow => regular_of_mem_run hrow (hstates ops [op] rfl row hrow)
      have hids := Memdriver.fresh_run ops Memdriver.fresh_new
      obtain ⟨σ, hσ, db', answer, -, -, hsame', -⟩ := step_simulates hsame hids hrows
        (hsame.none hids.get?_next) (hsteps ops op [] rfl)
      rw [hσ rfl] at hsame'
      refine ⟨db', ?_⟩
      rw [run_append]
      exact hsame'

/-- A duration to the nearest microsecond, a half to the even one, as `make_interval` rounds
its seconds. -/
def rint (d : Duration) : Duration :=
  if d % 1000 < 500 ∨ d % 1000 = 500 ∧ d / 1000 % 2 = 0 then d - d % 1000
  else d - d % 1000 + 1000

/-- A database that keeps times to the microsecond, as `timestamptz` does, and refuses
strings with a zero byte.  Its `jsonb` is the text as `json.Marshal` writes it. -/
def micros : Postgres where
  Jsonb := { x : Json.Value // Json.escapeHTML x = x }
  value x := some ⟨Json.escapeHTML x, Json.escapeHTML_idem x⟩
  array vs := ⟨.arr (vs.map Subtype.val), by
    rw [Json.escapeHTML, Json.escapeElements_eq_map, List.map_map]
    exact congrArg _ (List.map_congr_left fun v _ => v.2)⟩
  concat
    | ⟨.arr xs, h⟩, w => ⟨.arr (xs ++ [w.1]), by
        rw [Json.escapeHTML, Json.Value.arr.injEq] at h
        rw [Json.escapeHTML, Json.escapeElements_append, h, Json.escapeElements_eq_map [w.1]]
        simp [w.2]⟩
    | v, _ => v
  render v := Json.print v.1
  text b := if b.contains 0 then none else some b
  timestamptz t := some (t - t % 1000)
  leaseEnd now leaseFor := some (now + rint leaseFor)
  value_escapeHTML x := by
    simp [Json.escapeHTML_idem]
  value_array xs := by
    have hmap : xs.mapM (fun x => some (⟨Json.escapeHTML x, Json.escapeHTML_idem x⟩ :
        { x : Json.Value // Json.escapeHTML x = x })) = some (xs.map fun x =>
          ⟨Json.escapeHTML x, Json.escapeHTML_idem x⟩) := List.mapM_pure
    rw [hmap]
    refine congrArg some (Subtype.ext ?_)
    simp [Json.escapeHTML, Json.escapeElements_eq_map]
  concat_object vs ms v _ := by
    simp
  read_render v := by
    simp [v.2]

/-- The in-memory driver simulates the Postgres driver.  From a reachable store whose
attempts are below the greatest `int`, and a database that holds the same jobs, every
exact call leaves the same jobs, up to the id a new one is given, returns the same rows
and reports the same error. -/
theorem call_simulates {ops : List Op}
    (hattempts : ∀ row ∈ (run next Memdriver.new ops).jobs.rows, row.attempt < maxInt32)
    {db : Database pg} (h : Same pg (run next Memdriver.new ops) db) {fresh : Int}
    (hfree : db.jobs.get? fresh = none) {op : Op}
    (hexact : Exact pg (run next Memdriver.new ops) op) :
    ∃ σ : Equiv.Perm Int, Simulates (run next Memdriver.new ops) db fresh op σ := by
  have hrows : ∀ row ∈ (run next Memdriver.new ops).jobs.rows, Regular row :=
    fun row hrow => regular_of_mem_run hrow (hattempts row hrow)
  obtain ⟨σ, -, hsim⟩ :=
    step_simulates h (Memdriver.fresh_run ops Memdriver.fresh_new) hrows hfree hexact
  exact ⟨σ, hsim⟩

/-- A job without a key, with the arguments `{}`. -/
def sample : InsertParams :=
  ⟨Bytes.ofChars ['k'], Bytes.ofChars ['q'], Json.print (.obj []), 0, []⟩

theorem exactInsert_sample : ExactInsert micros sample :=
  ⟨rfl, rfl, by rw [sample, cast_print]; exact Option.some_ne_none _, Or.inl rfl, Or.inl rfl⟩

/-- A claim of one job, for `leaseFor`. -/
def sampleFetch (leaseFor : Duration) : Op :=
  .fetchAvailable 5000 (Bytes.ofChars ['q']) leaseFor 1

/-- The database that holds the job, and the one that holds it claimed. -/
def sampleJob : Database micros := ((Database.empty micros).insert 5000 1 sample).1

@[inherit_doc sampleJob] def sampleClaim : Database micros :=
  (sampleJob.fetchAvailableRows 5000 (Bytes.ofChars ['q']) 1000 1).1

theorem same_sampleJob : Same micros (run next Memdriver.new [.insert 5000 sample]) sampleJob :=
  Same.insert (fun _ => .none) Memdriver.fresh_new 5000 exactInsert_sample

/-- The job is claimed in both stores, while a second one is inserted under different
ids. -/
theorem sample_simulates :
    (∃ σ : Equiv.Perm Int, Simulates (run next Memdriver.new [.insert 5000 sample]) sampleJob 7
      (sampleFetch 1000) σ) ∧
    ∃ σ : Equiv.Perm Int, Simulates (run next Memdriver.new [.insert 5000 sample]) sampleJob 7
      (.insert 5000 { sample with scheduledAt := 6000 }) σ := by
  have hattempts : ∀ row ∈ (run next Memdriver.new [.insert 5000 sample]).jobs.rows,
      row.attempt < maxInt32 := by decide
  constructor
  · exact call_simulates hattempts same_sampleJob rfl ⟨rfl, rfl, by decide, by decide⟩
  · exact call_simulates hattempts same_sampleJob rfl
      { exactInsert_sample with scheduledAt := Or.inr rfl }

/-! ## Calls that are not exact -/

/-- The claimed row. -/
def sampleRow : JobRow := Memdriver.claim 5000 1000 (Memdriver.jobFromParams 1 sample 5000)

/-- The job is claimed and fails with the detail `deep`, and is claimed again. -/
def deepRun (deep : Json.Value) : List Op :=
  [.insert 5000 sample, sampleFetch 1000,
    .mark sampleRow.lease (.retryable 5000 (some (Json.print deep))), sampleFetch 1000]

/-- The row this leaves. -/
def deepRow (deep : Json.Value) : JobRow :=
  { sampleRow with attempt := 2, errors := Json.marshalList [deep] }

theorem run_deepRun {deep : Json.Value} (hscan : Json.scan (Json.print deep) = some deep) :
    run next Memdriver.new (deepRun deep) = ⟨1, ⟨[deepRow deep], by simp⟩⟩ := by
  have happend := Memdriver.appendError_first
    (show sampleRow.errors = Json.print (.arr []) by decide) hscan
  have hmark := Memdriver.mark_of_running (m := .retryable 5000 (some (Json.print deep)))
    (d := run next Memdriver.new [.insert 5000 sample, sampleFetch 1000]) rfl rfl happend
  have hnext : next (run next Memdriver.new [.insert 5000 sample, sampleFetch 1000])
      (.mark sampleRow.lease (.retryable 5000 (some (Json.print deep)))) =
        ⟨1, ⟨[(Mark.retryable 5000 none).result
          { sampleRow with errors := Json.marshalList [deep] }], by simp⟩⟩ := by
    rw [next, Memdriver.step, hmark]
    rfl
  exact (congrArg (next · (sampleFetch 1000)) hnext).trans rfl

/-- The row of `drover_jobs` that holds the same. -/
def deepJob (deep : Json.Value) : DroverJob micros where
  id := 1
  kind := sample.kind
  queue := sample.queue
  args := ⟨Json.escapeHTML (.obj []), Json.escapeHTML_idem _⟩
  state := .running
  attempt := 2
  maxAttempts := 25
  errors := ⟨Json.escapeHTML (.arr (Json.escapeElements [deep])), Json.escapeHTML_idem _⟩
  scheduledAt := 5000
  leasedUntil := some 6000
  createdAt := 5000
  finalizedAt := none
  uniqueKey := none

/-- The database with that row alone. -/
def deepDatabase (deep : Json.Value) : Database micros :=
  ⟨⟨[deepJob deep], by simp⟩, fun a ha b hb _ _ => by
    rw [List.mem_singleton.mp ha, List.mem_singleton.mp hb]⟩

/-- The last attempt of the job dies with the detail `{}`. -/
def deepMark : Op := .mark ⟨1, 2⟩ (.dead 5000 (some (Json.print (.obj []))))

theorem same_deepDatabase {deep : Json.Value}
    (hscan : Json.scan (Json.print deep) = some deep) :
    Same micros (run next Memdriver.new (deepRun deep)) (deepDatabase deep) := by
  rw [run_deepRun hscan]
  intro id
  by_cases hid : 1 = id
  · subst hid
    refine .some ⟨rfl, rfl, ?_, rfl, rfl, rfl, ?_, rfl, rfl, rfl, rfl, rfl⟩
    · exact cast_print micros (.obj [])
    · exact cast_print micros (.arr (Json.escapeElements [deep]))
  · have hrow : (⟨[deepRow deep], by simp⟩ : Table JobRow.id).get? id = none :=
      Table.get?_eq_none_iff.mpr fun row hrow => by rw [List.mem_singleton.mp hrow]; exact hid
    have hjob : (deepDatabase deep).jobs.get? id = none :=
      Table.get?_eq_none_iff.mpr fun job hjob => by rw [List.mem_singleton.mp hjob]; exact hid
    rw [hrow]
    exact hjob ▸ .none

/-- After a detail at the nesting limit the in-memory store reads the job's errors no
more. -/
theorem reply_deepMark {deep : Json.Value} (hdepth : Json.depth deep = Json.maxNestingDepth) :
    reply (run next Memdriver.new (deepRun deep)) deepMark = .done (some (.decodeErrors 1)) := by
  have hscan : Json.scan (Json.print deep) = some deep := by simp [Json.scan, hdepth]
  have hlist : Json.unmarshalList (deepRow deep).errors = none :=
    Memdriver.unmarshalList_deep hdepth
  have happend : Memdriver.appendError (deepRow deep) (some (Json.print (.obj []))) =
      (deepRow deep, some (.decodeErrors 1)) := by
    rw [Memdriver.appendError, hlist]
    rfl
  have hget : (⟨[deepRow deep], by simp⟩ : Table JobRow.id).get? 1 = some (deepRow deep) := rfl
  rw [run_deepRun hscan, deepMark, reply, Memdriver.step, Memdriver.mark_eq_transition,
    Memdriver.Driver.transition, hget]
  simp only [Memdriver.Mark.apply_eq, Memdriver.Mark.detail, happend]
  rfl

/-- The database has no such limit and appends. -/
theorem deepMark_differs {deep : Json.Value} (hdepth : Json.depth deep = Json.maxNestingDepth) :
    Same micros (run next Memdriver.new (deepRun deep)) (deepDatabase deep) ∧
      reply (run next Memdriver.new (deepRun deep)) deepMark = .done (some (.decodeErrors 1)) ∧
      ∃ db', step (deepDatabase deep) 7 deepMark = some (db', .done none) :=
  ⟨same_deepDatabase (by simp [Json.scan, hdepth]), reply_deepMark hdepth, _, rfl⟩

/-- What the columns do not hold exactly makes the drivers differ: a time half a
microsecond after `now`, arguments that are not JSON, a string with a zero byte, a lease
of a microsecond and a half, and errors nested too deeply for `json.Unmarshal`. -/
theorem inexact_calls_differ :
    (∃ a b db', reply Memdriver.new (.insert 5000 { sample with scheduledAt := 5500 }) =
        .row (.ok a) ∧
      step (Database.empty micros) 7 (.insert 5000 { sample with scheduledAt := 5500 }) =
        some (db', .row (.ok b)) ∧ a.state = .scheduled ∧ b.state = .available) ∧
    (∃ a, reply Memdriver.new (.insert 5000 { sample with args := [] }) = .row (.ok a) ∧
      step (Database.empty micros) 7 (.insert 5000 { sample with args := [] }) =
        some (Database.empty micros, .row (.error (.database .badValue)))) ∧
    (∃ a, reply Memdriver.new (.insert 5000 { sample with kind := [0] }) = .row (.ok a) ∧
      step (Database.empty micros) 7 (.insert 5000 { sample with kind := [0] }) =
        some (Database.empty micros, .row (.error (.database .badValue)))) ∧
    (∃ a b db', reply (run next Memdriver.new [.insert 5000 sample]) (sampleFetch 1500) =
        .rows (.ok [a]) ∧
      step sampleJob 7 (sampleFetch 1500) = some (db', .rows (.ok [b])) ∧
        a.leasedUntil = some 6500 ∧ b.leasedUntil = some 7000) ∧
    (∃ a b db', (next (run next Memdriver.new [.insert 5000 sample, sampleFetch 1000])
        (.mark ⟨1, 1⟩ (.snoozed 5500))).jobs.get? 1 = some a ∧
      step sampleClaim 7 (.mark ⟨1, 1⟩ (.snoozed 5500)) = some (db', .done none) ∧
        db'.jobs.get? 1 = some b ∧ a.scheduledAt = 5500 ∧ b.scheduledAt = 5000) ∧
    (Same micros (run next Memdriver.new (deepRun (Memdriver.deepDetail 9998)))
        (deepDatabase (Memdriver.deepDetail 9998)) ∧
      reply (run next Memdriver.new (deepRun (Memdriver.deepDetail 9998))) deepMark =
        .done (some (.decodeErrors 1)) ∧
      ∃ db', step (deepDatabase (Memdriver.deepDetail 9998)) 7 deepMark =
        some (db', .done none)) := by
  refine ⟨⟨_, _, _, rfl, rfl, rfl, rfl⟩, ⟨_, rfl, rfl⟩, ⟨_, rfl, rfl⟩,
    ⟨_, _, _, rfl, rfl, rfl, rfl⟩, ⟨_, _, _, rfl, rfl, rfl, rfl, rfl⟩, ?_⟩
  exact deepMark_differs (Memdriver.depth_deepDetail 9998)

end Drover.Pgdriver
