import Drover.Memdriver.Invariant
import Drover.Pgdriver.Statement

set_option autoImplicit false

/-!
# The same job in both stores

Rows are compared field by field, but for the id, and the arguments and the errors as
values of `jsonb`.  Two things have to be known of the rows of the in-memory store for
the comparison to last: their attempts fit the column, and their errors are the text of
an array.
-/

namespace Drover.Pgdriver

open Drover.Foundation
open Drover.Driver
open Drover.Go (Time Duration)
open Drover.Memdriver (Op next)

variable {pg : Postgres}

/-! ## Rows that hold the same job -/

/-- A stored row and the row of `drover_jobs` hold the same job, but for the id. -/
structure Represents (pg : Postgres) (row : JobRow) (job : DroverJob pg) : Prop where
  kind : job.kind = row.kind
  queue : job.queue = row.queue
  args : pg.cast row.args = some job.args
  state : job.state = row.state
  attempt : job.attempt = row.attempt
  maxAttempts : job.maxAttempts = row.maxAttempts
  errors : pg.cast row.errors = some job.errors
  scheduledAt : job.scheduledAt = row.scheduledAt
  leasedUntil : job.leasedUntil = row.leasedUntil
  createdAt : job.createdAt = row.createdAt
  finalizedAt : job.finalizedAt = row.finalizedAt
  uniqueKey : job.uniqueKey = if row.uniqueKey = [] then none else some row.uniqueKey

/-- Two returned rows report the same job: all fields are equal, but for the id, which
`σ` renames, and the texts of arguments and errors, which have the same values. -/
structure Agrees (pg : Postgres) (σ : Int → Int) (a b : JobRow) : Prop where
  id : b.id = σ a.id
  fields : { b with id := a.id, args := a.args, errors := a.errors } = a
  args : pg.cast b.args = pg.cast a.args
  errors : pg.cast b.errors = pg.cast a.errors

theorem Represents.agrees {σ : Int → Int} {row : JobRow} {job : DroverJob pg}
    (h : Represents pg row job) (hid : job.id = σ row.id) : Agrees pg σ row (rowFromDB job) := by
  refine ⟨hid, ?_, (pg.read_render job.args).trans h.args.symm,
    (pg.read_render job.errors).trans h.errors.symm⟩
  have hkey : job.uniqueKey.getD [] = row.uniqueKey := by
    rw [h.uniqueKey]
    by_cases hempty : row.uniqueKey = []
    · rw [if_pos hempty, hempty]
      rfl
    · rw [if_neg hempty]
      rfl
  simp only [rowFromDB, h.kind, h.queue, h.state, h.attempt, h.maxAttempts, h.scheduledAt,
    h.leasedUntil, h.createdAt, h.finalizedAt, hkey]

/-- Two lists report the same jobs, in whatever order. -/
def SameRows (pg : Postgres) (σ : Int → Int) (as bs : List JobRow) : Prop :=
  ∃ bs', bs'.Perm bs ∧ List.Forall₂ (Agrees pg σ) as bs'

/-- Two answers say the same: the same error, or rows that agree. -/
def SameReply (pg : Postgres) (σ : Int → Int) : Memdriver.Reply → Reply → Prop
  | .done err, .done err' => err' = err.map .driver
  | .row (.ok a), .row (.ok b) => Agrees pg σ a b
  | .row (.error err), .row (.error err') => err' = .driver err
  | .rows (.ok as), .rows (.ok bs) => SameRows pg σ as bs
  | _, _ => False

/-! ## What the in-memory store guarantees of its rows -/

/-- A row of a reachable store whose attempt is an `int` of the database. -/
structure Regular (row : JobRow) : Prop where
  sound : Memdriver.Sound row
  attempt_lt : row.attempt < maxInt32
  recorded : ∃ entries, Memdriver.Recorded row entries

theorem regular_of_mem_run {ops : List Op} {row : JobRow}
    (h : row ∈ (run next Memdriver.new ops).jobs.rows) (hattempt : row.attempt < maxInt32) :
    Regular row :=
  ⟨Memdriver.sound_of_mem_run h, hattempt, Memdriver.recorded_of_mem_run h⟩

/-- Clamping an attempt never makes it match a row that it did not match before: a
running row is on attempt 1 at least, and below the greatest `int`. -/
theorem attemptArg_eq_iff {n a : Int} (hlow : 1 ≤ a) (hhigh : a < maxInt32) :
    attemptArg n = a ↔ n = a := by
  unfold attemptArg
  split
  · omega
  · split <;> omega

theorem heldWhere_attemptArg {row : JobRow} {job : DroverJob pg} (hregular : Regular row)
    (h : Represents pg row job) (hid : job.id = row.id) (lease : Lease) :
    heldWhere lease.id (attemptArg lease.attempt) job = true ↔
      row.state = .running ∧ row.lease = lease := by
  rw [heldWhere_iff, hid, h.attempt, h.state, eq_comm (a := row.attempt)]
  have hlease : row.lease = lease ↔ row.id = lease.id ∧ row.attempt = lease.attempt := by
    cases lease
    simp [JobRow.lease]
  rw [hlease]
  constructor
  · rintro ⟨hkey, hattempt, hrunning⟩
    have hpos := hregular.sound.attempt_pos hrunning
    exact ⟨hrunning, hkey, ((attemptArg_eq_iff hpos hregular.attempt_lt).mp hattempt).symm⟩
  · rintro ⟨hrunning, hkey, hattempt⟩
    have hpos := hregular.sound.attempt_pos hrunning
    exact ⟨hkey, (attemptArg_eq_iff hpos hregular.attempt_lt).mpr hattempt.symm, hrunning⟩

/-! ## The errors array -/

/-- An error detail both drivers take: a JSON object `jsonb` accepts, within the nesting
`json.Marshal` accepts. -/
def ExactDetail (pg : Postgres) (detail : Option Bytes) : Prop :=
  ∃ text ms v, detail = some text ∧ Json.scan text = some (.obj ms) ∧
    pg.value (.obj ms) = some v

theorem cast_print (pg : Postgres) (x : Json.Value) : pg.cast (Json.print x) = pg.value x := by
  rw [Postgres.cast, Json.parse_print]
  rfl

/-- Appending an object to the text appends its value to the array. -/
theorem cast_marshalList_append {entries : List Json.Value} {ms : List (Json.Chunks × Json.Value)}
    {errors v : pg.Jsonb} (herrors : pg.value (.arr entries) = some errors)
    (hv : pg.value (.obj ms) = some v) :
    pg.cast (Json.marshalList (entries ++ [.obj ms])) = some (pg.concat errors v) := by
  rw [pg.value_array] at herrors
  obtain ⟨vs, hvs, rfl⟩ := Option.map_eq_some_iff.mp herrors
  have hescaped : Json.Value.arr (Json.escapeElements (entries ++ [.obj ms])) =
      Json.escapeHTML (.arr (entries ++ [.obj ms])) := by
    rw [Json.escapeHTML]
  rw [Json.marshalList, cast_print, hescaped, pg.value_escapeHTML, pg.value_array,
    pg.concat_object vs ms v hv, List.mapM_append, hvs]
  simp [hv]

/-- `appendError` and `errors || $error` write the same array, when `json.Unmarshal`
reads the stored one. -/
theorem appendError_exact {detail : Option Bytes} (hdetail : ExactDetail pg detail) :
    ∃ v, nullable pg.cast detail = some (some v) ∧
      ∀ row job, Regular row → Json.unmarshalList row.errors ≠ none → Represents pg row job →
        ∃ appended, Memdriver.appendError row detail = (appended, none) ∧
          Represents pg appended (appendSet v job) := by
  obtain ⟨text, ms, v, rfl, hscan, hv⟩ := hdetail
  refine ⟨v, ?_, fun row job hregular hreads h => ?_⟩
  · rw [nullable, Postgres.cast, Json.parse_of_scan hscan, Option.bind_some, hv]
    rfl
  · obtain ⟨entries, hrecorded⟩ := hregular.recorded
    obtain ⟨list, hlist⟩ := Option.ne_none_iff_exists'.mp hreads
    have hsame : list = entries := by
      rw [hrecorded.1] at hlist
      exact Json.unmarshalList_print_arr_eq_some hlist
    subst hsame
    refine ⟨{ row with errors := Json.marshalList (list ++ [.obj ms]) }, ?_, ?_⟩
    · simp only [Memdriver.appendError, hlist, hscan]
    · have herrors := h.errors
      rw [hrecorded.1, cast_print] at herrors
      exact { h with errors := cast_marshalList_append herrors hv }

end Drover.Pgdriver
