import Drover.Memdriver.Unique
import Drover.Scheduler.Loop

set_option autoImplicit false

/-!
# Two ways to insert a job (`Client.Insert`, `Inspector.Enqueue`)

A program inserts a typed job through its client; an operator enqueues a kind and raw JSON
through an inspector.  Both take the same options and call the same driver, but each builds
the driver's parameters by itself, and the inspector leaves the unique key out.

A row is handed back as it was stored; waking the pool after an insert is not part of this.
-/

namespace Drover.Client

open Drover.Foundation
open Drover.Driver
open Drover.Go (Time)
open Drover.Scheduler (JobArgs defaultQueue)

/-- `InsertOpts`. -/
structure InsertOpts where
  queue : Bytes
  scheduledAt : Time
  uniqueKey : Bytes
  deriving DecidableEq, Repr

/-- What the driver's error is in public. -/
inductive InsertCause where
  /-- `ErrDuplicateJob` of the root package -/
  | duplicateJob
  | driver (err : DriverError)
  deriving DecidableEq, Repr

/-- The errors of the two calls. -/
inductive InsertError where
  /-- `ErrInvalidKind` -/
  | invalidKind
  /-- `drover: marshal args for kind %q` -/
  | marshal (kind : Bytes)
  /-- `drover: args must be valid JSON` -/
  | invalidArgs
  /-- `drover: insert job kind %q` -/
  | insert (kind : Bytes) (cause : InsertCause)
  /-- `drover: enqueue job kind %q` -/
  | enqueue (kind : Bytes) (err : DriverError)
  deriving DecidableEq, Repr

/-- `publicInsertErr`. -/
def publicInsertErr : DriverError → InsertCause
  | .duplicateJob => .duplicateJob
  | err => .driver err

/-- `insertParamsFor`; nil arguments are `none`. -/
def insertParamsFor (args : Option JobArgs) (opts : Option InsertOpts) :
    Except InsertError InsertParams :=
  match args with
  | none => .error .invalidKind
  | some args =>
      if args.kind = [] then .error .invalidKind
      else
        match args.encoded with
        | none => .error (.marshal args.kind)
        | some encoded =>
            let params : InsertParams := ⟨args.kind, defaultQueue, encoded, 0, []⟩
            match opts with
            | none => .ok params
            | some opts =>
                .ok { params with
                  queue := if opts.queue ≠ [] then opts.queue else params.queue
                  scheduledAt := opts.scheduledAt
                  uniqueKey := opts.uniqueKey }

/-- `Client.Insert`. -/
def insert (d : Memdriver.Driver) (now : Time) (args : Option JobArgs) (opts : Option InsertOpts) :
    Memdriver.Driver × Except InsertError JobRow :=
  match insertParamsFor args opts with
  | .error err => (d, .error err)
  | .ok params =>
      match d.insert now params with
      | (d, .error err) => (d, .error (.insert params.kind (publicInsertErr err)))
      | (d, .ok row) => (d, .ok row)

/-- The parameters `Enqueue` builds. -/
def enqueueParams (kind args : Bytes) (opts : Option InsertOpts) : InsertParams :=
  let params : InsertParams := ⟨kind, defaultQueue, args, 0, []⟩
  match opts with
  | none => params
  | some opts =>
      { params with
        queue := if opts.queue ≠ [] then opts.queue else params.queue
        scheduledAt := opts.scheduledAt }

/-- `Inspector.Enqueue`. -/
def enqueue (d : Memdriver.Driver) (now : Time) (kind args : Bytes) (opts : Option InsertOpts) :
    Memdriver.Driver × Except InsertError JobRow :=
  if kind = [] then (d, .error .invalidKind)
  else if !(Json.scan args).isSome then (d, .error .invalidArgs)
  else
    match d.insert now (enqueueParams kind args opts) with
    | (d, .error err) => (d, .error (.enqueue kind err))
    | (d, .ok row) => (d, .ok row)

/-! ## Parameters -/

/-- The unique key the options ask for. -/
def keyOf (opts : Option InsertOpts) : Bytes := opts.elim [] InsertOpts.uniqueKey

/-- The client's parameters are the inspector's with the unique key. -/
theorem insertParamsFor_eq {kind args : Bytes} (hkind : kind ≠ []) (opts : Option InsertOpts) :
    insertParamsFor (some ⟨kind, some args⟩) opts =
      .ok { enqueueParams kind args opts with uniqueKey := keyOf opts } := by
  unfold insertParamsFor
  simp only [if_neg hkind]
  cases opts with
  | none => rfl
  | some opts => rfl

/-- A periodic tick is inserted with the client's parameters. -/
theorem insertParamsFor_tick {entry : Scheduler.Entry} {encoded : Bytes}
    (hkind : entry.args.kind ≠ []) (hencoded : entry.args.encoded = some encoded) (fire : Time) :
    (insertParamsFor (some entry.args)
      (some ⟨entry.job.queue, fire, Scheduler.periodicUniqueKey entry.job.id fire⟩)).toOption =
      entry.params fire := by
  unfold insertParamsFor Scheduler.Entry.params
  simp only [if_neg hkind, hencoded, Option.map_some, Except.toOption]
  by_cases hqueue : entry.job.queue = []
  · simp [hqueue]
  · simp [hqueue]

/-! ## The two calls compared -/

/-- Two calls from one store agree: they hand back the same row or are both refused, they
leave the same rows behind, and a refusal leaves the store as it was. -/
structure Agree (d : Memdriver.Driver) (a b : Memdriver.Driver × Except InsertError JobRow) :
    Prop where
  row : a.2.toOption = b.2.toOption
  store : a.1 = b.1
  refused : a.2.toOption = none → a.1 = d

/-- The two calls do what the driver's insert does; only their errors are their own. -/
theorem insert_eq (d : Memdriver.Driver) (now : Time) {kind : Bytes} (args : Bytes)
    (hkind : kind ≠ []) (opts : Option InsertOpts) :
    (insert d now (some ⟨kind, some args⟩) opts).1 =
        (d.insert now { enqueueParams kind args opts with uniqueKey := keyOf opts }).1 ∧
      (insert d now (some ⟨kind, some args⟩) opts).2.toOption =
        (d.insert now { enqueueParams kind args opts with uniqueKey := keyOf opts }).2.toOption := by
  unfold insert
  rw [insertParamsFor_eq hkind]
  dsimp only
  split
  · rename_i heq
    rw [heq]
    exact ⟨rfl, rfl⟩
  · rename_i heq
    rw [heq]
    exact ⟨rfl, rfl⟩

theorem enqueue_eq (d : Memdriver.Driver) (now : Time) {kind args : Bytes} (hkind : kind ≠ [])
    (hargs : (Json.scan args).isSome) (opts : Option InsertOpts) :
    (enqueue d now kind args opts).1 = (d.insert now (enqueueParams kind args opts)).1 ∧
      (enqueue d now kind args opts).2.toOption =
        (d.insert now (enqueueParams kind args opts)).2.toOption := by
  unfold enqueue
  rw [if_neg hkind, hargs]
  split
  · contradiction
  · split
    · rename_i heq
      rw [heq]
      exact ⟨rfl, rfl⟩
    · rename_i heq
      rw [heq]
      exact ⟨rfl, rfl⟩

theorem uniqueKey_enqueueParams (kind args : Bytes) (opts : Option InsertOpts) :
    (enqueueParams kind args opts).uniqueKey = [] := by
  cases opts with
  | none => rfl
  | some opts => rfl

/-- Without a unique key every insert is accepted. -/
theorem insert_of_no_key (d : Memdriver.Driver) (now : Time) {params : InsertParams}
    (h : params.uniqueKey = []) :
    d.insert now params =
      (⟨d.nextID + 1, d.jobs.put (Memdriver.jobFromParams (d.nextID + 1) params now)⟩,
        .ok (Memdriver.jobFromParams (d.nextID + 1) params now)) := by
  rw [Memdriver.Driver.insert, h, Memdriver.Driver.uniqueConflict, if_pos rfl]
  rfl

/-- Rows that differ in their unique key make different stores. -/
theorem put_ne_of_key {d : Memdriver.Driver} {now : Time} {p q : InsertParams}
    (h : p.uniqueKey ≠ q.uniqueKey) :
    d.jobs.put (Memdriver.jobFromParams (d.nextID + 1) p now) ≠
      d.jobs.put (Memdriver.jobFromParams (d.nextID + 1) q now) := by
  intro heq
  have hget := congrArg (fun t : Table JobRow.id => t.get? (d.nextID + 1)) heq
  have hself : ∀ params : InsertParams,
      (d.jobs.put (Memdriver.jobFromParams (d.nextID + 1) params now)).get? (d.nextID + 1) =
        some (Memdriver.jobFromParams (d.nextID + 1) params now) :=
    fun params => Table.get?_put_self d.jobs (Memdriver.jobFromParams (d.nextID + 1) params now)
  simp only [hself] at hget
  exact h (congrArg JobRow.uniqueKey (Option.some.inj hget))

/-- For every kind that is not empty, every valid JSON text, all options and every store, the
two calls agree exactly when the options ask for no unique key. -/
theorem enqueue_agrees_iff (d : Memdriver.Driver) (now : Time) {kind args : Bytes}
    (hkind : kind ≠ []) (hargs : (Json.scan args).isSome) (opts : Option InsertOpts) :
    Agree d (enqueue d now kind args opts) (insert d now (some ⟨kind, some args⟩) opts) ↔
      keyOf opts = [] := by
  obtain ⟨hstore, hrow⟩ := insert_eq d now args hkind opts
  obtain ⟨hstore', hrow'⟩ := enqueue_eq d now hkind hargs opts
  have hfree := insert_of_no_key d now (uniqueKey_enqueueParams kind args opts)
  constructor
  · rintro ⟨hsame, hleft, -⟩
    by_contra hkey
    rw [hrow, hrow', hfree] at hsame
    rw [hstore, hstore', hfree] at hleft
    rcases Memdriver.insert_cases d now
      { enqueueParams kind args opts with uniqueKey := keyOf opts } with heq | ⟨-, heq⟩
    · -- the key is taken: the client is refused and the inspector is not
      rw [heq] at hsame
      cases hsame
    · rw [heq] at hleft
      refine put_ne_of_key ?_ (congrArg Memdriver.Driver.jobs hleft)
      rw [uniqueKey_enqueueParams]
      exact Ne.symm hkey
  · intro hkey
    have hparams : { enqueueParams kind args opts with uniqueKey := keyOf opts } =
        enqueueParams kind args opts := by
      rw [hkey, ← uniqueKey_enqueueParams kind args opts]
    rw [hparams] at hstore hrow
    refine ⟨hrow'.trans hrow.symm, hstore'.trans hstore.symm, fun hrefused => ?_⟩
    rw [hrow', hfree] at hrefused
    cases hrefused

/-- The kind `k`. -/
def heldKind : Bytes := [107]

/-- The JSON text `1`. -/
def heldArgs : Bytes := [49]

/-- Options with the unique key `u` alone. -/
def heldOpts : InsertOpts := ⟨[], 0, [117]⟩

/-- A store in which a waiting job holds the key of `heldOpts`. -/
def heldStore : Memdriver.Driver :=
  (insert Memdriver.new 0 (some ⟨heldKind, some heldArgs⟩) (some heldOpts)).1

/-- Options with a queue and a time but without a key leave the two calls in agreement. -/
theorem enqueue_agrees_without_key :
    Agree heldStore (enqueue heldStore 7 heldKind heldArgs (some ⟨[113], 9, []⟩))
      (insert heldStore 7 (some ⟨heldKind, some heldArgs⟩) (some ⟨[113], 9, []⟩)) :=
  (enqueue_agrees_iff heldStore 7 (by decide) (by decide) (some ⟨[113], 9, []⟩)).mpr rfl

/-- The key is held by an active job of the same queue and kind: the client refuses the
second insert, the inspector stores a second row, and the row has no key. -/
theorem enqueue_drops_held_key :
    (insert heldStore 7 (some ⟨heldKind, some heldArgs⟩) (some heldOpts)).2 =
        .error (.insert heldKind .duplicateJob) ∧
      (enqueue heldStore 7 heldKind heldArgs (some heldOpts)).2.toOption.map JobRow.uniqueKey =
        some [] := by
  decide

end Drover.Client
