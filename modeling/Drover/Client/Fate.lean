import Drover.Client.Record
import Drover.Memdriver.Invariant

set_option autoImplicit false

/-!
# The fate of an attempt

`runJob` over the in-memory driver, from what the chain came to up to the row it leaves.  An
error is a finite tree here, given by the list of its errors in depth-first order; what
`classifyOutcome` makes of it is the first entry of that list that answers each question.
-/

namespace Drover.Client

open Drover.Foundation
open Drover.Driver
open Drover.Go (Time Duration Value Result Unfolds Ends Fuelled)
open Drover.Pool (Fate)

/-! ## Finite trees of errors -/

section Tree

variable {ε : Type} (methods : ε → Methods ε)

/-- An error whose tree is finite, with the errors of it in depth-first order, and whose methods
do not panic.  No `As` method says it found a `*panicError` and leaves a nil pointer. -/
structure Error.Tree (err : Error ε) (nodes : List (Error ε)) : Prop where
  unfolds : Unfolds (Error.unwrap methods) [err] nodes
  error : ∃ text, err.error methods = .returned text
  is : ∀ e ∈ nodes, ∀ target, (Error.isTarget methods target e).returns
  asSnooze : ∀ e ∈ nodes, (Error.asSnooze methods e).returns
  asPanic : ∀ e ∈ nodes, (Error.asPanic methods e).returns ∧
    (Error.asPanic methods e).found ≠ some none

/-- The tree contains a sentinel, by identity or by an `Is` method. -/
def contains (nodes : List (Error ε)) (target : Sentinel) : Bool :=
  (nodes.findSome? fun e => (Error.isTarget methods target e).found).isSome

/-- The duration of the first `snoozeError`, or none for a bare `ErrSnoozed`. -/
def snoozeOf (nodes : List (Error ε)) : Option Duration :=
  (nodes.findSome? fun e => (Error.asSnooze methods e).found).or
    (if contains methods nodes .snoozed then some 0 else none)

/-- The trace of the first `*panicError`, empty without one. -/
def traceOf (nodes : List (Error ε)) : Bytes :=
  ((nodes.findSome? fun e => (Error.asPanic methods e).found).bind id).getD []

/-- What a tree asks for. -/
def outcomeOf (nodes : List (Error ε)) : Outcome :=
  if contains methods nodes .cancelled then .cancelled
  else
    match snoozeOf methods nodes with
    | some d => .snoozed d
    | none => .failed

variable {methods} {err : Error ε} {nodes : List (Error ε)}

theorem Error.Tree.classified (h : err.Tree methods nodes) :
    err.Classified methods (outcomeOf methods nodes) := by
  have hcancelled : Ends _ (Error.isTarget methods .cancelled) [err] _ :=
    h.unfolds.ends fun e he => h.is e he .cancelled
  have hsnooze : Ends _ (Error.asSnooze methods) [err] _ := h.unfolds.ends h.asSnooze
  have hbare : Ends _ (Error.isTarget methods .snoozed) [err] _ :=
    h.unfolds.ends fun e he => h.is e he .snoozed
  unfold outcomeOf snoozeOf contains
  cases hfound : nodes.findSome? fun e => (Error.isTarget methods .cancelled e).found with
  | some u =>
      rw [hfound] at hcancelled
      exact .cancelled hcancelled
  | none =>
      rw [hfound] at hcancelled
      cases hasked : nodes.findSome? fun e => (Error.asSnooze methods e).found with
      | some d =>
          rw [hasked] at hsnooze
          exact .snoozed hcancelled hsnooze
      | none =>
          rw [hasked] at hsnooze
          cases htold : nodes.findSome? fun e => (Error.isTarget methods .snoozed e).found with
          | some u =>
              rw [htold] at hbare
              exact .bare hcancelled hsnooze hbare
          | none =>
              rw [htold] at hbare
              exact .failed hcancelled hsnooze hbare

theorem Error.Tree.returns_stackOf (h : err.Tree methods nodes) :
    (stackOf methods err).Returns (traceOf methods nodes) := by
  have hpanic : Ends _ (Error.asPanic methods) [err] _ :=
    h.unfolds.ends fun e he => (h.asPanic e he).1
  unfold stackOf traceOf
  refine Fuelled.returns_bind.mpr ⟨_, Go.returns_search.mpr hpanic, ?_⟩
  cases hfound : nodes.findSome? fun e => (Error.asPanic methods e).found with
  | none => exact Fuelled.returns_pure.mpr rfl
  | some stack =>
      obtain ⟨e, he, hstack⟩ := List.exists_of_findSome?_eq_some hfound
      cases stack with
      | none => exact absurd hstack (h.asPanic e he).2
      | some stack => exact Fuelled.returns_pure.mpr rfl

/-- A recovered panic is a tree of one error, whatever its value wraps. -/
theorem tree_panic {value : Value} {text stack : Bytes} (h : value.print = .returned text) :
    (Error.panic value stack : Error ε).Tree methods [.panic value stack] where
  unfolds := .node rfl .nil .nil
  error := ⟨.panicked text, by simp only [Error.error, h, Result.bind]⟩
  is := by
    intro e he target
    rw [List.mem_singleton.mp he]
    trivial
  asSnooze := by
    intro e he
    rw [List.mem_singleton.mp he]
    trivial
  asPanic := by
    intro e he
    rw [List.mem_singleton.mp he]
    exact ⟨trivial, by simp [Error.asPanic, Result.found]⟩

end Tree

/-! ## What `dispose` decides -/

section Dispose

variable {ε : Type} (cfg : Config ε) (env : Surroundings) (row : JobRow)

/-- The record of an attempt that ended with `text`. -/
def attemptError (text : Message) (nodes : List (Error ε)) : AttemptError :=
  ⟨row.attempt, env.recordedAt, text, traceOf cfg.methods nodes⟩

/-- What `dispose` makes of a tree. -/
def disposed (text : Message) (nodes : List (Error ε)) : Option Fate :=
  match outcomeOf cfg.methods nodes with
  | .snoozed d => some (.snoozed d)
  | .cancelled => (env.marshal (attemptError cfg env row text nodes)).map .cancelled
  | .failed => (env.marshal (attemptError cfg env row text nodes)).map (.failed (retryAt cfg env row))

variable {cfg} {env} {row} {err : Error ε} {nodes : List (Error ε)}

theorem Error.Tree.returns_dispose (h : err.Tree cfg.methods nodes) {text : Message}
    (htext : err.error cfg.methods = .returned text) :
    (dispose cfg env row err).Returns (disposed cfg env row text nodes) := by
  have hclassified := returns_classifyOutcome.mpr h.classified
  have htrace := h.returns_stackOf
  unfold dispose disposed
  refine Fuelled.returns_bind.mpr ⟨_, hclassified, ?_⟩
  cases outcomeOf cfg.methods nodes with
  | snoozed d => exact Fuelled.returns_pure.mpr rfl
  | cancelled =>
      exact Fuelled.returns_bind.mpr ⟨text, Fuelled.returns_lift.mpr htext,
        Fuelled.returns_bind.mpr ⟨_, htrace, Fuelled.returns_pure.mpr rfl⟩⟩
  | failed =>
      exact Fuelled.returns_bind.mpr ⟨text, Fuelled.returns_lift.mpr htext,
        Fuelled.returns_bind.mpr ⟨_, htrace, Fuelled.returns_pure.mpr rfl⟩⟩

/-- A retry is never scheduled in the past, whatever the policy answers. -/
theorem now_le_retryAt : env.now ≤ retryAt cfg env row := by
  unfold retryAt
  simp only
  split_ifs with hlt
  · exact le_refl _
  · exact not_lt.mp hlt

end Dispose

/-! ## What the driver makes of it -/

/-- The write that ends the attempt, if there is one. -/
def settle (d : Memdriver.Driver) (row : JobRow) (now : Time) : Option Fate → Memdriver.Driver
  | none => d
  | some fate => (d.mark row.lease (fate.mark row now)).1

/-- The row an attempt leaves when it ends with an error: cancelled, scheduled anew, dead or
retryable.  `errors` are the errors with that of this attempt. -/
def endedRow (stored : JobRow) (errors : Bytes) (now retryAt : Time) (exhausted : Bool) :
    Outcome → JobRow
  | .cancelled =>
      { stored with state := .cancelled, errors := errors, finalizedAt := some now, leasedUntil := none }
  | .snoozed d =>
      { stored with
        state := .scheduled, scheduledAt := now + d, attempt := stored.attempt - 1, leasedUntil := none }
  | .failed =>
      if exhausted then
        { stored with state := .dead, errors := errors, finalizedAt := some now, leasedUntil := none }
      else
        { stored with state := .retryable, errors := errors, scheduledAt := retryAt, leasedUntil := none }

/-- A record is one object of strings and a number, far from the nesting limit. -/
theorem scan_record (attempt : Int) (at_ : Time) (error trace : Bytes) :
    Json.scan (Json.print (recordJson attempt at_ error trace)) =
      some (recordJson attempt at_ error trace) := by
  have hdepth : Json.depth (recordJson attempt at_ error trace) ≤ Json.maxNestingDepth := by
    rw [recordJson]
    split_ifs <;> simp [Json.depth, Json.depthMembers, member, Json.maxNestingDepth]
  simp [Json.scan, hdepth]

section Settle

variable {d : Memdriver.Driver} {row stored : JobRow} {now : Time}

theorem settle_of_running {fate : Fate} {appended : JobRow}
    (hstored : d.jobs.get? row.id = some stored) (hrunning : stored.state = .running)
    (hattempt : stored.attempt = row.attempt)
    (happend : Memdriver.appendError stored (fate.mark row now).detail = (appended, none)) :
    (settle d row now (some fate)).jobs.get? row.id = some ((fate.mark row now).result appended) := by
  have hid : stored.id = row.id := Table.key_of_get? hstored
  have hlease : row.lease = stored.lease := by rw [JobRow.lease, JobRow.lease, hid, hattempt]
  rw [← hid] at hstored
  have hmark := Memdriver.mark_of_running (m := fate.mark row now) hstored hrunning happend
  have hkey : ((fate.mark row now).result appended).id = row.id := by
    rw [Memdriver.Mark.result_id, (Memdriver.appendError_ok happend).1]
    exact hid
  rw [settle, hlease, hmark, ← hkey]
  exact Table.get?_put_self _ _

/-- The row a failed attempt leaves, when its record can be appended. -/
theorem settle_failed {retryAt : Time} {detail errors : Bytes}
    (hstored : d.jobs.get? row.id = some stored) (hrunning : stored.state = .running)
    (hattempt : stored.attempt = row.attempt)
    (happend : Memdriver.appendError stored (some detail) = ({ stored with errors := errors }, none)) :
    (settle d row now (some (.failed retryAt detail))).jobs.get? row.id =
      some (endedRow stored errors now retryAt (decide (row.maxAttempts ≤ row.attempt)) .failed) := by
  by_cases hspent : row.maxAttempts ≤ row.attempt
  · have hmark : (Fate.failed retryAt detail).mark row now = .dead now (some detail) := if_pos hspent
    rw [settle_of_running hstored hrunning hattempt (by rw [hmark]; exact happend), hmark]
    simp [Memdriver.Mark.result, Memdriver.Mark.write, endedRow, hspent]
  · have hmark : (Fate.failed retryAt detail).mark row now = .retryable retryAt (some detail) :=
      if_neg hspent
    rw [settle_of_running hstored hrunning hattempt (by rw [hmark]; exact happend), hmark]
    simp [Memdriver.Mark.result, Memdriver.Mark.write, endedRow, hspent]

/-- An error can be recorded: the errors there are can be read, and the clock shows a year
that `json.Marshal` takes. -/
structure Recordable (fmt : Fmt) (env : Surroundings) (errors : Bytes) (entries : List Json.Value) :
    Prop where
  entries : Json.unmarshalList errors = some entries
  marshal : env.marshal = fmt.marshal
  year : marshalsTime env.recordedAt = true

theorem Recordable.marshal_attemptError {ε : Type} {fmt : Fmt} {env : Surroundings} {errors : Bytes}
    {entries : List Json.Value} (h : Recordable fmt env errors entries) (cfg : Config ε)
    (text : Message) (nodes : List (Error ε)) :
    env.marshal (attemptError cfg env row text nodes) = some (Json.print
      (recordJson row.attempt env.recordedAt (text.text fmt) (traceOf cfg.methods nodes))) := by
  rw [h.marshal, Fmt.marshal, marshalRecord, attemptError, if_pos h.year]

theorem Recordable.appendError {fmt : Fmt} {env : Surroundings} {entries : List Json.Value}
    (h : Recordable fmt env stored.errors entries) (attempt : Int) (at_ : Time) (error trace : Bytes) :
    Memdriver.appendError stored (some (Json.print (recordJson attempt at_ error trace))) =
      ({ stored with
          errors := Json.marshalList (entries ++ [recordJson attempt at_ error trace]) }, none) :=
  Memdriver.appendError_of_list h.entries (scan_record attempt at_ error trace)

/-- The row an attempt leaves, when its error was recorded or is a snooze. -/
theorem settle_disposed {ε : Type} {fmt : Fmt} {cfg : Config ε} {env : Surroundings}
    {text : Message} {nodes : List (Error ε)} {entries : List Json.Value}
    (hstored : d.jobs.get? row.id = some stored) (hrunning : stored.state = .running)
    (hattempt : stored.attempt = row.attempt) (hpos : 1 ≤ stored.attempt)
    (hrecord : (∃ wait, outcomeOf cfg.methods nodes = .snoozed wait) ∨
      Recordable fmt env stored.errors entries) :
    (settle d row now (disposed cfg env row text nodes)).jobs.get? row.id =
      some (endedRow stored
        (Json.marshalList (entries ++
          [recordJson row.attempt env.recordedAt (text.text fmt) (traceOf cfg.methods nodes)]))
        now (retryAt cfg env row) (decide (row.maxAttempts ≤ row.attempt))
        (outcomeOf cfg.methods nodes)) := by
  unfold disposed
  cases houtcome : outcomeOf cfg.methods nodes with
  | snoozed d =>
      rw [settle_of_running hstored hrunning hattempt rfl]
      have hback : max (stored.attempt - 1) 0 = stored.attempt - 1 := max_eq_left (by omega)
      simp only [Pool.Fate.mark, Memdriver.Mark.result, Memdriver.Mark.write, endedRow, hback]
  | cancelled =>
      have hrecord := hrecord.resolve_left (by simp [houtcome])
      have hmark : ∀ detail, (Fate.cancelled detail).mark row now = .cancelled now (some detail) :=
        fun _ => rfl
      simp only [hrecord.marshal_attemptError, Option.map_some]
      rw [settle_of_running hstored hrunning hattempt (by rw [hmark]; exact hrecord.appendError _ _ _ _),
        hmark]
      rfl
  | failed =>
      have hrecord := hrecord.resolve_left (by simp [houtcome])
      simp only [hrecord.marshal_attemptError, Option.map_some]
      exact settle_failed hstored hrunning hattempt (hrecord.appendError _ _ _ _)

end Settle

/-! ## Every attempt -/

/-- The fate of an attempt.  In every store of the driver in which a row is running on the
attempt of the claimed one: when the chain returned nil the row is completed; when it returned
an error that is a finite tree whose methods do not panic, and the tree asks for a snooze or
the error can be recorded, the row is left as `endedRow` says of what the tree asks for, with
one error appended that has the text of the error and the trace of the first panic in it, and a
retry not before now; and a panic is a tree of one error, which asks for nothing and has the
trace taken where it was recovered. -/
theorem attempt_fate {ε : Type} (fmt : Fmt) (cfg : Config ε) (env : Surroundings)
    (ops : List Memdriver.Op) (row stored : JobRow) (now : Time)
    (hstored : (run Memdriver.next Memdriver.new ops).jobs.get? row.id = some stored)
    (hrunning : stored.state = .running) (hattempt : stored.attempt = row.attempt) :
    let d := run Memdriver.next Memdriver.new ops
    (chain cfg env row = .returned none →
      ∃ fate, (runJob cfg env row).Returns fate ∧
        (settle d row now fate).jobs.get? row.id =
          some { stored with state := .completed, finalizedAt := some now, leasedUntil := none }) ∧
    (∀ err nodes, execute cfg env row = some err → err.Tree cfg.methods nodes →
      ∃ fate text, (runJob cfg env row).Returns fate ∧ err.error cfg.methods = .returned text ∧
        (∀ entries, (∃ wait, outcomeOf cfg.methods nodes = .snoozed wait) ∨
            Recordable fmt env stored.errors entries →
          (settle d row now fate).jobs.get? row.id =
            some (endedRow stored
              (Json.marshalList (entries ++
                [recordJson row.attempt env.recordedAt (text.text fmt)
                  (traceOf cfg.methods nodes)]))
              now (retryAt cfg env row) (decide (row.maxAttempts ≤ row.attempt))
              (outcomeOf cfg.methods nodes))) ∧
        env.now ≤ retryAt cfg env row) ∧
    (∀ value text, chain cfg env row = .panicked value → value.print = .returned text →
      let nodes := [Error.panic value (env.stack value)]
      ∃ err, execute cfg env row = some err ∧ err.Tree cfg.methods nodes ∧
        outcomeOf cfg.methods nodes = .failed ∧ traceOf cfg.methods nodes = env.stack value) := by
  have hpos := (Memdriver.sound_of_mem_run (Table.mem_of_get? hstored)).attempt_pos hrunning
  refine ⟨fun hnil => ?_, fun err nodes herr htree => ?_, fun value text hpanic htext => ?_⟩
  · refine ⟨some .succeeded, ?_, settle_of_running hstored hrunning hattempt rfl⟩
    simp [runJob, execute, hnil, recovering]
  · obtain ⟨text, htext⟩ := htree.error
    refine ⟨disposed cfg env row text nodes, text, ?_, htext,
      fun _ => settle_disposed hstored hrunning hattempt hpos, now_le_retryAt⟩
    rw [runJob, herr]
    exact htree.returns_dispose htext
  · refine ⟨.panic value (env.stack value), ?_, tree_panic htext, rfl, rfl⟩
    rw [execute, hpanic]
    rfl

/-- A worker that returns an error of its own: `true` wraps a snooze, `false` and `ErrCancelled`,
and `false` wraps nothing.  `as` is the `As` method of `false`. -/
def joined (as : Option AsMethod) : Config Bool :=
  { methods := fun e =>
      { error := .returned []
        is := none
        as := if e then none else as
        unwrap :=
          if e then .many (.returned [some (.snooze 5), some (.own false), some (.sentinel .cancelled)])
          else .none }
    workers := fun _ => some fun _ => .returned (some (.own true))
    middlewares := []
    retryPolicy := fun _ => .panicked nilDereference }

/-- What `fmt` makes of a duration or a quoted string does not matter here. -/
def sampleFmt : Fmt := ⟨fun _ => [], fun s => s⟩

/-- The surroundings of an execution whose error is recorded at `t`. -/
def sampleEnv (t : Time) : Surroundings := ⟨fun _ => [], t, 7, 6, sampleFmt.marshal⟩

theorem tree_joined : (Error.own true : Error Bool).Tree (joined none).methods
    [.own true, .snooze 5, .sentinel .snoozed, .own false, .sentinel .cancelled] := by
  refine ⟨.node rfl (.node rfl (.node rfl .nil .nil) (.node rfl .nil (.node rfl .nil .nil))) .nil,
    ⟨_, rfl⟩, ?_, ?_, ?_⟩
  · simp [Error.isTarget, joined, Result.returns]
  · simp [Error.asSnooze, joined, Result.returns]
  · simp [Error.asPanic, joined, Result.returns, Result.found]

theorem joined_cancelled :
    ∃ fate, (runJob (joined none) (sampleEnv 3) Memdriver.claimedRow).Returns fate ∧
      ((settle (run Memdriver.next Memdriver.new Memdriver.claimedRun) Memdriver.claimedRow 4
        fate).jobs.get? 1).map JobRow.state = some .cancelled := by
  obtain ⟨fate, text, hfate, -, hrow, -⟩ :=
    (attempt_fate sampleFmt (joined none) (sampleEnv 3) Memdriver.claimedRun Memdriver.claimedRow
      Memdriver.claimedRow 4 (by decide) rfl rfl).2.1 _ _ rfl tree_joined
  have hcancelled := hrow [] (Or.inr ⟨rfl, rfl, by decide⟩)
  exact ⟨fate, hfate, by rw [show (1 : Int) = Memdriver.claimedRow.id from rfl, hcancelled]; rfl⟩

/-- The job failed with the detail `deep` and is claimed again. -/
def reclaimedRun (deep : Json.Value) : List Memdriver.Op :=
  Memdriver.failedRun deep ++ [.fetchAvailable 4 [] 1 1]

/-- The row this leaves. -/
def reclaimedRow (deep : Json.Value) : JobRow := Memdriver.claim 4 1 (Memdriver.failedRow deep)

theorem run_reclaimedRun {deep : Json.Value} (hscan : Json.scan (Json.print deep) = some deep) :
    run Memdriver.next Memdriver.new (reclaimedRun deep) = ⟨1, ⟨[reclaimedRow deep], by simp⟩⟩ := by
  rw [reclaimedRun, run_append, Memdriver.run_failedRun hscan]
  rfl

/-- Then no error can be appended, and the attempt does not end. -/
theorem reclaimed_left_running {deep : Json.Value} (hdepth : Json.depth deep = Json.maxNestingDepth) :
    let d := run Memdriver.next Memdriver.new (reclaimedRun deep)
    ∃ row fate, d.jobs.get? 1 = some row ∧ row.state = .running ∧
      (runJob (joined none) (sampleEnv 3) row).Returns fate ∧
      (settle d row 5 fate).jobs.get? 1 = some row := by
  intro d
  have hd : d = ⟨1, ⟨[reclaimedRow deep], by simp⟩⟩ := run_reclaimedRun (by simp [Json.scan, hdepth])
  have hrow : d.jobs.get? 1 = some (reclaimedRow deep) := by rw [hd]; rfl
  refine ⟨reclaimedRow deep, _, hrow, rfl, tree_joined.returns_dispose rfl, ?_⟩
  have hdetail : ∃ detail, disposed (joined none) (sampleEnv 3) (reclaimedRow deep) (.own [])
      [.own true, .snooze 5, .sentinel .snoozed, .own false, .sentinel .cancelled] =
        some (.cancelled detail) := ⟨_, rfl⟩
  obtain ⟨detail, hdisposed⟩ := hdetail
  rw [hdisposed, settle]
  rcases Memdriver.mark_cases d (reclaimedRow deep).lease
    ((Fate.cancelled detail).mark (reclaimedRow deep) 5) with
    ⟨row, appended, hget, -, -, happend, -⟩ | ⟨err, heq⟩
  · have hsame : row = reclaimedRow deep := Option.some.inj (hget.symm.trans hrow)
    have hlist : Json.unmarshalList (reclaimedRow deep).errors = none :=
      Memdriver.unmarshalList_deep hdepth
    rw [hsame, Pool.Fate.mark, Memdriver.Mark.detail, Memdriver.appendError, hlist] at happend
    cases happend
  · rw [heq]
    exact hrow

/-- What the fate of an attempt asks for is needed: an error that cancels the job leaves it
running when its errors can no longer be read, when the clock shows a year of five digits, and
when an `As` method says it found a `*panicError` and leaves a nil pointer. -/
theorem joined_left_running :
    (let d := run Memdriver.next Memdriver.new (reclaimedRun (Memdriver.deepDetail 9998))
      ∃ row fate, d.jobs.get? 1 = some row ∧ row.state = .running ∧
        (runJob (joined none) (sampleEnv 3) row).Returns fate ∧
        (settle d row 5 fate).jobs.get? 1 = some row) ∧
    (let d := run Memdriver.next Memdriver.new Memdriver.claimedRun
      ∃ row fate, d.jobs.get? 1 = some row ∧ row.state = .running ∧
        (runJob (joined none) (sampleEnv (Go.ofUnix 253402300800)) row).Returns fate ∧
        (settle d row 5 fate).jobs.get? 1 = some row) ∧
    (let greedy : AsMethod := ⟨.returned none, .returned (some none)⟩
      ∃ fuel, (runJob (joined (some greedy)) (sampleEnv 3) Memdriver.claimedRow).run fuel =
        some (.panicked nilDereference)) := by
  refine ⟨?_, ?_, ⟨3, rfl⟩⟩
  · exact reclaimed_left_running (Memdriver.depth_deepDetail 9998)
  · exact ⟨Memdriver.claimedRow, none, by decide, rfl, ⟨3, rfl⟩, by decide⟩

end Drover.Client
