import Drover.Client.Execute
import Drover.Pool.Slots

set_option autoImplicit false

/-!
# What a job can do to its worker

A panic of a handler, a middleware or a retry policy ends in a `recover`.  An error's own
methods are called after the last of them: `dispose` looks through the error for the
sentinels it knows, asks it for its text and for the trace it may carry, and a method that
panics there takes the worker with it.  So does a recovered value that `fmt` cannot print,
and an error that unwraps for ever keeps the worker busy for ever.
-/

namespace Drover.Client

open Drover.Foundation
open Drover.Driver
open Drover.Go (Time Duration Value Result Unwrap Fuelled search Ends)
open Drover.Pool (Fate)

section Answers

variable {ε : Type} (methods : ε → Methods ε)

/-- The searches of `classifyOutcome`, one after the other, come to an end. -/
inductive Error.Classified (err : Error ε) : Outcome → Prop where
  | cancelled (h : Ends (Error.unwrap methods) (Error.isTarget methods .cancelled) [err] (some ())) :
      err.Classified .cancelled
  | snoozed {d : Duration}
      (hcancelled : Ends (Error.unwrap methods) (Error.isTarget methods .cancelled) [err] none)
      (h : Ends (Error.unwrap methods) (Error.asSnooze methods) [err] (some d)) :
      err.Classified (.snoozed d)
  | bare (hcancelled : Ends (Error.unwrap methods) (Error.isTarget methods .cancelled) [err] none)
      (hsnooze : Ends (Error.unwrap methods) (Error.asSnooze methods) [err] none)
      (h : Ends (Error.unwrap methods) (Error.isTarget methods .snoozed) [err] (some ())) :
      err.Classified (.snoozed 0)
  | failed (hcancelled : Ends (Error.unwrap methods) (Error.isTarget methods .cancelled) [err] none)
      (hsnooze : Ends (Error.unwrap methods) (Error.asSnooze methods) [err] none)
      (h : Ends (Error.unwrap methods) (Error.isTarget methods .snoozed) [err] none) :
      err.Classified .failed

/-- The error has a text, and the search for a trace in it comes to an end, not with a nil
pointer. -/
structure Error.Speaks (err : Error ε) : Prop where
  error : ∃ text, err.error methods = .returned text
  trace : ∃ found, Ends (Error.unwrap methods) (Error.asPanic methods) [err] found ∧ found ≠ some none

/-- The error answers what `dispose` asks it. -/
def Error.Answers (err : Error ε) : Prop :=
  ∃ outcome, err.Classified methods outcome ∧
    ((∀ d, outcome ≠ .snoozed d) → err.Speaks methods)

/-- What a chain may come to and not take its worker down. -/
def Contained : Result (Option (Error ε)) → Prop
  | .returned none => True
  | .returned (some err) => err.Answers methods
  | .panicked value => ∃ text, value.print = .returned text

variable {methods}

theorem returns_classifyOutcome {err : Error ε} {outcome : Outcome} :
    (classifyOutcome methods err).Returns outcome ↔ err.Classified methods outcome := by
  unfold classifyOutcome
  simp only [Fuelled.returns_bind, Go.returns_search]
  constructor
  · rintro ⟨found, hcancelled, h⟩
    cases found with
    | some u =>
        obtain rfl := Fuelled.returns_pure.mp h
        exact .cancelled hcancelled
    | none =>
        obtain ⟨found, hsnooze, h⟩ := Fuelled.returns_bind.mp h
        rw [Go.returns_search] at hsnooze
        cases found with
        | some d =>
            obtain rfl := Fuelled.returns_pure.mp h
            exact .snoozed hcancelled hsnooze
        | none =>
            obtain ⟨found, hbare, h⟩ := Fuelled.returns_bind.mp h
            rw [Go.returns_search] at hbare
            cases found with
            | some u =>
                obtain rfl := Fuelled.returns_pure.mp h
                exact .bare hcancelled hsnooze hbare
            | none =>
                obtain rfl := Fuelled.returns_pure.mp h
                exact .failed hcancelled hsnooze hbare
  · intro h
    cases h with
    | cancelled h => exact ⟨some (), h, Fuelled.returns_pure.mpr rfl⟩
    | snoozed hcancelled h =>
        refine ⟨none, hcancelled, Fuelled.returns_bind.mpr ⟨_, Go.returns_search.mpr h, ?_⟩⟩
        exact Fuelled.returns_pure.mpr rfl
    | bare hcancelled hsnooze h =>
        refine ⟨none, hcancelled, Fuelled.returns_bind.mpr ⟨_, Go.returns_search.mpr hsnooze, ?_⟩⟩
        refine Fuelled.returns_bind.mpr ⟨_, Go.returns_search.mpr h, ?_⟩
        exact Fuelled.returns_pure.mpr rfl
    | failed hcancelled hsnooze h =>
        refine ⟨none, hcancelled, Fuelled.returns_bind.mpr ⟨_, Go.returns_search.mpr hsnooze, ?_⟩⟩
        refine Fuelled.returns_bind.mpr ⟨_, Go.returns_search.mpr h, ?_⟩
        exact Fuelled.returns_pure.mpr rfl

theorem returns_stackOf {err : Error ε} :
    (∃ stack, (stackOf methods err).Returns stack) ↔
      ∃ found, Ends (Error.unwrap methods) (Error.asPanic methods) [err] found ∧
        found ≠ some none := by
  unfold stackOf
  simp only [Fuelled.returns_bind, Go.returns_search]
  constructor
  · rintro ⟨stack, found, hends, h⟩
    refine ⟨found, hends, ?_⟩
    rintro rfl
    cases Fuelled.returns_lift.mp h
  · rintro ⟨found, hends, hne⟩
    cases found with
    | none => exact ⟨[], _, hends, Fuelled.returns_pure.mpr rfl⟩
    | some target =>
        cases target with
        | none => exact absurd rfl hne
        | some stack => exact ⟨stack, _, hends, Fuelled.returns_pure.mpr rfl⟩

theorem returns_dispose {cfg : Config ε} {env : Surroundings} {row : JobRow} {err : Error ε} :
    (∃ fate, (dispose cfg env row err).Returns fate) ↔ err.Answers cfg.methods := by
  unfold dispose
  simp only [Fuelled.returns_bind, returns_classifyOutcome]
  constructor
  · rintro ⟨fate, outcome, hclassified, h⟩
    refine ⟨outcome, hclassified, fun hfailed => ?_⟩
    have hasked : ∃ text, err.error cfg.methods = .returned text ∧
        ∃ stack, (stackOf cfg.methods err).Returns stack := by
      cases outcome with
      | snoozed d => exact absurd rfl (hfailed d)
      | _ =>
          obtain ⟨text, htext, h⟩ := Fuelled.returns_bind.mp h
          obtain ⟨stack, hstack, -⟩ := Fuelled.returns_bind.mp h
          exact ⟨text, Fuelled.returns_lift.mp htext, stack, hstack⟩
    obtain ⟨text, htext, hstack⟩ := hasked
    exact ⟨⟨text, htext⟩, returns_stackOf.mp hstack⟩
  · rintro ⟨outcome, hclassified, hspeaks⟩
    cases outcome with
    | snoozed d => exact ⟨_, _, hclassified, Fuelled.returns_pure.mpr rfl⟩
    | _ =>
        obtain ⟨⟨text, htext⟩, htrace⟩ := hspeaks (by simp)
        obtain ⟨stack, hstack⟩ := returns_stackOf.mpr htrace
        exact ⟨_, _, hclassified, Fuelled.returns_bind.mpr ⟨text, Fuelled.returns_lift.mpr htext,
          Fuelled.returns_bind.mpr ⟨stack, hstack, Fuelled.returns_pure.mpr rfl⟩⟩⟩

/-- A recovered panic answers when its value can be printed. -/
theorem answers_panic {value : Value} {stack : Bytes} :
    (Error.panic value stack : Error ε).Answers methods ↔ ∃ text, value.print = .returned text := by
  have hleaf : (Error.panic value stack : Error ε).unwrap methods = .none := rfl
  constructor
  · rintro ⟨outcome, hclassified, hspeaks⟩
    have hfailed : ∀ d, outcome ≠ .snoozed d := by
      rintro d rfl
      cases hclassified with
      | snoozed _ h => cases (Go.ends_leaf_iff hleaf).mp h
      | bare _ _ h => cases (Go.ends_leaf_iff hleaf).mp h
    obtain ⟨text, htext⟩ := (hspeaks hfailed).error
    cases hprint : value.print with
    | returned text => exact ⟨text, rfl⟩
    | panicked v =>
        simp only [Error.error, hprint, Result.bind] at htext
        cases htext
  · rintro ⟨text, htext⟩
    refine ⟨.failed, .failed ?_ ?_ ?_, fun _ => ⟨?_, ?_⟩⟩
    · exact (Go.ends_leaf_iff hleaf).mpr rfl
    · exact (Go.ends_leaf_iff hleaf).mpr rfl
    · exact (Go.ends_leaf_iff hleaf).mpr rfl
    · exact ⟨.panicked text, by simp only [Error.error, htext, Result.bind]⟩
    · exact ⟨some (some stack), (Go.ends_leaf_iff hleaf).mpr rfl, by simp⟩

theorem returns_runJob {cfg : Config ε} {env : Surroundings} {row : JobRow} :
    (∃ fate, (runJob cfg env row).Returns fate) ↔ Contained cfg.methods (chain cfg env row) := by
  unfold runJob execute
  cases chain cfg env row with
  | returned err =>
      cases err with
      | none => simp [recovering, Contained]
      | some err => exact returns_dispose
  | panicked value => exact returns_dispose.trans answers_panic

end Answers

/-! ## The worker -/

/-- The steps of a worker that executes a job; a write that is not made is one that does
not land. -/
def executed (w : Nat) (fate : Option Fate) (now : Time) (lands : Bool) : List Pool.Label :=
  [.worker w .go, .worker w (.result (fate.getD .succeeded)),
    .worker w (.write now (fate.isSome && lands)), .worker w .go, .worker w .go]

/-- A worker whose `runJob` returns waits for the next job, its lease dropped and its slot
given back. -/
theorem run_executed {cfg : Pool.Config} {s : Pool.State} {w : Nat} {c : Pool.Claim}
    (hworker : s.workers[w]? = some (.received c)) (hslots : s.slots < cfg.concurrency)
    (fate : Option Fate) (now : Time) (lands : Bool) :
    let s' := run (Pool.next cfg) s (executed w fate now lands)
    s'.workers[w]? = some .idle ∧ s'.slots = s.slots + 1 ∧
      s'.inflight.get? c.row.id ≠ some c.lease := by
  have hw : w < s.workers.length := (List.getElem?_eq_some_iff.mp hworker).1
  have hset : ∀ worker : Pool.Worker, (s.workers.set w worker)[w]? = some worker :=
    fun worker => List.getElem?_set_self hw
  simp only [executed, run_cons, run_nil, Pool.next, Pool.step, Pool.workerStep, hworker, hset,
    Option.getD_some, List.set_set, hslots, if_true]
  refine ⟨trivial, trivial, ?_⟩
  rw [Pool.Inflight.get?_remove]
  split
  · exact (Option.some_ne_none _).symm
  · assumption

/-- For every job, every handler, middleware and policy and every error, and whichever
goroutine does what before: `runJob` returns exactly when the chain returned nil or an
error that answers, or panicked with a value that can be printed.  The worker it returns to
then drops the job's lease and gives its slot back. -/
theorem runJob_contained_iff {ε : Type} (cfg : Config ε) (env : Surroundings) (row : JobRow) :
    ((∃ fate, (runJob cfg env row).Returns fate) ↔ Contained cfg.methods (chain cfg env row)) ∧
      ∀ fate, (runJob cfg env row).Returns fate →
        ∀ (pool : Pool.Config) (db : Memdriver.Driver) (events : List Pool.Event) (w : Nat)
          (c : Pool.Claim) (now : Time) (lands : Bool),
          let s := run (Pool.after pool) (pool.start db) events
          s.workers[w]? = some (.received c) → c.row = row →
            let s' := run (Pool.next pool) s (executed w fate now lands)
            s'.workers[w]? = some .idle ∧ s'.slots = s.slots + 1 ∧
              s'.inflight.get? row.id ≠ some row.lease := by
  refine ⟨returns_runJob, ?_⟩
  rintro fate - pool db events w c now lands s hworker rfl
  have hbalanced : s.Balanced pool :=
    run_invariant (P := Pool.State.Balanced pool) (fun _ e h => h.after e)
      (Pool.balanced_start pool db) events
  have hbusy : 0 < s.workers.countP Pool.Worker.busy :=
    List.countP_pos_iff.mpr ⟨_, List.mem_of_getElem? hworker, rfl⟩
  have htokens := hbalanced.tokens
  exact run_executed hworker (by omega) fate now lands

/-- A worker returns a nil pointer of an error type whose `Error` method follows it. -/
def typedNil : Config Unit :=
  { methods := fun _ => ⟨.panicked nilDereference, none, none, .none⟩
    workers := fun _ => some fun _ => .returned (some (.own ()))
    middlewares := []
    retryPolicy := fun _ => .returned 0 }

/-- The panic of its `Error` method is recovered by nobody. -/
theorem typedNil_takes_worker_down :
    let env : Surroundings := ⟨fun _ => [], 0, 0, 0, fun _ => some []⟩
    let row := Memdriver.jobFromParams 1 ⟨[], [], [], 0, []⟩ 1
    (∃ fuel, (runJob typedNil env row).run fuel = some (.panicked nilDereference)) ∧
      ¬∃ fate, (runJob typedNil env row).Returns fate := by
  intro env row
  refine ⟨⟨1, rfl⟩, ?_⟩
  rintro ⟨fate, fuel, h⟩
  cases fuel with
  | zero => cases h
  | succ fuel => cases h

end Drover.Client
