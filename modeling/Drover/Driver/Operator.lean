import Drover.Driver.Types
import Drover.Foundation.Run

set_option autoImplicit false

/-!
# Operator actions under races

`OperatorCancel` and `RedriveDead` are several statements in both drivers: a guarded update,
a re-read that explains a miss, and one retry of both.  Other callers run between any two of
them.  A `Race` is one such call with everything around it, and logs each statement of the
call with the store it found and left.

`CallStep` says once what a statement of either driver can do, in terms of a `Contract`;
what holds of every race is proved from it alone.
-/

namespace Drover.Driver.Operator

open Drover.Foundation
open Drover.Driver
open Drover.Go (Time)

/-- The two actions. -/
inductive Action where
  | cancel
  | redrive
  deriving DecidableEq, Repr

/-- What the errors of an action say was wanted. -/
def Action.want : Action → Want
  | .cancel => .cancellable
  | .redrive => .dead

/-! ## Calls among others -/

/-- Where a call is. -/
inductive Pc (ε : Type) where
  /-- before the guarded update -/
  | update (allowRetry : Bool)
  /-- before the re-read that explains a miss -/
  | reread (allowRetry : Bool)
  | returned (result : Except ε JobRow)

/-- The two statements of a call. -/
inductive Kind where
  | update
  | reread
  deriving DecidableEq, Repr

/-- A statement of the call that ran, with the store before and after it. -/
structure Ran (σ : Type) where
  kind : Kind
  now : Time
  before : σ
  after : σ

/-- One call, and the store it shares with others; the log has its last statement first. -/
structure Race (σ ε : Type) where
  store : σ
  pc : Pc ε
  log : List (Ran σ)

/-- A statement of the call, or an operation of somebody else. -/
inductive Label (ι : Type) where
  | call (now : Time)
  | other (op : ι)

variable {σ ε ι : Type}

/-- The call has not run a statement. -/
def begin_ (store : σ) : Race σ ε := ⟨store, .update true, []⟩

/-- The statement a call would run next. -/
def Pc.kind : Pc ε → Option Kind
  | .update _ => some .update
  | .reread _ => some .reread
  | .returned _ => none

/-- One step, given the statements of the call and the operations of others. -/
def next (callStep : Time → σ → Pc ε → σ × Pc ε) (other : σ → ι → σ) (r : Race σ ε) :
    Label ι → Race σ ε
  | .other op => { r with store := other r.store op }
  | .call now =>
      match r.pc.kind with
      | none => r
      | some kind =>
          let (store, pc) := callStep now r.store r.pc
          ⟨store, pc, ⟨kind, now, r.store, store⟩ :: r.log⟩

/-! ## What a driver promises -/

/-- The errors that explain a miss. -/
inductive Refusal where
  | notFound
  | invalidTransition
  deriving DecidableEq, Repr

/-- Which of the two an error is. -/
def refusal : DriverError → Option Refusal
  | .notFound _ => some .notFound
  | .invalidTransition _ _ _ => some .invalidTransition
  | _ => none

/-- Why an action is refused on a job in `state`, if it is. -/
def refuses (eligible : JobState → Bool) : Option JobState → Option Refusal
  | none => some .notFound
  | some state => if eligible state then none else some .invalidTransition

/-- An operator action of a driver: what it looks at, what its update does, and what the whole
call answers when nothing runs in between. -/
structure Contract (σ ε : Type) where
  state : σ → Option JobState
  eligible : JobState → Bool
  /-- the update took effect, and these are the stores around it and the row it returned -/
  Took : Time → σ → σ → JobRow → Prop
  refusal : ε → Option Refusal
  /-- one attempt with nobody in between -/
  whole : Time → σ → σ × Except ε JobRow
  took_changes : ∀ {now s s' row}, Took now s s' row → s' ≠ s
  whole_refuses : ∀ {now s why}, refuses eligible (state s) = some why →
    ∃ err, whole now s = (s, .error err) ∧ refusal err = some why

/-- What a statement may do to the store, and where the call goes from it. -/
inductive CallStep (c : Contract σ ε) (now : Time) (s : σ) : Pc ε → σ → Pc ε → Prop where
  | wrote {retry : Bool} {s' : σ} {row : JobRow} (htook : c.Took now s s' row) :
      CallStep c now s (.update retry) s' (.returned (.ok row))
  /-- the database refuses the write -/
  | failed {retry : Bool} {err : ε} (herr : c.refusal err = none) :
      CallStep c now s (.update retry) s (.returned (.error err))
  | missed {retry : Bool} {why : Refusal} (hwhy : refuses c.eligible (c.state s) = some why) :
      CallStep c now s (.update retry) s (.reread retry)
  /-- an error that what the statement found explains -/
  | refused {pc : Pc ε} {why : Refusal} {err : ε} (hpc : pc.kind ≠ none)
      (hwhy : refuses c.eligible (c.state s) = some why) (herr : c.refusal err = some why) :
      CallStep c now s pc s (.returned (.error err))
  | again (hthere : c.state s ≠ none) : CallStep c now s (.reread true) s (.update false)
  /-- the last re-read finds any state, and blames it for the miss before -/
  | late {err : ε} (hthere : c.state s ≠ none)
      (herr : c.refusal err = some .invalidTransition) :
      CallStep c now s (.reread false) s (.returned (.error err))

/-- A call behaves as one atomic attempt. -/
structure Atomic (c : Contract σ ε) (r : Race σ ε) : Prop where
  updates : r.log.countP (·.kind = .update) ≤ 2
  rereads : r.log.countP (·.kind = .reread) ≤ 2
  /-- only its last statement may change anything -/
  once : ∀ ran ∈ r.log.tail, ran.after = ran.before
  /-- a statement that does is the update taking effect, and the call returns its row -/
  took : ∀ ran ∈ r.log, ran.after ≠ ran.before →
    ∃ row, c.Took ran.now ran.before ran.after row ∧ r.pc = .returned (.ok row)
  /-- it returns a row only then -/
  returned : ∀ row, r.pc = .returned (.ok row) →
    ∃ ran ∈ r.log, c.Took ran.now ran.before ran.after row
  /-- an error leaves nothing changed -/
  unchanged : ∀ err, r.pc = .returned (.error err) → ∀ ran ∈ r.log, ran.after = ran.before
  /-- and one of its statements found a store that answers a whole attempt with that error -/
  explained : ∀ err why, r.pc = .returned (.error err) → c.refusal err = some why →
    ∃ ran ∈ r.log, ∃ err', c.whole ran.now ran.before = (ran.before, .error err') ∧
      c.refusal err' = some why

/-! ## Every race -/

/-- A statement that left the store as it found it. -/
def quiet (kind : Kind) (now : Time) (s : σ) : Ran σ := ⟨kind, now, s, s⟩

/-- The statements of a call, in order; it may return after any of them. -/
def statements : List Kind := [.update, .reread, .update, .reread]

/-- What the log has at each point of a call. -/
inductive Inv (c : Contract σ ε) : Race σ ε → Prop where
  | begun {s : σ} : Inv c ⟨s, .update true, []⟩
  | missed {s a : σ} {t : Time} : Inv c ⟨s, .reread true, [quiet .update t a]⟩
  | retrying {s a b : σ} {t u : Time} (hthere : c.state s ≠ none) :
      Inv c ⟨s, .update false, [quiet .reread u b, quiet .update t a]⟩
  | missedAgain {s a b d : σ} {t u v : Time}
      (hwhy : refuses c.eligible (c.state d) = some .invalidTransition) :
      Inv c ⟨s, .reread false, [quiet .update v d, quiet .reread u b, quiet .update t a]⟩
  | wrote {s : σ} {row : JobRow} {ran : Ran σ} {rest : List (Ran σ)}
      (hkinds : ((ran :: rest).map Ran.kind).reverse <+: statements)
      (hrest : ∀ other ∈ rest, other.after = other.before)
      (htook : c.Took ran.now ran.before ran.after row) :
      Inv c ⟨s, .returned (.ok row), ran :: rest⟩
  | failed {s : σ} {err : ε} {log : List (Ran σ)}
      (hkinds : (log.map Ran.kind).reverse <+: statements)
      (hquiet : ∀ ran ∈ log, ran.after = ran.before)
      (hwhy : ∀ why, c.refusal err = some why →
        ∃ ran ∈ log, refuses c.eligible (c.state ran.before) = some why) :
      Inv c ⟨s, .returned (.error err), log⟩

section Invariant

variable {c : Contract σ ε}

/-- A call that has not returned has changed nothing. -/
theorem Atomic.of_quiet {s : σ} {pc : Pc ε} {log : List (Ran σ)} (hpc : pc.kind ≠ none)
    (hupdates : log.countP (·.kind = .update) ≤ 2) (hrereads : log.countP (·.kind = .reread) ≤ 2)
    (hquiet : ∀ ran ∈ log, ran.after = ran.before) : Atomic c ⟨s, pc, log⟩ where
  updates := hupdates
  rereads := hrereads
  once ran hran := hquiet ran (List.mem_of_mem_tail hran)
  took ran hran hne := absurd (hquiet ran hran) hne
  returned row hrow := by
    cases hrow
    exact absurd rfl hpc
  unchanged _ _ := hquiet
  explained err _ herr := by
    cases herr
    exact absurd rfl hpc

/-- The statements of a call come in one order. -/
theorem count_of_kinds {log : List (Ran σ)} {kind : Kind}
    (h : (log.map Ran.kind).reverse <+: statements) :
    log.countP (·.kind = kind) ≤ 2 := by
  have hcount : log.countP (·.kind = kind) = (log.map Ran.kind).reverse.countP (· = kind) := by
    rw [List.countP_reverse, List.countP_map]
    rfl
  rw [hcount]
  refine (h.sublist.countP_le).trans ?_
  cases kind <;> decide

theorem Inv.atomic {r : Race σ ε} (h : Inv c r) : Atomic c r := by
  cases h with
  | begun => exact .of_quiet (by simp [Pc.kind]) (by simp) (by simp) (by simp)
  | missed => exact .of_quiet (by simp [Pc.kind]) (by simp [quiet]) (by simp [quiet]) (by simp [quiet])
  | retrying => exact .of_quiet (by simp [Pc.kind]) (by simp [quiet]) (by simp [quiet]) (by simp [quiet])
  | missedAgain => exact .of_quiet (by simp [Pc.kind]) (by simp [quiet]) (by simp [quiet]) (by simp [quiet])
  | @wrote s row ran rest hkinds hrest htook =>
      refine ⟨count_of_kinds hkinds, count_of_kinds hkinds, hrest, ?_, ?_, by simp, by simp⟩
      · intro other hother hne
        rcases List.mem_cons.mp hother with rfl | hother
        · exact ⟨row, htook, rfl⟩
        · exact absurd (hrest other hother) hne
      · rintro row' ⟨⟩
        exact ⟨ran, List.mem_cons_self, htook⟩
  | @failed s err log hkinds hquiet hwhy =>
      refine ⟨count_of_kinds hkinds, count_of_kinds hkinds,
        fun ran hran => hquiet ran (List.mem_of_mem_tail hran),
        fun ran hran hne => absurd (hquiet ran hran) hne, by simp, fun _ _ => hquiet, ?_⟩
      rintro err' why ⟨⟩ herr
      obtain ⟨ran, hran, hrefuses⟩ := hwhy why herr
      exact ⟨ran, hran, c.whole_refuses hrefuses⟩

/-- A missing job is not in the wrong state. -/
theorem refuses_of_there {eligible : JobState → Bool} {state : Option JobState} {why : Refusal}
    (hthere : state ≠ none) (h : refuses eligible state = some why) : why = .invalidTransition := by
  cases state with
  | none => exact absurd rfl hthere
  | some state =>
      simp only [refuses] at h
      split_ifs at h
      exact (Option.some.inj h).symm

/-- A call that ends with an error its last statement explains, or that explains nothing. -/
theorem Inv.fail {s : σ} {err : ε} {kind : Kind} {now : Time} {rest : List (Ran σ)}
    (hkinds : ((quiet kind now s :: rest).map Ran.kind).reverse <+: statements)
    (hrest : ∀ ran ∈ rest, ran.after = ran.before)
    (hwhy : ∀ why, c.refusal err = some why → refuses c.eligible (c.state s) = some why) :
    Inv c ⟨s, .returned (.error err), quiet kind now s :: rest⟩ := by
  refine .failed hkinds ?_ fun why herr => ⟨_, List.mem_cons_self, hwhy why herr⟩
  rintro ran (_ | ⟨_, hran⟩)
  · rfl
  · exact hrest ran hran

/-- A statement of the call. -/
theorem Inv.callStep {r : Race σ ε} {now : Time} {kind : Kind} {s' : σ} {pc' : Pc ε} (h : Inv c r)
    (hkind : r.pc.kind = some kind) (hstep : CallStep c now r.store r.pc s' pc') :
    Inv c ⟨s', pc', ⟨kind, now, r.store, s'⟩ :: r.log⟩ := by
  cases h with
  | begun =>
      cases hkind
      cases hstep with
      | wrote htook => exact .wrote ⟨_, rfl⟩ (by simp) htook
      | failed herr => exact .fail ⟨_, rfl⟩ (by simp) (by simp [herr])
      | missed hwhy => exact .missed
      | refused hpc hwhy herr => exact .fail ⟨_, rfl⟩ (by simp) (by simp [herr, hwhy])
  | missed =>
      cases hkind
      cases hstep with
      | refused hpc hwhy herr => exact .fail ⟨_, rfl⟩ (by simp [quiet]) (by simp [herr, hwhy])
      | again hthere => exact .retrying hthere
  | retrying hthere =>
      cases hkind
      cases hstep with
      | wrote htook => exact .wrote ⟨_, rfl⟩ (by simp [quiet]) htook
      | failed herr => exact .fail ⟨_, rfl⟩ (by simp [quiet]) (by simp [herr])
      | missed hwhy =>
          rw [refuses_of_there hthere hwhy] at hwhy
          exact .missedAgain hwhy
      | refused hpc hwhy herr => exact .fail ⟨_, rfl⟩ (by simp [quiet]) (by simp [herr, hwhy])
  | missedAgain hmiss =>
      cases hkind
      cases hstep with
      | refused hpc hwhy herr => exact .fail ⟨_, rfl⟩ (by simp [quiet]) (by simp [herr, hwhy])
      | late hthere herr =>
          -- what the re-read found need not explain the error, but what the update found does
          refine .failed ⟨_, rfl⟩ (by simp [quiet]) fun why hwhy => ?_
          rw [herr] at hwhy
          cases hwhy
          exact ⟨_, List.mem_cons_of_mem _ List.mem_cons_self, hmiss⟩
  | wrote => cases hkind
  | failed => cases hkind

/-- An operation of somebody else, which removes no job. -/
theorem Inv.other {r : Race σ ε} {s' : σ} (h : Inv c r) (hkeeps : c.state r.store ≠ none → c.state s' ≠ none) :
    Inv c { r with store := s' } := by
  cases h with
  | begun => exact .begun
  | missed => exact .missed
  | retrying hthere => exact .retrying (hkeeps hthere)
  | missedAgain hwhy => exact .missedAgain hwhy
  | wrote hkinds hrest htook => exact .wrote hkinds hrest htook
  | failed hkinds hquiet hwhy => exact .failed hkinds hquiet hwhy

/-- Every race keeps to it, when the statements of the call are as `CallStep` says and others
remove no job from a store of the driver. -/
theorem inv_run {callStep : Time → σ → Pc ε → σ × Pc ε} {other : σ → ι → σ} (Good : σ → Prop)
    (hcall : ∀ now s pc, pc.kind ≠ none →
      CallStep c now s pc (callStep now s pc).1 (callStep now s pc).2)
    (hgood : ∀ now s pc, Good s → Good (callStep now s pc).1)
    (hother : ∀ s op, Good s → Good (other s op) ∧ (c.state s ≠ none → c.state (other s op) ≠ none))
    {s : σ} (hs : Good s) (labels : List (Label ι)) :
    Inv c (run (next callStep other) (begin_ s) labels) := by
  refine (run_invariant (P := fun r => Good r.store ∧ Inv c r) ?_ ⟨hs, .begun⟩ labels).2
  rintro r (now | op) ⟨hr, hinv⟩
  · rw [next]
    cases hkind : r.pc.kind with
    | none => exact ⟨hr, hinv⟩
    | some kind =>
        exact ⟨hgood now r.store r.pc hr, hinv.callStep hkind (hcall now r.store r.pc (by simp [hkind]))⟩
  · exact ⟨(hother r.store op hr).1, hinv.other (hother r.store op hr).2⟩

end Invariant

end Drover.Driver.Operator
