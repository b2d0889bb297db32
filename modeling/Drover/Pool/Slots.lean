import Drover.Pool.Holding

set_option autoImplicit false

/-!
# Slots

A token stands for an idle worker.  The fetch loop takes tokens before it claims, gives
back those it found no job for, and hands the others on with the rows; a worker returns
its token when it is done, and `abandon` returns those of the rows no worker will take.
Every token is at any time in the channel, with the fetch loop or with a worker.

Nothing here depends on where the rows come from.  A driver may answer
`FetchAvailable` with any rows at all, so the events of this file are the steps of the
pool and, besides, an arbitrary reply.
-/

namespace Drover.Pool

open Drover.Foundation
open Drover.Driver

/-! ## Any driver -/

/-- A step of the pool over its store, or a reply of `FetchAvailable` with any rows. -/
inductive Event where
  | step (label : Label)
  | reply (rows : List JobRow)
  deriving DecidableEq, Repr

/-- `FetchAvailable` returns `rows` to `claimRound`. -/
def State.receive (s : State) (rows : List JobRow) : State :=
  match s.fetch with
  | .ask ⟨n, remaining, _ :: queues, claimed⟩ =>
      let answer := numbered s.claims.length rows
      { s with
        fetch := .track ⟨n, remaining, queues, claimed⟩ [] answer
        claims := s.claims ++ answer
        latest := fun id =>
          match answer.find? fun c => c.row.id = id with
          | some c => some c.ref
          | none => s.latest id }
  | _ => s

/-- The state after an event. -/
def after (cfg : Config) (s : State) : Event → State
  | .step label => next cfg s label
  | .reply rows => s.receive rows

/-- The store's own answer is a reply, next to what the call does to the store. -/
theorem next_rows_eq_receive {cfg : Config} {s : State} {n remaining : Nat} {queue : Bytes}
    {queues : List Bytes} {claimed : List Claim} (h : s.fetch = .ask ⟨n, remaining, queue :: queues, claimed⟩)
    (now : Go.Time) (limit : Int) :
    next cfg s (.fetch (.rows now limit)) =
      { s.receive (s.db.fetchAvailable now queue cfg.leaseDuration limit).2 with
        db := (s.db.fetchAvailable now queue cfg.leaseDuration limit).1 } := by
  unfold next step fetchStep State.receive
  rw [h]
  rfl

/-- The fetch loop, the workers and the channels between them are as they were. -/
structure SameLoop (s s' : State) : Prop where
  slots : s'.slots = s.slots
  wake : s'.wake = s.wake
  fetch : s'.fetch = s.fetch
  workers : s'.workers = s.workers
  claims : s'.claims = s.claims

theorem SameLoop.refl (s : State) : SameLoop s s := ⟨rfl, rfl, rfl, rfl, rfl⟩

/-- What an event can do to the loop: the goroutines that are not part of it, and steps
that cannot be taken, leave it alone. -/
inductive Turn (cfg : Config) (s : State) : Event → State → Prop
  | other {label : Label} {s' : State} (hsame : SameLoop s s')
      (hother : (∃ op, label = .outside op) ∨ (∃ how, label = .heart how) ∨
        (∃ how, label = .drain how) ∨ step cfg s label = none) : Turn cfg s (.step label) s'
  | nudge : Turn cfg s (.step .nudge) { s with wake := true }
  | fetch {how : FetchStep} {s' : State} (h : fetchStep cfg s how = some s') :
      Turn cfg s (.step (.fetch how)) s'
  | handOff {w : Nat} {s' : State} (h : handOff s w = some s') :
      Turn cfg s (.step (.handOff w)) s'
  | worker {w : Nat} {how : WorkerStep} {s' : State} (h : workerStep cfg s w how = some s') :
      Turn cfg s (.step (.worker w how)) s'
  | reply {rows : List JobRow} : Turn cfg s (.reply rows) (s.receive rows)

theorem heartStep_sameLoop {cfg : Config} {s s' : State} {how : HeartStep}
    (h : heartStep cfg s how = some s') : SameLoop s s' := by
  cases HeartTurn.of_step h <;> exact ⟨rfl, rfl, rfl, rfl, rfl⟩

theorem drainStep_sameLoop {cfg : Config} {s s' : State} {how : DrainStep}
    (h : drainStep cfg s how = some s') : SameLoop s s' := by
  cases DrainTurn.of_step h <;> exact ⟨rfl, rfl, rfl, rfl, rfl⟩

theorem after_turn (cfg : Config) (s : State) (e : Event) : Turn cfg s e (after cfg s e) := by
  cases e with
  | reply rows => exact .reply
  | step label =>
      rw [after, next]
      cases hstep : step cfg s label with
      | none => exact .other (SameLoop.refl s) (Or.inr (Or.inr (Or.inr hstep)))
      | some s' =>
          rw [Option.getD_some]
          cases label with
          | outside op =>
              cases hstep
              exact .other ⟨rfl, rfl, rfl, rfl, rfl⟩ (Or.inl ⟨op, rfl⟩)
          | nudge =>
              cases hstep
              exact .nudge
          | fetch how => exact .fetch hstep
          | handOff w => exact .handOff hstep
          | worker w how => exact .worker hstep
          | heart how => exact .other (heartStep_sameLoop hstep) (Or.inr (Or.inl ⟨how, rfl⟩))
          | drain how =>
              exact .other (drainStep_sameLoop hstep) (Or.inr (Or.inr (Or.inl ⟨how, rfl⟩)))

/-! ## Where the tokens are -/

/-- The tokens the fetch loop holds. -/
def Fetch.tokens : Fetch → Nat
  | .acquireMore n => n
  | .ask r | .track r _ _ | .handBack r _ _ _ | .untrack r _ _ | .visited r => r.n
  | .claimed n _ => n
  | .release k rows => k + (rows.getD []).length
  | .dispatch rows => rows.length
  | .offer _ rows => rows.length + 1
  | .abandon back todo => back.length + todo.length
  | .forget n _ => n
  | .acquire | .sleep | .woken | .close | .exited => 0

/-- The worker has taken a row and not yet returned its token. -/
def Worker.busy : Worker → Bool
  | .received _ | .handling _ | .finalizing _ _ | .finished _ | .returning => true
  | .idle | .exited => false

/-- The rows the fetch loop has claimed and keeps.  Those beyond the remaining capacity
go back. -/
def Fetch.kept : Fetch → Nat
  | .ask r | .visited r => r.claimed.length
  | .track r added todo => r.claimed.length + min r.remaining (added.length + todo.length)
  | .handBack r kept _ _ | .untrack r kept _ => r.claimed.length + kept.length
  | .claimed _ rows => rows.length
  | .release _ rows => (rows.getD []).length
  | .dispatch rows => rows.length
  | .offer _ rows => rows.length + 1
  | .abandon _ todo => todo.length
  | _ => 0

/-- The capacity a round has left is what it has not claimed. -/
def Round.Balanced (r : Round) : Prop := r.claimed.length + r.remaining = r.n

/-- The arithmetic of the round the fetch loop is in. -/
def Fetch.Balanced : Fetch → Prop
  | .ask r | .track r _ _ | .visited r => r.Balanced
  | .handBack r kept _ _ | .untrack r kept _ => r.Balanced ∧ kept.length ≤ r.remaining
  | .claimed n rows => rows.length ≤ n
  | _ => True

/-- A step of the fetch loop keeps the round balanced, and moves tokens between the loop
and the channel only. -/
theorem fetchStep_tokens {cfg : Config} {s s' : State} {how : FetchStep}
    (h : fetchStep cfg s how = some s') (hbalanced : s.fetch.Balanced) :
    s'.fetch.Balanced ∧ s'.slots + s'.fetch.tokens = s.slots + s.fetch.tokens ∧
      s'.workers = s.workers := by
  cases FetchTurn.of_step h
  all_goals rename_i hpc
  all_goals rw [hpc] at hbalanced ⊢
  all_goals refine ⟨?_, ?_, rfl⟩
  -- what is left is about the lengths of the lists that changed hands
  all_goals simp only [Fetch.Balanced, Fetch.tokens, Round.Balanced, Round.keep, List.length_append,
    List.length_cons, List.length_nil, List.length_take, Option.getD_none, Option.getD_some]
    at hbalanced ⊢
  all_goals omega

theorem countP_set {α : Type} (p : α → Bool) {xs : List α} {i : Nat} {x : α} (h : xs[i]? = some x)
    (y : α) : (xs.set i y).countP p + (p x).toNat = xs.countP p + (p y).toNat := by
  induction xs generalizing i with
  | nil => simp at h
  | cons first xs ih =>
      cases i with
      | zero =>
          simp only [List.getElem?_cons_zero, Option.some.injEq] at h
          subst h
          rw [List.set_cons_zero, List.countP_cons, List.countP_cons]
          cases p first <;> cases p y <;> simp
      | succ i =>
          rw [List.getElem?_cons_succ] at h
          have hrest := ih h
          rw [List.set_cons_succ, List.countP_cons, List.countP_cons]
          omega

/-- What a pool keeps, whatever the driver answers. -/
structure State.Balanced (cfg : Config) (s : State) : Prop where
  round : s.fetch.Balanced
  tokens : s.slots + s.fetch.tokens + s.workers.countP Worker.busy = cfg.concurrency
  workers : s.workers.length = cfg.concurrency
  exited : .exited ∈ s.workers → s.fetch = .exited

theorem balanced_start (cfg : Config) (db : Memdriver.Driver) : (cfg.start db).Balanced cfg := by
  refine ⟨trivial, ?_, by simp [Config.start], ?_⟩
  · simp [Config.start, Fetch.tokens, List.countP_replicate, Worker.busy]
  · simp [Config.start, List.mem_replicate]

/-- A step that changes one worker and the channel. -/
theorem State.Balanced.worker {cfg : Config} {s s' : State} (h : s.Balanced cfg) {w : Nat}
    {old new : Worker} (hold : s.workers[w]? = some old) (hworkers : s'.workers = s.workers.set w new)
    (hfetch : s'.fetch = s.fetch) (hslots : s'.slots + new.busy.toNat = s.slots + old.busy.toNat)
    (hexited : new = .exited → s.fetch = .exited) : s'.Balanced cfg := by
  have hcount := countP_set Worker.busy hold new
  have htokens := h.tokens
  refine ⟨by rw [hfetch]; exact h.round, ?_, by rw [hworkers, List.length_set]; exact h.workers, ?_⟩
  · rw [hfetch, hworkers]
    omega
  · intro hmem
    rw [hworkers] at hmem
    rw [hfetch]
    rcases List.mem_or_eq_of_mem_set hmem with hmem | heq
    · exact h.exited hmem
    · exact hexited heq.symm

theorem workerStep_balanced {cfg : Config} {s s' : State} {w : Nat} {how : WorkerStep}
    (h : workerStep cfg s w how = some s') (hs : s.Balanced cfg) : s'.Balanced cfg := by
  cases WorkerTurn.of_step h with
  | exit hfetch hpc => exact hs.worker hpc rfl rfl rfl fun _ => hfetch
  | _ =>
      rename_i hpc
      exact hs.worker hpc rfl rfl rfl nofun

/-- The token goes with the row. -/
theorem handOff_balanced {cfg : Config} {s s' : State} {w : Nat} (h : handOff s w = some s')
    (hs : s.Balanced cfg) : s'.Balanced cfg := by
  obtain ⟨c, rows, hfetch, hworker, rfl⟩ := handOff_eq_some h
  have hcount := countP_set Worker.busy hworker (.received c)
  have htokens := hs.tokens
  rw [hfetch] at htokens
  refine ⟨trivial, ?_, by rw [List.length_set]; exact hs.workers, ?_⟩
  · simp only [Fetch.tokens, Worker.busy, Bool.toNat_true, Bool.toNat_false] at htokens hcount ⊢
    omega
  · intro hmem
    rcases List.mem_or_eq_of_mem_set hmem with hmem | heq
    · rw [hs.exited hmem] at hfetch
      cases hfetch
    · cases heq

theorem not_exited_of_fetchStep {cfg : Config} {s s' : State} {how : FetchStep}
    (h : fetchStep cfg s how = some s') : s.fetch ≠ .exited := by
  intro hexited
  simp [fetchStep, hexited] at h

theorem State.Balanced.after {cfg : Config} {s : State} (h : s.Balanced cfg) (e : Event) :
    (after cfg s e).Balanced cfg := by
  cases after_turn cfg s e with
  | other hsame hother =>
      exact ⟨by rw [hsame.fetch]; exact h.round,
        by rw [hsame.slots, hsame.fetch, hsame.workers]; exact h.tokens,
        by rw [hsame.workers]; exact h.workers, by rw [hsame.workers, hsame.fetch]; exact h.exited⟩
  | nudge => exact ⟨h.round, h.tokens, h.workers, h.exited⟩
  | fetch hstep =>
      obtain ⟨hround, htokens, hworkers⟩ := fetchStep_tokens hstep h.round
      refine ⟨hround, by rw [htokens, hworkers]; exact h.tokens, by rw [hworkers]; exact h.workers, ?_⟩
      intro hmem
      rw [hworkers] at hmem
      exact absurd (h.exited hmem) (not_exited_of_fetchStep hstep)
  | handOff hstep => exact handOff_balanced hstep h
  | worker hstep => exact workerStep_balanced hstep h
  | @reply rows =>
      show (s.receive rows).Balanced cfg
      unfold State.receive
      split
      · rename_i n remaining queue queues claimed hfetch
        have hround := h.round
        have htokens := h.tokens
        rw [hfetch] at hround htokens
        refine ⟨hround, htokens, h.workers, ?_⟩
        intro hmem
        rw [h.exited hmem] at hfetch
        cases hfetch
      · exact h

/-! ## What follows from the count -/

/-- The fetch loop keeps no more rows than it holds tokens. -/
theorem Fetch.Balanced.kept_le {f : Fetch} (h : f.Balanced) : f.kept ≤ f.tokens := by
  cases f <;> simp_all [Fetch.Balanced, Fetch.kept, Fetch.tokens, Round.Balanced] <;> omega

/-- While the fetch loop runs, every worker that is not busy waits for a row. -/
theorem State.Balanced.count_idle {cfg : Config} {s : State} (h : s.Balanced cfg)
    (hrunning : s.fetch ≠ .exited) : s.slots + s.fetch.tokens = s.workers.count .idle := by
  have hidle : s.workers.count .idle = s.workers.countP fun worker => !worker.busy := by
    refine List.countP_congr fun worker hmem => ?_
    cases worker with
    | exited => exact absurd (h.exited hmem) hrunning
    | _ => simp [Worker.busy]
  have hsplit := List.length_eq_countP_add_countP Worker.busy (l := s.workers)
  have htokens := h.tokens
  have hworkers := h.workers
  simp only [Bool.not_eq_true, Bool.decide_eq_false] at hsplit
  omega

/-- In every state of every run, whatever the driver answers and whenever the shutdown
comes, the tokens in the channel, those the fetch loop holds and those of the rows handed
to a worker make up the concurrency.  So a send of a token finds room, a round asks for no
more jobs than there are idle workers, and the rows kept and not finished are never
more than the workers. -/
theorem run_slots_conserved (cfg : Config) (db : Memdriver.Driver) (events : List Event) :
    let s := run (after cfg) (cfg.start db) events
    s.slots + s.fetch.tokens + s.workers.countP Worker.busy = cfg.concurrency ∧
      (∀ k rows, s.fetch = .release (k + 1) rows → s.slots < cfg.concurrency) ∧
      (.returning ∈ s.workers → s.slots < cfg.concurrency) ∧
      (∀ r, s.fetch = .ask r → r.remaining ≤ r.n ∧ r.n ≤ s.workers.count .idle) ∧
      s.fetch.kept + s.workers.countP Worker.busy ≤ cfg.concurrency := by
  intro s
  have hs : s.Balanced cfg :=
    run_invariant (P := State.Balanced cfg) (fun s e h => h.after e) (balanced_start cfg db) events
  have htokens := hs.tokens
  refine ⟨htokens, ?_, ?_, ?_, ?_⟩
  · intro k rows hfetch
    rw [hfetch, Fetch.tokens] at htokens
    omega
  · intro hmem
    have hbusy : 0 < s.workers.countP Worker.busy :=
      List.countP_pos_iff.mpr ⟨.returning, hmem, rfl⟩
    omega
  · intro r hfetch
    have hidle := hs.count_idle (by rw [hfetch]; nofun)
    have hround := hs.round
    rw [hfetch] at hidle hround
    simp only [Fetch.tokens, Fetch.Balanced, Round.Balanced] at hidle hround
    omega
  · have hkept := hs.round.kept_le
    omega

end Drover.Pool
