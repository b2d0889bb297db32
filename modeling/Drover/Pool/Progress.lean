import Mathlib.Algebra.GroupWithZero.Nat
import Drover.Foundation.Progress
import Drover.Pool.Shutdown
import Drover.Pool.Slots

set_option autoImplicit false

/-!
# The shutdown comes to an end

`drain` waits twice: for the fetch loop and the workers, which wait for each other over the
slots and jobs channels, and then for the goroutines under `background`, of which the heartbeat
is the one that belongs to the pool (`Pool.Background` has the others).  None of these waits
is for ever.  From any state a pool can be in, its goroutines can go on to the end of `drain`,
and a handler that returns is all they need from outside.  Once the budget has run out they do
not need that either: `escalate` and the heartbeat finish alone.
-/

namespace Drover.Pool

open Drover.Foundation
open Drover.Driver

/-! ## The fetch loop -/

/-- How far the fetch loop is from its end once it has been told to stop, with `slots`
tokens in the channel. -/
def Fetch.rank (slots : Nat) : Fetch → Nat
  | .exited => 0
  | .close => 1
  | .acquire | .sleep | .woken => 2
  | .release k none => 2 + k
  | .forget n todo => 3 + n + todo.length
  | .abandon back todo => 4 + 2 * (back.length + todo.length) + todo.length
  | .offer _ rows => 5 + 3 * (rows.length + 1)
  | .dispatch rows => 6 + 3 * rows.length
  | .release k (some rows) => 7 + 3 * rows.length + k
  | .claimed n rows => 8 + 3 * rows.length + n
  | .visited r | .ask r => 9 + 3 * r.claimed.length + r.n
  | .untrack r kept todo => 10 + 3 * (r.claimed.length + kept.length) + r.n + todo.length
  | .handBack r kept back todo =>
      11 + 3 * (r.claimed.length + kept.length) + r.n + (back.length + 2 * todo.length)
  | .track r added todo =>
      12 + 3 * r.claimed.length + 5 * (added.length + todo.length) + r.n + todo.length
  | .acquireMore n => 10 + n + 2 * slots

/-- The fetch loop that has been told to stop and holds no more than its tokens always has
a way on, and it leads towards its end. -/
theorem fetchStep_progress {cfg : Config} {s : State} (h : s.Balanced cfg)
    (hstop : s.stopFetch = true) (hexited : s.fetch ≠ .exited) :
    ∃ how s', fetchStep cfg s how = some s' ∧
      s'.fetch.rank s'.slots < s.fetch.rank s.slots := by
  have htokens := h.tokens
  cases hfetch : s.fetch with
  | exited => exact absurd hfetch hexited
  | acquire => exact ⟨.stop, by simp [fetchStep, hfetch, hstop, Fetch.rank]⟩
  | acquireMore n =>
      by_cases hmore : n < cfg.concurrency ∧ 0 < s.slots
      · refine ⟨.go, ?_⟩
        simp only [fetchStep, hfetch, if_pos hmore, Option.some.injEq, exists_eq_left', Fetch.rank]
        omega
      · refine ⟨.order cfg.queues, ?_⟩
        have hfull : (cfg.concurrency ≤ n ∨ s.slots = 0) ∧ cfg.queues.Perm cfg.queues :=
          ⟨by omega, List.Perm.refl _⟩
        simp only [fetchStep, hfetch, if_pos hfull, Option.some.injEq, exists_eq_left', Fetch.rank,
          List.length_nil]
        omega
  | ask r =>
      obtain ⟨n, remaining, queues, claimed⟩ := r
      cases queues with
      | nil => exact ⟨.go, by simp [fetchStep, hfetch, Fetch.rank]⟩
      | cons queue queues => exact ⟨.fail, by simp [fetchStep, hfetch, Fetch.rank]⟩
  | track r added todo =>
      cases todo with
      | cons c todo =>
          refine ⟨.go, ?_⟩
          simp [fetchStep, hfetch, Fetch.rank]
          omega
      | nil =>
          refine ⟨.go, ?_⟩
          by_cases hsurplus : r.remaining < added.length
          · simp [fetchStep, hfetch, hsurplus, Fetch.rank]
            omega
          · simp [fetchStep, hfetch, hsurplus, Fetch.rank, Round.keep]
            omega
  | handBack r kept back todo =>
      cases todo with
      | cons c todo =>
          refine ⟨.requeue 0 [] false, ?_⟩
          simp [fetchStep, hfetch, Fetch.rank]
          omega
      | nil => exact ⟨.go, by simp [fetchStep, hfetch, Fetch.rank]⟩
  | untrack r kept todo =>
      cases todo with
      | cons c todo => exact ⟨.go, by simp [fetchStep, hfetch, Fetch.rank]⟩
      | nil => exact ⟨.go, by simp [fetchStep, hfetch, Fetch.rank, Round.keep]⟩
  | visited r => exact ⟨.go, by simp [fetchStep, hfetch, hstop, Fetch.rank]⟩
  | claimed n rows =>
      refine ⟨.go, ?_⟩
      by_cases hrows : rows = []
      · simp [fetchStep, hfetch, hstop, hrows, Fetch.rank]
      · simp [fetchStep, hfetch, hrows, Fetch.rank]
        omega
  | release k rows =>
      cases k with
      | succ k =>
          have hroom : s.slots < cfg.concurrency := by
            rw [hfetch] at htokens
            simp only [Fetch.tokens] at htokens
            omega
          refine ⟨.go, ?_⟩
          cases rows <;> simp [fetchStep, hfetch, hroom, Fetch.rank]
      | zero =>
          refine ⟨.go, ?_⟩
          cases rows with
          | none => simp [fetchStep, hfetch, Fetch.rank]
          | some rows => cases rows <;> simp [fetchStep, hfetch, Fetch.rank]
  | sleep => exact ⟨.stop, by simp [fetchStep, hfetch, hstop, Fetch.rank]⟩
  | woken => exact ⟨.go, by simp [fetchStep, hfetch, hstop, Fetch.rank]⟩
  | dispatch rows =>
      refine ⟨.go, ?_⟩
      cases rows with
      | nil => simp [fetchStep, hfetch, Fetch.rank]
      | cons c rows => simp [fetchStep, hfetch, Fetch.rank]
  | offer c rows =>
      refine ⟨.stop, ?_⟩
      simp [fetchStep, hfetch, hstop, Fetch.rank]
      omega
  | abandon back todo =>
      cases todo with
      | cons c todo =>
          refine ⟨.requeue 0 [] false, ?_⟩
          simp [fetchStep, hfetch, Fetch.rank]
          omega
      | nil =>
          refine ⟨.go, ?_⟩
          simp [fetchStep, hfetch, Fetch.rank]
          omega
  | forget n todo =>
      cases todo with
      | cons c todo => exact ⟨.go, by simp [fetchStep, hfetch, Fetch.rank]⟩
      | nil => exact ⟨.go, by simp [fetchStep, hfetch, Fetch.rank]⟩
  | close => exact ⟨.go, by simp [fetchStep, hfetch, Fetch.rank]⟩

/-! ## The workers -/

/-- How far a worker is from its end once the fetch loop has exited. -/
def Worker.rank : Worker → Nat
  | .exited => 0
  | .idle => 1
  | .returning => 2
  | .finished _ => 3
  | .finalizing _ _ => 4
  | .handling _ => 5
  | .received _ => 6

/-- The workers together. -/
def State.work (s : State) : Nat := (s.workers.map Worker.rank).sum

theorem sum_map_set_lt {α : Type} (f : α → Nat) {xs : List α} {i : Nat} {x y : α}
    (h : xs[i]? = some x) (hlt : f y < f x) : ((xs.set i y).map f).sum < (xs.map f).sum := by
  induction xs generalizing i with
  | nil => simp at h
  | cons first xs ih =>
      cases i with
      | zero =>
          simp only [List.getElem?_cons_zero, Option.some.injEq] at h
          subst h
          simpa using hlt
      | succ i =>
          rw [List.getElem?_cons_succ] at h
          simpa using ih h

/-- A worker always has a way on once the fetch loop has exited: the handler returns, and
there is room for the token the worker gives back. -/
theorem workerStep_progress {cfg : Config} {s : State} (h : s.Balanced cfg)
    (hfetch : s.fetch = .exited) {w : Nat} {worker : Worker} (hw : s.workers[w]? = some worker)
    (hexited : worker ≠ .exited) :
    ∃ how s', workerStep cfg s w how = some s' ∧ s'.work < s.work := by
  cases worker with
  | exited => exact absurd rfl hexited
  | idle =>
      refine ⟨.go, ?_⟩
      simp only [workerStep, hw, hfetch, if_true, Option.some.injEq, exists_eq_left']
      exact sum_map_set_lt _ hw (by decide)
  | received c =>
      refine ⟨.go, ?_⟩
      simp only [workerStep, hw, Option.some.injEq, exists_eq_left']
      exact sum_map_set_lt _ hw (by simp [Worker.rank])
  | handling c =>
      refine ⟨.result .succeeded, ?_⟩
      simp only [workerStep, hw, Option.some.injEq, exists_eq_left']
      exact sum_map_set_lt _ hw (by simp [Worker.rank])
  | finalizing c fate =>
      refine ⟨.write 0 false, ?_⟩
      simp only [workerStep, hw, Option.some.injEq, exists_eq_left']
      exact sum_map_set_lt _ hw (by simp [Worker.rank])
  | finished c =>
      refine ⟨.go, ?_⟩
      simp only [workerStep, hw, Option.some.injEq, exists_eq_left']
      exact sum_map_set_lt _ hw (by simp [Worker.rank])
  | returning =>
      have hbusy : 0 < s.workers.countP Worker.busy :=
        List.countP_pos_iff.mpr ⟨_, List.mem_of_getElem? hw, rfl⟩
      have hroom : s.slots < cfg.concurrency := by
        have htokens := h.tokens
        omega
      refine ⟨.go, ?_⟩
      simp only [workerStep, hw, hroom, if_true, Option.some.injEq, exists_eq_left']
      exact sum_map_set_lt _ hw (by decide)

/-! ## The order of a shutdown -/

/-- What the shutdown has closed by the time it waits. -/
structure State.Stopping (s : State) : Prop where
  fetch : s.drain = .waiting → s.stopFetch = true
  heart : ∀ err, s.drain = .joining err → s.stopHeartbeat = true

theorem stopping_start (cfg : Config) (db : Memdriver.Driver) : (cfg.start db).Stopping :=
  ⟨by simp [Config.start], by simp [Config.start]⟩

/-- Only the shutdown closes its channels. -/
theorem step_channels {cfg : Config} {s s' : State} {label : Label}
    (h : step cfg s label = some s') (hlabel : ∀ how, label ≠ .drain how) :
    s'.stopFetch = s.stopFetch ∧ s'.stopHeartbeat = s.stopHeartbeat := by
  cases label with
  | drain how => exact absurd rfl (hlabel how)
  | outside op =>
      cases h
      exact ⟨rfl, rfl⟩
  | nudge =>
      cases h
      exact ⟨rfl, rfl⟩
  | fetch how => cases FetchTurn.of_step h <;> exact ⟨rfl, rfl⟩
  | handOff w =>
      obtain ⟨c, rows, -, -, rfl⟩ := handOff_eq_some h
      exact ⟨rfl, rfl⟩
  | worker w how => cases WorkerTurn.of_step h <;> exact ⟨rfl, rfl⟩
  | heart how => cases HeartTurn.of_step h <;> exact ⟨rfl, rfl⟩

theorem drainStep_stopping {cfg : Config} {s s' : State} {how : DrainStep}
    (h : drainStep cfg s how = some s') : s'.Stopping := by
  cases DrainTurn.of_step h <;> exact ⟨by simp, by simp⟩

theorem State.Stopping.step {cfg : Config} {s s' : State} (h : s.Stopping) {label : Label}
    (hstep : step cfg s label = some s') : s'.Stopping := by
  by_cases hlabel : ∃ how, label = .drain how
  · obtain ⟨how, rfl⟩ := hlabel
    exact drainStep_stopping hstep
  · have hother : ∀ how, label ≠ .drain how := fun how heq => hlabel ⟨how, heq⟩
    have hdrain := step_drain hstep hother
    obtain ⟨hfetch, hheart⟩ := step_channels hstep hother
    constructor
    · intro hwaiting
      rw [hfetch]
      exact h.fetch (hdrain ▸ hwaiting)
    · intro err hjoining
      rw [hheart]
      exact h.heart err (hdrain ▸ hjoining)

/-- What a shutdown needs of its pool. -/
structure State.Sound (cfg : Config) (s : State) : Prop where
  balanced : s.Balanced cfg
  stopping : s.Stopping

theorem sound_start (cfg : Config) (db : Memdriver.Driver) : (cfg.start db).Sound cfg :=
  ⟨balanced_start cfg db, stopping_start cfg db⟩

theorem State.Sound.next {cfg : Config} {s : State} (h : s.Sound cfg) (label : Label) :
    (next cfg s label).Sound cfg := by
  refine ⟨h.balanced.after (.step label), ?_⟩
  unfold Pool.next
  cases hstep : Pool.step cfg s label with
  | none => exact h.stopping
  | some s' => exact h.stopping.step hstep

/-! ## To the end of `drain` -/

/-- A step of the pool's own goroutines or of the shutdown, other than the budget running
out. -/
def Label.own : Label → Bool
  | .outside _ | .nudge | .drain .expire => false
  | .fetch _ | .handOff _ | .worker _ _ | .heart _ | .drain _ => true

/-- A step of the shutdown or of the heartbeat. -/
def Label.closing : Label → Bool
  | .heart _ | .drain _ => true
  | _ => false

theorem next_of_step {cfg : Config} {s s' : State} {label : Label}
    (h : step cfg s label = some s') : next cfg s label = s' := by
  unfold next
  rw [h, Option.getD_some]

/-- While the shutdown waits, the fetch loop can come to its end. -/
theorem within_fetch_exited {cfg : Config} {s : State} (h : s.Sound cfg) (hwaiting : s.drain = .waiting) :
    Within (next cfg) (fun label => label.own = true) (s.fetch.rank s.slots)
      (fun s' => (s'.Sound cfg ∧ s'.drain = .waiting) ∧ s'.fetch = .exited) s := by
  refine within_of_rank (P := fun s : State => s.Sound cfg ∧ s.drain = .waiting)
    (fun s : State => s.fetch.rank s.slots) ?_ ⟨h, hwaiting⟩
  rintro s ⟨hs, hpc⟩
  by_cases hexited : s.fetch = .exited
  · exact Or.inl hexited
  · obtain ⟨how, s', hstep, hlt⟩ :=
      fetchStep_progress hs.balanced (hs.stopping.fetch hpc) hexited
    have hnext : next cfg s (.fetch how) = s' := next_of_step hstep
    refine Or.inr ⟨.fetch how, rfl, ⟨hs.next _, ?_⟩, by rw [hnext]; exact hlt⟩
    rw [hnext, fetchStep_drain hstep, hpc]

/-- And after it the workers. -/
theorem within_workers_exited {cfg : Config} {s : State} (h : s.Sound cfg)
    (hwaiting : s.drain = .waiting) (hfetch : s.fetch = .exited) :
    Within (next cfg) (fun label => label.own = true) s.work
      (fun s' => (s'.Sound cfg ∧ s'.drain = .waiting ∧ s'.fetch = .exited) ∧
        ∀ worker ∈ s'.workers, worker = .exited) s := by
  refine within_of_rank
    (P := fun s : State => s.Sound cfg ∧ s.drain = .waiting ∧ s.fetch = .exited) State.work ?_
    ⟨h, hwaiting, hfetch⟩
  rintro s ⟨hs, hpc, hexited⟩
  by_cases hdone : ∀ worker ∈ s.workers, worker = .exited
  · exact Or.inl hdone
  · simp only [not_forall] at hdone
    obtain ⟨worker, hmem, hworker⟩ := hdone
    obtain ⟨w, hw⟩ := List.getElem?_of_mem hmem
    obtain ⟨how, s', hstep, hlt⟩ := workerStep_progress hs.balanced hexited hw hworker
    have hnext : next cfg s (.worker w how) = s' := next_of_step hstep
    have hframe := workerStep_frame hstep
    refine Or.inr ⟨.worker w how, rfl, ⟨hs.next _, ?_, ?_⟩, by rw [hnext]; exact hlt⟩
    · rw [hnext, hframe.drain, hpc]
    · rw [hnext, hframe.fetch, hexited]

/-- Told to stop, the heartbeat exits, and `drain` returns what it has found. -/
theorem within_joining {cfg : Config} {s : State} {err : List StopError} (h : s.Sound cfg)
    (hpc : s.drain = .joining err) :
    Within (next cfg) (fun label => label.closing = true ∧ label.own = true) 4
      (fun s' => s'.drain = .returned err) s := by
  -- from the exit of the heartbeat on, only `drain` has anything to do
  have hlast : ∀ s : State, s.drain = .joining err → s.heart = .exited →
      Within (next cfg) (fun label => label.closing = true ∧ label.own = true) 2
        (fun s' => s'.drain = .returned err) s := by
    intro s hpc hheart
    refine .step (.drain .go) ⟨rfl, rfl⟩ (.step (.drain .go) ⟨rfl, rfl⟩ (.now ?_))
    simp [next, step, drainStep, hpc, hheart]
  have hstop : ∀ s : State, s.drain = .joining err → s.stopHeartbeat = true → s.heart = .waiting →
      Within (next cfg) (fun label => label.closing = true ∧ label.own = true) 3
        (fun s' => s'.drain = .returned err) s := by
    intro s hpc hclosed hheart
    have hstep : next cfg s (.heart .stop) = { s with heart := .exited } := by
      simp [next, step, heartStep, hheart, hclosed]
    refine .step (.heart .stop) ⟨rfl, rfl⟩ ?_
    rw [hstep]
    exact hlast _ hpc rfl
  have hclosed := h.stopping.heart err hpc
  cases hheart : s.heart with
  | waiting => exact (hstop s hpc hclosed hheart).mono (by decide) (fun _ => id) fun _ => id
  | extending leases =>
      have hstep : next cfg s (.heart (.extend 0 false)) = { s with heart := .waiting } := by
        simp [next, step, heartStep, hheart]
      refine .step (.heart (.extend 0 false)) ⟨rfl, rfl⟩ ?_
      rw [hstep]
      exact hstop _ hpc hclosed rfl
  | exited => exact (hlast s hpc hheart).mono (by decide) (fun _ => id) fun _ => id

theorem within_closing {cfg : Config} {s : State} {err : List StopError} (h : s.Sound cfg)
    (hpc : s.drain = .closing err) :
    Within (next cfg) (fun label => label.closing = true ∧ label.own = true) 5
      (fun s' => s'.drain = .returned err) s := by
  have hstep : (next cfg s (.drain .go)).drain = .joining err := by
    simp [next, step, drainStep, hpc]
  exact .step (.drain .go) ⟨rfl, rfl⟩ (within_joining (h.next _) hstep)

/-- The stranded jobs are requeued one by one, whether or not the writes land. -/
theorem within_requeueing {cfg : Config} {s : State} {jobs : Nat} {todo : List Lease}
    (h : s.Sound cfg) (hpc : s.drain = .requeueing jobs todo) :
    Within (next cfg) (fun label => label.closing = true ∧ label.own = true) (todo.length + 6)
      (fun s' => s'.drain = .returned [.drainIncomplete jobs]) s := by
  induction todo generalizing s with
  | nil =>
      have hstep : (next cfg s (.drain .go)).drain = .closing [.drainIncomplete jobs] := by
        simp [next, step, drainStep, hpc]
      exact .step (.drain .go) ⟨rfl, rfl⟩ (within_closing (h.next _) hstep)
  | cons lease todo ih =>
      have hstep : (next cfg s (.drain (.requeue 0 [] false))).drain = .requeueing jobs todo := by
        simp [next, step, drainStep, hpc]
      refine (Within.step (.drain (.requeue 0 [] false)) ⟨rfl, rfl⟩
        (ih (h.next _) hstep)).mono ?_ (fun _ => id) fun _ => id
      simp only [List.length_cons]
      omega

/-- What `escalate` reports of the jobs it finds in the inflight set. -/
def verdict (stranded : List Lease) : List StopError :=
  if stranded = [] then [] else [.drainIncomplete stranded.length]

/-- `escalate` needs neither the handlers nor the fetch loop. -/
theorem within_escalating {cfg : Config} {s : State} (h : s.Sound cfg)
    (hpc : s.drain = .escalating) :
    Within (next cfg) (fun label => label.closing = true ∧ label.own = true)
      (s.inflight.snapshot.length + 8)
      (fun s' => s'.drain = .returned (verdict s.inflight.snapshot)) s := by
  by_cases hempty : s.inflight.snapshot = []
  · have hstep : (next cfg s (.drain .go)).drain = .closing [] := by
      simp [next, step, drainStep, hpc, hempty]
    have hend := Within.step (.drain .go) ⟨rfl, rfl⟩ (within_closing (h.next _) hstep)
    rw [verdict, if_pos hempty]
    exact hend.mono (by omega) (fun _ => id) fun _ => id
  · have hstep : (next cfg s (.drain .go)).drain = .cancelling s.inflight.snapshot := by
      simp [next, step, drainStep, hpc, hempty]
    have hstep' : (next cfg (next cfg s (.drain .go)) (.drain .go)).drain =
        .requeueing s.inflight.snapshot.length s.inflight.snapshot := by
      generalize next cfg s (.drain .go) = s₁ at hstep
      simp [next, step, drainStep, hstep]
    rw [verdict, if_neg hempty]
    exact .step (.drain .go) ⟨rfl, rfl⟩ (.step (.drain .go) ⟨rfl, rfl⟩
      (within_requeueing ((h.next _).next _) hstep'))

/-- While the budget lasts, the shutdown can come to its end without having to report
anything. -/
theorem can_return_nil {cfg : Config} {s : State} (h : s.Sound cfg) (hpc : s.drain = .waiting) :
    Can (next cfg) (fun label => label.own = true) (fun s' => s'.drain = .returned []) s := by
  refine (within_fetch_exited h hpc).can.bind fun s₁ ⟨⟨hsound₁, hpc₁⟩, hexited⟩ => ?_
  refine (within_workers_exited hsound₁ hpc₁ hexited).can.bind
    fun s₂ ⟨⟨hsound₂, hpc₂, hfetch⟩, hworkers⟩ => ?_
  have hstep : (next cfg s₂ (.drain .go)).drain = .closing [] := by
    simp only [next, step, drainStep, hpc₂, if_pos (And.intro hfetch hworkers), Option.getD_some]
  exact .step (.drain .go) rfl
    ((within_closing (hsound₂.next _) hstep).can.mono (fun _ hlabel => hlabel.2) fun _ => id)

/-- The budget has not run out, or it has and nothing was left to report. -/
def Drain.calm : Drain → Bool
  | .none | .stopping | .waiting => true
  | .closing err | .joining err | .shutting err | .returned err => err.isEmpty
  | .escalating | .cancelling _ | .requeueing _ _ => false

/-- Wherever the shutdown is, it can come to its end. -/
theorem can_return {cfg : Config} {s : State} (h : s.Sound cfg) :
    Can (next cfg) (fun label => label.own = true)
      (fun s' => ∃ err, s'.drain = .returned err ∧ (s.drain.calm = true → err = [])) s := by
  have hclose : ∀ {n : Nat} {err : List StopError},
      Within (next cfg) (fun label => label.closing = true ∧ label.own = true) n
        (fun s' => s'.drain = .returned err) s → (s.drain.calm = true → err = []) →
      Can (next cfg) (fun label => label.own = true)
        (fun s' => ∃ err, s'.drain = .returned err ∧ (s.drain.calm = true → err = [])) s :=
    fun hend herr => hend.can.mono (fun _ hlabel => hlabel.2) fun _ hs' => ⟨_, hs', herr⟩
  cases hpc : s.drain with
  | none =>
      have hstep : (next cfg (next cfg s (.drain .go)) (.drain .go)).drain = .waiting := by
        simp [next, step, drainStep, hpc]
      refine .step (.drain .go) rfl (.step (.drain .go) rfl ?_)
      exact (can_return_nil ((h.next _).next _) hstep).mono (fun _ => id) fun _ hs' =>
        ⟨[], hs', fun _ => rfl⟩
  | stopping =>
      have hstep : (next cfg s (.drain .go)).drain = .waiting := by
        simp [next, step, drainStep, hpc]
      refine .step (.drain .go) rfl ?_
      exact (can_return_nil (h.next _) hstep).mono (fun _ => id) fun _ hs' =>
        ⟨[], hs', fun _ => rfl⟩
  | waiting =>
      exact (can_return_nil h hpc).mono (fun _ => id) fun _ hs' => ⟨[], hs', fun _ => rfl⟩
  | escalating =>
      rw [← hpc]
      exact hclose (within_escalating h hpc) (by simp [hpc, Drain.calm])
  | cancelling stranded =>
      have hstep : (next cfg s (.drain .go)).drain = .requeueing stranded.length stranded := by
        simp [next, step, drainStep, hpc]
      rw [← hpc]
      exact hclose (.step (.drain .go) ⟨rfl, rfl⟩ (within_requeueing (h.next _) hstep))
        (by simp [hpc, Drain.calm])
  | requeueing jobs todo =>
      rw [← hpc]
      exact hclose (within_requeueing h hpc) (by simp [hpc, Drain.calm])
  | closing err =>
      rw [← hpc]
      exact hclose (within_closing h hpc) (by simp [hpc, Drain.calm])
  | joining err =>
      rw [← hpc]
      exact hclose (within_joining h hpc) (by simp [hpc, Drain.calm])
  | shutting err =>
      have hstep : (next cfg s (.drain .go)).drain = .returned err := by
        simp [next, step, drainStep, hpc]
      exact .step (.drain .go) rfl (.now ⟨err, hstep, by simp [Drain.calm]⟩)
  | returned err => exact .now ⟨err, hpc, by simp [Drain.calm]⟩

end Drover.Pool
