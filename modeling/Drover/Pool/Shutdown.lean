import Drover.Pool.Coverage

set_option autoImplicit false

/-!
# What a nil from `Stop` says

`Stop` returns nil when every goroutine has exited, or when its budget runs out and the
inflight set is empty at that moment.  The first is proof that nothing is left.  The
second is a reading of a set the fetch loop may be about to write to.
-/

namespace Drover.Pool

open Drover.Foundation
open Drover.Foundation.Bytes
open Drover.Driver

/-- The shutdown has found nothing to report so far. -/
def Drain.clean : Drain → Bool
  | .closing err => err.isEmpty
  | .joining err => err.isEmpty
  | .shutting err => err.isEmpty
  | .returned err => err.isEmpty
  | _ => false

/-- The handler is executing. -/
def Worker.executing : Worker → Bool
  | .handling _ => true
  | _ => false

/-- What a nil verdict rests on, step by step. -/
structure Quiet (cfg : Config) (s : State) (label : Label) : Prop where
  /-- `FetchAvailable` returns no job of which the client still holds an earlier claim,
  unless that claim has ended and is on another attempt -/
  lone : ∀ c ∈ s.returned cfg label, s.ledger.Lone c.row
  /-- `FetchAvailable` returns no row once the shutdown has found nothing to report -/
  silent : s.drain.clean = true → s.returned cfg label = []
  /-- when `escalate` finds the inflight set empty, no returned row is still to be
  registered -/
  registered : label = .drain .go → s.drain = .escalating → s.inflight.snapshot = [] →
    s.unregistered = []

/-- What a pool keeps as long as its steps are quiet. -/
structure State.Orderly (s : State) : Prop where
  tracked : s.Tracked
  current : s.ledger.Current
  clean : s.drain.clean = true → s.ledger.Settled

theorem orderly_start (cfg : Config) (db : Memdriver.Driver) : (cfg.start db).Orderly := by
  refine ⟨tracked_start cfg db, ?_, fun h => absurd h (by simp [Config.start, Drain.clean])⟩
  intro x hx
  rw [show (cfg.start db).ledger.held = [] from held_start cfg db] at hx
  exact absurd hx List.not_mem_nil

/-- Every goroutine of the pool has exited. -/
def State.finished (s : State) : Prop := s.fetch = .exited ∧ ∀ worker ∈ s.workers, worker = .exited

/-- The two ways to a nil verdict. -/
theorem clean_drainStep {cfg : Config} {s s' : State} {how : DrainStep}
    (h : drainStep cfg s how = some s') (hclean : s'.drain.clean = true) :
    s.drain.clean = true ∨ s.finished ∨
      (how = .go ∧ s.drain = .escalating ∧ s.inflight.snapshot = []) := by
  cases DrainTurn.of_step h with
  | drained hdone hpc => exact Or.inr (Or.inl hdone)
  | nothingLeft hnone hpc => exact Or.inr (Or.inr ⟨rfl, hpc, hnone⟩)
  | _ =>
      rename_i hpc
      first
        | exact Or.inl (by rw [hpc]; exact hclean)
        | simp [Drain.clean] at hclean

theorem clean_next {cfg : Config} {s : State} {label : Label}
    (h : (next cfg s label).drain.clean = true) :
    s.drain.clean = true ∨ s.returned cfg label = [] ∧
      (s.finished ∨ label = .drain .go ∧ s.drain = .escalating ∧ s.inflight.snapshot = []) := by
  unfold next at h
  cases hstep : step cfg s label with
  | none =>
      rw [hstep] at h
      exact Or.inl h
  | some s' =>
      rw [hstep, Option.getD_some] at h
      cases label with
      | drain how =>
          rcases clean_drainStep hstep h with hwas | hfinished | ⟨rfl, hpc, hempty⟩
          · exact Or.inl hwas
          · exact Or.inr ⟨rfl, Or.inl hfinished⟩
          · exact Or.inr ⟨rfl, Or.inr ⟨rfl, hpc, hempty⟩⟩
      | _ => exact Or.inl (by rw [← step_drain hstep nofun]; exact h)

/-- Goroutines that have exited hold nothing. -/
theorem held_of_finished {s : State} (h : s.finished) : s.held = [] := by
  have hfetch : s.fetch.held = [] := by rw [h.1]; rfl
  unfold State.held
  rw [hfetch, List.nil_append, List.flatMap_eq_nil_iff]
  intro worker hworker
  rw [h.2 worker hworker]
  rfl

/-- One quiet step. -/
theorem State.Orderly.next {cfg : Config} {s : State} (h : s.Orderly) {label : Label}
    (hquiet : Quiet cfg s label) : (next cfg s label).Orderly := by
  have hmove := next_move cfg s label
  refine ⟨h.tracked.next fun c hc => (hquiet.lone c hc).clear,
    h.current.move h.tracked.accounted hmove hquiet.lone, ?_⟩
  intro hclean
  have hsettled : s.ledger.Settled ∧ s.returned cfg label = [] := by
    rcases clean_next hclean with hwas | ⟨hreturned, hfinished | ⟨hlabel, hpc, hempty⟩⟩
    · exact ⟨h.clean hwas, hquiet.silent hwas⟩
    · refine ⟨fun x hx => ?_, hreturned⟩
      rw [show s.ledger.held = [] from held_of_finished hfinished] at hx
      exact absurd hx List.not_mem_nil
    · refine ⟨settled_of_empty h.tracked.mirrored h.current hempty ?_, hreturned⟩
      rintro ⟨c, st⟩ hx rfl
      have hmem := mem_unregistered hx
      rw [hquiet.registered hlabel hpc hempty] at hmem
      exact absurd hmem List.not_mem_nil
  rw [hsettled.2] at hmove
  exact hsettled.1.move hmove

/-- A settled pool executes no handler. -/
theorem not_executing_of_settled {s : State} (h : s.ledger.Settled) :
    ∀ worker ∈ s.workers, worker.executing = false := by
  intro worker hworker
  cases worker with
  | handling c =>
      have hmem : (c, Stage.running) ∈ s.held :=
        List.mem_append_right _ (List.mem_flatMap.mpr ⟨_, hworker, List.mem_singleton_self _⟩)
      cases h _ hmem
  | _ => rfl

/-- A verdict stands. -/
theorem returned_next {cfg : Config} {s : State} {err : List StopError}
    (h : s.drain = .returned err) (label : Label) : (next cfg s label).drain = .returned err := by
  unfold next
  cases hstep : step cfg s label with
  | none => exact h
  | some s' =>
      rw [Option.getD_some]
      cases label with
      | drain how =>
          simp only [step, drainStep, h] at hstep
          cases hstep
      | _ => rw [step_drain hstep nofun, h]

/-- In every run of quiet steps, over any store and any doings of others and with the
budget running out at any moment: when `Stop` has returned nil, the outcome or the
hand-back of every row `FetchAvailable` has returned to this client has been written, no
handler is executing, and none starts afterwards. -/
theorem run_stop_nil (cfg : Config) (db : Memdriver.Driver) (pre post : List Label)
    (h : Steps (next cfg) (Quiet cfg) (cfg.start db) (pre ++ post))
    (hnil : (run (next cfg) (cfg.start db) pre).drain = .returned []) :
    (∀ c ∈ (run (next cfg) (cfg.start db) pre).claims,
        c.ref ∈ (run (next cfg) (cfg.start db) pre).ended) ∧
      Along (next cfg) (fun s : State => ∀ worker ∈ s.workers, worker.executing = false)
        (run (next cfg) (cfg.start db) pre) post := by
  have horderly : Along (next cfg) State.Orderly (cfg.start db) (pre ++ post) :=
    along_of_steps (fun s label hs hquiet => hs.next hquiet) (orderly_start cfg db) h
  rw [along_iff] at horderly
  constructor
  · have hpre := horderly pre post rfl
    exact (hpre.clean (by rw [hnil]; rfl)).ended hpre.tracked.accounted
  · rw [along_iff]
    intro mid rest hsplit
    have hmid := horderly (pre ++ mid) rest (by rw [hsplit, List.append_assoc])
    rw [run_append] at hmid
    have hstands : (run (next cfg) (run (next cfg) (cfg.start db) pre) mid).drain = .returned [] :=
      run_invariant (P := fun s : State => s.drain = .returned [])
        (fun s label hs => returned_next hs label) hnil mid
    exact not_executing_of_settled (hmid.clean (by rw [hstands]; rfl))

/-! ## Stopping a pool of one worker -/

/-- A job is inserted and `FetchAvailable` returns it. -/
def claimOne : List Label :=
  [.outside (.insert 1 ⟨[], [], [], 0, []⟩), .fetch .go, .fetch (.order [[]]), .fetch (.rows 1 1)]

/-- The returned row is registered, dispatched and taken up by the worker. -/
def startOne : List Label :=
  [.fetch .go, .fetch .go, .fetch .go, .fetch .go, .fetch .go, .fetch .go, .handOff 0,
    .worker 0 .go]

/-- `Stop` is called, its budget runs out, the inflight set is empty, and it returns. -/
def stopOne : List Label :=
  [.drain .go, .drain .go, .drain .expire, .drain .go, .drain .go, .heart .stop, .drain .go,
    .drain .go]

/-- The handler succeeds and the entry is removed. -/
def finishOne : List Label :=
  [.worker 0 (.result .succeeded), .worker 0 (.write 1 true), .worker 0 .go]

instance (cfg : Config) (s : State) (label : Label) : Decidable (Quiet cfg s label) :=
  have : Decidable (∀ c ∈ s.returned cfg label, s.ledger.Lone c.row) := by
    unfold Ledger.Lone
    infer_instance
  decidable_of_iff
    ((∀ c ∈ s.returned cfg label, s.ledger.Lone c.row) ∧
      (s.drain.clean = true → s.returned cfg label = []) ∧
      (label = .drain .go → s.drain = .escalating → s.inflight.snapshot = [] →
        s.unregistered = []))
    ⟨fun h => ⟨h.1, h.2.1, h.2.2⟩, fun h => ⟨h.lone, h.silent, h.registered⟩⟩

/-- Stopped after the job has been completed, the pool has nothing left, although its
goroutines are still there. -/
theorem stopOne_nil :
    Steps (next single) (Quiet single) (single.start Memdriver.new)
        ((claimOne ++ startOne ++ finishOne ++ stopOne) ++ [.worker 0 .go, .fetch .stop]) ∧
      (∀ c ∈ (run (next single) (single.start Memdriver.new)
          (claimOne ++ startOne ++ finishOne ++ stopOne)).claims,
        c.ref ∈ (run (next single) (single.start Memdriver.new)
          (claimOne ++ startOne ++ finishOne ++ stopOne)).ended) ∧
      Along (next single) (fun s : State => ∀ worker ∈ s.workers, worker.executing = false)
        (run (next single) (single.start Memdriver.new)
          (claimOne ++ startOne ++ finishOne ++ stopOne)) [.worker 0 .go, .fetch .stop] :=
  ⟨by decide, run_stop_nil single Memdriver.new _ _ (by decide) (by decide)⟩

/-- Stopped between the return of `FetchAvailable` and the registration of its row, the
pool returns nil with the claim open, and the handler starts after that. -/
theorem stopOne_nil_too_early :
    (run (next single) (single.start Memdriver.new) (claimOne ++ stopOne)).drain =
        .returned [] ∧
      (∃ c ∈ (run (next single) (single.start Memdriver.new) (claimOne ++ stopOne)).claims,
        c.ref ∉ (run (next single) (single.start Memdriver.new) (claimOne ++ stopOne)).ended) ∧
      ∃ worker ∈ (run (next single) (single.start Memdriver.new)
          (claimOne ++ stopOne ++ startOne)).workers, worker.executing = true := by
  decide

end Drover.Pool
