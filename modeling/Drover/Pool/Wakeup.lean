import Drover.Pool.Slots

set_option autoImplicit false

/-!
# No lost wake-up

A nudge leaves a token in the one-slot wake channel, or finds one there.  Only `sleep`
takes the token, and a new round always begins before the loop can sleep again.  So while
the channel is empty, the round that found nothing began after every nudge.

`Watch` is history kept beside the pool: how many nudges there were, and how many of
them had happened when the last rounds began.
-/

namespace Drover.Pool

open Drover.Foundation
open Drover.Driver

/-- The nudges so far, those before the round begun last, and those before the round
completed last. -/
structure Watch where
  nudges : Nat
  began : Nat
  completed : Option Nat
  deriving DecidableEq, Repr

/-- `acquireSlots` is over and `claimRound` has been called. -/
def begins : Fetch → Fetch → Bool
  | .acquireMore _, .ask _ => true
  | _, _ => false

/-- `claimRound` has returned. -/
def completes : Fetch → Fetch → Bool
  | .ask _, .claimed _ _ | .visited _, .claimed _ _ => true
  | _, _ => false

/-- A pool under watch. -/
structure Watched where
  pool : State
  watch : Watch

/-- An event, noted. -/
def observe (cfg : Config) (s : Watched) (e : Event) : Watched :=
  let pool := after cfg s.pool e
  { pool := pool
    watch :=
      { nudges := if e = .step .nudge then s.watch.nudges + 1 else s.watch.nudges
        began := if begins s.pool.fetch pool.fetch then s.watch.nudges else s.watch.began
        completed :=
          if completes s.pool.fetch pool.fetch then some s.watch.began else s.watch.completed } }

/-- A pool that starts. -/
def Config.watched (cfg : Config) (db : Memdriver.Driver) : Watched := ⟨cfg.start db, ⟨0, 0, none⟩⟩

/-- Watching changes nothing. -/
theorem pool_run_observe (cfg : Config) (s : Watched) (events : List Event) :
    (run (observe cfg) s events).pool = run (after cfg) s.pool events := by
  induction events generalizing s with
  | nil => rfl
  | cons e events ih => rw [run_cons, run_cons, ih, observe]

/-- The loop is in a round. -/
def Fetch.inRound : Fetch → Bool
  | .ask _ | .track _ _ _ | .handBack _ _ _ _ | .untrack _ _ _ | .visited _ => true
  | _ => false

/-- The loop has completed a round and may be on its way to sleep. -/
def Fetch.resting : Fetch → Bool
  | .claimed _ _ | .sleep => true
  | .release _ rows => rows.isSome
  | _ => false

/-- A token is in the channel or the last round began after every nudge, from the round on
until the loop wakes up or dispatches. -/
structure Watched.Awake (s : Watched) : Prop where
  round : s.pool.fetch.inRound = true → s.pool.wake = true ∨ s.watch.began = s.watch.nudges
  rest : s.pool.fetch.resting = true →
    s.pool.wake = true ∨ s.watch.completed = some s.watch.nudges

/-- From `s` to `s'` the loop enters a round only by beginning it, rests only after
completing one, and takes the token only when it leaves its rest. -/
structure Orderly (s s' : State) : Prop where
  round : s'.fetch.inRound = true → s'.wake = s.wake ∧
    (begins s.fetch s'.fetch = true ∨ begins s.fetch s'.fetch = false ∧ s.fetch.inRound = true)
  rest : s'.fetch.resting = true → s'.wake = s.wake ∧
    (completes s.fetch s'.fetch = true ∧ s.fetch.inRound = true ∨
      completes s.fetch s'.fetch = false ∧ s.fetch.resting = true)

/-- The loop stays where it is. -/
theorem orderly_of_same {s s' : State} (hfetch : s'.fetch = s.fetch) (hwake : s'.wake = s.wake) :
    Orderly s s' := by
  have hbegins : begins s.fetch s.fetch = false := by cases s.fetch <;> rfl
  have hcompletes : completes s.fetch s.fetch = false := by cases s.fetch <;> rfl
  refine ⟨?_, ?_⟩ <;> rw [hfetch]
  · exact fun hround => ⟨hwake, Or.inr ⟨hbegins, hround⟩⟩
  · exact fun hrest => ⟨hwake, Or.inr ⟨hcompletes, hrest⟩⟩

theorem fetchStep_orderly {cfg : Config} {s s' : State} {how : FetchStep}
    (h : fetchStep cfg s how = some s') : Orderly s s' := by
  cases FetchTurn.of_step h
  all_goals rename_i hpc
  all_goals refine ⟨?_, ?_⟩ <;> simp only [hpc]
  all_goals simp [Fetch.inRound, Fetch.resting, begins, completes]

theorem handOff_orderly {s s' : State} {w : Nat} (h : handOff s w = some s') : Orderly s s' := by
  obtain ⟨c, rows, -, -, rfl⟩ := handOff_eq_some h
  exact ⟨nofun, nofun⟩

theorem receive_orderly (s : State) (rows : List JobRow) : Orderly s (s.receive rows) := by
  unfold State.receive
  split
  · rename_i hpc
    refine ⟨?_, nofun⟩
    simp [hpc, Fetch.inRound, begins]
  · exact orderly_of_same rfl rfl

/-- Whatever is not a nudge is orderly. -/
theorem after_orderly (cfg : Config) (s : State) {e : Event} (h : e ≠ .step .nudge) :
    Orderly s (after cfg s e) := by
  cases after_turn cfg s e with
  | other hsame hother => exact orderly_of_same hsame.fetch hsame.wake
  | nudge => exact absurd rfl h
  | fetch hstep => exact fetchStep_orderly hstep
  | handOff hstep => exact handOff_orderly hstep
  | worker hstep =>
      have hframe := workerStep_frame hstep
      exact orderly_of_same hframe.fetch hframe.wake
  | reply => exact receive_orderly s _

theorem awake_start (cfg : Config) (db : Memdriver.Driver) : (cfg.watched db).Awake := ⟨nofun, nofun⟩

theorem Watched.Awake.observe {cfg : Config} {s : Watched} (h : s.Awake) (e : Event) :
    (observe cfg s e).Awake := by
  by_cases hnudge : e = .step .nudge
  · -- the channel holds a token now, whether or not it was this nudge that left it
    subst hnudge
    exact ⟨fun _ => Or.inl rfl, fun _ => Or.inl rfl⟩
  · obtain ⟨hround, hrest⟩ := after_orderly cfg s.pool hnudge
    refine ⟨?_, ?_⟩ <;> simp only [Pool.observe, if_neg hnudge]
    · intro hin
      obtain ⟨hwake, hbegins | ⟨hbegins, hbefore⟩⟩ := hround hin
      · simp [hbegins]
      · simpa [hbegins, hwake] using h.round hbefore
    · intro hresting
      obtain ⟨hwake, ⟨hcompletes, hbefore⟩ | ⟨hcompletes, hbefore⟩⟩ := hrest hresting
      · simpa [hcompletes, hwake] using h.round hbefore
      · simpa [hcompletes, hwake] using h.rest hbefore

/-- In every state of every run in which the loop is blocked in `sleep` and the wake channel
is empty, the claim round it completed last began after every nudge so far. -/
theorem run_no_lost_wakeup (cfg : Config) (db : Memdriver.Driver) (events : List Event)
    (hsleep : (run (after cfg) (cfg.start db) events).fetch = .sleep)
    (hwake : (run (after cfg) (cfg.start db) events).wake = false) :
    (run (observe cfg) (cfg.watched db) events).watch.completed =
      some (run (observe cfg) (cfg.watched db) events).watch.nudges := by
  have hawake : (run (observe cfg) (cfg.watched db) events).Awake :=
    run_invariant (P := Watched.Awake) (fun s e h => h.observe e) (awake_start cfg db) events
  have hpool : (run (observe cfg) (cfg.watched db) events).pool =
      run (after cfg) (cfg.start db) events := pool_run_observe cfg (cfg.watched db) events
  have hrest := hawake.rest
  rw [hpool, hsleep, hwake] at hrest
  exact (hrest rfl).resolve_left nofun

/-- A nudge while a round that finds nothing is under way, and the loop going on until it
sleeps on an empty channel. -/
def nudgedRun : List Event :=
  [.step (.fetch .go), .step (.fetch (.order [[]])), .reply [], .step .nudge] ++
    List.replicate 9 (.step (.fetch .go)) ++ [.step (.fetch (.order [[]])), .reply []] ++
    List.replicate 6 (.step (.fetch .go))

/-- The token outlives the round and is taken before the next one, which is the one that
counts. -/
theorem nudgedRun_not_lost :
    (run (after single) (single.start Memdriver.new) nudgedRun).fetch = .sleep ∧
      (run (observe single) (single.watched Memdriver.new) nudgedRun).watch.nudges = 1 ∧
      (run (observe single) (single.watched Memdriver.new) nudgedRun).watch.completed =
        some (run (observe single) (single.watched Memdriver.new) nudgedRun).watch.nudges :=
  ⟨by decide, by decide, run_no_lost_wakeup single Memdriver.new nudgedRun (by decide) (by decide)⟩

end Drover.Pool
