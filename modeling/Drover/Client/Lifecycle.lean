import Drover.Client.Start
import Drover.Pool.Turns

set_option autoImplicit false

/-!
# The life of a client

A client goes through its life once: a runner is created, it is launched, its shutdown
begins, `stopFetch` is closed, then `stopHeartbeat`, then `done`.  `State.phase` says how
far it has come, and each of these deeds takes it from one phase to the next, whoever
calls what and when.
-/

namespace Drover.Client

open Drover.Foundation
open Drover.Pool (StopError Drain)

/-! ## Deeds -/

/-- What happens once in a client's life, in this order. -/
inductive Deed where
  /-- `newRunner` -/
  | create
  /-- `r.start` -/
  | launch
  /-- a call of `drain` -/
  | drain
  /-- `close(r.stopFetch)` -/
  | closeStopFetch
  /-- `close(r.stopHeartbeat)` -/
  | closeStopHeartbeat
  /-- `close(r.done)` -/
  | closeDone
  deriving DecidableEq, Repr

/-- The phase it ends. -/
def Deed.rank : Deed → Nat
  | .create => 0
  | .launch => 1
  | .drain => 2
  | .closeStopFetch => 3
  | .closeStopHeartbeat => 4
  | .closeDone => 5

/-- The deed of a step of `runner.stop`. -/
def Runner.deed (r : Runner) (pc : Stopping) (how : StopStep) : Option Deed :=
  match pc, how with
  | .enter, .go => if r.shutdown = .fresh then some .drain else none
  | .draining, .drain .go =>
      match r.pool.drain with
      | .stopping => some .closeStopFetch
      | .closing _ => some .closeStopHeartbeat
      | _ => none
  | .close, .go => some .closeDone
  | _, _ => none

/-- The deed of a step. -/
def State.deed (s : State) : Label → Option Deed
  | .start n how =>
      match (s.starts n).pc, how with
      | .publish, .publish _ => some .create
      | .launch, .go => if s.runner.isSome then some .launch else none
      | _, _ => none
  | .stop n how =>
      match s.stops n, s.runner with
      | .found pc, some r => r.deed pc how
      | _, _ => none
  | .watch how =>
      match s.runner with
      | some r =>
          match r.watcher with
          | .stopping pc => r.deed pc how
          | _ => none
      | none => none
  | _ => none

/-- How far the shutdown has come. -/
def phaseOfDrain : Drain → Nat
  | .none | .stopping => 3
  | .waiting | .escalating | .cancelling _ | .requeueing _ _ | .closing _ => 4
  | .joining _ | .shutting _ | .returned _ => 5

/-- How far the runner has come. -/
def Runner.phase (r : Runner) : Nat :=
  if r.done then 6
  else
    match r.shutdown with
    | .fresh => if r.launched then 2 else 1
    | _ => phaseOfDrain r.pool.drain

/-- How far the client has come. -/
def State.phase (s : State) : Nat :=
  match s.runner with
  | some r => r.phase
  | none => 0

/-! ## What holds of a runner and of those who stop it -/

/-- A runner between two steps. -/
structure Runner.Consistent (r : Runner) : Prop where
  fresh : r.shutdown = .fresh → r.pool.drain = .none ∧ r.done = false
  finished : r.shutdown = .finished → r.done = true
  done : r.done = true → r.pool.drain = .returned r.stopErr
  unlaunched : r.launched = false → r.shutdown = .fresh ∧ r.watcher = .none

/-- A call of `runner.stop` between two steps. -/
def Stopping.Consistent (r : Runner) (who : Caller) : Stopping → Prop
  | .enter => r.launched = true
  | .draining => r.shutdown = .running who ∧ r.done = false
  | .close => r.shutdown = .running who ∧ r.done = false ∧ r.pool.drain = .returned r.stopErr
  | .leave => r.shutdown = .running who ∧ r.done = true
  | .await => r.done = true
  | .returned err => r.done = true ∧ err = r.stopErr

/-- What a step of one caller of `runner.stop` does to the runner, to the caller and to
the others. -/
structure CallSpec (r : Runner) (who : Caller) (pc : Stopping) (how : StopStep) (r' : Runner)
    (pc' : Stopping) : Prop where
  runner : r'.Consistent
  caller : pc'.Consistent r' who
  others : ∀ other, other ≠ who → ∀ pc : Stopping, pc.Consistent r other → pc.Consistent r' other
  owner : r'.owner = r.owner
  launched : r'.launched = r.launched
  watcher : r'.watcher = r.watcher
  phase : r'.phase = r.phase + ((r.deed pc how).isSome).toNat
  rank : ∀ d, r.deed pc how = some d → r.phase = d.rank

theorem Runner.Consistent.launched_of_running {r : Runner} (h : r.Consistent) {who : Caller}
    (hrunning : r.shutdown = .running who) : r.launched = true := by
  by_contra hnot
  have hfresh := (h.unlaunched (by simpa using hnot)).1
  rw [hrunning] at hfresh
  cases hfresh

theorem consistent_of_running {r : Runner} {who : Caller} (hrunning : r.shutdown = .running who)
    (hdone : r.done = false) (hlaunched : r.launched = true) : r.Consistent := by
  refine ⟨fun h => ?_, fun h => ?_, fun h => ?_, fun h => ?_⟩
  · exact absurd (hrunning.symm.trans h) nofun
  · exact absurd (hrunning.symm.trans h) nofun
  · exact absurd (hdone.symm.trans h) nofun
  · exact absurd (h.symm.trans hlaunched) nofun

/-- The phases `drain` goes through. -/
theorem phase_of_drainStep {cfg : Pool.Config} {s s' : Pool.State} {how : Pool.DrainStep}
    (h : Pool.drainStep cfg s how = some s') (r : Runner) (hpool : r.pool = s) :
    phaseOfDrain s'.drain =
        phaseOfDrain s.drain + ((r.deed .draining (.drain how)).isSome).toNat ∧
      ∀ d, r.deed .draining (.drain how) = some d → phaseOfDrain s.drain = d.rank := by
  subst hpool
  cases Pool.DrainTurn.of_step h
  all_goals rename_i hpc
  all_goals simp [Runner.deed, hpc, phaseOfDrain, Deed.rank]

/-- What the caller that runs the shutdown does leaves the others where they are: they have
not entered it, or it is over. -/
theorem Stopping.Consistent.of_running {r r' : Runner} {who other : Caller} {pc : Stopping}
    (h : pc.Consistent r other) (hne : other ≠ who) (hrunning : r.shutdown = .running who)
    (hlaunched : r'.launched = r.launched)
    (hdone : r.done = true → r'.done = true ∧ r'.stopErr = r.stopErr) : pc.Consistent r' other := by
  have hother : r.shutdown ≠ .running other := by
    rw [hrunning]
    exact fun heq => hne (Once.running.inj heq).symm
  cases pc with
  | enter => exact hlaunched.trans h
  | draining => exact absurd h.1 hother
  | close => exact absurd h.1 hother
  | leave => exact absurd h.1 hother
  | await => exact (hdone h).1
  | returned err => exact ⟨(hdone h.1).1, h.2.trans (hdone h.1).2.symm⟩

/-- The runners differ in nothing a call of `runner.stop` looks at. -/
structure Runner.Same (r r' : Runner) : Prop where
  drain : r'.pool.drain = r.pool.drain
  shutdown : r'.shutdown = r.shutdown
  done : r'.done = r.done
  stopErr : r'.stopErr = r.stopErr

theorem Stopping.Consistent.of_same {r r' : Runner} {who : Caller} {pc : Stopping}
    (h : pc.Consistent r who) (hsame : r.Same r') (hlaunched : r.launched = true → r'.launched = true) :
    pc.Consistent r' who := by
  obtain ⟨hdrain, hshutdown, hdone, hstopErr⟩ := hsame
  cases pc with
  | enter => exact hlaunched h
  | draining => exact ⟨hshutdown.trans h.1, hdone.trans h.2⟩
  | close =>
      refine ⟨hshutdown.trans h.1, hdone.trans h.2.1, ?_⟩
      rw [hdrain, hstopErr]
      exact h.2.2
  | leave => exact ⟨hshutdown.trans h.1, hdone.trans h.2⟩
  | await => exact hdone.trans h
  | returned err => exact ⟨hdone.trans h.1, h.2.trans hstopErr.symm⟩

theorem Runner.Consistent.of_same {r r' : Runner} (h : r.Consistent) (hsame : r.Same r')
    (hunlaunched : r'.launched = false → r'.shutdown = .fresh ∧ r'.watcher = .none) :
    r'.Consistent := by
  obtain ⟨hdrain, hshutdown, hdone, hstopErr⟩ := hsame
  refine ⟨?_, ?_, ?_, hunlaunched⟩
  · rw [hshutdown, hdrain, hdone]
    exact h.fresh
  · rw [hshutdown, hdone]
    exact h.finished
  · rw [hdone, hdrain, hstopErr]
    exact h.done

theorem Runner.Same.phase {r r' : Runner} (h : r.Same r') (hlaunched : r'.launched = r.launched) :
    r'.phase = r.phase := by
  simp only [Runner.phase, h.drain, h.shutdown, h.done, hlaunched]

/-- Nobody is inside a shutdown that has not begun. -/
theorem Stopping.Consistent.enter_of_fresh {r : Runner} (hr : r.Consistent) {who : Caller}
    {pc : Stopping} (h : pc.Consistent r who) (hfresh : r.shutdown = .fresh) : pc = .enter := by
  have hdone := (hr.fresh hfresh).2
  cases pc with
  | enter => rfl
  | draining => exact absurd (hfresh.symm.trans h.1) (by simp)
  | close => exact absurd (hfresh.symm.trans h.1) (by simp)
  | leave => exact absurd (hfresh.symm.trans h.1) (by simp)
  | await => exact absurd (hdone.symm.trans h) (by simp)
  | returned err => exact absurd (hdone.symm.trans h.1) (by simp)

theorem callStep_spec {cfg : Pool.Config} {r r' : Runner} {who : Caller} {pc pc' : Stopping}
    {how : StopStep} (hr : r.Consistent) (hpc : pc.Consistent r who)
    (h : callStep cfg r who pc how = some (r', pc')) : CallSpec r who pc how r' pc' := by
  unfold callStep at h
  split at h
  · -- `shutdown.Do`
    have hlaunched : r.launched = true := hpc
    split at h
    · rename_i hfresh
      cases h
      obtain ⟨hdrain, hdone⟩ := hr.fresh hfresh
      refine ⟨consistent_of_running rfl hdone hlaunched, ⟨rfl, hdone⟩, ?_, rfl, rfl, rfl, ?_, ?_⟩
      · intro other hne pc hother
        obtain rfl := hother.enter_of_fresh hr hfresh
        exact hother
      · simp [Runner.phase, Runner.deed, hdone, hfresh, hdrain, phaseOfDrain, hlaunched]
      · intro d hd
        simp only [Runner.deed, hfresh, if_true, Option.some.injEq] at hd
        subst hd
        simp [Runner.phase, hdone, hfresh, hlaunched, Deed.rank]
    · cases h
    · rename_i hfinished
      cases h
      refine ⟨hr, hr.finished hfinished, fun _ _ _ hother => hother, rfl, rfl, rfl, ?_, ?_⟩
      · simp [Runner.deed, hfinished]
      · intro d hd
        simp [Runner.deed, hfinished] at hd
  · -- a step of `drain`
    obtain ⟨hrunning, hdone⟩ := hpc
    have hlaunched := hr.launched_of_running hrunning
    split at h
    · cases h
    · obtain ⟨pool, hpool, heq⟩ := Option.map_eq_some_iff.mp h
      cases heq
      obtain ⟨hphase, hrank⟩ := phase_of_drainStep hpool r rfl
      refine ⟨consistent_of_running hrunning hdone hlaunched, ⟨hrunning, hdone⟩, ?_, rfl, rfl, rfl,
        ?_, ?_⟩
      · intro other hne pc hother
        exact hother.of_running hne hrunning rfl fun hd => ⟨hd, rfl⟩
      · simpa [Runner.phase, hdone, hrunning] using hphase
      · simpa [Runner.phase, hdone, hrunning] using hrank
  · -- `drain` has returned
    obtain ⟨hrunning, hdone⟩ := hpc
    have hlaunched := hr.launched_of_running hrunning
    split at h
    · rename_i err hdrain
      cases h
      refine ⟨consistent_of_running hrunning hdone hlaunched, ⟨hrunning, hdone, hdrain⟩, ?_, rfl, rfl,
        rfl, ?_, nofun⟩
      · intro other hne pc hother
        exact hother.of_running hne hrunning rfl fun hd => absurd (hdone.symm.trans hd) (by simp)
      · simp [Runner.phase, Runner.deed]
    · cases h
  · -- `close(r.done)`
    cases h
    obtain ⟨hrunning, hdone, hdrain⟩ := hpc
    refine ⟨⟨?_, fun _ => rfl, fun _ => hdrain, hr.unlaunched⟩, ⟨hrunning, rfl⟩, ?_, rfl, rfl, rfl, ?_,
      ?_⟩
    · exact fun hfresh => absurd (hrunning.symm.trans hfresh) (by simp)
    · intro other hne pc hother
      exact hother.of_running hne hrunning rfl fun _ => ⟨rfl, rfl⟩
    · simp [Runner.phase, Runner.deed, hdone, hrunning, hdrain, phaseOfDrain]
    · intro d hd
      simp only [Runner.deed, Option.some.injEq] at hd
      subst hd
      simp [Runner.phase, hdone, hrunning, hdrain, phaseOfDrain, Deed.rank]
  · -- the end of `shutdown.Do`
    cases h
    obtain ⟨hrunning, hdone⟩ := hpc
    refine ⟨⟨nofun, fun _ => hdone, hr.done, ?_⟩, hdone, ?_, rfl, rfl, rfl, ?_, nofun⟩
    · exact fun hl => absurd (hl.symm.trans (hr.launched_of_running hrunning)) (by simp)
    · intro other hne pc hother
      exact hother.of_running hne hrunning rfl fun hd => ⟨hd, rfl⟩
    · simp [Runner.phase, Runner.deed, hdone]
  · -- `<-r.done`
    split at h
    · rename_i hdone
      cases h
      exact ⟨hr, ⟨hdone, rfl⟩, fun _ _ _ hother => hother, rfl, rfl, rfl, rfl, nofun⟩
    · cases h
  · cases h

/-! ## What holds of a client -/

/-- The call holds the client's mutex. -/
def Starting.holds : Starting → Bool
  | .check | .recheck | .publish | .launch | .watch | .unlock => true
  | _ => false

/-- A call of `Start` owns a listener only between `net.Listen` and its return, and has
spawned nothing as long as it may fail. -/
def StartCall.Tidy (call : StartCall) : Prop :=
  match call.pc with
  | .idle | .lock | .check | .listen | .returned (some _) => call.bound = false ∧ call.spawned = false
  | .relock | .recheck | .publish | .discard => call.spawned = false
  | .launch | .watch | .unlock | .returned none => True

/-- A call of `Start` between two steps. -/
structure StartCall.Consistent (mu : Option Holder) (runner : Option Runner) (n : Nat)
    (call : StartCall) : Prop where
  holder : call.pc.holds = true → mu = some (.start n)
  publish : call.pc = .publish → runner = none
  launch : call.pc = .launch → ∃ r, runner = some r ∧ r.launched = false
  watch : call.pc = .watch → ∃ r, runner = some r ∧ r.launched = true ∧ r.watcher = .none
  tidy : call.Tidy

/-- A call of `Stop` between two steps. -/
structure StopCall.Consistent (mu : Option Holder) (runner : Option Runner) (n : Nat)
    (call : StopCall) : Prop where
  holder : call = .read → mu = some (.stop n)
  found : ∀ pc, call = .found pc → ∃ r, runner = some r ∧ pc.Consistent r (.stop n)

/-- A client between two steps. -/
structure State.Consistent (s : State) : Prop where
  starts : ∀ n, (s.starts n).Consistent s.mu s.runner n
  stops : ∀ n, (s.stops n).Consistent s.mu s.runner n
  runner : ∀ r, s.runner = some r → r.Consistent
  unlaunched : ∀ r, s.runner = some r → r.launched = false → (s.starts r.owner).pc = .launch
  watcher : ∀ r pc, s.runner = some r → r.watcher = .stopping pc → pc.Consistent r .watcher

theorem consistent_fresh : fresh.Consistent := by
  refine ⟨fun _ => ⟨?_, ?_, ?_, ?_, ⟨rfl, rfl⟩⟩, fun _ => ⟨?_, ?_⟩, ?_, ?_, ?_⟩
  all_goals simp [fresh, Starting.holds]

/-! ## What a step leaves alone -/

/-- A call that does not hold the mutex does not mind what its holder does. -/
theorem StartCall.Consistent.of_not_holds {mu mu' : Option Holder} {runner runner' : Option Runner}
    {n : Nat} {call : StartCall} (h : call.Consistent mu runner n) (hmu : mu ≠ some (.start n)) :
    call.Consistent mu' runner' n := by
  have hholds : call.pc.holds ≠ true := fun hholds => hmu (h.holder hholds)
  refine ⟨fun hh => absurd hh hholds, ?_, ?_, ?_, h.tidy⟩
  all_goals
    intro hpc
    rw [hpc] at hholds
    exact absurd rfl hholds

/-- A call of `Start` does not mind what a caller of `runner.stop` does. -/
theorem StartCall.Consistent.of_runner {mu : Option Holder} {r r' : Runner} {n : Nat}
    {call : StartCall} (h : call.Consistent mu (some r) n) (hlaunched : r'.launched = r.launched)
    (hwatcher : r.watcher = .none → r'.watcher = .none) : call.Consistent mu (some r') n := by
  refine ⟨h.holder, fun hpc => absurd (h.publish hpc) nofun, fun hpc => ?_, fun hpc => ?_, h.tidy⟩
  · obtain ⟨r₀, heq, hl⟩ := h.launch hpc
    cases heq
    exact ⟨r', rfl, hlaunched.trans hl⟩
  · obtain ⟨r₀, heq, hl, hw⟩ := h.watch hpc
    cases heq
    exact ⟨r', rfl, hlaunched.trans hl, hwatcher hw⟩

/-- A call of `Stop` does not mind what another holder of the mutex does to it. -/
theorem StopCall.Consistent.of_ne {mu mu' : Option Holder} {runner : Option Runner} {n : Nat}
    {call : StopCall} (h : call.Consistent mu runner n) (hmu : mu ≠ some (.stop n)) :
    call.Consistent mu' runner n :=
  ⟨fun hread => absurd (h.holder hread) hmu, h.found⟩

theorem StopCall.Consistent.of_runner {mu : Option Holder} {r r' : Runner} {n : Nat}
    {call : StopCall} (h : call.Consistent mu (some r) n)
    (hpc : ∀ pc : Stopping, pc.Consistent r (.stop n) → pc.Consistent r' (.stop n)) :
    call.Consistent mu (some r') n := by
  refine ⟨h.holder, fun pc hfound => ?_⟩
  obtain ⟨r₀, heq, hcall⟩ := h.found pc hfound
  cases heq
  exact ⟨r', rfl, hpc pc hcall⟩

/-- The client after a step of the n-th `Start`. -/
theorem consistent_setStart {s : State} {n : Nat} {mu : Option Holder}
    {runner : Option Runner} {call : StartCall} (hcall : call.Consistent mu runner n)
    (hstarts : ∀ m, m ≠ n → (s.starts m).Consistent mu runner m)
    (hstops : ∀ m, (s.stops m).Consistent mu runner m)
    (hrunner : ∀ r, runner = some r → r.Consistent)
    (hwatcher : ∀ r pc, runner = some r → r.watcher = .stopping pc → pc.Consistent r .watcher)
    (hlaunch : ∀ r, runner = some r → r.launched = false →
      (r.owner ≠ n → (s.starts r.owner).pc = .launch) ∧ (r.owner = n → call.pc = .launch)) :
    (State.setStart { s with mu := mu, runner := runner } n call).Consistent := by
  refine ⟨fun m => ?_, hstops, hrunner, fun r hr hl => ?_, hwatcher⟩
  · by_cases hm : m = n
    · subst hm
      simpa [State.setStart] using hcall
    · simpa [State.setStart, Function.update_of_ne hm] using hstarts m hm
  · obtain ⟨hother, hself⟩ := hlaunch r hr hl
    by_cases hn : r.owner = n
    · simpa [State.setStart, hn] using hself hn
    · simpa [State.setStart, Function.update_of_ne hn] using hother hn

/-- A step of the n-th `Start` that does not touch the runner. -/
theorem State.Consistent.setStart {s : State} (h : s.Consistent) {n : Nat}
    {mu : Option Holder} {call : StartCall} (hpc : (s.starts n).pc ≠ .launch)
    (hmu : mu = s.mu ∨ s.mu = none ∨ s.mu = some (.start n))
    (hcall : call.Consistent mu s.runner n) : (State.setStart { s with mu := mu } n call).Consistent := by
  refine consistent_setStart hcall (fun m hm => ?_) (fun m => ?_) h.runner h.watcher ?_
  · rcases hmu with rfl | hmu | hmu
    · exact h.starts m
    · exact (h.starts m).of_not_holds (by rw [hmu]; nofun)
    · refine (h.starts m).of_not_holds ?_
      rw [hmu]
      exact fun heq => hm (Holder.start.inj (Option.some.inj heq)).symm
  · rcases hmu with rfl | hmu | hmu
    · exact h.stops m
    · exact (h.stops m).of_ne (by rw [hmu]; nofun)
    · exact (h.stops m).of_ne (by rw [hmu]; nofun)
  · intro r hr hl
    have howner := h.unlaunched r hr hl
    refine ⟨fun _ => howner, fun hn => ?_⟩
    rw [hn] at howner
    exact absurd howner hpc

theorem consistent_newRunner (cfg : Pool.Config) (n : Nat) (db : Memdriver.Driver) :
    (newRunner cfg n db).Consistent :=
  ⟨fun _ => ⟨rfl, rfl⟩, nofun, nofun, fun _ => ⟨rfl, rfl⟩⟩

/-- A call that is neither here nor there only has to be tidy. -/
theorem consistent_of_tidy {mu : Option Holder} {runner : Option Runner} {n : Nat}
    {call : StartCall} (hpc : call.pc.holds = false) (h : call.Tidy) :
    call.Consistent mu runner n := by
  refine ⟨fun hholds => absurd (hpc.symm.trans hholds) nofun, ?_, ?_, ?_, h⟩
  all_goals
    intro heq
    rw [heq] at hpc
    cases hpc

/-- The holder of the mutex may do to the runner what leaves the callers of `runner.stop`
where they are. -/
theorem State.Consistent.setRunner {s : State} (h : s.Consistent) {n : Nat} {r : Runner}
    {call : StartCall} (hholds : (s.starts n).pc.holds = true)
    (hcall : call.Consistent s.mu (some r) n)
    (hfound : ∀ m pc, s.stops m = .found pc → pc.Consistent r (.stop m)) (hr : r.Consistent)
    (hwatcher : ∀ pc, r.watcher = .stopping pc → pc.Consistent r .watcher)
    (hlaunch : r.launched = false → r.owner = n ∧ call.pc = .launch) :
    (State.setStart { s with runner := some r } n call).Consistent := by
  have hmu := (h.starts n).holder hholds
  refine consistent_setStart hcall (fun m hm => ?_) (fun m => ?_) ?_ ?_ ?_
  · refine (h.starts m).of_not_holds ?_
    rw [hmu]
    exact fun heq => hm (Holder.start.inj (Option.some.inj heq)).symm
  · exact ⟨(h.stops m).holder, fun pc hpc => ⟨r, rfl, hfound m pc hpc⟩⟩
  · rintro _ ⟨⟩
    exact hr
  · rintro _ pc ⟨⟩
    exact hwatcher pc
  · rintro _ ⟨⟩ hl
    exact ⟨fun hne => absurd (hlaunch hl).1 hne, fun _ => (hlaunch hl).2⟩

/-- Callers of `runner.stop` do not notice a change of the runner outside its shutdown. -/
theorem State.Consistent.found_of_same {s : State} (h : s.Consistent) {r r' : Runner}
    (hr : s.runner = some r) (hsame : r.Same r')
    (hlaunched : r.launched = true → r'.launched = true) {m : Nat} {pc : Stopping}
    (hfound : s.stops m = .found pc) : pc.Consistent r' (.stop m) := by
  obtain ⟨found, hread, hstop⟩ := (h.stops m).found pc hfound
  cases hr.symm.trans hread
  exact hstop.of_same hsame hlaunched

/-- `Start` publishes a runner. -/
theorem State.Consistent.publish {s : State} (h : s.Consistent) {n : Nat}
    (hpc : (s.starts n).pc = .publish) (cfg : Pool.Config) (db : Memdriver.Driver) :
    (State.setStart { s with runner := some (newRunner cfg n db) } n
      { s.starts n with pc := .launch }).Consistent := by
  have hcall := h.starts n
  have hmu := hcall.holder (by rw [hpc]; rfl)
  have hnone := hcall.publish hpc
  refine h.setRunner (by rw [hpc]; rfl) ?_ ?_ (consistent_newRunner cfg n db) nofun
    (fun _ => ⟨rfl, rfl⟩)
  · exact ⟨fun _ => hmu, nofun, fun _ => ⟨_, rfl, rfl⟩, nofun, trivial⟩
  · -- nobody has found a runner yet
    intro m pc hfound
    obtain ⟨r, hr, -⟩ := (h.stops m).found pc hfound
    rw [hnone] at hr
    cases hr

/-- `Start` launches the goroutines of the runner it published. -/
theorem State.Consistent.launch {s : State} (h : s.Consistent) {n : Nat}
    (hpc : (s.starts n).pc = .launch) {r : Runner} (hr : s.runner = some r)
    (hl : r.launched = false) :
    (State.setStart { s with runner := some { r with launched := true } } n
      { s.starts n with pc := .watch, spawned := true }).Consistent := by
  have hmu := (h.starts n).holder (by rw [hpc]; rfl)
  have hwatcher := ((h.runner r hr).unlaunched hl).2
  have hsame : r.Same { r with launched := true } := ⟨rfl, rfl, rfl, rfl⟩
  refine h.setRunner (by rw [hpc]; rfl) ?_ ?_ ?_ ?_ nofun
  · exact ⟨fun _ => hmu, nofun, nofun, fun _ => ⟨_, rfl, rfl, hwatcher⟩, trivial⟩
  · exact fun m pc hfound => h.found_of_same hr hsame (fun _ => rfl) hfound
  · exact (h.runner r hr).of_same hsame nofun
  · exact fun pc hstopping => absurd (hwatcher.symm.trans hstopping) nofun

/-- `Start` sets the watcher of its context going. -/
theorem State.Consistent.watch {s : State} (h : s.Consistent) {n : Nat}
    (hpc : (s.starts n).pc = .watch) {r : Runner} (hr : s.runner = some r)
    (hl : r.launched = true) :
    (State.setStart { s with runner := some { r with watcher := .select } } n
      { s.starts n with pc := .unlock }).Consistent := by
  have hmu := (h.starts n).holder (by rw [hpc]; rfl)
  have hlaunched : r.launched ≠ false := by rw [hl]; nofun
  have hsame : r.Same { r with watcher := .select } := ⟨rfl, rfl, rfl, rfl⟩
  refine h.setRunner (by rw [hpc]; rfl) ?_ ?_ ?_ nofun (fun h => absurd h hlaunched)
  · exact ⟨fun _ => hmu, nofun, nofun, nofun, trivial⟩
  · exact fun m pc hfound => h.found_of_same hr hsame id hfound
  · exact (h.runner r hr).of_same hsame fun h => absurd h hlaunched

theorem startStep_consistent {cfg : Pool.Config} {s s' : State} {n : Nat} {how : StartStep}
    (h : s.Consistent) (hstep : startStep cfg s n how = some s') : s'.Consistent := by
  have hcall := h.starts n
  have htidy := hcall.tidy
  unfold StartCall.Tidy at htidy
  cases StartTurn.of_step hstep with
  | call hpc =>
      rw [hpc] at htidy
      exact h.setStart (by rw [hpc]; nofun) (Or.inl rfl) (consistent_of_tidy rfl htidy)
  | lock hfree hpc =>
      rw [hpc] at htidy
      exact h.setStart (by rw [hpc]; nofun) (Or.inr (Or.inl hfree))
        ⟨fun _ => rfl, nofun, nofun, nofun, htidy⟩
  | found hsome hpc =>
      rw [hpc] at htidy
      have hmu := hcall.holder (by rw [hpc]; rfl)
      exact h.setStart (by rw [hpc]; nofun) (Or.inr (Or.inr hmu)) (consistent_of_tidy rfl htidy)
  | listen hnone hops hpc =>
      rw [hpc] at htidy
      have hmu := hcall.holder (by rw [hpc]; rfl)
      exact h.setStart (by rw [hpc]; nofun) (Or.inr (Or.inr hmu)) (consistent_of_tidy rfl htidy)
  | skip hnone hops hpc =>
      rw [hpc] at htidy
      have hmu := hcall.holder (by rw [hpc]; rfl)
      exact h.setStart (by rw [hpc]; nofun) (Or.inr (Or.inr hmu)) (consistent_of_tidy rfl htidy.2)
  | bind hpc =>
      rw [hpc] at htidy
      exact h.setStart (by rw [hpc]; nofun) (Or.inl rfl) (consistent_of_tidy rfl htidy.2)
  | refuse hpc =>
      rw [hpc] at htidy
      exact h.setStart (by rw [hpc]; nofun) (Or.inl rfl) (consistent_of_tidy rfl htidy)
  | relock hfree hpc =>
      rw [hpc] at htidy
      exact h.setStart (by rw [hpc]; nofun) (Or.inr (Or.inl hfree))
        ⟨fun _ => rfl, nofun, nofun, nofun, htidy⟩
  | late hsome hpc =>
      rw [hpc] at htidy
      have hmu := hcall.holder (by rw [hpc]; rfl)
      exact h.setStart (by rw [hpc]; nofun) (Or.inr (Or.inr hmu)) (consistent_of_tidy rfl htidy)
  | first hnone hpc =>
      rw [hpc] at htidy
      have hmu := hcall.holder (by rw [hpc]; rfl)
      exact h.setStart (by rw [hpc]; nofun) (Or.inl rfl)
        ⟨fun _ => hmu, fun _ => by simpa using hnone, nofun, nofun, htidy⟩
  | @publish db hpc => exact h.publish hpc cfg db
  | launch hr hpc =>
      obtain ⟨r, hr', hl⟩ := hcall.launch hpc
      cases hr.symm.trans hr'
      exact h.launch hpc hr hl
  | watch hr hpc =>
      obtain ⟨r, hr', hl, -⟩ := hcall.watch hpc
      cases hr.symm.trans hr'
      exact h.watch hpc hr hl
  | unlock hpc =>
      have hmu := hcall.holder (by rw [hpc]; rfl)
      exact h.setStart (by rw [hpc]; nofun) (Or.inr (Or.inr hmu)) (consistent_of_tidy rfl trivial)
  | discard hpc =>
      rw [hpc] at htidy
      exact h.setStart (by rw [hpc]; nofun) (Or.inl rfl) (consistent_of_tidy rfl ⟨rfl, htidy⟩)

/-- A step of the n-th `Stop` that does not touch the runner. -/
theorem State.Consistent.setStop {s : State} (h : s.Consistent) {n : Nat} {mu : Option Holder}
    {call : StopCall} (hmu : mu = s.mu ∨ s.mu = none ∨ s.mu = some (.stop n))
    (hcall : call.Consistent mu s.runner n) :
    (State.setStop { s with mu := mu } n call).Consistent := by
  refine ⟨fun m => ?_, fun m => ?_, h.runner, h.unlaunched, h.watcher⟩
  · rcases hmu with rfl | hmu | hmu
    · exact h.starts m
    · exact (h.starts m).of_not_holds (by rw [hmu]; nofun)
    · exact (h.starts m).of_not_holds (by rw [hmu]; nofun)
  · by_cases hm : m = n
    · subst hm
      simpa [State.setStop] using hcall
    · have hkeep : (State.setStop { s with mu := mu } n call).stops m = s.stops m := by
        simp [State.setStop, Function.update_of_ne hm]
      rw [hkeep]
      rcases hmu with rfl | hmu | hmu
      · exact h.stops m
      · exact (h.stops m).of_ne (by rw [hmu]; nofun)
      · refine (h.stops m).of_ne ?_
        rw [hmu]
        exact fun heq => hm (Holder.stop.inj (Option.some.inj heq)).symm

/-- A step of a caller of `runner.stop`, or of the runner's own goroutines. -/
theorem State.Consistent.moveRunner {s : State} (h : s.Consistent) {r r' : Runner}
    {stops : Nat → StopCall} (hr : s.runner = some r) (hr' : r'.Consistent)
    (howner : r'.owner = r.owner) (hlaunched : r'.launched = r.launched)
    (hnone : r.watcher = .none → r'.watcher = .none)
    (hstops : ∀ m, (stops m).Consistent s.mu (some r') m)
    (hwatcher : ∀ pc, r'.watcher = .stopping pc → pc.Consistent r' .watcher) :
    State.Consistent { s with runner := some r', stops := stops } := by
  refine ⟨fun m => ?_, hstops, ?_, ?_, ?_⟩
  · have hstart := h.starts m
    rw [hr] at hstart
    exact hstart.of_runner hlaunched hnone
  · rintro _ ⟨⟩
    exact hr'
  · rintro _ ⟨⟩ hl
    show (s.starts r'.owner).pc = .launch
    rw [howner]
    exact h.unlaunched r hr (hlaunched.symm.trans hl)
  · rintro _ pc ⟨⟩
    exact hwatcher pc

/-- Whoever reads the runner under the lock reads one that is launched. -/
theorem State.Consistent.launched {s : State} (h : s.Consistent) {r : Runner}
    (hr : s.runner = some r) (hmu : ∀ n, s.mu ≠ some (.start n)) : r.launched = true := by
  by_contra hl
  have hpc := h.unlaunched r hr (by simpa using hl)
  exact hmu r.owner ((h.starts r.owner).holder (by rw [hpc]; rfl))

theorem stopStep_consistent {cfg : Pool.Config} {s s' : State} {n : Nat} {how : StopStep}
    (h : s.Consistent) (hstep : stopStep cfg s n how = some s') : s'.Consistent := by
  have hcall := h.stops n
  cases StopTurn.of_step hstep with
  | call hpc => exact h.setStop (Or.inl rfl) ⟨nofun, nofun⟩
  | lock hfree hpc => exact h.setStop (Or.inr (Or.inl hfree)) ⟨fun _ => rfl, nofun⟩
  | read hpc =>
      have hmu := hcall.holder hpc
      refine h.setStop (Or.inr (Or.inr hmu)) ?_
      cases hr : s.runner with
      | none => exact ⟨nofun, nofun⟩
      | some r =>
          refine ⟨nofun, ?_⟩
          rintro _ ⟨⟩
          exact ⟨r, rfl, h.launched hr (by rw [hmu]; nofun)⟩
  | @found r r' pc pc' how hr hcallStep hpc =>
      obtain ⟨r₀, hr₀, hstop⟩ := hcall.found _ hpc
      cases hr.symm.trans hr₀
      have hspec := callStep_spec (h.runner r hr) hstop hcallStep
      refine h.moveRunner hr hspec.runner hspec.owner hspec.launched ?_ (fun m => ?_) ?_
      · exact fun hw => hspec.watcher.trans hw
      · by_cases hm : m = n
        · subst hm
          rw [Function.update_self]
          refine ⟨nofun, ?_⟩
          rintro _ ⟨⟩
          exact ⟨r', rfl, hspec.caller⟩
        · have hother := h.stops m
          rw [hr] at hother
          rw [Function.update_of_ne hm]
          exact hother.of_runner (hspec.others _ fun heq => hm (Caller.stop.inj heq))
      · intro pc hw
        rw [hspec.watcher] at hw
        exact hspec.others .watcher nofun pc (h.watcher r pc hr hw)

/-- A step that does not touch the shutdown. -/
theorem State.Consistent.moveSame {s : State} (h : s.Consistent) {r r' : Runner}
    (hr : s.runner = some r) (hsame : r.Same r') (howner : r'.owner = r.owner)
    (hlaunched : r'.launched = r.launched) (hnone : r.watcher = .none → r'.watcher = .none)
    (hwatcher : ∀ pc, r'.watcher = .stopping pc → pc.Consistent r .watcher) :
    State.Consistent { s with runner := some r' } := by
  have hkeep : ∀ {who : Caller} (pc : Stopping), pc.Consistent r who → pc.Consistent r' who :=
    fun pc hpc => hpc.of_same hsame hlaunched.trans
  refine h.moveRunner hr ((h.runner r hr).of_same hsame ?_) howner hlaunched hnone (fun m => ?_) ?_
  · intro hl
    obtain ⟨hfresh, hw⟩ := (h.runner r hr).unlaunched (hlaunched.symm.trans hl)
    exact ⟨hsame.shutdown.trans hfresh, hnone hw⟩
  · have hstop := h.stops m
    rw [hr] at hstop
    exact hstop.of_runner hkeep
  · exact fun pc hpc => hkeep pc (hwatcher pc hpc)

theorem watchStep_consistent {cfg : Pool.Config} {s s' : State} {how : StopStep}
    (h : s.Consistent) (hstep : watchStep cfg s how = some s') : s'.Consistent := by
  unfold watchStep at hstep
  split at hstep
  · rename_i r hr
    have hconsistent := h.runner r hr
    split at hstep
    · rename_i hw
      have hlaunched : r.launched = true := by
        by_contra hl
        exact absurd ((hconsistent.unlaunched (by simpa using hl)).2.symm.trans hw) nofun
      split at hstep <;> cases hstep
      refine h.moveSame hr ⟨rfl, rfl, rfl, rfl⟩ rfl rfl ?_ ?_
      · exact fun hn => absurd (hn.symm.trans hw) nofun
      · rintro _ ⟨⟩
        exact hlaunched
    · rename_i hw
      obtain ⟨⟨r', pc'⟩, hcallStep, heq⟩ := Option.map_eq_some_iff.mp hstep
      cases heq
      have hspec := callStep_spec hconsistent (h.watcher r _ hr hw) hcallStep
      refine h.moveRunner hr (hspec.runner.of_same ⟨rfl, rfl, rfl, rfl⟩ ?_) hspec.owner hspec.launched
        ?_ (fun m => ?_) ?_
      · intro hl
        have hw' := (hconsistent.unlaunched (hspec.launched.symm.trans hl)).2
        exact absurd (hw'.symm.trans hw) nofun
      · exact fun hn => absurd (hn.symm.trans hw) nofun
      · have hstop := h.stops m
        rw [hr] at hstop
        exact hstop.of_runner fun pc hpc =>
          (hspec.others (.stop m) nofun pc hpc).of_same ⟨rfl, rfl, rfl, rfl⟩ id
      · rintro _ ⟨⟩
        exact hspec.caller.of_same ⟨rfl, rfl, rfl, rfl⟩ id
    · cases hstep
  · cases hstep

theorem same_of_pool (cfg : Pool.Config) (r : Runner) {label : Pool.Label}
    (hlabel : ∀ how, label ≠ .drain how) :
    r.Same { r with pool := Pool.next cfg r.pool label } := by
  refine ⟨?_, rfl, rfl, rfl⟩
  show (Pool.next cfg r.pool label).drain = r.pool.drain
  unfold Pool.next
  cases hstep : Pool.step cfg r.pool label with
  | none => rfl
  | some pool => exact Pool.step_drain hstep hlabel

theorem step_pool (cfg : Pool.Config) (s : State) {label : Pool.Label}
    (hlabel : ∀ how, label ≠ .drain how) :
    step cfg s (.pool label) =
      match s.runner with
      | some r =>
          if r.launched then
            some { s with runner := some { r with pool := Pool.next cfg r.pool label } }
          else none
      | none => none := by
  cases label with
  | drain how => exact absurd rfl (hlabel how)
  | _ => rfl

/-- Every step keeps a client consistent. -/
theorem State.Consistent.next {s : State} (h : s.Consistent) (cfg : Pool.Config) (label : Label) :
    (next cfg s label).Consistent := by
  unfold Client.next
  cases hstep : step cfg s label with
  | none => exact h
  | some s' =>
      rw [Option.getD_some]
      cases label with
      | start n how => exact startStep_consistent h hstep
      | stop n how => exact stopStep_consistent h hstep
      | watch how => exact watchStep_consistent h hstep
      | watchDone =>
          simp only [step] at hstep
          split at hstep
          · rename_i r hr
            split at hstep <;> cases hstep
            rename_i hdone
            exact h.moveSame hr ⟨rfl, rfl, rfl, rfl⟩ rfl rfl
              (fun hn => absurd (hn.symm.trans hdone.1) nofun) nofun
          · cases hstep
      | cancel n =>
          cases hstep
          have hcall : StartCall.Consistent s.mu s.runner n { s.starts n with cancelled := true } :=
            ⟨(h.starts n).holder, (h.starts n).publish, (h.starts n).launch, (h.starts n).watch,
              (h.starts n).tidy⟩
          refine consistent_setStart hcall (fun m _ => h.starts m) h.stops h.runner h.watcher ?_
          intro r hr hl
          have hpc := h.unlaunched r hr hl
          exact ⟨fun _ => hpc, fun hn => by rw [← hn]; exact hpc⟩
      | pool label =>
          by_cases hlabel : ∃ how, label = .drain how
          · obtain ⟨how, rfl⟩ := hlabel
            cases hstep
          · have hother : ∀ how, label ≠ .drain how := fun how heq => hlabel ⟨how, heq⟩
            rw [step_pool cfg s hother] at hstep
            split at hstep
            · rename_i r hr
              split at hstep <;> cases hstep
              exact h.moveSame hr (same_of_pool cfg r hother) rfl rfl id fun pc => h.watcher r pc hr
            · cases hstep

/-! ## Deeds and phases -/

/-- The step takes the client from phase to phase as its deed says. -/
def State.Paced (s : State) (label : Label) (s' : State) : Prop :=
  s'.phase = s.phase + ((s.deed label).isSome).toNat ∧
    ∀ d, s.deed label = some d → s.phase = d.rank

theorem paced_of_none {s s' : State} {label : Label} (hdeed : s.deed label = none)
    (hphase : s'.phase = s.phase) : s.Paced label s' := by
  refine ⟨?_, fun d hd => ?_⟩
  · rw [hdeed]
    exact hphase
  · rw [hdeed] at hd
    cases hd

theorem startStep_paced {cfg : Pool.Config} {s s' : State} {n : Nat} {how : StartStep}
    (h : s.Consistent) (hstep : startStep cfg s n how = some s') : s.Paced (.start n how) s' := by
  cases StartTurn.of_step hstep with
  | publish hpc =>
      have hnone := (h.starts n).publish hpc
      refine ⟨?_, fun d hd => ?_⟩
      · simp [State.phase, State.deed, State.setStart, hpc, hnone, Runner.phase, newRunner]
      · simp only [State.deed, hpc, Option.some.injEq] at hd
        subst hd
        simp [State.phase, hnone, Deed.rank]
  | @launch r hr hpc =>
      obtain ⟨r', hr', hl⟩ := (h.starts n).launch hpc
      cases hr.symm.trans hr'
      have hfresh := ((h.runner r hr).unlaunched hl).1
      have hdone := ((h.runner r hr).fresh hfresh).2
      refine ⟨?_, fun d hd => ?_⟩
      · simp [State.phase, State.deed, State.setStart, hpc, hr, Runner.phase, hl, hfresh, hdone]
      · simp only [State.deed, hpc, hr, Option.isSome_some, if_true, Option.some.injEq] at hd
        subst hd
        simp [State.phase, hr, Runner.phase, hl, hfresh, hdone, Deed.rank]
  | watch hr hpc =>
      refine paced_of_none (by simp [State.deed, hpc]) ?_
      simp only [State.phase, State.setStart, hr]
      rfl
  | _ =>
      rename_i hpc
      exact paced_of_none (by simp [State.deed, hpc]) rfl

theorem stopStep_paced {cfg : Pool.Config} {s s' : State} {n : Nat} {how : StopStep}
    (h : s.Consistent) (hstep : stopStep cfg s n how = some s') : s.Paced (.stop n how) s' := by
  cases StopTurn.of_step hstep with
  | @found r r' pc pc' how hr hcallStep hpc =>
      obtain ⟨r₀, hr₀, hstop⟩ := (h.stops n).found _ hpc
      cases hr.symm.trans hr₀
      have hspec := callStep_spec (h.runner r hr) hstop hcallStep
      simp only [State.Paced, State.deed, State.phase, State.setStop, hpc, hr]
      exact ⟨hspec.phase, hspec.rank⟩
  | _ =>
      rename_i hpc
      exact paced_of_none (by simp [State.deed, hpc]) rfl

theorem watchStep_paced {cfg : Pool.Config} {s s' : State} {how : StopStep}
    (h : s.Consistent) (hstep : watchStep cfg s how = some s') : s.Paced (.watch how) s' := by
  unfold watchStep at hstep
  split at hstep
  · rename_i r hr
    split at hstep
    · rename_i hw
      split at hstep <;> cases hstep
      refine paced_of_none (by simp [State.deed, hr, hw]) ?_
      simp only [State.phase, hr]
      rfl
    · rename_i hw
      obtain ⟨⟨r', pc'⟩, hcallStep, heq⟩ := Option.map_eq_some_iff.mp hstep
      cases heq
      have hspec := callStep_spec (h.runner r hr) (h.watcher r _ hr hw) hcallStep
      simp only [State.Paced, State.deed, State.phase, hr, hw]
      exact ⟨hspec.phase, hspec.rank⟩
    · cases hstep
  · cases hstep

/-- A step of `runner.stop` that cannot be taken does nothing. -/
theorem deed_of_callStep {cfg : Pool.Config} {r : Runner} {who : Caller} {pc : Stopping}
    {how : StopStep} (h : callStep cfg r who pc how = none) : r.deed pc how = none := by
  unfold Runner.deed
  split
  · simp only [callStep] at h
    split at h
    · cases h
    · rename_i hrunning
      simp [hrunning]
    · cases h
  · simp only [callStep] at h
    split
    · rename_i hdrain
      simp [Pool.drainStep, hdrain] at h
    · rename_i hdrain
      simp [Pool.drainStep, hdrain] at h
    · rfl
  · cases h
  · rfl

/-- A step that cannot be taken is no deed. -/
theorem deed_of_step {cfg : Pool.Config} {s : State} {label : Label} (h : step cfg s label = none) :
    s.deed label = none := by
  cases label with
  | start n how =>
      simp only [step, startStep] at h
      simp only [State.deed]
      split
      · rename_i hpc
        simp [hpc] at h
      · rename_i hpc
        cases hr : s.runner with
        | none => rfl
        | some r => simp [hpc, hr] at h
      · rfl
  | stop n how =>
      simp only [step, stopStep] at h
      simp only [State.deed]
      split
      · rename_i hpc hr
        simp only [hpc, hr, Option.map_eq_none_iff] at h
        exact deed_of_callStep h
      · rfl
  | watch how =>
      simp only [step, watchStep] at h
      simp only [State.deed]
      split
      · rename_i r hr
        split
        · rename_i hw
          simp only [hr, hw, Option.map_eq_none_iff] at h
          exact deed_of_callStep h
        · rfl
      · rfl
  | watchDone => rfl
  | cancel n => rfl
  | pool label => rfl

theorem State.Consistent.paced {s : State} (h : s.Consistent) (cfg : Pool.Config) (label : Label) :
    s.Paced label (Client.next cfg s label) := by
  unfold Client.next
  cases hstep : step cfg s label with
  | none => exact paced_of_none (deed_of_step hstep) rfl
  | some s' =>
      rw [Option.getD_some]
      cases label with
      | start n how => exact startStep_paced h hstep
      | stop n how => exact stopStep_paced h hstep
      | watch how => exact watchStep_paced h hstep
      | watchDone =>
          simp only [step] at hstep
          split at hstep
          · rename_i r hr
            split at hstep <;> cases hstep
            refine paced_of_none rfl ?_
            simp only [State.phase, hr]
            rfl
          · cases hstep
      | cancel n =>
          cases hstep
          exact paced_of_none rfl rfl
      | pool label =>
          by_cases hlabel : ∃ how, label = .drain how
          · obtain ⟨how, rfl⟩ := hlabel
            cases hstep
          · have hother : ∀ how, label ≠ .drain how := fun how heq => hlabel ⟨how, heq⟩
            rw [step_pool cfg s hother] at hstep
            split at hstep
            · rename_i r hr
              split at hstep <;> cases hstep
              refine paced_of_none rfl ?_
              simp only [State.phase, hr]
              exact (same_of_pool cfg r hother).phase rfl
            · cases hstep

/-- Whatever `Start` and `Stop` calls there are and whenever contexts are cancelled: a
runner is created once at most, launched once, drained once, and each of its channels
closed once.  A `Stop` that found the runner returns what `drain` returned, one that
returned before there was a runner returned `ErrNotStarted`, and a `Start` that failed has
left no listener and no goroutine. -/
theorem run_lifecycle (cfg : Pool.Config) (labels : List Label) :
    let s := run (next cfg) fresh labels
    (∀ deed, tally (next cfg) (fun s label => s.deed label = some deed) fresh labels ≤ 1) ∧
      (∀ n pc, s.stops n = .found pc → ∀ result, (s.stops n).result = some result →
        ∃ r err, s.runner = some r ∧ r.pool.drain = .returned err ∧ result = .verdict err) ∧
      (s.runner = none → ∀ n result, (s.stops n).result = some result → result = .notStarted) ∧
      ∀ n err, (s.starts n).pc = .returned (some err) →
        (s.starts n).bound = false ∧ (s.starts n).spawned = false := by
  intro s
  have h : s.Consistent :=
    run_invariant (fun _ label h => h.next cfg label) consistent_fresh labels
  refine ⟨fun deed => ?_, ?_, ?_, ?_⟩
  · refine tally_le_one (P := State.Consistent) (n := deed.rank) State.phase
      (fun _ label h => h.next cfg label) (fun s label h => ?_) (fun s label h hdeed => ?_)
      consistent_fresh labels
    · rw [(h.paced cfg label).1]
      exact Nat.le_add_right s.phase _
    · have hdeed : s.deed label = some deed := of_decide_eq_true hdeed
      obtain ⟨hphase, hrank⟩ := h.paced cfg label
      rw [hphase, hrank deed hdeed, hdeed]
      exact ⟨rfl, rfl⟩
  · intro n pc hpc result hresult
    obtain ⟨r, hr, hcall⟩ := (h.stops n).found pc hpc
    rw [hpc] at hresult
    cases pc with
    | returned err =>
        cases hresult
        obtain ⟨hdone, rfl⟩ := hcall
        exact ⟨r, r.stopErr, hr, (h.runner r hr).done hdone, rfl⟩
    | _ => cases hresult
  · intro hnone n result hresult
    cases hstop : s.stops n with
    | notStarted =>
        rw [hstop] at hresult
        exact (Option.some.inj hresult).symm
    | found pc =>
        obtain ⟨r, hr, -⟩ := (h.stops n).found pc hstop
        rw [hnone] at hr
        cases hr
    | _ =>
        rw [hstop] at hresult
        cases hresult
  · intro n err hpc
    have htidy := (h.starts n).tidy
    simp only [StartCall.Tidy, hpc] at htidy
    exact htidy

/-- Two callers start a client, the second too late, and two stop it. -/
example :
    let cfg : Pool.Config := ⟨0, [], 1, false⟩
    let go (label : StartStep → Label) (n : Nat) := List.replicate n (label .go)
    let s := run (next cfg) fresh <| List.flatten
      [go (.start 0) 5, go (.start 1) 3, [.start 0 (.publish Memdriver.new)], go (.start 0) 3,
        go (.start 1) 3, List.replicate 4 (.stop 0 .go), List.replicate 2 (.stop 0 (.drain .go)),
        [.pool (.fetch .stop), .pool (.fetch .go)], List.replicate 2 (.stop 0 (.drain .go)),
        [.pool (.heart .stop)], List.replicate 2 (.stop 0 (.drain .go)),
        List.replicate 4 (.stop 1 .go), List.replicate 4 (.stop 0 .go),
        List.replicate 3 (.stop 1 .go)]
    (s.starts 0).pc = .returned none ∧ (s.starts 1).pc = .returned (some .alreadyStarted) ∧
      (s.stops 0).result = some (.verdict []) ∧ (s.stops 1).result = some (.verdict []) := by
  decide +kernel

end Drover.Client
