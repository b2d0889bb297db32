import Drover.Client.Winner
import Drover.Pool.Background

set_option autoImplicit false

/-!
# Every call of `Stop` can return

A call of `Stop` waits three times: for the client's mutex, for the `sync.Once` another
caller is inside of, and in `drain` for the goroutines of the pool and those under
`background`.  Whoever it waits for can go on.  The holder of the mutex lets go of it without
waiting for anything; the one caller inside the `sync.Once` is in `drain` or past it; the pool
can come to the end of `drain` (`Pool.can_return`), and the goroutines under `background` leave
once `fetchCtx` is cancelled (`Pool.leaves_crew`).
-/

namespace Drover.Client

open Drover.Foundation
open Drover.Pool (StopError)

/-! ## Who is inside the `sync.Once` -/

/-- Where a caller of `runner.stop` is. -/
def State.pcOf (s : State) : Caller → Option Stopping
  | .stop n =>
      match s.stops n with
      | .found pc => some pc
      | _ => none
  | .watcher =>
      match s.runner with
      | some r =>
          match r.watcher with
          | .stopping pc => some pc
          | _ => none
      | none => none

theorem pcOf_stop {s : State} {n : Nat} {pc : Stopping} :
    s.pcOf (.stop n) = some pc ↔ s.stops n = .found pc := by
  cases hstop : s.stops n <;> simp [State.pcOf, hstop]

theorem pcOf_watcher {s : State} {r : Runner} (hr : s.runner = some r) {pc : Stopping} :
    s.pcOf .watcher = some pc ↔ r.watcher = .stopping pc := by
  cases hwatch : r.watcher <;> simp [State.pcOf, hr, hwatch]

theorem pcOf_pool {s : State} {r : Runner} (hr : s.runner = some r) (who : Caller)
    (pool : Pool.State) :
    State.pcOf { s with runner := some { r with pool := pool } } who = s.pcOf who := by
  cases who <;> simp [State.pcOf, hr]

/-- The label of a step of `runner.stop`. -/
def Caller.label (who : Caller) (how : StopStep) : Label :=
  match who with
  | .stop n => .stop n how
  | .watcher => .watch how

/-- The caller is inside `r.shutdown.Do`. -/
def Stopping.inside : Stopping → Bool
  | .draining | .close | .leave => true
  | .enter | .await | .returned _ => false

/-- The `sync.Once` that is running is run by a caller inside of it. -/
def State.Driven (s : State) : Prop :=
  ∀ r who, s.runner = some r → r.shutdown = .running who →
    ∃ pc, s.pcOf who = some pc ∧ pc.inside = true

/-- The state with a caller of `runner.stop` and the runner changed. -/
def State.atCall (s : State) (who : Caller) (r : Runner) (pc : Stopping) : State :=
  match who with
  | .stop n => { s with runner := some r }.setStop n (.found pc)
  | .watcher => { s with runner := some { r with watcher := .stopping pc } }

theorem pcOf_atCall (s : State) (who : Caller) (r : Runner) (pc : Stopping) :
    (s.atCall who r pc).pcOf who = some pc := by
  cases who <;> simp [State.atCall, State.pcOf, State.setStop]

theorem pcOf_atCall_of_ne {s : State} {who other : Caller} {r r₀ : Runner} (pc : Stopping)
    (hr : s.runner = some r₀) (hwatcher : r.watcher = r₀.watcher) (hne : other ≠ who) :
    (s.atCall who r pc).pcOf other = s.pcOf other := by
  cases who with
  | stop n =>
      cases other with
      | stop m =>
          have hm : m ≠ n := fun heq => hne (by rw [heq])
          simp [State.atCall, State.pcOf, State.setStop, Function.update_of_ne hm]
      | watcher => simp [State.atCall, State.pcOf, State.setStop, hr, hwatcher]
  | watcher =>
      cases other with
      | stop m => rfl
      | watcher => exact absurd rfl hne

/-- A caller of `runner.stop` takes the step of `callStep`. -/
theorem step_call {cfg : Pool.Config} {s : State} {who : Caller} {r : Runner} {pc : Stopping}
    (hr : s.runner = some r) (hpc : s.pcOf who = some pc) (how : StopStep) :
    step cfg s (who.label how) =
      (callStep cfg r who pc how).map fun x => s.atCall who x.1 x.2 := by
  cases who with
  | stop n =>
      simp [Caller.label, step, stopStep, pcOf_stop.mp hpc, hr, State.atCall]
  | watcher =>
      simp [Caller.label, step, watchStep, hr, (pcOf_watcher hr).mp hpc, State.atCall]

theorem next_of_step {cfg : Pool.Config} {s s' : State} {label : Label}
    (h : step cfg s label = some s') : next cfg s label = s' := by
  unfold next
  rw [h, Option.getD_some]

theorem next_call {cfg : Pool.Config} {s : State} {who : Caller} {r r' : Runner}
    {pc pc' : Stopping} {how : StopStep} (hr : s.runner = some r) (hpc : s.pcOf who = some pc)
    (h : callStep cfg r who pc how = some (r', pc')) :
    next cfg s (who.label how) = s.atCall who r' pc' :=
  next_of_step (by rw [step_call hr hpc, h]; rfl)

/-! ## What a step does to the runner -/

/-- The pool moves in `drain` only, and whoever runs the `sync.Once` is inside of it. -/
structure CallFrame (cfg : Pool.Config) (r : Runner) (who : Caller) (pc : Stopping) (r' : Runner)
    (pc' : Stopping) : Prop where
  pool : r'.pool = r.pool ∨ ∃ how, Pool.drainStep cfg r.pool how = some r'.pool
  watcher : r'.watcher = r.watcher
  running : ∀ other, r'.shutdown = .running other → other = who ∧ pc'.inside = true ∨
    other = who ∧ pc.inside = false ∧ r.shutdown = .running who ∨
    other ≠ who ∧ r.shutdown = .running other

theorem callStep_frame {cfg : Pool.Config} {r r' : Runner} {who : Caller} {pc pc' : Stopping}
    {how : StopStep} (hpc : pc.Consistent r who) (h : callStep cfg r who pc how = some (r', pc')) :
    CallFrame cfg r who pc r' pc' := by
  -- inside the `sync.Once` it is the caller's own
  have hself : ∀ {r' : Runner} {pc' : Stopping}, r'.shutdown = .running who → pc'.inside = true →
      ∀ other, r'.shutdown = .running other → other = who ∧ pc'.inside = true ∨
        other = who ∧ pc.inside = false ∧ r.shutdown = .running who ∨
        other ≠ who ∧ r.shutdown = .running other :=
    fun hwho hinside other hother => Or.inl ⟨(Once.running.inj (hwho.symm.trans hother)).symm, hinside⟩
  unfold callStep at h
  split at h
  · split at h
    · cases h
      exact ⟨Or.inl rfl, rfl, hself rfl rfl⟩
    · cases h
    · rename_i hfinished
      cases h
      refine ⟨Or.inl rfl, rfl, fun other hother => ?_⟩
      rw [hfinished] at hother
      cases hother
  · split at h
    · cases h
    · obtain ⟨pool, hpool, heq⟩ := Option.map_eq_some_iff.mp h
      cases heq
      exact ⟨Or.inr ⟨_, hpool⟩, rfl, hself hpc.1 rfl⟩
  · split at h
    · cases h
      exact ⟨Or.inl rfl, rfl, hself hpc.1 rfl⟩
    · cases h
  · cases h
    exact ⟨Or.inl rfl, rfl, hself hpc.1 rfl⟩
  · cases h
    exact ⟨Or.inl rfl, rfl, fun other hother => by cases hother⟩
  · split at h <;> cases h
    refine ⟨Or.inl rfl, rfl, fun other hother => ?_⟩
    by_cases hwho : other = who
    · subst hwho
      exact Or.inr (Or.inl ⟨rfl, rfl, hother⟩)
    · exact Or.inr (Or.inr ⟨hwho, hother⟩)
  · cases h

/-- What a client keeps, besides being consistent, so that its calls can return. -/
structure State.Ready (cfg : Pool.Config) (s : State) : Prop where
  consistent : s.Consistent
  decided : s.Decided
  driven : s.Driven
  pool : ∀ r, s.runner = some r → r.pool.Sound cfg

theorem ready_fresh (cfg : Pool.Config) : fresh.Ready cfg :=
  ⟨consistent_fresh, decided_fresh, by simp [State.Driven, fresh], by simp [fresh]⟩

theorem sound_of_drainStep {cfg : Pool.Config} {p p' : Pool.State} {how : Pool.DrainStep}
    (h : p.Sound cfg) (hstep : Pool.drainStep cfg p how = some p') : p'.Sound cfg := by
  have hnext : Pool.next cfg p (.drain how) = p' := Pool.next_of_step hstep
  rw [← hnext]
  exact h.next _

/-- A step of a caller of `runner.stop`. -/
theorem State.Ready.call {cfg : Pool.Config} {s : State} (h : s.Ready cfg) {who : Caller}
    {r r' : Runner} {pc pc' : Stopping} {how : StopStep} (hr : s.runner = some r)
    (hpc : s.pcOf who = some pc) (hconsistent : pc.Consistent r who)
    (hstep : callStep cfg r who pc how = some (r', pc')) :
    (s.atCall who r' pc').Driven ∧ ∀ q, (s.atCall who r' pc').runner = some q → q.pool.Sound cfg := by
  have hframe := callStep_frame hconsistent hstep
  have hpool : r'.pool.Sound cfg := by
    rcases hframe.pool with heq | ⟨how, hdrain⟩
    · rw [heq]
      exact h.pool r hr
    · exact sound_of_drainStep (h.pool r hr) hdrain
  have hrunner : ∀ q, (s.atCall who r' pc').runner = some q →
      q.pool = r'.pool ∧ q.shutdown = r'.shutdown := by
    intro q hq
    cases who <;> cases hq <;> exact ⟨rfl, rfl⟩
  constructor
  · intro q other hq hrunning
    rw [(hrunner q hq).2] at hrunning
    rcases hframe.running other hrunning with ⟨rfl, hinside⟩ | ⟨rfl, hinside, hwas⟩ | ⟨hne, hwas⟩
    · exact ⟨pc', pcOf_atCall s other r' pc', hinside⟩
    · obtain ⟨pc₀, hpc₀, hinside₀⟩ := h.driven r other hr hwas
      rw [Option.some.inj (hpc.symm.trans hpc₀), hinside₀] at hinside
      cases hinside
    · obtain ⟨pc₀, hpc₀, hinside₀⟩ := h.driven r other hr hwas
      refine ⟨pc₀, ?_, hinside₀⟩
      rw [pcOf_atCall_of_ne pc' hr hframe.watcher hne]
      exact hpc₀
  · intro q hq
    rw [(hrunner q hq).1]
    exact hpool

/-- A step that is none of `runner.stop`: the runner is new, or its shutdown is where it
was, and those inside `runner.stop` stay where they are. -/
structure Keeps (cfg : Pool.Config) (s s' : State) : Prop where
  runner : ∀ r', s'.runner = some r' →
    r'.shutdown = .fresh ∧ r'.pool.drain = .none ∧ r'.pool.Sound cfg ∨
    ∃ r, s.runner = some r ∧ r'.shutdown = r.shutdown ∧ r'.pool.drain = r.pool.drain ∧
      (r.pool.Sound cfg → r'.pool.Sound cfg) ∧
      ∀ pc, r.watcher = .stopping pc → r'.watcher = .stopping pc
  stops : ∀ n pc, s.stops n = .found pc → s'.stops n = .found pc

theorem Keeps.of_runner {cfg : Pool.Config} {s s' : State} (hrunner : s'.runner = s.runner)
    (hstops : ∀ n pc, s.stops n = .found pc → s'.stops n = .found pc) : Keeps cfg s s' := by
  refine ⟨fun r hr => Or.inr ⟨r, ?_, rfl, rfl, id, fun _ => id⟩, hstops⟩
  rw [← hrunner]
  exact hr

/-- A step that changes the runner and nothing of its shutdown. -/
theorem Keeps.of_some {cfg : Pool.Config} {s s' : State} {r r' : Runner} (hr : s.runner = some r)
    (hr' : s'.runner = some r') (hstops : s'.stops = s.stops) (hshutdown : r'.shutdown = r.shutdown)
    (hdrain : r'.pool.drain = r.pool.drain) (hpool : r.pool.Sound cfg → r'.pool.Sound cfg)
    (hwatcher : ∀ pc, r.watcher = .stopping pc → r'.watcher = .stopping pc) : Keeps cfg s s' := by
  refine ⟨fun q hq => ?_, fun n pc hn => by rw [hstops]; exact hn⟩
  rw [hr', Option.some.injEq] at hq
  subst hq
  exact Or.inr ⟨r, hr, hshutdown, hdrain, hpool, hwatcher⟩

theorem Keeps.driven {cfg : Pool.Config} {s s' : State} (h : Keeps cfg s s') (hs : s.Ready cfg) :
    s'.Driven ∧ ∀ r, s'.runner = some r → r.pool.Sound cfg := by
  constructor
  · intro r' who hr' hrunning
    rcases h.runner r' hr' with ⟨hfresh, -⟩ | ⟨r, hr, hshutdown, -, -, hwatcher⟩
    · rw [hfresh] at hrunning
      cases hrunning
    · obtain ⟨pc, hpc, hinside⟩ := hs.driven r who hr (hshutdown.symm.trans hrunning)
      refine ⟨pc, ?_, hinside⟩
      cases who with
      | stop n => exact pcOf_stop.mpr (h.stops n pc (pcOf_stop.mp hpc))
      | watcher => exact (pcOf_watcher hr').mpr (hwatcher pc ((pcOf_watcher hr).mp hpc))
  · intro r' hr'
    rcases h.runner r' hr' with ⟨-, -, hpool⟩ | ⟨r, hr, -, -, hpool, -⟩
    · exact hpool
    · exact hpool (hs.pool r hr)

theorem startStep_keeps {cfg : Pool.Config} {s s' : State} {n : Nat} {how : StartStep}
    (hs : s.Consistent) (h : startStep cfg s n how = some s') : Keeps cfg s s' := by
  have hstops : s'.stops = s.stops := (startStep_spec hs h).stops
  have hsame : s'.runner = s.runner → Keeps cfg s s' := fun heq =>
    .of_runner heq fun m pc hm => by rw [hstops]; exact hm
  have hcall := hs.starts n
  cases StartTurn.of_step h with
  | @publish db hpc =>
      refine ⟨fun r hr => Or.inl ?_, fun m pc hm => hm⟩
      cases hr
      exact ⟨rfl, rfl, Pool.sound_start cfg db⟩
  | launch hr hpc => exact .of_some hr rfl rfl rfl rfl id fun _ => id
  | watch hr hpc =>
      obtain ⟨r, hr', -, hnone⟩ := hcall.watch hpc
      cases hr.symm.trans hr'
      refine .of_some hr rfl rfl rfl rfl id fun pc hpc => ?_
      rw [hnone] at hpc
      cases hpc
  | _ => exact hsame rfl

/-- Any step keeps those inside the `sync.Once` there, and the pool sound. -/
theorem step_driven {cfg : Pool.Config} {s s' : State} (h : s.Ready cfg) {label : Label}
    (hstep : step cfg s label = some s') :
    s'.Driven ∧ ∀ r, s'.runner = some r → r.pool.Sound cfg := by
  have hcall : ∀ (who : Caller) {r : Runner} {pc : Stopping} {how : StopStep},
      label = who.label how → s.runner = some r → s.pcOf who = some pc → pc.Consistent r who →
      s'.Driven ∧ ∀ r, s'.runner = some r → r.pool.Sound cfg := by
    intro who r pc how hlabel hr hpc hconsistent
    rw [hlabel, step_call hr hpc] at hstep
    obtain ⟨⟨r', pc'⟩, hcallStep, rfl⟩ := Option.map_eq_some_iff.mp hstep
    exact h.call hr hpc hconsistent hcallStep
  cases label with
  | start n how => exact (startStep_keeps h.consistent hstep).driven h
  | stop n how =>
      cases hpc : s.stops n with
      | found pc =>
          obtain ⟨r, hr, hconsistent⟩ := (h.consistent.stops n).found pc hpc
          exact hcall (.stop n) rfl hr (pcOf_stop.mpr hpc) hconsistent
      | _ =>
          refine Keeps.driven (.of_runner ?_ fun m pc hm => ?_) h
          · cases how <;> simp only [step, stopStep, hpc] at hstep <;> try split at hstep
            all_goals cases hstep <;> rfl
          · have hne : m ≠ n := by
              rintro rfl
              rw [hpc] at hm
              cases hm
            cases how <;> simp only [step, stopStep, hpc] at hstep <;> try split at hstep
            all_goals cases hstep <;> simpa [State.setStop, Function.update_of_ne hne] using hm
  | watch how =>
      cases hr : s.runner with
      | none => simp [step, watchStep, hr] at hstep
      | some r =>
          cases hw : r.watcher with
          | stopping pc =>
              exact hcall .watcher rfl hr ((pcOf_watcher hr).mpr hw)
                (h.consistent.watcher r pc hr hw)
          | select =>
              cases how with
              | drain how => simp [step, watchStep, hr, hw] at hstep
              | go =>
                  simp only [step, watchStep, hr, hw] at hstep
                  split at hstep <;> cases hstep
                  refine Keeps.driven (.of_some hr rfl rfl rfl rfl id ?_) h
                  simp [hw]
          | none => simp [step, watchStep, hr, hw] at hstep
          | exited => simp [step, watchStep, hr, hw] at hstep
  | watchDone =>
      simp only [step] at hstep
      split at hstep
      · rename_i r hr
        split at hstep <;> cases hstep
        rename_i hdone
        refine Keeps.driven (.of_some hr rfl rfl rfl rfl id ?_) h
        simp [hdone.1]
      · cases hstep
  | cancel n =>
      cases hstep
      exact Keeps.driven (s := s) (.of_runner rfl fun _ _ => id) h
  | pool label =>
      by_cases hdrain : ∃ how, label = .drain how
      · obtain ⟨how, rfl⟩ := hdrain
        cases hstep
      · have hother : ∀ how, label ≠ .drain how := fun how heq => hdrain ⟨how, heq⟩
        rw [step_pool cfg s hother] at hstep
        split at hstep
        · rename_i r hr
          split at hstep <;> cases hstep
          exact Keeps.driven (.of_some hr rfl rfl rfl (same_of_pool cfg r hother).drain
            (fun hs => hs.next label) fun _ => id) h
        · cases hstep

theorem State.Ready.next {cfg : Pool.Config} {s : State} (h : s.Ready cfg) (label : Label) :
    (next cfg s label).Ready cfg := by
  have hconsistent := h.consistent.next cfg label
  unfold Client.next at hconsistent ⊢
  cases hstep : step cfg s label with
  | none => exact h
  | some s' =>
      rw [hstep, Option.getD_some] at hconsistent
      rw [Option.getD_some]
      obtain ⟨hdriven, hpool⟩ := step_driven h hstep
      refine ⟨hconsistent, ?_, hdriven, hpool⟩
      by_cases hstart : ∃ n how, label = .start n how
      · obtain ⟨n, how, rfl⟩ := hstart
        exact (startStep_spec h.consistent hstep).decided h.decided
      · exact (step_spec_of_ne_start h.consistent (fun n how heq => hstart ⟨n, how, heq⟩)
          hstep).decided h.decided

/-! ## Nobody waits for ever -/

/-- A step of a call or of a goroutine of the pool: no context is cancelled and no budget
runs out. -/
def Label.own : Label → Bool
  | .cancel _ | .stop _ (.drain .expire) => false
  | .pool label => label.own
  | _ => true

/-- Nothing has been left unfinished that would have to be reported. -/
def State.calm (s : State) : Prop := ∀ r, s.runner = some r → r.pool.drain.calm = true

/-- The client has gone on from `s₀` to `s`, and nobody has made a new call. -/
structure Onward (cfg : Pool.Config) (s₀ s : State) : Prop where
  ready : s.Ready cfg
  starts : ∀ n, (s₀.starts n).pc = .idle → (s.starts n).pc = .idle
  stops : ∀ n, s₀.stops n = .idle → s.stops n = .idle
  calm : s₀.calm → s.calm

theorem Onward.refl {cfg : Pool.Config} {s : State} (h : s.Ready cfg) : Onward cfg s s :=
  ⟨h, fun _ => id, fun _ => id, id⟩

theorem Onward.trans {cfg : Pool.Config} {s₀ s₁ s₂ : State} (h : Onward cfg s₀ s₁)
    (h' : Onward cfg s₁ s₂) : Onward cfg s₀ s₂ :=
  ⟨h'.ready, fun n hn => h'.starts n (h.starts n hn), fun n hn => h'.stops n (h.stops n hn),
    fun hcalm => h'.calm (h.calm hcalm)⟩

/-- How far the holder of the mutex is from letting go of it. -/
def State.hold (s : State) : Nat :=
  match s.mu with
  | some (.start n) => (s.starts n).pc.rank
  | some (.stop _) => 1
  | none => 0

theorem Keeps.calm {cfg : Pool.Config} {s s' : State} (h : Keeps cfg s s') (hcalm : s.calm) :
    s'.calm := by
  intro r' hr'
  rcases h.runner r' hr' with ⟨-, hnone, -⟩ | ⟨r, hr, -, hdrain, -, -⟩
  · rw [hnone]
    rfl
  · rw [hdrain]
    exact hcalm r hr

/-- A step of a call of `Start` under way. -/
theorem onward_start {cfg : Pool.Config} {s s' : State} {n : Nat} {how : StartStep}
    (h : s.Ready cfg) (hpc : (s.starts n).pc ≠ .idle) (hstep : startStep cfg s n how = some s') :
    Onward cfg s s' := by
  have hspec := startStep_spec h.consistent hstep
  have hnext : next cfg s (.start n how) = s' := next_of_step hstep
  refine ⟨hnext ▸ h.next _, fun m hm => ?_, fun m hm => ?_, (startStep_keeps h.consistent hstep).calm⟩
  · have hne : m ≠ n := fun heq => hpc (heq ▸ hm)
    rw [hspec.others m hne]
    exact hm
  · rw [hspec.stops]
    exact hm

/-- A step of a call of `Stop` under way that leaves the runner alone. -/
theorem onward_stop {cfg : Pool.Config} {s s' : State} {n : Nat} (h : s.Ready cfg)
    (hpc : s.stops n ≠ .idle) (hstep : stopStep cfg s n .go = some s')
    (hstarts : s'.starts = s.starts) (hrunner : s'.runner = s.runner)
    (hstops : ∀ m, m ≠ n → s'.stops m = s.stops m) : Onward cfg s s' := by
  have hnext : next cfg s (.stop n .go) = s' := next_of_step hstep
  refine ⟨hnext ▸ h.next _, fun m hm => by rw [hstarts]; exact hm, fun m hm => ?_, ?_⟩
  · have hne : m ≠ n := fun heq => hpc (heq ▸ hm)
    rw [hstops m hne]
    exact hm
  · intro hcalm r hr
    exact hcalm r (hrunner ▸ hr)

/-- With the lock, `Stop` reads whether there is a runner. -/
theorem stopStep_read (cfg : Pool.Config) {s : State} {n : Nat} (h : s.stops n = .read) :
    ∃ call : StopCall, (call = .notStarted ∨ call = .found .enter) ∧
      stopStep cfg s n .go = some ({ s with mu := none }.setStop n call) := by
  cases hr : s.runner with
  | none => exact ⟨.notStarted, Or.inl rfl, by simp [stopStep, h, hr]⟩
  | some r => exact ⟨.found .enter, Or.inr rfl, by simp [stopStep, h, hr]⟩

/-- The holder of the mutex lets go of it. -/
theorem within_free {cfg : Pool.Config} {s : State} (h : s.Ready cfg) {n : Nat}
    (hn : s.stops n = .lock) :
    Within (next cfg) (fun label => label.own = true) s.hold
      (fun s' => (Onward cfg s s' ∧ s'.stops n = .lock) ∧ s'.mu = none) s := by
  refine within_of_rank (P := fun s' : State => Onward cfg s s' ∧ s'.stops n = .lock) State.hold ?_
    ⟨.refl h, hn⟩
  rintro s₁ ⟨honward, hlock⟩
  have hready := honward.ready
  cases hmu : s₁.mu with
  | none => exact Or.inl rfl
  | some holder =>
      right
      cases holder with
      | start m =>
          have hholds := hready.decided.start m hmu
          have hpending := pending_of_holds hholds
          obtain ⟨s₂, hstep⟩ := exists_startStep cfg hready.consistent hpending (Or.inr hholds)
            true Memdriver.new
          have hspec := startStep_spec hready.consistent hstep
          have hnext : next cfg s₁ (.start m _) = s₂ := next_of_step hstep
          refine ⟨.start m ((s₁.starts m).pc.go true Memdriver.new), rfl, ?_⟩
          rw [hnext]
          refine ⟨⟨honward.trans (onward_start hready hpending.ne_idle hstep), ?_⟩, ?_⟩
          · rw [hspec.stops]
            exact hlock
          · have hlt := hspec.moves.rank_lt hpending
            rcases hspec.moves.mu_eq with hfree | ⟨hheld, -⟩ | ⟨hsame, -⟩
            · simp only [State.hold, hfree, hmu]
              exact hpending
            · simpa only [State.hold, hheld, hmu] using hlt
            · simpa only [State.hold, hsame, hmu] using hlt
      | stop m =>
          have hread := hready.decided.stop m hmu
          have hne : n ≠ m := by
            rintro rfl
            rw [hlock] at hread
            cases hread
          obtain ⟨call, -, hstep⟩ := stopStep_read cfg hread
          refine ⟨.stop m .go, rfl, ?_⟩
          rw [(next_of_step hstep : next cfg s₁ (.stop m .go) = _)]
          refine ⟨⟨honward.trans (onward_stop hready (by rw [hread]; nofun) hstep rfl rfl ?_), ?_⟩, ?_⟩
          · exact fun k hk => Function.update_of_ne hk _ _
          · exact (Function.update_of_ne hne _ _).trans hlock
          · simp only [State.hold, hmu]
            exact Nat.zero_lt_one

/-- A call of `Stop` that waits for the mutex gets it, and finds out whether there is a
runner. -/
theorem can_look {cfg : Pool.Config} {s : State} (h : s.Ready cfg) {n : Nat}
    (hn : s.stops n = .lock ∨ s.stops n = .read) :
    Can (next cfg) (fun label => label.own = true)
      (fun s' => Onward cfg s s' ∧ (s'.stops n = .notStarted ∨ s'.stops n = .found .enter)) s := by
  -- once it holds the mutex, it takes one step
  have hread : ∀ s₁, Onward cfg s s₁ → s₁.stops n = .read →
      Can (next cfg) (fun label => label.own = true)
        (fun s' => Onward cfg s s' ∧ (s'.stops n = .notStarted ∨ s'.stops n = .found .enter)) s₁ := by
    intro s₁ honward hpc
    obtain ⟨call, hcall, hstep⟩ := stopStep_read cfg hpc
    refine .step (.stop n .go) rfl (.now ?_)
    rw [(next_of_step hstep : next cfg s₁ (.stop n .go) = _)]
    refine ⟨honward.trans (onward_stop honward.ready (by simp [hpc]) hstep rfl rfl ?_), ?_⟩
    · exact fun k hk => Function.update_of_ne hk _ _
    · simpa [State.setStop] using hcall
  rcases hn with hlock | hpc
  · refine (within_free h hlock).can.bind fun s₁ hs₁ => ?_
    obtain ⟨⟨honward, hlock₁⟩, hfree⟩ := hs₁
    have hstep : stopStep cfg s₁ n .go = some ({ s₁ with mu := some (.stop n) }.setStop n .read) := by
      simp only [stopStep, hlock₁, hfree, if_true]
    refine .step (.stop n .go) rfl ?_
    rw [(next_of_step hstep : next cfg s₁ (.stop n .go) = _)]
    refine hread _ (honward.trans (onward_stop honward.ready (by simp [hlock₁]) hstep rfl rfl ?_))
      (by simp [State.setStop])
    exact fun k hk => Function.update_of_ne hk _ _
  · exact hread s (.refl h) hpc

/-! ## Through the shutdown -/

/-- A step of the pool as one of the client: those of `drain` are taken by the caller
inside of it. -/
def Caller.lift (who : Caller) : Pool.Label → Label
  | .drain how => who.label (.drain how)
  | label => .pool label

theorem atCall_self {s : State} {who : Caller} {r r' : Runner} {pc : Stopping}
    (hr : s.runner = some r) (hpc : s.pcOf who = some pc) (hwatcher : r'.watcher = r.watcher) :
    s.atCall who r' pc = { s with runner := some r' } := by
  cases who with
  | stop n =>
      simp only [State.atCall, State.setStop, ← pcOf_stop.mp hpc, Function.update_eq_self]
  | watcher =>
      rw [(pcOf_watcher hr).mp hpc] at hwatcher
      simp only [State.atCall, ← hwatcher]

/-- With a caller inside `drain`, the client follows its pool. -/
theorem next_lift {cfg : Pool.Config} {s : State} {who : Caller} {r : Runner}
    (hr : s.runner = some r) (hlaunched : r.launched = true) (hpc : s.pcOf who = some .draining)
    {label : Pool.Label} (hown : label.own = true) :
    next cfg s (who.lift label) = { s with runner := some { r with pool := Pool.next cfg r.pool label } } := by
  by_cases hlabel : ∃ how, label = .drain how
  · obtain ⟨how, rfl⟩ := hlabel
    have hexpire : ¬ (how = .expire ∧ who = .watcher) := by
      rintro ⟨rfl, -⟩
      cases hown
    have hcall : callStep cfg r who .draining (.drain how) =
        (Pool.drainStep cfg r.pool how).map fun pool => ({ r with pool := pool }, .draining) := by
      simp only [callStep, if_neg hexpire]
    cases hstep : Pool.drainStep cfg r.pool how with
    | none =>
        have hpool : Pool.next cfg r.pool (.drain how) = r.pool := by
          simp only [Pool.next, Pool.step, hstep, Option.getD_none]
        rw [hstep] at hcall
        rw [hpool]
        simp only [next, Caller.lift, step_call hr hpc, hcall, Option.map_none, Option.getD_none]
        rw [← hr]
    | some pool =>
        have hpool : Pool.next cfg r.pool (.drain how) = pool := Pool.next_of_step hstep
        rw [hstep] at hcall
        rw [hpool, Caller.lift, next_call hr hpc hcall]
        exact atCall_self hr hpc rfl
  · have hother : ∀ how, label ≠ .drain how := fun how heq => hlabel ⟨how, heq⟩
    have hlift : who.lift label = .pool label := by
      cases label with
      | drain how => exact absurd rfl (hother how)
      | _ => rfl
    rw [hlift]
    refine next_of_step ?_
    rw [step_pool cfg s hother]
    simp only [hr, hlaunched, if_true]

/-- A step of a caller inside `runner.stop`. -/
theorem onward_call {cfg : Pool.Config} {s : State} (h : s.Ready cfg) {who : Caller}
    {r r' : Runner} {pc pc' : Stopping} {how : StopStep} (hr : s.runner = some r)
    (hpc : s.pcOf who = some pc) (hstep : callStep cfg r who pc how = some (r', pc'))
    (hcalm : r.pool.drain.calm = true → r'.pool.drain.calm = true) :
    Onward cfg s (s.atCall who r' pc') := by
  have hready := h.next (who.label how)
  rw [next_call hr hpc hstep] at hready
  refine ⟨hready, ?_, ?_, ?_⟩
  · cases who <;> exact fun _ => id
  · intro m hm
    cases who with
    | watcher => exact hm
    | stop n =>
        have hne : m ≠ n := by
          rintro rfl
          rw [pcOf_stop.mp hpc] at hm
          cases hm
        exact (Function.update_of_ne hne _ _).trans hm
  · intro hs q hq
    cases who <;> cases hq <;> exact hcalm (hs r hr)

/-- The caller has come to the end of `r.shutdown.Do`, and the others are where they
were. -/
structure Finishes (cfg : Pool.Config) (who : Caller) (s s' : State) : Prop where
  onward : Onward cfg s s'
  finished : ∃ r, s'.runner = some r ∧ r.shutdown = .finished
  others : ∀ n, .stop n ≠ who → s'.stops n = s.stops n
  self : ∀ n, .stop n = who → s'.stops n = .found .await

theorem atCall_stops_of_ne (s : State) {who : Caller} (r : Runner) (pc : Stopping) {n : Nat}
    (hne : .stop n ≠ who) : (s.atCall who r pc).stops n = s.stops n := by
  cases who with
  | watcher => rfl
  | stop m => exact Function.update_of_ne (fun heq => hne (by rw [heq])) _ _

theorem exists_atCall_runner (s : State) (who : Caller) (r : Runner) (pc : Stopping) :
    ∃ w, (s.atCall who r pc).runner = some { r with watcher := w } := by
  cases who with
  | stop n => exact ⟨r.watcher, rfl⟩
  | watcher => exact ⟨.stopping pc, rfl⟩

section Finish

variable {cfg : Pool.Config} {s : State} {who : Caller} {r r' : Runner} {pc pc' : Stopping}

theorem Finishes.of_onward {s₁ s' : State} (honward : Onward cfg s s₁)
    (hothers : ∀ n, .stop n ≠ who → s₁.stops n = s.stops n) (h : Finishes cfg who s₁ s') :
    Finishes cfg who s s' :=
  ⟨honward.trans h.onward, h.finished, fun n hn => (h.others n hn).trans (hothers n hn), h.self⟩

theorem can_leave (h : s.Ready cfg) (hr : s.runner = some r) (hpc : s.pcOf who = some .leave) :
    Can (next cfg) (fun label => label.own = true) (Finishes cfg who s) s := by
  have hcall : callStep cfg r who .leave .go = some ({ r with shutdown := .finished }, .await) := rfl
  refine .step (who.label .go) (by cases who <;> rfl) (.now ?_)
  rw [next_call hr hpc hcall]
  refine ⟨onward_call h hr hpc hcall id, ?_, fun n hn => atCall_stops_of_ne s _ _ hn, ?_⟩
  · obtain ⟨w, hw⟩ := exists_atCall_runner s who { r with shutdown := .finished } .await
    exact ⟨_, hw, rfl⟩
  · rintro n rfl
    exact pcOf_stop.mp (pcOf_atCall s (.stop n) _ .await)

theorem can_close (h : s.Ready cfg) (hr : s.runner = some r) (hpc : s.pcOf who = some .close) :
    Can (next cfg) (fun label => label.own = true) (Finishes cfg who s) s := by
  have hcall : callStep cfg r who .close .go = some ({ r with done := true }, .leave) := rfl
  have honward := onward_call h hr hpc hcall id
  obtain ⟨w, hw⟩ := exists_atCall_runner s who { r with done := true } .leave
  refine .step (who.label .go) (by cases who <;> rfl) ?_
  rw [next_call hr hpc hcall]
  exact (can_leave honward.ready hw (pcOf_atCall s who _ _)).mono (fun _ => id)
    fun s' hs' => .of_onward honward (fun n hn => atCall_stops_of_ne s _ _ hn) hs'

/-- The pool comes to the end of `drain`, and the caller inside of it takes the verdict. -/
theorem can_drain (h : s.Ready cfg) (hr : s.runner = some r) (hlaunched : r.launched = true)
    (hpc : s.pcOf who = some .draining) :
    Can (next cfg) (fun label => label.own = true) (Finishes cfg who s) s := by
  have hpool : r.pool.Sound cfg := h.pool r hr
  -- the client follows the pool, and nothing but the pool changes
  have hsim : Can (next cfg) (fun label => label.own = true)
      (fun s' => ∃ p : Pool.State,
        (s'.Ready cfg ∧ s' = { s with runner := some { r with pool := p } }) ∧
          ∃ err, p.drain = .returned err ∧ (r.pool.drain.calm = true → err = [])) s := by
    refine (Pool.can_return hpool).simulate (R := fun s' p => s'.Ready cfg ∧
      s' = { s with runner := some { r with pool := p } }) ?_ ⟨h, by rw [← hr]⟩
    rintro s' p label ⟨hready, rfl⟩ hown
    refine ⟨who.lift label, ?_, hready.next _,
      next_lift (r := { r with pool := p }) rfl hlaunched ((pcOf_pool hr who p).trans hpc) hown⟩
    cases label with
    | drain how => cases who <;> cases how <;> first | rfl | exact hown
    | outside op => cases hown
    | nudge => cases hown
    | _ => rfl
  refine hsim.bind fun s₁ ⟨p, ⟨hready, hs₁⟩, err, herr, hnil⟩ => ?_
  have hr₁ : s₁.runner = some { r with pool := p } := by rw [hs₁]
  have hpc₁ : s₁.pcOf who = some .draining := by
    rw [hs₁]
    exact (pcOf_pool hr who p).trans hpc
  have hcall : callStep cfg { r with pool := p } who .draining .go =
      some ({ r with pool := p, stopErr := err }, .close) := by
    simp only [callStep, herr]
  have honward₁ : Onward cfg s s₁ := by
    refine ⟨hready, by rw [hs₁]; exact fun _ => id, by rw [hs₁]; exact fun _ => id, ?_⟩
    intro hcalm q hq
    rw [hr₁, Option.some.injEq] at hq
    subst hq
    show p.drain.calm = true
    rw [herr, hnil (hcalm r hr)]
    rfl
  have honward := onward_call hready hr₁ hpc₁ hcall id
  obtain ⟨w, hw⟩ := exists_atCall_runner s₁ who { r with pool := p, stopErr := err } .close
  refine .step (who.label .go) (by cases who <;> rfl) ?_
  rw [next_call hr₁ hpc₁ hcall]
  refine (can_close honward.ready hw (pcOf_atCall s₁ who _ _)).mono (fun _ => id) fun s' hs' => ?_
  refine .of_onward (honward₁.trans honward) (fun n hn => ?_) hs'
  rw [atCall_stops_of_ne s₁ _ _ hn, hs₁]

/-- Whoever is inside the `sync.Once` comes out of it. -/
theorem can_finish (h : s.Ready cfg) (hr : s.runner = some r) (hrunning : r.shutdown = .running who) :
    Can (next cfg) (fun label => label.own = true) (Finishes cfg who s) s := by
  obtain ⟨pc, hpc, hinside⟩ := h.driven r who hr hrunning
  cases pc with
  | draining =>
      exact can_drain h hr ((h.consistent.runner r hr).launched_of_running hrunning) hpc
  | close => exact can_close h hr hpc
  | leave => exact can_leave h hr hpc
  | _ => cases hinside

end Finish

/-! ## Every call returns -/

/-- The n-th call of `Stop` has returned, and what if nothing had to be reported. -/
def Returns (cfg : Pool.Config) (n : Nat) (s s' : State) : Prop :=
  Onward cfg s s' ∧ ∃ res, (s'.stops n).result = some res ∧
    (s.calm → res = .notStarted ∨ res = .verdict [])

theorem Returns.of_onward {cfg : Pool.Config} {n : Nat} {s s₁ s' : State}
    (h : Onward cfg s s₁) (hreturns : Returns cfg n s₁ s') : Returns cfg n s s' := by
  obtain ⟨honward, res, hres, hnil⟩ := hreturns
  exact ⟨h.trans honward, res, hres, fun hcalm => hnil (h.calm hcalm)⟩

theorem next_stop {cfg : Pool.Config} {s : State} {n : Nat} {r r' : Runner} {pc pc' : Stopping}
    (hr : s.runner = some r) (hpc : s.pcOf (.stop n) = some pc)
    (h : callStep cfg r (.stop n) pc .go = some (r', pc')) :
    next cfg s (.stop n .go) = s.atCall (.stop n) r' pc' := by
  rw [← next_call hr hpc h]
  rfl

/-- A call that waits for `done` finds it closed. -/
theorem can_await {cfg : Pool.Config} {s : State} (h : s.Ready cfg) {n : Nat}
    (hn : s.stops n = .found .await) :
    Can (next cfg) (fun label => label.own = true) (Returns cfg n s) s := by
  obtain ⟨r, hr, hdone⟩ := (h.consistent.stops n).found _ hn
  have hcall : callStep cfg r (.stop n) .await .go = some (r, .returned r.stopErr) := by
    simp only [callStep, show r.done = true from hdone, if_true]
  have hpc := pcOf_stop.mpr hn
  refine .step (.stop n .go) rfl (.now ?_)
  rw [next_stop hr hpc hcall]
  refine ⟨onward_call h hr hpc hcall id, .verdict r.stopErr, ?_, fun hcalm => Or.inr ?_⟩
  · rw [pcOf_stop.mp (pcOf_atCall s (.stop n) r (.returned r.stopErr))]
    rfl
  · have hdrain := hcalm r hr
    rw [(h.consistent.runner r hr).done hdone] at hdrain
    rw [List.isEmpty_iff.mp hdrain]

/-- A call that has found the runner returns. -/
theorem can_return_of_found {cfg : Pool.Config} {s : State} (h : s.Ready cfg) {n : Nat}
    {pc : Stopping} (hn : s.stops n = .found pc) :
    Can (next cfg) (fun label => label.own = true) (Returns cfg n s) s := by
  obtain ⟨r, hr, hconsistent⟩ := (h.consistent.stops n).found pc hn
  -- it is over: the call goes past the `sync.Once`
  have hafter : ∀ {s₁ : State} {r₁ : Runner}, s₁.Ready cfg → s₁.runner = some r₁ →
      r₁.shutdown = .finished → s₁.stops n = .found .enter →
      Can (next cfg) (fun label => label.own = true) (Returns cfg n s₁) s₁ := by
    intro s₁ r₁ hready hr₁ hfinished hn₁
    have hcall : callStep cfg r₁ (.stop n) .enter .go = some (r₁, .await) := by
      simp only [callStep, hfinished]
    have hpc₁ := pcOf_stop.mpr hn₁
    have honward := onward_call hready hr₁ hpc₁ hcall id
    refine .step (.stop n .go) rfl ?_
    rw [next_stop hr₁ hpc₁ hcall]
    exact (can_await honward.ready (pcOf_stop.mp (pcOf_atCall s₁ (.stop n) r₁ .await))).mono
      (fun _ => id) fun s' hs' => hs'.of_onward honward
  -- somebody is inside: that caller comes out first
  have hbehind : ∀ {s₁ : State} {r₁ : Runner} {who : Caller}, s₁.Ready cfg → s₁.runner = some r₁ →
      r₁.shutdown = .running who → (.stop n ≠ who → s₁.stops n = .found .enter) →
      Can (next cfg) (fun label => label.own = true) (Returns cfg n s₁) s₁ := by
    intro s₁ r₁ who hready hr₁ hrunning henter
    refine (can_finish hready hr₁ hrunning).bind fun s₂ hfinishes => ?_
    obtain ⟨r₂, hr₂, hfinished⟩ := hfinishes.finished
    have hreturns : Can (next cfg) (fun label => label.own = true) (Returns cfg n s₂) s₂ := by
      by_cases hwho : .stop n = who
      · exact can_await hfinishes.onward.ready (hfinishes.self n hwho)
      · refine hafter hfinishes.onward.ready hr₂ hfinished ?_
        rw [hfinishes.others n hwho]
        exact henter hwho
    exact hreturns.mono (fun _ => id) fun s' hs' => hs'.of_onward hfinishes.onward
  cases pc with
  | enter =>
      cases hshutdown : r.shutdown with
      | fresh =>
          have hcall : callStep cfg r (.stop n) .enter .go =
              some ({ r with shutdown := .running (.stop n) }, .draining) := by
            simp only [callStep, hshutdown]
          have hpc := pcOf_stop.mpr hn
          have honward := onward_call h hr hpc hcall id
          refine .step (.stop n .go) rfl ?_
          rw [next_stop hr hpc hcall]
          exact (hbehind honward.ready rfl rfl fun hne => absurd rfl hne).mono
            (fun _ => id) fun s' hs' => hs'.of_onward honward
      | running who => exact hbehind h hr hshutdown fun _ => hn
      | finished => exact hafter h hr hshutdown hn
  | draining => exact hbehind h hr hconsistent.1 fun hne => absurd rfl hne
  | close => exact hbehind h hr hconsistent.1 fun hne => absurd rfl hne
  | leave => exact hbehind h hr hconsistent.1 fun hne => absurd rfl hne
  | await => exact can_await h hn
  | returned err =>
      refine .now ⟨.refl h, .verdict err, by rw [hn]; rfl, fun hcalm => Or.inr ?_⟩
      have hdrain := hcalm r hr
      rw [(h.consistent.runner r hr).done hconsistent.1] at hdrain
      rw [hconsistent.2, List.isEmpty_iff.mp hdrain]

/-- A call of `Stop` that has been made can return. -/
theorem can_return_of_called {cfg : Pool.Config} {s : State} (h : s.Ready cfg) {n : Nat}
    (hn : s.stops n ≠ .idle) :
    Can (next cfg) (fun label => label.own = true) (Returns cfg n s) s := by
  cases hpc : s.stops n with
  | idle => exact absurd hpc hn
  | notStarted => exact .now ⟨.refl h, .notStarted, by rw [hpc]; rfl, fun _ => Or.inl rfl⟩
  | found pc => exact can_return_of_found h hpc
  | lock | read =>
      have hlook : s.stops n = .lock ∨ s.stops n = .read := by simp [hpc]
      refine (can_look h hlook).bind fun s₁ ⟨honward, hlooked⟩ => ?_
      rcases hlooked with hnone | hfound
      · exact .now ⟨honward, .notStarted, by rw [hnone]; rfl, fun _ => Or.inl rfl⟩
      · exact (can_return_of_found honward.ready hfound).mono (fun _ => id)
          fun s' hs' => hs'.of_onward honward

/-! ## Beside the goroutines of the runner -/

/-- The step is the one past `background.Wait()`. -/
def State.joins (s : State) : Label → Bool
  | .stop _ (.drain how) | .watch (.drain how) => s.runner.any fun r => r.pool.joins how
  | _ => false

/-- A client with the goroutines its runner has under `background`. -/
def staffed (cfg : Pool.Config) (staff : Pool.Staff) :
    Joint State Label Pool.Crew Pool.CrewStep where
  next := next cfg
  started s := s.runner.any Runner.launched
  told s := s.runner.any fun r => r.pool.fetchCancelled
  waits := State.joins
  step := Pool.Crew.step staff
  gone := Pool.Crew.gone

/-- `drain` is past `cancelBackground` when it waits for them, and the runner is launched. -/
theorem told_of_joins {cfg : Pool.Config} (staff : Pool.Staff) {s : State} (h : s.Ready cfg)
    {label : Label} (hjoins : s.joins label = true) :
    (staffed cfg staff).started s = true ∧ (staffed cfg staff).told s = true := by
  obtain ⟨r, how, hr, hjoining⟩ : ∃ r how, s.runner = some r ∧ r.pool.joins how = true := by
    unfold State.joins at hjoins
    split at hjoins
    · exact (Option.any_eq_true _ _).mp hjoins |>.imp fun r hr => ⟨_, hr⟩
    · exact (Option.any_eq_true _ _).mp hjoins |>.imp fun r hr => ⟨_, hr⟩
    · cases hjoins
  have hdrain : r.pool.drain ≠ .none := by
    intro hnone
    cases how <;> simp [Pool.State.joins, hnone] at hjoining
  simp only [staffed, hr, Option.any_some]
  constructor
  · by_contra hnot
    have hfresh := ((h.consistent.runner r hr).unlaunched (by simpa using hnot)).1
    exact hdrain ((h.consistent.runner r hr).fresh hfresh).1
  · exact Pool.State.fetchCancelled_iff.mpr hdrain

/-- A client without an ops server is started, and `Stop` is called twice while the rescuer has
two rows to dispose of. -/
def stopTwice : List (Label ⊕ Pool.CrewStep) :=
  [.inl (.start 0 .go), .inl (.start 0 .go), .inl (.start 0 .go), .inl (.start 0 .go),
    .inl (.start 0 .go), .inl (.start 0 (.publish Memdriver.new)), .inl (.start 0 .go),
    .inl (.start 0 .go), .inl (.start 0 .go), .inr (.rescue .tick), .inr (.rescue (.rows 2)),
    .inl (.stop 0 .go), .inl (.stop 0 .go), .inl (.stop 0 .go), .inl (.stop 0 .go),
    .inl (.stop 1 .go)]

end Drover.Client
