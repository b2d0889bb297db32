import Drover.Client.Lifecycle

set_option autoImplicit false

/-!
# Which call of `Start` wins

What a step of `Start` does is said once (`Moves`): where the call goes from where it is, what
becomes of the mutex and whether it is the one that publishes its runner.  From that: the call
that has published is the one that goes on to return nil, a call that has given up has seen the
runner of another, and whoever holds the mutex can go on, so no call is stuck.
-/

namespace Drover.Client

open Drover.Foundation

/-! ## What a step can do -/

/-- The call of `Start` whose runner is published. -/
def State.owner (s : State) : Option Nat := s.runner.map Runner.owner

/-- The ways of the n-th call of `Start` from one place to the next, with the mutex and the owner
before and after. -/
inductive Moves (cfg : Pool.Config) (n : Nat) (mu : Option Holder) (owner : Option Nat) :
    StartStep → Starting → Starting → Option Holder → Option Nat → Prop where
  | call : Moves cfg n mu owner .go .idle .lock mu owner
  | lock (hfree : mu = none) : Moves cfg n mu owner .go .lock .check (some (.start n)) owner
  | found (hsome : owner ≠ none) :
      Moves cfg n mu owner .go .check (.returned (some .alreadyStarted)) none owner
  | listen (hnone : owner = none) (hops : cfg.opsServer = true) :
      Moves cfg n mu owner .go .check .listen none owner
  | skip (hnone : owner = none) (hops : cfg.opsServer = false) :
      Moves cfg n mu owner .go .check .relock none owner
  | bind : Moves cfg n mu owner (.listen true) .listen .relock mu owner
  | refuse : Moves cfg n mu owner (.listen false) .listen (.returned (some .listen)) mu owner
  | relock (hfree : mu = none) : Moves cfg n mu owner .go .relock .recheck (some (.start n)) owner
  | late (hsome : owner ≠ none) : Moves cfg n mu owner .go .recheck .discard none owner
  | first (hnone : owner = none) : Moves cfg n mu owner .go .recheck .publish mu owner
  | publish (db : Memdriver.Driver) (hnone : owner = none) :
      Moves cfg n mu owner (.publish db) .publish .launch mu (some n)
  | launch : Moves cfg n mu owner .go .launch .watch mu owner
  | watch : Moves cfg n mu owner .go .watch .unlock mu owner
  | unlock : Moves cfg n mu owner .go .unlock (.returned none) none owner
  | discard : Moves cfg n mu owner .go .discard (.returned (some .alreadyStarted)) mu owner

/-- A step of the n-th call of `Start`. -/
structure StartSpec (cfg : Pool.Config) (n : Nat) (how : StartStep) (s s' : State) : Prop where
  others : ∀ m, m ≠ n → s'.starts m = s.starts m
  stops : s'.stops = s.stops
  moves : Moves cfg n s.mu s.owner how (s.starts n).pc (s'.starts n).pc s'.mu s'.owner

theorem startSpec_of_setStart {cfg : Pool.Config} {n : Nat} {how : StartStep} {s s' : State}
    {call : StartCall} (hstarts : s'.starts = s.starts) (hstops : s'.stops = s.stops)
    (hmoves : Moves cfg n s.mu s.owner how (s.starts n).pc call.pc s'.mu s'.owner) :
    StartSpec cfg n how s (s'.setStart n call) := by
  refine ⟨fun m hm => ?_, hstops, ?_⟩
  · simp only [State.setStart, Function.update_of_ne hm, hstarts]
  · have hself : (s'.setStart n call).starts n = call := by simp only [State.setStart, Function.update_self]
    rw [hself]
    exact hmoves

theorem startStep_spec {cfg : Pool.Config} {s s' : State} {n : Nat} {how : StartStep}
    (hs : s.Consistent) (h : startStep cfg s n how = some s') : StartSpec cfg n how s s' := by
  have hcall := hs.starts n
  have howner : s.owner = none ↔ s.runner = none := Option.map_eq_none_iff
  have hnone : ¬s.runner.isSome = true → s.owner = none :=
    fun hnone => howner.mpr (by simpa using hnone)
  have hsome : s.runner.isSome = true → s.owner ≠ none :=
    fun hsome heq => Option.isSome_iff_ne_none.mp hsome (howner.mp heq)
  have hrunner : ∀ {r : Runner}, s.runner = some r → s.owner = some r.owner :=
    fun hr => congrArg (Option.map Runner.owner) hr
  cases StartTurn.of_step h with
  | call hpc => exact startSpec_of_setStart rfl rfl (hpc ▸ .call)
  | lock hfree hpc => exact startSpec_of_setStart rfl rfl (hpc ▸ .lock hfree)
  | found hfound hpc => exact startSpec_of_setStart rfl rfl (hpc ▸ .found (hsome hfound))
  | listen hfirst hops hpc => exact startSpec_of_setStart rfl rfl (hpc ▸ .listen (hnone hfirst) hops)
  | skip hfirst hops hpc =>
      exact startSpec_of_setStart rfl rfl (hpc ▸ .skip (hnone hfirst) (by simpa using hops))
  | bind hpc => exact startSpec_of_setStart rfl rfl (hpc ▸ .bind)
  | refuse hpc => exact startSpec_of_setStart rfl rfl (hpc ▸ .refuse)
  | relock hfree hpc => exact startSpec_of_setStart rfl rfl (hpc ▸ .relock hfree)
  | late hlate hpc => exact startSpec_of_setStart rfl rfl (hpc ▸ .late (hsome hlate))
  | first hfirst hpc => exact startSpec_of_setStart rfl rfl (hpc ▸ .first (hnone hfirst))
  | @publish db hpc =>
      exact startSpec_of_setStart rfl rfl (hpc ▸ .publish db (howner.mpr (hcall.publish hpc)))
  | launch hr hpc =>
      refine startSpec_of_setStart rfl rfl ?_
      rw [hpc, hrunner hr]
      exact .launch
  | watch hr hpc =>
      refine startSpec_of_setStart rfl rfl ?_
      rw [hpc, hrunner hr]
      exact .watch
  | unlock hpc => exact startSpec_of_setStart rfl rfl (hpc ▸ .unlock)
  | discard hpc => exact startSpec_of_setStart rfl rfl (hpc ▸ .discard)

/-- A step that is none of `Start`. -/
structure OtherSpec (s s' : State) : Prop where
  pc : ∀ n, (s'.starts n).pc = (s.starts n).pc
  owner : s'.owner = s.owner
  mu : s'.mu = none ∨ (∃ n, s.mu = none ∧ s'.mu = some (.stop n) ∧ s'.stops n = .read) ∨
    s'.mu = s.mu ∧ ∀ n, s.stops n = .read → s'.stops n = .read

theorem OtherSpec.refl (s : State) : OtherSpec s s :=
  ⟨fun _ => rfl, rfl, Or.inr (Or.inr ⟨rfl, fun _ => id⟩)⟩

/-- A step that changes at most the inside of the runner. -/
theorem otherSpec_of_runner {s : State} {r r' : Runner} (hr : s.runner = some r)
    (howner : r'.owner = r.owner) : OtherSpec s { s with runner := some r' } := by
  refine ⟨fun _ => rfl, ?_, Or.inr (Or.inr ⟨rfl, fun _ => id⟩)⟩
  simp only [State.owner, hr, Option.map_some, howner]

theorem stopStep_spec {cfg : Pool.Config} {s s' : State} {n : Nat} {how : StopStep}
    (hs : s.Consistent) (h : stopStep cfg s n how = some s') : OtherSpec s s' := by
  -- the n-th call leaves its place, the others stay
  have hread : ∀ call, s.stops n ≠ .read → ∀ m, s.stops m = .read →
      Function.update s.stops n call m = .read := by
    intro call hne m hm
    have hmn : m ≠ n := fun heq => hne (heq ▸ hm)
    rw [Function.update_of_ne hmn]
    exact hm
  cases StopTurn.of_step h with
  | call hpc => exact ⟨fun _ => rfl, rfl, Or.inr (Or.inr ⟨rfl, hread _ (by rw [hpc]; nofun)⟩)⟩
  | lock hfree hpc =>
      exact ⟨fun _ => rfl, rfl, Or.inr (Or.inl ⟨n, hfree, rfl, Function.update_self _ _ _⟩)⟩
  | read hpc => exact ⟨fun _ => rfl, rfl, Or.inl rfl⟩
  | @found r r' pc pc' how hr hcall hpc =>
      obtain ⟨r₀, hr₀, hstop⟩ := (hs.stops n).found pc hpc
      cases hr.symm.trans hr₀
      have hspec := callStep_spec (hs.runner r hr) hstop hcall
      refine ⟨fun _ => rfl, ?_, Or.inr (Or.inr ⟨rfl, hread _ (by rw [hpc]; nofun)⟩)⟩
      simp only [State.owner, State.setStop, hr, Option.map_some, hspec.owner]

theorem watchStep_spec {cfg : Pool.Config} {s s' : State} {how : StopStep} (hs : s.Consistent)
    (h : watchStep cfg s how = some s') : OtherSpec s s' := by
  unfold watchStep at h
  split at h
  · rename_i r hr
    split at h
    · split at h <;> cases h
      exact otherSpec_of_runner hr rfl
    · rename_i pc hpc
      obtain ⟨⟨r', pc'⟩, hcall, heq⟩ := Option.map_eq_some_iff.mp h
      cases heq
      have hspec := callStep_spec (hs.runner r hr) (hs.watcher r pc hr hpc) hcall
      exact otherSpec_of_runner hr hspec.owner
    · cases h
  · cases h

theorem step_spec_of_ne_start {cfg : Pool.Config} {s s' : State} {label : Label}
    (hs : s.Consistent) (hlabel : ∀ n how, label ≠ .start n how)
    (h : step cfg s label = some s') : OtherSpec s s' := by
  cases label with
  | start n how => exact absurd rfl (hlabel n how)
  | stop n how => exact stopStep_spec hs h
  | watch how => exact watchStep_spec hs h
  | watchDone =>
      simp only [step] at h
      split at h
      · rename_i r hr
        split at h <;> cases h
        exact otherSpec_of_runner hr rfl
      · cases h
  | cancel n =>
      cases h
      refine ⟨fun m => ?_, rfl, Or.inr (Or.inr ⟨rfl, fun _ => id⟩)⟩
      by_cases hm : m = n
      · subst hm
        simp [State.setStart]
      · simp [State.setStart, Function.update_of_ne hm]
  | pool label =>
      by_cases hdrain : ∃ how, label = .drain how
      · obtain ⟨how, rfl⟩ := hdrain
        cases h
      · rw [step_pool cfg s fun how heq => hdrain ⟨how, heq⟩] at h
        split at h
        · rename_i r hr
          split at h <;> cases h
          exact otherSpec_of_runner hr rfl
        · cases h

/-! ## Who has won and who has lost -/

/-- The call has published its runner. -/
def Starting.won : Starting → Bool
  | .launch | .watch | .unlock | .returned none => true
  | _ => false

/-- The call has seen the runner of another. -/
def Starting.lost : Starting → Bool
  | .discard | .returned (some .alreadyStarted) => true
  | _ => false

section Moves

variable {cfg : Pool.Config} {n : Nat} {mu mu' : Option Holder} {owner owner' : Option Nat}
  {how : StartStep} {p p' : Starting}

theorem Moves.owner_eq (h : Moves cfg n mu owner how p p' mu' owner') :
    owner' = owner ∨ p = .publish ∧ owner = none ∧ owner' = some n := by
  cases h with
  | publish db hnone => exact Or.inr ⟨rfl, hnone, rfl⟩
  | _ => exact Or.inl rfl

/-- A runner is published once. -/
theorem Moves.owner_some (h : Moves cfg n mu owner how p p' mu' owner') {w : Nat}
    (hw : owner = some w) : owner' = some w := by
  rcases h.owner_eq with heq | ⟨-, hnone, -⟩
  · rw [heq, hw]
  · rw [hw] at hnone
    cases hnone

theorem Moves.won_iff (h : Moves cfg n mu owner how p p' mu' owner')
    (hown : p.won = true ↔ owner = some n) : p'.won = true ↔ owner' = some n := by
  cases h with
  | publish db hnone => exact ⟨fun _ => rfl, fun _ => rfl⟩
  | _ => exact hown

theorem Moves.lost (h : Moves cfg n mu owner how p p' mu' owner')
    (hlost : p.lost = true → owner ≠ none) : p'.lost = true → owner' ≠ none := by
  cases h with
  | found hsome => exact fun _ => hsome
  | late hsome => exact fun _ => hsome
  | discard => exact fun _ => hlost rfl
  | _ => nofun

/-- The mutex after a step of `Start`: it is free, or the call holds it, or nothing has
happened to it. -/
theorem Moves.mu_eq (h : Moves cfg n mu owner how p p' mu' owner') :
    mu' = none ∨ mu' = some (.start n) ∧ p'.holds = true ∨
      mu' = mu ∧ (p.holds = true → p'.holds = true) := by
  cases h with
  | lock hfree => exact Or.inr (Or.inl ⟨rfl, rfl⟩)
  | relock hfree => exact Or.inr (Or.inl ⟨rfl, rfl⟩)
  | found hsome => exact Or.inl rfl
  | listen hnone hops => exact Or.inl rfl
  | skip hnone hops => exact Or.inl rfl
  | late hsome => exact Or.inl rfl
  | unlock => exact Or.inl rfl
  | first hnone => exact Or.inr (Or.inr ⟨rfl, fun _ => rfl⟩)
  | publish db hnone => exact Or.inr (Or.inr ⟨rfl, fun _ => rfl⟩)
  | launch => exact Or.inr (Or.inr ⟨rfl, fun _ => rfl⟩)
  | watch => exact Or.inr (Or.inr ⟨rfl, fun _ => rfl⟩)
  | call => exact Or.inr (Or.inr ⟨rfl, nofun⟩)
  | bind => exact Or.inr (Or.inr ⟨rfl, nofun⟩)
  | refuse => exact Or.inr (Or.inr ⟨rfl, nofun⟩)
  | discard => exact Or.inr (Or.inr ⟨rfl, nofun⟩)

end Moves

/-- A client whose runner is that of the one call that has won, and whose mutex is held by one
who can go on. -/
structure State.Decided (s : State) : Prop where
  won : ∀ n, (s.starts n).pc.won = true ↔ s.owner = some n
  lost : ∀ n, (s.starts n).pc.lost = true → s.owner ≠ none
  start : ∀ n, s.mu = some (.start n) → (s.starts n).pc.holds = true
  stop : ∀ n, s.mu = some (.stop n) → s.stops n = .read

theorem decided_fresh : fresh.Decided := by
  refine ⟨fun n => ?_, fun n => ?_, fun n => ?_, fun n => ?_⟩
  all_goals simp [fresh, Starting.won, Starting.lost, State.owner]

theorem StartSpec.decided {cfg : Pool.Config} {n : Nat} {how : StartStep} {s s' : State}
    (hspec : StartSpec cfg n how s s') (h : s.Decided) : s'.Decided := by
  have howner := hspec.moves.owner_eq
  have hmu := hspec.moves.mu_eq
  refine ⟨fun m => ?_, fun m => ?_, fun m hm => ?_, fun m hm => ?_⟩
  · by_cases hne : m = n
    · subst hne
      exact hspec.moves.won_iff (h.won m)
    · rw [hspec.others m hne, h.won m]
      rcases howner with heq | ⟨-, hnone, heq⟩
      · rw [heq]
      · rw [hnone, heq]
        exact ⟨nofun, fun hsome => absurd (Option.some.inj hsome).symm hne⟩
  · by_cases hne : m = n
    · subst hne
      exact hspec.moves.lost (h.lost m)
    · rw [hspec.others m hne]
      intro hlost
      obtain ⟨w, hw⟩ := Option.ne_none_iff_exists'.mp (h.lost m hlost)
      rw [hspec.moves.owner_some hw]
      nofun
  · rcases hmu with hfree | ⟨hheld, hholds⟩ | ⟨hsame, hkeep⟩
    · rw [hfree] at hm
      cases hm
    · rw [hheld] at hm
      cases hm
      exact hholds
    · rw [hsame] at hm
      by_cases hne : m = n
      · subst hne
        exact hkeep (h.start m hm)
      · rw [hspec.others m hne]
        exact h.start m hm
  · rcases hmu with hfree | ⟨hheld, -⟩ | ⟨hsame, -⟩
    · rw [hfree] at hm
      cases hm
    · rw [hheld] at hm
      cases hm
    · rw [hspec.stops]
      exact h.stop m (hsame.symm.trans hm)

theorem OtherSpec.decided {s s' : State} (hspec : OtherSpec s s') (h : s.Decided) :
    s'.Decided := by
  refine ⟨fun n => ?_, fun n => ?_, fun n hn => ?_, fun n hn => ?_⟩
  · rw [hspec.pc, hspec.owner]
    exact h.won n
  · rw [hspec.pc, hspec.owner]
    exact h.lost n
  · rw [hspec.pc]
    rcases hspec.mu with hfree | ⟨m, -, hheld, -⟩ | ⟨hsame, -⟩
    · rw [hfree] at hn
      cases hn
    · rw [hheld] at hn
      cases hn
    · exact h.start n (hsame.symm.trans hn)
  · rcases hspec.mu with hfree | ⟨m, -, hheld, hread⟩ | ⟨hsame, hkeep⟩
    · rw [hfree] at hn
      cases hn
    · rw [hheld] at hn
      cases hn
      exact hread
    · exact hkeep n (h.stop n (hsame.symm.trans hn))

/-! ## No call is stuck -/

/-- How many steps the call has before it at most. -/
def Starting.rank : Starting → Nat
  | .idle => 0
  | .lock => 11
  | .check => 10
  | .listen => 9
  | .relock => 8
  | .recheck => 7
  | .publish => 6
  | .launch => 5
  | .watch => 4
  | .unlock => 3
  | .discard => 2
  | .returned _ => 0

/-- The call is under way. -/
def Starting.pending (pc : Starting) : Prop := 0 < pc.rank

instance (pc : Starting) : Decidable pc.pending := inferInstanceAs (Decidable (0 < pc.rank))

theorem Starting.pending.ne_idle {pc : Starting} (h : pc.pending) : pc ≠ .idle := by
  rintro rfl
  exact absurd h (by decide)

theorem pending_of_holds {pc : Starting} (h : pc.holds = true) : pc.pending := by
  cases pc with
  | check | recheck | publish | launch | watch | unlock => decide
  | _ => cases h

theorem Moves.rank_lt {cfg : Pool.Config} {n : Nat} {mu mu' : Option Holder}
    {owner owner' : Option Nat} {how : StartStep} {p p' : Starting}
    (h : Moves cfg n mu owner how p p' mu' owner') (hp : p.pending) : p'.rank < p.rank := by
  cases h with
  | call => exact absurd rfl hp.ne_idle
  | _ => simp only [Starting.rank]; omega

/-- The step a call takes where it is, with what `net.Listen` and the store have for it. -/
def Starting.go (ok : Bool) (db : Memdriver.Driver) : Starting → StartStep
  | .listen => .listen ok
  | .publish => .publish db
  | _ => .go

/-- A call under way can go on when it holds the mutex or nobody does. -/
theorem exists_startStep (cfg : Pool.Config) {s : State} (hs : s.Consistent) {n : Nat}
    (hpending : (s.starts n).pc.pending) (hmu : s.mu = none ∨ (s.starts n).pc.holds = true)
    (ok : Bool) (db : Memdriver.Driver) :
    ∃ s', startStep cfg s n ((s.starts n).pc.go ok db) = some s' := by
  refine Option.isSome_iff_exists.mp ?_
  cases hpc : (s.starts n).pc with
  | idle => exact absurd hpc hpending.ne_idle
  | returned err =>
      rw [hpc] at hpending
      exact absurd hpending (Nat.lt_irrefl 0)
  | lock =>
      have hfree : s.mu = none := hmu.resolve_right (by simp [hpc, Starting.holds])
      simp [startStep, Starting.go, hpc, hfree]
  | relock =>
      have hfree : s.mu = none := hmu.resolve_right (by simp [hpc, Starting.holds])
      simp [startStep, Starting.go, hpc, hfree]
  | check =>
      simp only [startStep, Starting.go, hpc]
      split
      · rfl
      · split <;> rfl
  | recheck =>
      simp only [startStep, Starting.go, hpc]
      split <;> rfl
  | listen => cases ok <;> simp [startStep, Starting.go, hpc]
  | launch =>
      obtain ⟨r, hr, -⟩ := (hs.starts n).launch hpc
      simp [startStep, Starting.go, hpc, hr]
  | watch =>
      obtain ⟨r, hr, -⟩ := (hs.starts n).watch hpc
      simp [startStep, Starting.go, hpc, hr]
  | publish => simp [startStep, Starting.go, hpc]
  | unlock => simp [startStep, Starting.go, hpc]
  | discard => simp [startStep, Starting.go, hpc]

end Drover.Client
