import Mathlib.Algebra.Order.BigOperators.Group.Finset
import Drover.Client.Winner

set_option autoImplicit false

/-!
# Calls of `Start` and the ops address

`Start` looks at `c.runner`, releases the lock, binds the ops address, and looks again.  Here
the client stands beside the one address its calls bind, so that whether `net.Listen` succeeds
is no longer a choice: it does exactly when no listener is bound.  One call wins whatever the
interleaving.  What a losing call returns depends on where its bind falls: it is the listen
error, and not `ErrAlreadyStarted`, when another call's listener is bound at that moment.
-/

namespace Drover.Client

open Drover.Foundation

/-! ## The address -/

/-- A client with a fixed `OpsAddr`, and the address. -/
structure Host where
  client : State
  /-- the call of `Start` whose listener is bound to the address -/
  addr : Option Nat

/-- A client as `NewClient` leaves it, and nobody on its address. -/
def Host.free : Host := ⟨fresh, none⟩

/-- A step of the client, or of its ops server. -/
inductive HostLabel where
  | client (label : Label)
  /-- the ops server closes its listener: `Shutdown` does, and a `Serve` that fails -/
  | close

/-- Where the n-th call of `Start` is. -/
def Host.pc (h : Host) (n : Nat) : Starting := (h.client.starts n).pc

/-- `net.Listen` succeeds only while no listener is bound to the address. -/
def StartStep.answered (addr : Option Nat) : StartStep → StartStep
  | .listen _ => .listen addr.isNone
  | how => how

/-- The address after a step of the n-th call of `Start`. -/
def Starting.address (n : Nat) (addr : Option Nat) : Starting → Option Nat
  | .listen => addr.or (some n)
  | .discard => if addr = some n then none else addr
  | _ => addr

/-- The address once the shutdown of the runner is over: the ops server's `Shutdown` has closed
the listener. -/
def released (s : State) (addr : Option Nat) : Option Nat :=
  match s.runner with
  | some r =>
      match r.pool.drain with
      | .returned _ => if addr = some r.owner then none else addr
      | _ => addr
  | none => addr

/-- The step is one of a caller of `runner.stop`. -/
def Label.stops : Label → Bool
  | .stop _ _ | .watch _ => true
  | _ => false

/-- One step of the client, with the address.  A label's own answer of `net.Listen` is not
used. -/
def hostStep (cfg : Pool.Config) (h : Host) : HostLabel → Option Host
  | .client (.start n how) =>
      (startStep cfg h.client n (how.answered h.addr)).map fun s =>
        ⟨s, (h.pc n).address n h.addr⟩
  | .client label =>
      (step cfg h.client label).map fun s =>
        ⟨s, if label.stops then released s h.addr else h.addr⟩
  | .close =>
      match h.client.runner with
      | some r =>
          if r.launched ∧ h.addr = some r.owner then some { h with addr := none } else none
      | none => none

/-- The state after a step; a step that cannot be taken does nothing. -/
def hostNext (cfg : Pool.Config) (h : Host) (label : HostLabel) : Host :=
  (hostStep cfg h label).getD h

/-! ## What a step can do -/

/-- A step of the n-th call of `Start`. -/
structure HostStart (cfg : Pool.Config) (n : Nat) (how : StartStep) (h h' : Host) : Prop where
  spec : StartSpec cfg n (how.answered h.addr) h.client h'.client
  addr : h'.addr = (h.pc n).address n h.addr

/-- Any other step. -/
structure HostOther (h h' : Host) : Prop where
  spec : OtherSpec h.client h'.client
  addr : h'.addr = h.addr ∨ h'.addr = none ∧ h.addr = h.client.owner

/-- No shutdown, and no failure of the ops server. -/
def HostLabel.calm : HostLabel → Bool
  | .client label => !label.stops
  | .close => false

theorem released_eq (s : State) (addr : Option Nat) :
    released s addr = addr ∨ released s addr = none ∧ addr = s.owner := by
  unfold released
  split
  · rename_i r hr
    split
    · split
      · rename_i haddr
        refine Or.inr ⟨rfl, haddr.trans ?_⟩
        simp only [State.owner, hr, Option.map_some]
      · exact Or.inl rfl
    · exact Or.inl rfl
  · exact Or.inl rfl

theorem State.Consistent.step {cfg : Pool.Config} {s s' : State} {label : Label}
    (hs : s.Consistent) (h : Client.step cfg s label = some s') : s'.Consistent := by
  have hnext := hs.next cfg label
  rw [Client.next, h] at hnext
  exact hnext

/-- A step is one of a call of `Start`, or it leaves these calls where they are. -/
theorem hostStep_cases {cfg : Pool.Config} {h h' : Host} {label : HostLabel}
    (hs : h.client.Consistent) (hstep : hostStep cfg h label = some h') :
    h'.client.Consistent ∧
      ((∃ n how, label = .client (.start n how) ∧ HostStart cfg n how h h') ∨
        HostOther h h' ∧ (label.calm = true → h'.addr = h.addr)) := by
  cases label with
  | client label =>
      by_cases hstart : ∃ n how, label = .start n how
      · obtain ⟨n, how, rfl⟩ := hstart
        obtain ⟨s, hs', rfl⟩ := Option.map_eq_some_iff.mp hstep
        exact ⟨startStep_consistent hs hs', Or.inl ⟨n, how, rfl, startStep_spec hs hs', rfl⟩⟩
      · have hother : ∀ n how, label ≠ .start n how := fun n how heq => hstart ⟨n, how, heq⟩
        have hmap : hostStep cfg h (.client label) = (step cfg h.client label).map fun s =>
            ⟨s, if label.stops then released s h.addr else h.addr⟩ := by
          cases label with
          | start n how => exact absurd rfl (hother n how)
          | _ => rfl
        rw [hmap] at hstep
        obtain ⟨s, hs', rfl⟩ := Option.map_eq_some_iff.mp hstep
        have hspec := step_spec_of_ne_start hs hother hs'
        refine ⟨hs.step hs', Or.inr ⟨⟨hspec, ?_⟩, fun hcalm => ?_⟩⟩
        · dsimp only
          split
          · rw [← hspec.owner]
            exact released_eq s h.addr
          · exact Or.inl rfl
        · have hstops : label.stops = false := by simpa [HostLabel.calm] using hcalm
          simp [hstops]
  | close =>
      simp only [hostStep] at hstep
      split at hstep
      · rename_i r hr
        split at hstep <;> cases hstep
        rename_i hclose
        refine ⟨hs, Or.inr ⟨⟨OtherSpec.refl h.client, Or.inr ⟨rfl, hclose.2.trans ?_⟩⟩, nofun⟩⟩
        simp only [State.owner, hr, Option.map_some]
      · cases hstep

/-- The same of a step that need not be possible. -/
theorem hostNext_cases (cfg : Pool.Config) {h : Host} (hs : h.client.Consistent)
    (label : HostLabel) :
    (hostNext cfg h label).client.Consistent ∧
      ((∃ n how, label = .client (.start n how) ∧ HostStart cfg n how h (hostNext cfg h label)) ∨
        HostOther h (hostNext cfg h label) ∧
          (label.calm = true → (hostNext cfg h label).addr = h.addr)) := by
  unfold hostNext
  cases hstep : hostStep cfg h label with
  | none => exact ⟨hs, Or.inr ⟨⟨OtherSpec.refl h.client, Or.inl rfl⟩, fun _ => rfl⟩⟩
  | some h' => exact hostStep_cases hs hstep

theorem HostStart.pc_of_ne {cfg : Pool.Config} {n : Nat} {how : StartStep} {h h' : Host}
    (hstart : HostStart cfg n how h h') {m : Nat} (hm : m ≠ n) : h'.pc m = h.pc m :=
  congrArg StartCall.pc (hstart.spec.others m hm)

/-- `net.Listen` answers as the address has it. -/
theorem addr_of_answered {addr : Option Nat} {how : StartStep} {ok : Bool}
    (h : how.answered addr = .listen ok) : addr.isNone = ok := by
  cases how with
  | listen ok' => exact StartStep.listen.inj h
  | go => cases h
  | publish db => cases h

/-- A step leaves the listener of another call bound. -/
theorem address_of_ne (pc : Starting) {n m : Nat} (hne : m ≠ n) :
    pc.address n (some m) = some m := by
  have hsome : some m ≠ some n := fun heq => hne (Option.some.inj heq)
  cases pc with
  | discard => exact if_neg hsome
  | _ => rfl

/-- And binds none for another call. -/
theorem eq_of_address_of_ne {pc : Starting} {addr : Option Nat} {n m : Nat} (hne : m ≠ n)
    (h : pc.address n addr = some m) : addr = some m := by
  cases pc with
  | listen =>
      cases addr with
      | none => exact absurd (Option.some.inj h).symm hne
      | some a => exact h
  | discard =>
      simp only [Starting.address] at h
      split at h
      · cases h
      · exact h
  | _ => exact h

/-! ## What holds of a client and its address -/

/-- The call has bound the address and has not given its listener away. -/
def Starting.carries : Starting → Bool
  | .relock | .recheck | .publish | .discard => true
  | _ => false

/-- A client with an ops server, and its address, between two steps. -/
structure Host.Sound (h : Host) : Prop where
  consistent : h.client.Consistent
  decided : h.client.Decided
  carries : ∀ n, (h.pc n).carries = true → h.addr = some n
  bound : ∀ n, h.addr = some n → (h.pc n).carries = true ∨ h.client.owner = some n
  refused : ∀ n, h.pc n = .returned (some .listen) →
    h.client.owner ≠ none ∨ ∃ m, (h.pc m).carries = true

theorem sound_free : Host.free.Sound := by
  refine ⟨consistent_fresh, decided_fresh, fun n => ?_, fun n => ?_, fun n => ?_⟩
  all_goals simp [Host.free, Host.pc, fresh, Starting.carries]

section Moves

variable {cfg : Pool.Config} {n : Nat} {mu mu' : Option Holder} {owner owner' addr : Option Nat}
  {how : StartStep} {p p' : Starting}

/-- A call that carries a listener goes on with it, publishes it or closes it. -/
theorem Moves.carries (h : Moves cfg n mu owner how p p' mu' owner') (hp : p.carries = true) :
    p'.carries = true ∨ owner' = some n ∨ p = .discard := by
  cases h with
  | relock hfree => exact Or.inl rfl
  | late hsome => exact Or.inl rfl
  | first hnone => exact Or.inl rfl
  | publish db hnone => exact Or.inr (Or.inl rfl)
  | discard => exact Or.inr (Or.inr rfl)
  | _ => cases hp

/-- A call carries a listener because it did so before, or because it has just bound it. -/
theorem Moves.carries_address (hops : cfg.opsServer = true)
    (h : Moves cfg n mu owner how p p' mu' owner')
    (hhow : ∀ ok, how = .listen ok → addr.isNone = ok) (hp : p.carries = true → addr = some n)
    (hp' : p'.carries = true) : p.address n addr = some n := by
  cases h with
  | skip hnone hskip => exact absurd (hops.symm.trans hskip) nofun
  | bind =>
      have hnone : addr = none := Option.isNone_iff_eq_none.mp (hhow true rfl)
      rw [hnone]
      rfl
  | relock hfree => exact hp rfl
  | late hsome => exact hp rfl
  | first hnone => exact hp rfl
  | _ => cases hp'

/-- The call whose listener is bound carries it or has published it. -/
theorem Moves.address_carries (h : Moves cfg n mu owner how p p' mu' owner')
    (hhow : ∀ ok, how = .listen ok → addr.isNone = ok)
    (hp : addr = some n → p.carries = true ∨ owner = some n) (haddr : p.address n addr = some n) :
    p'.carries = true ∨ owner' = some n := by
  by_cases hold : addr = some n
  · rcases hp hold with hcarries | howner
    · rcases h.carries hcarries with hgo | hpublished | rfl
      · exact Or.inl hgo
      · exact Or.inr hpublished
      · -- it closes the listener: the address is free
        rw [hold] at haddr
        cases (if_pos rfl).symm.trans haddr
    · exact Or.inr (h.owner_some howner)
  · cases h with
    | bind => exact Or.inl rfl
    | refuse =>
        have hsome := hhow false rfl
        cases addr with
        | none => cases hsome
        | some a => exact absurd haddr hold
    | discard =>
        have hsame : Starting.discard.address n addr = addr := if_neg hold
        exact absurd (hsame.symm.trans haddr) hold
    | _ => exact absurd haddr hold

/-- The listen error comes from `net.Listen` alone. -/
theorem Moves.refused (h : Moves cfg n mu owner how p p' mu' owner')
    (hp' : p' = .returned (some .listen)) : p = .listen ∧ how = .listen false := by
  cases h with
  | refuse => exact ⟨rfl, rfl⟩
  | _ => cases hp'

/-- A call at `net.Listen` waits for its answer. -/
theorem Moves.listens (h : Moves cfg n mu owner how p p' mu' owner') (hp : p = .listen) :
    ∃ ok, how = .listen ok := by
  cases h with
  | bind => exact ⟨true, rfl⟩
  | refuse => exact ⟨false, rfl⟩
  | _ => cases hp

/-- A call that has returned takes no step. -/
theorem Moves.ne_returned (h : Moves cfg n mu owner how p p' mu' owner')
    (err : Option StartError) : p ≠ .returned err := by
  cases h with
  | _ => nofun

end Moves

section Sound

variable {cfg : Pool.Config} {h h' : Host} {n : Nat} {how : StartStep}

/-- Once a call carries a listener the client has a runner or will have one. -/
theorem HostStart.underway (hstart : HostStart cfg n how h h') (hs : h.Sound)
    (hunderway : h.client.owner ≠ none ∨ ∃ m, (h.pc m).carries = true) :
    h'.client.owner ≠ none ∨ ∃ m, (h'.pc m).carries = true := by
  have hmoves := hstart.spec.moves
  have hkeep : h.client.owner ≠ none → h'.client.owner ≠ none := by
    intro hsome
    obtain ⟨w, hw⟩ := Option.ne_none_iff_exists'.mp hsome
    rw [hmoves.owner_some hw]
    nofun
  rcases hunderway with hsome | ⟨m, hm⟩
  · exact Or.inl (hkeep hsome)
  · by_cases hne : m = n
    · subst hne
      rcases hmoves.carries hm with hgo | hpublished | hdiscard
      · exact Or.inr ⟨m, hgo⟩
      · exact Or.inl (by rw [hpublished]; nofun)
      · exact Or.inl (hkeep (hs.decided.lost m (by rw [hdiscard]; rfl)))
    · exact Or.inr ⟨m, by rwa [hstart.pc_of_ne hne]⟩

theorem HostStart.sound (hops : cfg.opsServer = true) (hstart : HostStart cfg n how h h')
    (hs : h.Sound) (hcons : h'.client.Consistent) : h'.Sound := by
  have hmoves := hstart.spec.moves
  refine ⟨hcons, hstart.spec.decided hs.decided, fun m hm => ?_, fun m hm => ?_, fun m hm => ?_⟩
  · rw [hstart.addr]
    by_cases hne : m = n
    · subst hne
      exact hmoves.carries_address hops (fun _ => addr_of_answered) (hs.carries m) hm
    · rw [hstart.pc_of_ne hne] at hm
      rw [hs.carries m hm]
      exact address_of_ne _ hne
  · rw [hstart.addr] at hm
    by_cases hne : m = n
    · subst hne
      exact hmoves.address_carries (fun _ => addr_of_answered) (hs.bound m) hm
    · rw [hstart.pc_of_ne hne]
      exact (hs.bound m (eq_of_address_of_ne hne hm)).imp_right hmoves.owner_some
  · refine hstart.underway hs ?_
    by_cases hne : m = n
    · subst hne
      -- the address is bound: its holder carries the listener or has published it
      have hsome := addr_of_answered (hmoves.refused hm).2
      obtain ⟨a, ha⟩ := Option.isSome_iff_exists.mp (Option.isNone_eq_false_iff.mp hsome)
      rcases hs.bound a ha with hcarries | howner
      · exact Or.inr ⟨a, hcarries⟩
      · exact Or.inl (by rw [howner]; nofun)
    · rw [hstart.pc_of_ne hne] at hm
      exact hs.refused m hm

theorem HostOther.pc_eq (hother : HostOther h h') (n : Nat) : h'.pc n = h.pc n :=
  hother.spec.pc n

theorem Host.Sound.owner_ne_of_carries (hs : h.Sound) (hcarries : (h.pc n).carries = true) :
    h.client.owner ≠ some n := by
  intro howner
  have hwon : (h.pc n).won = true := (hs.decided.won n).mpr howner
  cases hpc : h.pc n with
  | relock | recheck | publish | discard => rw [hpc] at hwon; cases hwon
  | _ => rw [hpc] at hcarries; cases hcarries

theorem HostOther.sound (hother : HostOther h h') (hs : h.Sound)
    (hcons : h'.client.Consistent) : h'.Sound := by
  refine ⟨hcons, hother.spec.decided hs.decided, fun n hn => ?_, fun n hn => ?_, fun n hn => ?_⟩
  · rw [hother.pc_eq] at hn
    rcases hother.addr with hsame | ⟨-, howner⟩
    · rw [hsame]
      exact hs.carries n hn
    · -- only the listener of the runner is closed, and a runner's call carries none
      exact absurd (howner.symm.trans (hs.carries n hn)) (hs.owner_ne_of_carries hn)
  · rw [hother.pc_eq, hother.spec.owner]
    rcases hother.addr with hsame | ⟨hnone, -⟩
    · exact hs.bound n (hsame.symm.trans hn)
    · rw [hnone] at hn
      cases hn
  · simp only [hother.pc_eq, hother.spec.owner] at hn ⊢
    exact hs.refused n hn

/-- Every step keeps a client and its address sound. -/
theorem Host.Sound.next (hops : cfg.opsServer = true) (hs : h.Sound) (label : HostLabel) :
    (hostNext cfg h label).Sound := by
  obtain ⟨hcons, ⟨n, how, -, hstart⟩ | ⟨hother, -⟩⟩ := hostNext_cases cfg hs.consistent label
  · exact hstart.sound hops hs hcons
  · exact hother.sound hs hcons

theorem run_sound (hops : cfg.opsServer = true) (labels : List HostLabel) :
    (run (hostNext cfg) Host.free labels).Sound :=
  run_invariant (fun _ label hs => hs.next hops label) sound_free labels

end Sound

/-! ## One call wins -/

/-- No call of `Start` is under way. -/
def Host.Settled (h : Host) : Prop := ∀ n, ¬ (h.pc n).pending

/-- Some call of `Start` has been made. -/
def Host.Started (h : Host) : Prop := ∃ n, h.pc n ≠ .idle

/-- One call of `Start` returns nil and every other `ErrAlreadyStarted`. -/
def Host.OneStarts (h : Host) : Prop :=
  (∃! n, h.pc n = .returned none) ∧
    ∀ n, h.pc n ≠ .idle → h.pc n = .returned none ∨ h.pc n = .returned (some .alreadyStarted)

theorem returned_of_not_pending {pc : Starting} (hover : ¬ pc.pending) (hmade : pc ≠ .idle) :
    ∃ err, pc = .returned err := by
  cases pc with
  | idle => exact absurd rfl hmade
  | returned err => exact ⟨err, rfl⟩
  | _ => exact absurd (by decide) hover

theorem Host.Settled.not_carries {h : Host} (hsettled : h.Settled) (n : Nat) :
    (h.pc n).carries = false := by
  by_cases hmade : h.pc n = .idle
  · rw [hmade]
    rfl
  · obtain ⟨err, herr⟩ := returned_of_not_pending (hsettled n) hmade
    rw [herr]
    rfl

/-- The call whose runner is published returns nil. -/
theorem Host.Sound.nil_iff {h : Host} (hs : h.Sound) (hsettled : h.Settled) (n : Nat) :
    h.pc n = .returned none ↔ h.client.owner = some n := by
  constructor
  · intro hnil
    exact (hs.decided.won n).mp (congrArg Starting.won hnil)
  · intro howner
    have hwon : (h.pc n).won = true := (hs.decided.won n).mpr howner
    have hmade : h.pc n ≠ .idle := by
      intro hidle
      rw [hidle] at hwon
      cases hwon
    obtain ⟨err, herr⟩ := returned_of_not_pending (hsettled n) hmade
    rw [herr] at hwon ⊢
    cases err with
    | none => rfl
    | some err => cases hwon

/-- Whatever the interleaving, exactly one call returns nil. -/
theorem Host.Sound.existsUnique_nil {h : Host} (hs : h.Sound) (hsettled : h.Settled)
    (hstarted : h.Started) : ∃! n, h.pc n = .returned none := by
  have hsome : h.client.owner ≠ none := by
    obtain ⟨n, hn⟩ := hstarted
    obtain ⟨err, herr⟩ := returned_of_not_pending (hsettled n) hn
    cases err with
    | none =>
        rw [(hs.nil_iff hsettled n).mp herr]
        nofun
    | some err =>
        cases err with
        | alreadyStarted => exact hs.decided.lost n (congrArg Starting.lost herr)
        | listen =>
            refine (hs.refused n herr).resolve_right ?_
            rintro ⟨m, hm⟩
            exact absurd ((hsettled.not_carries m).symm.trans hm) nofun
  obtain ⟨w, hw⟩ := Option.ne_none_iff_exists'.mp hsome
  refine ⟨w, (hs.nil_iff hsettled w).mpr hw, fun n hn => ?_⟩
  exact Option.some.inj (((hs.nil_iff hsettled n).mp hn).symm.trans hw)

/-- The others have returned `ErrAlreadyStarted` when none has returned the listen error. -/
theorem Host.Sound.oneStarts_iff {h : Host} (hs : h.Sound) (hsettled : h.Settled)
    (hstarted : h.Started) : h.OneStarts ↔ ∀ n, h.pc n ≠ .returned (some .listen) := by
  constructor
  · rintro ⟨-, hothers⟩ n hlisten
    have hmade : h.pc n ≠ .idle := by rw [hlisten]; nofun
    rcases hothers n hmade with hnil | hlost
    · cases hlisten.symm.trans hnil
    · cases hlisten.symm.trans hlost
  · intro hnone
    refine ⟨hs.existsUnique_nil hsettled hstarted, fun n hn => ?_⟩
    obtain ⟨err, herr⟩ := returned_of_not_pending (hsettled n) hn
    cases err with
    | none => exact Or.inl herr
    | some err =>
        cases err with
        | alreadyStarted => exact Or.inr herr
        | listen => exact absurd herr (hnone n)

/-! ## When a call returns the listen error -/

/-- If the step is a bind, then of a free address: nobody's listener is bound to it. -/
def Host.Apart (h : Host) : HostLabel → Prop
  | .client (.start n (.listen _)) => h.pc n = .listen → h.addr = none
  | _ => True

instance Host.Apart.decidable (h : Host) : (label : HostLabel) → Decidable (h.Apart label)
  | .client (.start n (.listen _)) =>
      inferInstanceAs (Decidable (h.pc n = .listen → h.addr = none))
  | .client (.start _ .go) => .isTrue trivial
  | .client (.start _ (.publish _)) => .isTrue trivial
  | .client (.stop _ _) => .isTrue trivial
  | .client (.watch _) => .isTrue trivial
  | .client .watchDone => .isTrue trivial
  | .client (.cancel _) => .isTrue trivial
  | .client (.pool _) => .isTrue trivial
  | .close => .isTrue trivial

section Apart

variable {cfg : Pool.Config} {h : Host}

/-- A call that has returned has returned. -/
theorem Host.Sound.returned_next (hs : h.Sound) {n : Nat} {err : Option StartError}
    (hn : h.pc n = .returned err) (label : HostLabel) :
    (hostNext cfg h label).pc n = .returned err := by
  obtain ⟨-, ⟨m, how, -, hstart⟩ | ⟨hother, -⟩⟩ := hostNext_cases cfg hs.consistent label
  · by_cases hne : n = m
    · subst hne
      exact absurd hn (hstart.spec.moves.ne_returned err)
    · rw [hstart.pc_of_ne hne]
      exact hn
  · rw [hother.pc_eq]
    exact hn

/-- A bind of a free address is not refused. -/
theorem Host.Apart.next {label : HostLabel} (hapart : h.Apart label) (hs : h.Sound)
    (hnone : ∀ n, h.pc n ≠ .returned (some .listen)) (n : Nat) :
    (hostNext cfg h label).pc n ≠ .returned (some .listen) := by
  obtain ⟨-, ⟨m, how, rfl, hstart⟩ | ⟨hother, -⟩⟩ := hostNext_cases cfg hs.consistent label
  · by_cases hne : n = m
    · subst hne
      intro hrefused
      obtain ⟨hlisten, hhow⟩ := hstart.spec.moves.refused hrefused
      cases how with
      | listen ok =>
          have hfree : h.addr = none := hapart hlisten
          have hbound := addr_of_answered hhow
          rw [hfree] at hbound
          cases hbound
      | go => cases hhow
      | publish db => cases hhow
    · rw [hstart.pc_of_ne hne]
      exact hnone n
  · rw [hother.pc_eq]
    exact hnone n

/-- A bind of any other is. -/
theorem exists_refused (cfg : Pool.Config) {label : HostLabel} (hapart : ¬ h.Apart label) :
    ∃ n, (hostNext cfg h label).pc n = .returned (some .listen) := by
  unfold Host.Apart at hapart
  split at hapart
  · rename_i n ok
    obtain ⟨hlisten, hbound⟩ := Classical.not_imp.mp hapart
    have hanswer : h.addr.isNone = false :=
      Option.isNone_eq_false_iff.mpr (Option.isSome_iff_ne_none.mpr hbound)
    refine ⟨n, ?_⟩
    have hpc : (h.client.starts n).pc = .listen := hlisten
    simp [hostNext, hostStep, StartStep.answered, startStep, hpc, hanswer, Host.pc, State.setStart]
  · exact absurd trivial hapart

/-- No call returns the listen error when every bind is of a free address, and only then. -/
theorem apart_iff (hops : cfg.opsServer = true) (hs : h.Sound)
    (hnone : ∀ n, h.pc n ≠ .returned (some .listen)) (labels : List HostLabel) :
    Steps (hostNext cfg) Host.Apart h labels ↔
      ∀ n, (run (hostNext cfg) h labels).pc n ≠ .returned (some .listen) := by
  induction labels generalizing h with
  | nil => exact ⟨fun _ => hnone, fun _ => trivial⟩
  | cons label labels ih =>
      by_cases hapart : h.Apart label
      · rw [run_cons, ← ih (hs.next hops label) (hapart.next hs hnone)]
        exact ⟨And.right, fun hsteps => ⟨hapart, hsteps⟩⟩
      · refine ⟨fun hsteps => absurd hsteps.1 hapart, fun hend => ?_⟩
        obtain ⟨n, hn⟩ := exists_refused cfg hapart
        -- and it stays refused
        have hstays := run_invariant
          (P := fun h : Host => h.Sound ∧ h.pc n = .returned (some .listen))
          (fun _ label hh => ⟨hh.1.next hops label, hh.1.returned_next hh.2 label⟩)
          ⟨hs.next hops label, hn⟩ labels
        exact absurd hstays.2 (hend n)

end Apart

/-! ## When the calls are in order -/

/-- The call has seen that there is no runner, and has not published its own. -/
def Starting.between : Starting → Bool
  | .listen | .relock | .recheck | .publish => true
  | _ => false

/-- If the step is a first look at `c.runner` that finds none, no other call is between its own
first look and its publication. -/
def Host.Ordered (h : Host) : HostLabel → Prop
  | .client (.start n .go) =>
      h.pc n = .check → h.client.owner = none → ∀ m, (h.pc m).between = false
  | _ => True

theorem Moves.between {cfg : Pool.Config} {n : Nat} {mu mu' : Option Holder}
    {owner owner' : Option Nat} {how : StartStep} {p p' : Starting}
    (h : Moves cfg n mu owner how p p' mu' owner') (hp' : p'.between = true) :
    owner' = owner ∧ (p.between = true ∨ p = .check ∧ how = .go ∧ owner = none) := by
  cases h with
  | listen hnone hops => exact ⟨rfl, Or.inr ⟨rfl, rfl, hnone⟩⟩
  | skip hnone hops => exact ⟨rfl, Or.inr ⟨rfl, rfl, hnone⟩⟩
  | bind => exact ⟨rfl, Or.inl rfl⟩
  | relock hfree => exact ⟨rfl, Or.inl rfl⟩
  | first hnone => exact ⟨rfl, Or.inl rfl⟩
  | _ => cases hp'

theorem eq_go_of_answered {how : StartStep} {addr : Option Nat} (h : how.answered addr = .go) :
    how = .go := by
  cases how with
  | go => rfl
  | listen ok => cases h
  | publish db => cases h

/-- At most one call is between its first look and its publication, and there is no runner
then. -/
structure Host.Alone (h : Host) : Prop where
  one : ∀ m n, (h.pc m).between = true → (h.pc n).between = true → m = n
  first : ∀ n, (h.pc n).between = true → h.client.owner = none

section Ordered

variable {cfg : Pool.Config} {h h' : Host}

theorem alone_free : Host.free.Alone := by
  refine ⟨fun m n => ?_, fun n => ?_⟩
  all_goals simp [Host.free, Host.pc, fresh, Starting.between]

theorem HostStart.alone {n : Nat} {how : StartStep} (hstart : HostStart cfg n how h h')
    (hordered : h.Ordered (.client (.start n how))) (halone : h.Alone) : h'.Alone := by
  have hmoves := hstart.spec.moves
  -- while another call is between, this one neither publishes nor comes to be between
  have hother : ∀ m, m ≠ n → (h'.pc m).between = true →
      h'.client.owner = none ∧ (h'.pc n).between ≠ true := by
    intro m hm hbetween
    rw [hstart.pc_of_ne hm] at hbetween
    refine ⟨?_, fun hself => ?_⟩
    · rcases hmoves.owner_eq with heq | ⟨hpublish, -⟩
      · rw [heq]
        exact halone.first m hbetween
      · exact absurd (halone.one m n hbetween (congrArg Starting.between hpublish)) hm
    · rcases (hmoves.between hself).2 with hbefore | ⟨hcheck, hgo, hnone⟩
      · exact hm (halone.one m n hbetween hbefore)
      · obtain rfl := eq_go_of_answered hgo
        exact absurd ((hordered hcheck hnone m).symm.trans hbetween) nofun
  refine ⟨fun m k hm hk => ?_, fun m hm => ?_⟩
  · by_cases hmn : m = n
    · subst hmn
      by_contra hne
      exact (hother k (Ne.symm hne) hk).2 hm
    · by_cases hkn : k = n
      · subst hkn
        exact absurd hk (hother m hmn hm).2
      · rw [hstart.pc_of_ne hmn] at hm
        rw [hstart.pc_of_ne hkn] at hk
        exact halone.one m k hm hk
  · by_cases hmn : m = n
    · subst hmn
      obtain ⟨heq, hbefore | ⟨-, -, hnone⟩⟩ := hmoves.between hm
      · rw [heq]
        exact halone.first m hbefore
      · rw [heq]
        exact hnone
    · exact (hother m hmn hm).1

theorem Host.Alone.next (halone : h.Alone) (hs : h.Sound) {label : HostLabel}
    (hordered : h.Ordered label) : (hostNext cfg h label).Alone := by
  obtain ⟨-, ⟨n, how, rfl, hstart⟩ | ⟨hother, -⟩⟩ := hostNext_cases cfg hs.consistent label
  · exact hstart.alone hordered halone
  · refine ⟨fun m n => ?_, fun n => ?_⟩
    · rw [hother.pc_eq, hother.pc_eq]
      exact halone.one m n
    · rw [hother.pc_eq, hother.spec.owner]
      exact halone.first n

/-- A call that comes to `net.Listen` alone finds the address free. -/
theorem Host.Alone.addr_eq_none (halone : h.Alone) (hs : h.Sound) {n : Nat}
    (hn : h.pc n = .listen) : h.addr = none := by
  have hbetween : (h.pc n).between = true := congrArg Starting.between hn
  have hnone := halone.first n hbetween
  by_contra hbound
  obtain ⟨m, hm⟩ := Option.ne_none_iff_exists'.mp hbound
  rcases hs.bound m hm with hcarries | howner
  · cases hpc : h.pc m with
    | discard =>
        exact hs.decided.lost m (congrArg Starting.lost hpc) hnone
    | relock | recheck | publish =>
        obtain rfl := halone.one m n (congrArg Starting.between hpc) hbetween
        cases hpc.symm.trans hn
    | _ =>
        rw [hpc] at hcarries
        cases hcarries
  · cases hnone.symm.trans howner

theorem apart_of_ordered (hops : cfg.opsServer = true) (halone : h.Alone) (hs : h.Sound)
    {labels : List HostLabel} (hordered : Steps (hostNext cfg) Host.Ordered h labels) :
    Steps (hostNext cfg) Host.Apart h labels := by
  refine steps_of_steps (P := fun h : Host => h.Alone ∧ h.Sound) ?_ ?_ ⟨halone, hs⟩ hordered
  · rintro h label ⟨halone, hs⟩ hordered
    exact ⟨halone.next hs hordered, hs.next hops label⟩
  · rintro h label ⟨halone, hs⟩ -
    unfold Host.Apart
    split
    · exact fun hn => halone.addr_eq_none hs hn
    · trivial

/-! ## The converse, while nothing is shut down -/

/-- The listener of the runner is bound. -/
def Host.Kept (h : Host) : Prop := ∀ w, h.client.owner = some w → h.addr = some w

/-- While the listener of the runner is bound, no call has one to discard: an address once bound
stays bound. -/
theorem HostStart.addr_stays {n a : Nat} {how : StartStep} (hstart : HostStart cfg n how h h')
    (hs : h.Sound) (hkept : h.Kept) (ha : h.addr = some a) : h'.addr = some a := by
  rw [hstart.addr, ha]
  by_cases hne : a = n
  · subst hne
    cases hpc : h.pc a with
    | discard =>
        -- there is a runner, its listener is bound, and it is not that of this call
        obtain ⟨w, hw⟩ := Option.ne_none_iff_exists'.mp
          (hs.decided.lost a (congrArg Starting.lost hpc))
        obtain rfl := Option.some.inj ((hkept w hw).symm.trans ha)
        exact absurd hw (hs.owner_ne_of_carries (congrArg Starting.carries hpc))
    | _ => rfl
  · exact address_of_ne _ hne

theorem Host.Kept.next (hkept : h.Kept) (hs : h.Sound) {label : HostLabel}
    (hcalm : label.calm = true) : (hostNext cfg h label).Kept := by
  intro w hw
  obtain ⟨-, ⟨n, how, rfl, hstart⟩ | ⟨hother, haddr⟩⟩ := hostNext_cases cfg hs.consistent label
  · rcases hstart.spec.moves.owner_eq with heq | ⟨hpublish, -, hself⟩
    · exact hstart.addr_stays hs hkept (hkept w (heq.symm.trans hw))
    · obtain rfl := Option.some.inj (hself.symm.trans hw)
      exact hstart.addr_stays hs hkept (hs.carries n (congrArg Starting.carries hpublish))
  · rw [hother.spec.owner] at hw
    exact (haddr hcalm).trans (hkept w hw)

/-- A call is at `net.Listen` and the address is bound, or another call is there too: one of
them will be refused. -/
def Host.Doomed (h : Host) : Prop :=
  ∃ a, h.pc a = .listen ∧ (h.addr ≠ none ∨ ∃ b, b ≠ a ∧ h.pc b = .listen)

/-- A first look out of order. -/
theorem exists_doomed (hops : cfg.opsServer = true) (hs : h.Sound) {label : HostLabel}
    (hordered : ¬ h.Ordered label) : (hostNext cfg h label).Doomed := by
  unfold Host.Ordered at hordered
  split at hordered
  · rename_i n
    obtain ⟨hcheck, hordered⟩ := Classical.not_imp.mp hordered
    obtain ⟨howner, hordered⟩ := Classical.not_imp.mp hordered
    obtain ⟨m, hm⟩ := not_forall.mp hordered
    have hbetween : (h.pc m).between = true := by simpa using hm
    have hmn : m ≠ n := by
      rintro rfl
      rw [hcheck] at hbetween
      cases hbetween
    have hrunner : h.client.runner = none := Option.map_eq_none_iff.mp howner
    have hpc : (h.client.starts n).pc = .check := hcheck
    have hnext : hostNext cfg h (.client (.start n .go)) =
        ⟨{ h.client with mu := none }.setStart n { h.client.starts n with pc := .listen },
          h.addr⟩ := by
      simp [hostNext, hostStep, StartStep.answered, startStep, hpc, hrunner, hops, hcheck,
        Starting.address]
    have hself : (hostNext cfg h (.client (.start n .go))).pc n = .listen := by
      simp [hnext, Host.pc, State.setStart]
    have hother : (hostNext cfg h (.client (.start n .go))).pc m = h.pc m := by
      simp [hnext, Host.pc, State.setStart, Function.update_of_ne hmn]
    refine ⟨n, hself, ?_⟩
    cases hplace : h.pc m with
    | listen => exact Or.inr ⟨m, hmn, hother.trans hplace⟩
    | relock | recheck | publish =>
        refine Or.inl ?_
        rw [hnext]
        exact fun hnone => by cases hnone.symm.trans (hs.carries m (by rw [hplace]; rfl))
    | _ =>
        rw [hplace] at hbetween
        cases hbetween
  · exact absurd trivial hordered

/-- The step of a call at `net.Listen` is that of `net.Listen`. -/
theorem HostStart.how_of_listen {n : Nat} {how : StartStep} (hstart : HostStart cfg n how h h')
    (hn : h.pc n = .listen) : ∃ ok, how = .listen ok := by
  obtain ⟨ok, hok⟩ := hstart.spec.moves.listens hn
  cases how with
  | listen ok' => exact ⟨ok', rfl⟩
  | go => cases hok
  | publish db => cases hok

theorem HostStart.doomed {n : Nat} {how : StartStep} (hstart : HostStart cfg n how h h')
    (hs : h.Sound) (hkept : h.Kept) (hapart : h.Apart (.client (.start n how)))
    (hdoomed : h.Doomed) : h'.Doomed := by
  -- the call that moves, if it is at `net.Listen`, binds a free address
  have hbinds : h.pc n = .listen → h.addr = none ∧ h'.addr = some n := by
    intro hn
    obtain ⟨ok, rfl⟩ := hstart.how_of_listen hn
    have hfree : h.addr = none := hapart hn
    refine ⟨hfree, ?_⟩
    rw [hstart.addr, hn, hfree]
    rfl
  obtain ⟨a, ha, hbound | ⟨b, hba, hb⟩⟩ := hdoomed
  · obtain ⟨c, hc⟩ := Option.ne_none_iff_exists'.mp hbound
    have han : a ≠ n := by
      rintro rfl
      exact hbound (hbinds ha).1
    refine ⟨a, (hstart.pc_of_ne han).trans ha, Or.inl ?_⟩
    rw [hstart.addr_stays hs hkept hc]
    nofun
  · by_cases han : a = n
    · subst han
      refine ⟨b, (hstart.pc_of_ne hba).trans hb, Or.inl ?_⟩
      rw [(hbinds ha).2]
      nofun
    · by_cases hbn : b = n
      · subst hbn
        refine ⟨a, (hstart.pc_of_ne han).trans ha, Or.inl ?_⟩
        rw [(hbinds hb).2]
        nofun
      · exact ⟨a, (hstart.pc_of_ne han).trans ha,
          Or.inr ⟨b, hba, (hstart.pc_of_ne hbn).trans hb⟩⟩

theorem Host.Doomed.next (hdoomed : h.Doomed) (hs : h.Sound) (hkept : h.Kept)
    {label : HostLabel} (hcalm : label.calm = true) (hapart : h.Apart label) :
    (hostNext cfg h label).Doomed := by
  obtain ⟨-, ⟨n, how, rfl, hstart⟩ | ⟨hother, haddr⟩⟩ := hostNext_cases cfg hs.consistent label
  · exact hstart.doomed hs hkept hapart hdoomed
  · simpa only [Host.Doomed, hother.pc_eq, haddr hcalm] using hdoomed

theorem Host.Doomed.run (hops : cfg.opsServer = true) (hdoomed : h.Doomed) (hs : h.Sound)
    (hkept : h.Kept) {labels : List HostLabel} (hcalm : ∀ label ∈ labels, label.calm = true)
    (hapart : Steps (hostNext cfg) Host.Apart h labels) :
    (run (hostNext cfg) h labels).Doomed := by
  induction labels generalizing h with
  | nil => exact hdoomed
  | cons label labels ih =>
      obtain ⟨hlabel, hlabels⟩ := List.forall_mem_cons.mp hcalm
      exact ih (hdoomed.next hs hkept hlabel hapart.1) (hs.next hops label)
        (hkept.next hs hlabel) hlabels hapart.2

theorem Host.Doomed.not_settled (hdoomed : h.Doomed) : ¬ h.Settled := by
  obtain ⟨a, ha, -⟩ := hdoomed
  intro hsettled
  refine hsettled a ?_
  rw [ha]
  decide

/-- When nobody is refused and everybody has returned, the calls were in order. -/
theorem ordered_of_apart (hops : cfg.opsServer = true) (hs : h.Sound) (hkept : h.Kept)
    {labels : List HostLabel} (hcalm : ∀ label ∈ labels, label.calm = true)
    (hapart : Steps (hostNext cfg) Host.Apart h labels)
    (hsettled : (run (hostNext cfg) h labels).Settled) :
    Steps (hostNext cfg) Host.Ordered h labels := by
  induction labels generalizing h with
  | nil => trivial
  | cons label labels ih =>
      obtain ⟨hlabel, hlabels⟩ := List.forall_mem_cons.mp hcalm
      have hs' := hs.next hops label
      have hkept' : (hostNext cfg h label).Kept := hkept.next hs hlabel
      refine ⟨?_, ih hs' hkept' hlabels hapart.2 hsettled⟩
      by_contra hordered
      have hdoomed := exists_doomed hops hs hordered
      exact (hdoomed.run hops hs' hkept' hlabels hapart.2).not_settled hsettled

end Ordered

/-! ## Every call returns -/

/-- The step is of no call of `Start` from the N-th on. -/
def HostLabel.below (N : Nat) : HostLabel → Bool
  | .client (.start n _) => decide (n < N)
  | _ => true

theorem below_mono {N N' : Nat} (hle : N ≤ N') {label : HostLabel} (h : label.below N = true) :
    label.below N' = true := by
  unfold HostLabel.below at h ⊢
  split at h
  · exact decide_eq_true (lt_of_lt_of_le (of_decide_eq_true h) hle)
  · rfl

/-- A run makes finitely many calls. -/
theorem exists_below (labels : List HostLabel) : ∃ N, ∀ label ∈ labels, label.below N = true := by
  induction labels with
  | nil => exact ⟨0, nofun⟩
  | cons label labels ih =>
      obtain ⟨N, hN⟩ := ih
      obtain ⟨M, hM⟩ : ∃ M, label.below M = true := by
        unfold HostLabel.below
        split
        · exact ⟨_, decide_eq_true (Nat.lt_succ_self _)⟩
        · exact ⟨0, rfl⟩
      refine ⟨max M N, List.forall_mem_cons.mpr ⟨below_mono (le_max_left M N) hM, ?_⟩⟩
      exact fun l hl => below_mono (le_max_right M N) (hN l hl)

/-- The calls from the N-th on have not been made. -/
def Host.Idle (N : Nat) (h : Host) : Prop := ∀ n, N ≤ n → h.pc n = .idle

section Finish

variable {cfg : Pool.Config} {h h' : Host}

theorem Host.Idle.next {N : Nat} (hidle : h.Idle N) (hs : h.Sound) {label : HostLabel}
    (hbelow : label.below N = true) : (hostNext cfg h label).Idle N := by
  intro n hn
  obtain ⟨-, ⟨m, how, rfl, hstart⟩ | ⟨hother, -⟩⟩ := hostNext_cases cfg hs.consistent label
  · have hm : m < N := of_decide_eq_true hbelow
    rw [hstart.pc_of_ne (by omega)]
    exact hidle n hn
  · rw [hother.pc_eq]
    exact hidle n hn

theorem Host.Idle.run (hops : cfg.opsServer = true) {N : Nat} (hidle : h.Idle N) (hs : h.Sound)
    {labels : List HostLabel} (hbelow : ∀ label ∈ labels, label.below N = true) :
    (run (hostNext cfg) h labels).Idle N := by
  refine (run_of_forall_mem (P := fun h : Host => h.Sound ∧ h.Idle N) ?_ ⟨hs, hidle⟩ hbelow).2
  rintro h label ⟨hs, hidle⟩ hlabel
  exact ⟨hs.next hops label, hidle.next hs hlabel⟩

/-- What keeps a call of `Start` from going on, apart from the other calls: a call of `Stop`
that holds the mutex. -/
def delay : Option Holder → Nat
  | some (.stop _) => 1
  | _ => 0

/-- What the calls before the N-th have before them. -/
def Host.load (N : Nat) (h : Host) : Nat :=
  2 * ∑ n ∈ Finset.range N, (h.pc n).rank + delay h.client.mu

theorem Moves.delay_le {n : Nat} {mu mu' : Option Holder} {owner owner' : Option Nat}
    {how : StartStep} {p p' : Starting} (hmoves : Moves cfg n mu owner how p p' mu' owner') :
    delay mu' ≤ delay mu := by
  rcases hmoves.mu_eq with hfree | ⟨hheld, -⟩ | ⟨hsame, -⟩
  · rw [hfree]
    exact Nat.zero_le _
  · rw [hheld]
    exact Nat.zero_le _
  · rw [hsame]

/-- No step makes a call idle. -/
theorem Moves.ne_idle {n : Nat} {mu mu' : Option Holder} {owner owner' : Option Nat}
    {how : StartStep} {p p' : Starting} (hmoves : Moves cfg n mu owner how p p' mu' owner') :
    p' ≠ .idle := by
  cases hmoves with
  | _ => nofun

theorem HostStart.progress {n N : Nat} {how : StartStep} (hstart : HostStart cfg n how h h')
    (hn : n < N) (hpending : (h.pc n).pending) :
    h'.load N < h.load N ∧ ∀ m, h'.pc m = .idle ↔ h.pc m = .idle := by
  have hmoves := hstart.spec.moves
  have hrank : (h'.pc n).rank < (h.pc n).rank := hmoves.rank_lt hpending
  have hsum : ∑ m ∈ Finset.range N, (h'.pc m).rank < ∑ m ∈ Finset.range N, (h.pc m).rank := by
    refine Finset.sum_lt_sum (fun m _ => ?_) ⟨n, Finset.mem_range.mpr hn, hrank⟩
    by_cases hm : m = n
    · rw [hm]
      exact hrank.le
    · rw [hstart.pc_of_ne hm]
  refine ⟨?_, fun m => ?_⟩
  · have hdelay := hmoves.delay_le
    unfold Host.load
    omega
  · by_cases hm : m = n
    · subst hm
      exact ⟨fun heq => absurd heq hmoves.ne_idle, fun heq => absurd heq hpending.ne_idle⟩
    · rw [hstart.pc_of_ne hm]

/-- The step a call takes next, when the mutex does not keep it from it, lightens the load. -/
theorem exists_start_progress (cfg : Pool.Config) (hs : h.Sound) {n N : Nat} (hidle : h.Idle N)
    (hpending : (h.pc n).pending) (hmu : h.client.mu = none ∨ (h.pc n).holds = true) :
    ∃ label, label.below N = true ∧ (hostNext cfg h label).load N < h.load N ∧
      ∀ m, (hostNext cfg h label).pc m = .idle ↔ h.pc m = .idle := by
  have hn : n < N := by
    by_contra hge
    exact hpending.ne_idle (hidle n (not_lt.mp hge))
  have hanswer : ((h.pc n).go true Memdriver.new).answered h.addr =
      (h.pc n).go h.addr.isNone Memdriver.new := by
    cases h.pc n with
    | _ => rfl
  obtain ⟨s, hs'⟩ := exists_startStep cfg hs.consistent hpending hmu h.addr.isNone Memdriver.new
  have hstep : hostStep cfg h (.client (.start n ((h.pc n).go true Memdriver.new))) =
      some ⟨s, (h.pc n).address n h.addr⟩ := by
    simp only [hostStep, hanswer]
    rw [Option.map_eq_some_iff]
    exact ⟨s, hs', rfl⟩
  have hstart : HostStart cfg n ((h.pc n).go true Memdriver.new) h
      ⟨s, (h.pc n).address n h.addr⟩ := by
    refine ⟨?_, rfl⟩
    rw [hanswer]
    exact startStep_spec hs.consistent hs'
  refine ⟨.client (.start n ((h.pc n).go true Memdriver.new)), decide_eq_true hn, ?_⟩
  rw [hostNext, hstep, Option.getD_some]
  exact hstart.progress hn hpending

/-- Some step lightens the load of a client that has not settled. -/
theorem exists_progress (cfg : Pool.Config) (hs : h.Sound) {N : Nat} (hidle : h.Idle N)
    (hsettled : ¬ h.Settled) :
    ∃ label, label.below N = true ∧ (hostNext cfg h label).load N < h.load N ∧
      ∀ m, (hostNext cfg h label).pc m = .idle ↔ h.pc m = .idle := by
  obtain ⟨n, hn⟩ := not_forall.mp hsettled
  have hpending := not_not.mp hn
  cases hmu : h.client.mu with
  | none => exact exists_start_progress cfg hs hidle hpending (Or.inl hmu)
  | some holder =>
      cases holder with
      | start m =>
          have hholds : (h.pc m).holds = true := hs.decided.start m hmu
          exact exists_start_progress cfg hs hidle (pending_of_holds hholds) (Or.inr hholds)
      | stop m =>
          -- `Stop` releases the mutex
          have hread := hs.decided.stop m hmu
          refine ⟨.client (.stop m .go), rfl, ?_⟩
          have hstep : ∃ h', hostStep cfg h (.client (.stop m .go)) = some h' ∧
              h'.client.mu = none ∧ h'.client.starts = h.client.starts := by
            simp [hostStep, step, stopStep, hread, State.setStop]
          obtain ⟨h', hh', hfree, hstarts⟩ := hstep
          have hpc : ∀ k, h'.pc k = h.pc k := fun k => by rw [Host.pc, hstarts, Host.pc]
          rw [hostNext, hh', Option.getD_some]
          refine ⟨?_, fun k => by rw [hpc]⟩
          simp only [Host.load, hpc, hfree, hmu, delay]
          omega

/-- The calls under way can all return, and no other call need be made for it. -/
theorem exists_settled (hops : cfg.opsServer = true) {N : Nat} (hs : h.Sound)
    (hidle : h.Idle N) :
    ∃ more, (run (hostNext cfg) h more).Settled ∧
      ∀ n, (run (hostNext cfg) h more).pc n = .idle ↔ h.pc n = .idle := by
  induction hload : h.load N using Nat.strong_induction_on generalizing h with
  | _ load ih =>
      by_cases hsettled : h.Settled
      · exact ⟨[], hsettled, fun _ => Iff.rfl⟩
      · obtain ⟨label, hbelow, hlt, hsame⟩ := exists_progress cfg hs hidle hsettled
        obtain ⟨more, hmore, hidles⟩ := ih _ (hload ▸ hlt) (hs.next hops label)
          (hidle.next hs hbelow) rfl
        exact ⟨label :: more, hmore, fun n => (hidles n).trans (hsame n)⟩

end Finish

theorem settled_of_idle {h : Host} {N : Nat} (hidle : h.Idle N)
    (hover : ∀ n < N, ¬ (h.pc n).pending) : h.Settled := by
  intro n hpending
  by_cases hn : n < N
  · exact hover n hn hpending
  · exact hpending.ne_idle (hidle n (not_lt.mp hn))

theorem idle_free (N : Nat) : Host.free.Idle N := fun _ _ => rfl

/-! ## What the calls return -/

/-- Any number of calls of `Start` on a client with a fixed ops address, in any interleaving.
They can all return.  When they have, exactly one has returned nil, and the others have returned
`ErrAlreadyStarted` if and only if no call came to `net.Listen` while a listener was bound to the
address.  For calls of `Start` alone this is to say that they were in order: no call found no
runner while another was between its own first look and its publication. -/
theorem alreadyStarted_wins_iff (cfg : Pool.Config) (hops : cfg.opsServer = true)
    (labels : List HostLabel) :
    let h := run (hostNext cfg) Host.free labels
    (∃ more, (run (hostNext cfg) h more).Settled ∧
        ∀ n, (run (hostNext cfg) h more).pc n = .idle ↔ h.pc n = .idle) ∧
      (h.Settled → h.Started →
        (∃! n, h.pc n = .returned none) ∧
        (h.OneStarts ↔ Steps (hostNext cfg) Host.Apart Host.free labels) ∧
        ((∀ label ∈ labels, label.calm = true) →
          (h.OneStarts ↔ Steps (hostNext cfg) Host.Ordered Host.free labels))) := by
  intro h
  have hs : h.Sound := run_sound hops labels
  refine ⟨?_, fun hsettled hstarted => ?_⟩
  · obtain ⟨N, hN⟩ := exists_below labels
    exact exists_settled hops hs ((idle_free N).run hops sound_free hN)
  · have hapart : h.OneStarts ↔ Steps (hostNext cfg) Host.Apart Host.free labels := by
      rw [hs.oneStarts_iff hsettled hstarted, apart_iff hops sound_free (fun _ => nofun)]
    refine ⟨hs.existsUnique_nil hsettled hstarted, hapart, fun hcalm => ?_⟩
    rw [hapart]
    constructor
    · intro happart
      exact ordered_of_apart hops sound_free (fun _ => nofun) hcalm happart hsettled
    · exact apart_of_ordered hops alone_free sound_free

/-- The steps of the n-th call of `Start`. -/
def callOf (n : Nat) (steps : List StartStep) : List HostLabel :=
  steps.map fun how => .client (.start n how)

/-- One call after the other. -/
def inTurn : List HostLabel :=
  callOf 0 [.go, .go, .go, .listen true, .go, .go, .publish Memdriver.new, .go, .go, .go] ++
    callOf 1 [.go, .go, .go]

theorem alreadyStarted_wins_inTurn :
    (run (hostNext ⟨1, [], 1, true⟩) Host.free inTurn).OneStarts := by
  obtain ⟨-, hreturned⟩ := alreadyStarted_wins_iff ⟨1, [], 1, true⟩ rfl inTurn
  have hidle : (run (hostNext ⟨1, [], 1, true⟩) Host.free inTurn).Idle 2 :=
    (idle_free 2).run rfl sound_free (by decide)
  have hsettled := settled_of_idle hidle (by decide +kernel)
  obtain ⟨-, hapart, -⟩ := hreturned hsettled ⟨0, by decide +kernel⟩
  exact hapart.mpr (by decide +kernel)

/-- Two calls that have both found no runner when the first of them binds the address. -/
def atOnce : List HostLabel :=
  callOf 0 [.go, .go, .go] ++ callOf 1 [.go, .go, .go] ++ callOf 0 [.listen true] ++
    callOf 1 [.listen true] ++ callOf 0 [.go, .go, .publish Memdriver.new, .go, .go, .go]

/-- The second returns the listen error. -/
theorem start_refused_atOnce :
    let h := run (hostNext ⟨1, [], 1, true⟩) Host.free atOnce
    h.Settled ∧ h.pc 0 = .returned none ∧ h.pc 1 = .returned (some .listen) ∧ ¬ h.OneStarts := by
  intro h
  have hidle : h.Idle 2 := (idle_free 2).run rfl sound_free (by decide)
  have hrefused : h.pc 1 = .returned (some .listen) := by decide +kernel
  have hsettled : h.Settled := settled_of_idle hidle (by decide +kernel)
  have hone := (run_sound rfl atOnce).oneStarts_iff hsettled ⟨1, by rw [hrefused]; nofun⟩
  refine ⟨hsettled, by decide +kernel, hrefused, ?_⟩
  rw [hone]
  exact fun hnone => hnone 1 hrefused

end Drover.Client
