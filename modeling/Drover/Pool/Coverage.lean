import Drover.Pool.Holding

set_option autoImplicit false

/-!
# What the inflight set covers

The heartbeat renews, and a shutdown hands back, what the inflight set shows.  A claim
that it does not show is a lease left to lapse under a running handler.

The set is keyed by job and its removals are guarded by the attempt, which tells two
claims of a job apart only as long as no attempt number comes round again.
-/

namespace Drover.Pool

open Drover.Foundation
open Drover.Foundation.Bytes
open Drover.Driver

/-- The claims `claimRound` has received and not yet registered. -/
def State.unregistered (s : State) : List Claim :=
  match s.fetch with
  | .track _ _ todo => todo
  | _ => []

/-- A job whose most recent claim is this client's, registered and not ended, is in the
inflight set under the attempt of that claim, and so in every snapshot. -/
def State.Covered (s : State) : Prop :=
  ∀ c ∈ s.claims, s.latest c.row.id = some c.ref → c ∉ s.unregistered → c.ref ∉ s.ended →
    s.inflight.get? c.row.id = some c.lease ∧ c.lease ∈ s.inflight.snapshot

/-- `FetchAvailable` returns to this client no job of which it still holds an earlier
claim, unless `runJob` has taken that claim up and it is on another attempt. -/
def Apart (cfg : Config) (s : State) (label : Label) : Prop :=
  ∀ c ∈ s.returned cfg label, s.ledger.Clear c.row

instance (cfg : Config) (s : State) (label : Label) : Decidable (Apart cfg s label) := by
  unfold Apart Ledger.Clear
  infer_instance

/-- Only `claimRound` holds claims that are not registered. -/
theorem mem_unregistered {s : State} {c : Claim} (h : (c, .claimed) ∈ s.held) :
    c ∈ s.unregistered := by
  rcases List.mem_append.mp h with h | h
  · unfold State.unregistered
    cases hfetch : s.fetch with
    | track r added todo =>
        simp only [hfetch, Fetch.held, at_, List.mem_append, List.mem_map] at h
        simpa using h
    | _ => simp [hfetch, Fetch.held, at_] at h
  · obtain ⟨worker, -, hworker⟩ := List.mem_flatMap.mp h
    cases worker <;> simp [Worker.held] at hworker

/-- What a pool keeps as long as its answers are apart. -/
structure State.Tracked (s : State) : Prop where
  accounted : s.ledger.Accounted
  mirrored : s.ledger.Mirrored

theorem held_start (cfg : Config) (db : Memdriver.Driver) : (cfg.start db).held = [] := by
  simp [State.held, Config.start, Fetch.held, Worker.held]

theorem tracked_start (cfg : Config) (db : Memdriver.Driver) : (cfg.start db).Tracked := by
  refine ⟨⟨by simp [State.ledger, Config.start], by simp [State.ledger, Config.start], ?_, ?_,
    by simp [State.ledger, Config.start]⟩, ⟨?_, ?_⟩⟩
  all_goals simp [State.ledger, held_start]

theorem State.Tracked.next {cfg : Config} {s : State} (h : s.Tracked) {label : Label}
    (hapart : Apart cfg s label) : (next cfg s label).Tracked :=
  ⟨h.accounted.move (next_move cfg s label),
    h.mirrored.move h.accounted (next_move cfg s label) hapart⟩

theorem State.Tracked.covered {s : State} (h : s.Tracked) : s.Covered := by
  intro c hc hlatest hregistered hended
  obtain ⟨st, hst, hpast⟩ := (h.accounted.settled c hc).resolve_left hended
  have hstage : st = .tracked ∨ st = .running := by
    cases st with
    | claimed => exact absurd (mem_unregistered hst) hregistered
    | tracked => exact Or.inl rfl
    | running => exact Or.inr rfl
    | past => exact absurd rfl hpast
  have hshown : s.inflight.get? c.row.id = some c.lease :=
    h.mirrored.shown (c, st) hst hstage (h.accounted.last c.row.id c.ref hlatest)
  exact ⟨hshown, Inflight.mem_snapshot.mpr hshown⟩

/-- In every run in which the answers of `FetchAvailable` are apart from what the client
still holds, over any store and any doings of others, every state is covered. -/
theorem run_covered (cfg : Config) (db : Memdriver.Driver) (labels : List Label)
    (h : Steps (next cfg) (Apart cfg) (cfg.start db) labels) :
    Along (next cfg) State.Covered (cfg.start db) labels := by
  have htracked : Along (next cfg) State.Tracked (cfg.start db) labels :=
    along_of_steps (fun s label hs hapart => hs.next hapart) (tracked_start cfg db) h
  rw [along_iff] at htracked ⊢
  exact fun pre post hsplit => (htracked pre post hsplit).covered

/-! ## A claim that comes round again -/

/-- Two workers on one queue. -/
def pair : Config := ⟨2, [[]], 10, false⟩

/-- One job is claimed, handed to the first worker, and ends as `fate` says; before the
worker has removed its entry, the job is claimed and registered again. -/
def secondClaim (fate : Fate) : List Label :=
  [.outside (.insert 1 ⟨[], [], [], 0, []⟩), .fetch .go, .fetch .go, .fetch (.order [[]]),
    .fetch (.rows 1 2), .fetch .go, .fetch .go, .fetch .go, .fetch .go, .fetch .go, .fetch .go,
    .fetch .go, .fetch .go, .handOff 0, .fetch .go, .worker 0 .go, .worker 0 (.result fate),
    .worker 0 (.write 1 true), .fetch .go, .fetch (.order [[]]), .fetch (.rows 1 1), .fetch .go,
    .worker 0 .go]

/-- After a failure the second claim is on attempt 2, and the run is covered. -/
theorem secondClaim_covered :
    Steps (next pair) (Apart pair) (pair.start Memdriver.new)
        (secondClaim (.failed 1 (ofChars ['0']))) ∧
      Along (next pair) State.Covered (pair.start Memdriver.new)
        (secondClaim (.failed 1 (ofChars ['0']))) :=
  ⟨by decide, run_covered pair Memdriver.new _ (by decide)⟩

/-- After a snooze of no time it is on attempt 1 again.  The first worker's removal takes
the entry of the second claim, which is the job's most recent one, registered and not
ended, out of the inflight set. -/
theorem secondClaim_uncovered :
    ¬(run (next pair) (pair.start Memdriver.new) (secondClaim (.snoozed 0))).Covered := by
  unfold State.Covered
  decide

end Drover.Pool
