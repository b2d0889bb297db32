import Drover.Pool.Runner

set_option autoImplicit false

/-!
# What a step of a pool can do

One constructor for each way a goroutine of the pool moves on, with where it was, what it
needed and the state it leaves.  A proof about the steps takes these apart, and says of the
ways it is not about that they are all alike.
-/

namespace Drover.Pool

open Drover.Foundation
open Drover.Driver
open Drover.Go (Time Duration)

/-- `fetchStep`, by cases. -/
inductive FetchTurn (cfg : Config) (s : State) : FetchStep → State → Prop where
  | acquire (hslots : 0 < s.slots) (hpc : s.fetch = .acquire) :
      FetchTurn cfg s .go { s with slots := s.slots - 1, fetch := .acquireMore 1 }
  | acquireStop (hstop : s.stopFetch = true) (hpc : s.fetch = .acquire) :
      FetchTurn cfg s .stop { s with fetch := .close }
  | acquireMore {n : Nat} (hmore : n < cfg.concurrency ∧ 0 < s.slots)
      (hpc : s.fetch = .acquireMore n) :
      FetchTurn cfg s .go { s with slots := s.slots - 1, fetch := .acquireMore (n + 1) }
  | order {n : Nat} {queues : List Bytes}
      (hall : (cfg.concurrency ≤ n ∨ s.slots = 0) ∧ queues.Perm cfg.queues)
      (hpc : s.fetch = .acquireMore n) :
      FetchTurn cfg s (.order queues) { s with fetch := .ask ⟨n, n, queues, []⟩ }
  | rows {n remaining : Nat} {queue : Bytes} {queues : List Bytes} {claimed : List Claim}
      {now : Time} {limit : Int} (hpc : s.fetch = .ask ⟨n, remaining, queue :: queues, claimed⟩) :
      FetchTurn cfg s (.rows now limit)
        { s with
          db := (s.db.fetchAvailable now queue cfg.leaseDuration limit).1
          fetch := .track ⟨n, remaining, queues, claimed⟩ [] (s.answer cfg queue now limit)
          claims := s.claims ++ s.answer cfg queue now limit
          latest := fun id =>
            match (s.answer cfg queue now limit).find? fun c => c.row.id = id with
            | some c => some c.ref
            | none => s.latest id }
  | fail {n remaining : Nat} {queue : Bytes} {queues : List Bytes} {claimed : List Claim}
      (hpc : s.fetch = .ask ⟨n, remaining, queue :: queues, claimed⟩) :
      FetchTurn cfg s .fail { s with fetch := .claimed n claimed }
  | asked {n remaining : Nat} {claimed : List Claim}
      (hpc : s.fetch = .ask ⟨n, remaining, [], claimed⟩) :
      FetchTurn cfg s .go { s with fetch := .claimed n claimed }
  | track {r : Round} {added : List Claim} {c : Claim} {todo : List Claim}
      (hpc : s.fetch = .track r added (c :: todo)) :
      FetchTurn cfg s .go
        { s with inflight := s.inflight.add c.lease, fetch := .track r (added ++ [c]) todo }
  | surplus {r : Round} {added : List Claim} (hmore : r.remaining < added.length)
      (hpc : s.fetch = .track r added []) :
      FetchTurn cfg s .go
        { s with fetch := .handBack r (added.take r.remaining) [] (added.drop r.remaining) }
  | tracked {r : Round} {added : List Claim} (hfits : ¬r.remaining < added.length)
      (hpc : s.fetch = .track r added []) :
      FetchTurn cfg s .go { s with fetch := .visited (r.keep added) }
  | handBack {r : Round} {kept back : List Claim} {c : Claim} {todo : List Claim} {now : Time}
      {detail : Bytes} {lands : Bool} (hpc : s.fetch = .handBack r kept back (c :: todo)) :
      FetchTurn cfg s (.requeue now detail lands)
        { s with
          db := s.requeue c.lease now detail lands
          fetch := .handBack r kept (back ++ [c]) todo
          ended := c.ref :: s.ended }
  | handedBack {r : Round} {kept back : List Claim} (hpc : s.fetch = .handBack r kept back []) :
      FetchTurn cfg s .go { s with fetch := .untrack r kept back }
  | untrack {r : Round} {kept : List Claim} {c : Claim} {todo : List Claim}
      (hpc : s.fetch = .untrack r kept (c :: todo)) :
      FetchTurn cfg s .go
        { s with inflight := s.inflight.remove c.lease, fetch := .untrack r kept todo }
  | untracked {r : Round} {kept : List Claim} (hpc : s.fetch = .untrack r kept []) :
      FetchTurn cfg s .go { s with fetch := .visited (r.keep kept) }
  | visitedLast {r : Round} (hlast : r.remaining = 0 ∨ s.stopFetch = true)
      (hpc : s.fetch = .visited r) :
      FetchTurn cfg s .go { s with fetch := .claimed r.n r.claimed }
  | visited {r : Round} (hmore : ¬(r.remaining = 0 ∨ s.stopFetch = true))
      (hpc : s.fetch = .visited r) : FetchTurn cfg s .go { s with fetch := .ask r }
  | claimedStop {n : Nat} {rows : List Claim} (hstop : rows = [] ∧ s.stopFetch = true)
      (hpc : s.fetch = .claimed n rows) : FetchTurn cfg s .go { s with fetch := .release n none }
  | claimed {n : Nat} {rows : List Claim} (hgo : ¬(rows = [] ∧ s.stopFetch = true))
      (hpc : s.fetch = .claimed n rows) :
      FetchTurn cfg s .go { s with fetch := .release (n - rows.length) (some rows) }
  | release {k : Nat} {rows : Option (List Claim)} (hroom : s.slots < cfg.concurrency)
      (hpc : s.fetch = .release (k + 1) rows) :
      FetchTurn cfg s .go { s with slots := s.slots + 1, fetch := .release k rows }
  | releasedStop (hpc : s.fetch = .release 0 none) :
      FetchTurn cfg s .go { s with fetch := .close }
  | releasedNone (hpc : s.fetch = .release 0 (some [])) :
      FetchTurn cfg s .go { s with fetch := .sleep }
  | released {c : Claim} {rows : List Claim} (hpc : s.fetch = .release 0 (some (c :: rows))) :
      FetchTurn cfg s .go { s with fetch := .dispatch (c :: rows) }
  | sleepStop (hstop : s.stopFetch = true) (hpc : s.fetch = .sleep) :
      FetchTurn cfg s .stop { s with fetch := .close }
  | sleepWake (hwake : s.wake = true) (hpc : s.fetch = .sleep) :
      FetchTurn cfg s .go { s with wake := false, fetch := .woken }
  | sleepTimeout (hpc : s.fetch = .sleep) : FetchTurn cfg s .timeout { s with fetch := .woken }
  | wokenStop (hstop : s.stopFetch = true) (hpc : s.fetch = .woken) :
      FetchTurn cfg s .go { s with fetch := .close }
  | woken (hgo : ¬s.stopFetch = true) (hpc : s.fetch = .woken) :
      FetchTurn cfg s .go { s with fetch := .acquire }
  | dispatched (hpc : s.fetch = .dispatch []) : FetchTurn cfg s .go { s with fetch := .acquire }
  | dispatch {c : Claim} {rows : List Claim} (hpc : s.fetch = .dispatch (c :: rows)) :
      FetchTurn cfg s .go { s with inflight := s.inflight.add c.lease, fetch := .offer c rows }
  | offerStop {c : Claim} {rows : List Claim} (hstop : s.stopFetch = true)
      (hpc : s.fetch = .offer c rows) :
      FetchTurn cfg s .stop { s with fetch := .abandon [] (c :: rows) }
  | abandon {back : List Claim} {c : Claim} {todo : List Claim} {now : Time} {detail : Bytes}
      {lands : Bool} (hpc : s.fetch = .abandon back (c :: todo)) :
      FetchTurn cfg s (.requeue now detail lands)
        { s with
          db := s.requeue c.lease now detail lands
          fetch := .abandon (back ++ [c]) todo
          ended := c.ref :: s.ended }
  | abandoned {back : List Claim} (hpc : s.fetch = .abandon back []) :
      FetchTurn cfg s .go { s with fetch := .forget back.length back }
  | forget {n : Nat} {c : Claim} {todo : List Claim} (hpc : s.fetch = .forget n (c :: todo)) :
      FetchTurn cfg s .go
        { s with inflight := s.inflight.remove c.lease, fetch := .forget n todo }
  | forgotten {n : Nat} (hpc : s.fetch = .forget n []) :
      FetchTurn cfg s .go { s with fetch := .release n none }
  | close (hpc : s.fetch = .close) : FetchTurn cfg s .go { s with fetch := .exited }

theorem FetchTurn.of_step {cfg : Config} {s s' : State} {how : FetchStep}
    (h : fetchStep cfg s how = some s') : FetchTurn cfg s how s' := by
  unfold fetchStep at h
  split at h
  all_goals (try split at h)
  all_goals cases h
  -- several constructors leave the same state; where the loop was tells them apart
  all_goals first
    | exact .untracked ‹_›
    | exact .visitedLast ‹_› ‹_›
    | exact .sleepStop ‹_› ‹_›
    | exact .wokenStop ‹_› ‹_›
    | exact .dispatched ‹_›
    | exact .forgotten ‹_›
    | (constructor <;> assumption)

/-- `workerStep`, by cases. -/
inductive WorkerTurn (cfg : Config) (s : State) (w : Nat) : WorkerStep → State → Prop where
  | exit (hfetch : s.fetch = .exited) (hpc : s.workers[w]? = some .idle) :
      WorkerTurn cfg s w .go { s with workers := s.workers.set w .exited }
  | add {c : Claim} (hpc : s.workers[w]? = some (.received c)) :
      WorkerTurn cfg s w .go
        { s with inflight := s.inflight.add c.lease, workers := s.workers.set w (.handling c) }
  | result {c : Claim} {fate : Fate} (hpc : s.workers[w]? = some (.handling c)) :
      WorkerTurn cfg s w (.result fate) { s with workers := s.workers.set w (.finalizing c fate) }
  | write {c : Claim} {fate : Fate} {now : Time} {lands : Bool}
      (hpc : s.workers[w]? = some (.finalizing c fate)) :
      WorkerTurn cfg s w (.write now lands)
        { s with
          db := s.mark c.lease (fate.mark c.row now) lands
          workers := s.workers.set w (.finished c)
          ended := c.ref :: s.ended }
  | remove {c : Claim} (hpc : s.workers[w]? = some (.finished c)) :
      WorkerTurn cfg s w .go
        { s with inflight := s.inflight.remove c.lease, workers := s.workers.set w .returning }
  | giveBack (hroom : s.slots < cfg.concurrency) (hpc : s.workers[w]? = some .returning) :
      WorkerTurn cfg s w .go { s with slots := s.slots + 1, workers := s.workers.set w .idle }

theorem WorkerTurn.of_step {cfg : Config} {s s' : State} {w : Nat} {how : WorkerStep}
    (h : workerStep cfg s w how = some s') : WorkerTurn cfg s w how s' := by
  unfold workerStep at h
  split at h
  all_goals (try split at h)
  all_goals cases h
  all_goals constructor <;> assumption

/-- The dispatch loop and an idle worker meet. -/
theorem handOff_eq_some {s s' : State} {w : Nat} (h : handOff s w = some s') :
    ∃ c rows, s.fetch = .offer c rows ∧ s.workers[w]? = some .idle ∧
      s' = { s with fetch := .dispatch rows, workers := s.workers.set w (.received c) } := by
  unfold handOff at h
  split at h
  · cases h
    exact ⟨_, _, ‹_›, ‹_›, rfl⟩
  · cases h

/-- `heartStep`, by cases. -/
inductive HeartTurn (cfg : Config) (s : State) : HeartStep → State → Prop where
  | idle (hnone : s.inflight.snapshot = []) (hpc : s.heart = .waiting) : HeartTurn cfg s .tick s
  | tick (hsome : ¬s.inflight.snapshot = []) (hpc : s.heart = .waiting) :
      HeartTurn cfg s .tick { s with heart := .extending s.inflight.snapshot }
  | extend {leases : List Lease} {now : Time} {lands : Bool} (hpc : s.heart = .extending leases) :
      HeartTurn cfg s (.extend now lands)
        { s with
          db := if lands then s.db.extendLeases now leases cfg.leaseDuration else s.db
          heart := .waiting }
  | stop (hstop : s.stopHeartbeat = true) (hpc : s.heart = .waiting) :
      HeartTurn cfg s .stop { s with heart := .exited }

theorem HeartTurn.of_step {cfg : Config} {s s' : State} {how : HeartStep}
    (h : heartStep cfg s how = some s') : HeartTurn cfg s how s' := by
  unfold heartStep at h
  split at h
  · split at h <;> cases h
    · exact .idle ‹_› ‹_›
    · exact .tick ‹_› ‹_›
  · cases h
    exact .extend ‹_›
  · split at h <;> cases h
    exact .stop ‹_› ‹_›
  · cases h

/-- `drainStep`, by cases. -/
inductive DrainTurn (cfg : Config) (s : State) : DrainStep → State → Prop where
  | cancelBackground (hpc : s.drain = .none) : DrainTurn cfg s .go { s with drain := .stopping }
  | stopFetch (hpc : s.drain = .stopping) :
      DrainTurn cfg s .go { s with stopFetch := true, drain := .waiting }
  | drained (hdone : s.fetch = .exited ∧ ∀ worker ∈ s.workers, worker = .exited)
      (hpc : s.drain = .waiting) : DrainTurn cfg s .go { s with drain := .closing [] }
  | expire (hpc : s.drain = .waiting) : DrainTurn cfg s .expire { s with drain := .escalating }
  | nothingLeft (hnone : s.inflight.snapshot = []) (hpc : s.drain = .escalating) :
      DrainTurn cfg s .go { s with drain := .closing [] }
  | escalate (hsome : ¬s.inflight.snapshot = []) (hpc : s.drain = .escalating) :
      DrainTurn cfg s .go { s with drain := .cancelling s.inflight.snapshot }
  | cancelJobs {stranded : List Lease} (hpc : s.drain = .cancelling stranded) :
      DrainTurn cfg s .go
        { s with jobsCancelled := true, drain := .requeueing stranded.length stranded }
  | requeue {jobs : Nat} {lease : Lease} {todo : List Lease} {now : Time} {detail : Bytes}
      {lands : Bool} (hpc : s.drain = .requeueing jobs (lease :: todo)) :
      DrainTurn cfg s (.requeue now detail lands)
        { s with
          db := s.requeue lease now detail lands
          drain := .requeueing jobs todo
          ended := ((s.claims.filter fun c => c.lease = lease).map Claim.ref) ++ s.ended }
  | requeued {jobs : Nat} (hpc : s.drain = .requeueing jobs []) :
      DrainTurn cfg s .go { s with drain := .closing [.drainIncomplete jobs] }
  | stopHeartbeat {err : List StopError} (hpc : s.drain = .closing err) :
      DrainTurn cfg s .go { s with stopHeartbeat := true, drain := .joining err }
  | joined {err : List StopError} (hheart : s.heart = .exited) (hpc : s.drain = .joining err) :
      DrainTurn cfg s .go { s with drain := .shutting err }
  | shut {err : List StopError} (hpc : s.drain = .shutting err) :
      DrainTurn cfg s .go { s with jobsCancelled := true, drain := .returned err }
  | shutFail {err : List StopError} (hserver : cfg.opsServer = true)
      (hpc : s.drain = .shutting err) :
      DrainTurn cfg s .fail { s with jobsCancelled := true, drain := .returned (err ++ [.ops]) }

theorem DrainTurn.of_step {cfg : Config} {s s' : State} {how : DrainStep}
    (h : drainStep cfg s how = some s') : DrainTurn cfg s how s' := by
  unfold drainStep at h
  split at h
  all_goals (try split at h)
  all_goals cases h
  all_goals first
    | exact .nothingLeft ‹_› ‹_›
    | (constructor <;> assumption)

/-! ## Only the shutdown moves the shutdown -/

/-- A worker leaves the fetch loop, the wake channel and the shutdown alone. -/
structure WorkerFrame (s s' : State) : Prop where
  fetch : s'.fetch = s.fetch
  wake : s'.wake = s.wake
  claims : s'.claims = s.claims
  drain : s'.drain = s.drain

theorem workerStep_frame {cfg : Config} {s s' : State} {w : Nat} {how : WorkerStep}
    (h : workerStep cfg s w how = some s') : WorkerFrame s s' := by
  cases WorkerTurn.of_step h <;> exact ⟨rfl, rfl, rfl, rfl⟩

theorem fetchStep_drain {cfg : Config} {s s' : State} {how : FetchStep}
    (h : fetchStep cfg s how = some s') : s'.drain = s.drain := by
  cases FetchTurn.of_step h <;> rfl

theorem step_drain {cfg : Config} {s s' : State} {label : Label} (h : step cfg s label = some s')
    (hlabel : ∀ how, label ≠ .drain how) : s'.drain = s.drain := by
  cases label with
  | outside op =>
      cases h
      rfl
  | nudge =>
      cases h
      rfl
  | fetch how => exact fetchStep_drain h
  | handOff w =>
      obtain ⟨c, rows, -, -, rfl⟩ := handOff_eq_some h
      rfl
  | worker w how => exact (workerStep_frame h).drain
  | heart how => cases HeartTurn.of_step h <;> rfl
  | drain how => exact absurd rfl (hlabel how)

end Drover.Pool
