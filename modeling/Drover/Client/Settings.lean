import Drover.Queues.Order
import Drover.Scheduler.Loop

set_option autoImplicit false

/-!
# What a client runs with (`newClient`)

`newClient` checks what it is given, fills in what is left out or cannot be used, and panics
where no default would do.
-/

namespace Drover.Client

open Drover.Foundation
open Drover.Driver
open Drover.Go (Duration second minute)
open Drover.Queues (WeightedQueue checkedQueues)
open Drover.Scheduler (PeriodicJob Entry checkedPeriodicJobs)

/-- `time.Millisecond`, the least lease. -/
def minLeaseDuration : Duration := 1000000

/-- `driver.DefaultLeaseDuration`. -/
def defaultLeaseDuration : Duration := minute

def defaultPollInterval : Duration := second

def defaultStatsInterval : Duration := 15 * second

def defaultConcurrency : Int := 10

def heartbeatsPerLease : Int := 3

/-- `drover.Config`, as far as `newClient` looks into it. -/
structure Options (μ : Type) where
  pollInterval : Duration
  notifyWakeup : Bool
  leaseDuration : Duration
  heartbeatInterval : Duration
  rescueInterval : Duration
  statsInterval : Duration
  concurrency : Int
  opsAddr : Bytes
  queues : Map Bytes Int64
  middleware : List (Option μ)
  periodicJobs : List PeriodicJob

/-- What a `Client` runs with. -/
structure Settings (μ : Type) where
  pollInterval : Duration
  notifyWakeup : Bool
  leaseDuration : Duration
  heartbeatInterval : Duration
  rescueInterval : Duration
  statsInterval : Duration
  concurrency : Int
  opsAddr : Bytes
  queues : List WeightedQueue
  middleware : List μ
  periodic : List Entry

/-- What `newClient` panics with. -/
inductive Panic where
  /-- `Config.Queues contains an empty queue name` -/
  | emptyQueue
  /-- `Config.Middleware[i] is nil` -/
  | nilMiddleware (i : Nat)
  | periodic (why : Scheduler.Refusal)

variable {μ : Type}

/-- `checkedMiddleware`, from index `i` on. -/
def checkedMiddleware : Nat → List (Option μ) → Except Panic (List μ)
  | _, [] => .ok []
  | i, none :: _ => .error (.nilMiddleware i)
  | i, some mw :: mws => (checkedMiddleware (i + 1) mws).map (mw :: ·)

/-- A value that has to be positive, or else the default. -/
def orDefault (value default : Int) : Int := if value ≤ 0 then default else value

/-- The lease of a client. -/
def Options.lease (cfg : Options μ) : Duration :=
  if cfg.leaseDuration < minLeaseDuration then defaultLeaseDuration else cfg.leaseDuration

/-- The heartbeat of a client; one that is not shorter than the lease is dropped first. -/
def Options.heartbeat (cfg : Options μ) : Duration :=
  orDefault (if cfg.heartbeatInterval ≥ cfg.lease then 0 else cfg.heartbeatInterval)
    (cfg.lease / heartbeatsPerLease)

/-- `newClient`. -/
def newClient (visit : Visit (Bytes × Int64)) (cfg : Options μ) : Except Panic (Settings μ) :=
  match checkedQueues visit cfg.queues with
  | none => .error .emptyQueue
  | some queues =>
      match checkedMiddleware 0 cfg.middleware with
      | .error why => .error why
      | .ok middleware =>
          match checkedPeriodicJobs cfg.periodicJobs with
          | .error why => .error (.periodic why)
          | .ok periodic =>
              .ok
                { pollInterval := orDefault cfg.pollInterval defaultPollInterval
                  notifyWakeup := cfg.notifyWakeup
                  leaseDuration := cfg.lease
                  heartbeatInterval := cfg.heartbeat
                  rescueInterval := orDefault cfg.rescueInterval cfg.lease
                  statsInterval := orDefault cfg.statsInterval defaultStatsInterval
                  concurrency := orDefault cfg.concurrency defaultConcurrency
                  opsAddr := cfg.opsAddr
                  queues := queues
                  middleware := middleware
                  periodic := periodic }

theorem orDefault_pos {value default : Int} (h : 0 < default) : 0 < orDefault value default := by
  unfold orDefault
  split
  · exact h
  · omega

theorem minLeaseDuration_le_lease (cfg : Options μ) : minLeaseDuration ≤ cfg.lease := by
  unfold Options.lease
  split
  · decide
  · rename_i h
    exact not_lt.mp h

/-- The interval is positive and shorter than the lease, and the default is at most a third of
it. -/
theorem heartbeat_bounds (cfg : Options μ) :
    0 < cfg.heartbeat ∧ cfg.heartbeat < cfg.lease ∧
      (cfg.heartbeatInterval ≤ 0 ∨ cfg.lease ≤ cfg.heartbeatInterval →
        3 * cfg.heartbeat ≤ cfg.lease) := by
  have hlease := minLeaseDuration_le_lease cfg
  unfold minLeaseDuration at hlease
  unfold Options.heartbeat orDefault heartbeatsPerLease
  generalize cfg.lease = lease at *
  generalize cfg.heartbeatInterval = interval at *
  unfold Duration at *
  split <;> split at * <;> omega

theorem settings_of_newClient {visit : Visit (Bytes × Int64)} {cfg : Options μ}
    {settings : Settings μ} (h : newClient visit cfg = .ok settings) :
    settings.leaseDuration = cfg.lease ∧ settings.heartbeatInterval = cfg.heartbeat := by
  unfold newClient at h
  split at h
  · cases h
  · split at h
    · cases h
    · split at h
      · cases h
      · cases h
        exact ⟨rfl, rfl⟩

end Drover.Client
