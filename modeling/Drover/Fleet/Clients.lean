import Drover.Memdriver.History
import Drover.Pool.Coverage
import Drover.Pool.Dispatch

set_option autoImplicit false

/-!
# Any number of clients over one store

What the clients of a store do to it, without the goroutines that do it.  A client
claims rows with its fetch loop or its rescuer, renews leases, and gets rid of a row it
was handed in one of two ways: it records what became of the attempt, or it hands the
row back to the queue.  Both work on the row as the fetch returned it.

`Serves.next` shows that a pool does nothing else: each step of one makes at most one of
these calls.
-/

namespace Drover.Fleet

open Drover.Foundation
open Drover.Driver
open Drover.Go (Time Duration)
open Drover.Memdriver (Mark Op fetched)
open Drover.Pool (Fate)

/-- What a client asks of the store. -/
inductive Call where
  | insert (now : Time) (params : InsertParams)
  | insertMany (now : Time) (batch : List InsertParams)
  /-- a round of the fetch loop -/
  | fetchAvailable (now : Time) (queue : Bytes) (leaseFor : Duration) (limit : Int)
  /-- a sweep of the rescuer -/
  | fetchExpired (now : Time) (leaseFor : Duration) (limit : Int)
  | extendLeases (now : Time) (leases : List Lease) (leaseFor : Duration)
  /-- `runJob` or `dispose` records what became of a row -/
  | finish (row : JobRow) (fate : Fate) (now : Time)
  /-- `requeue`, by `escalate`, by `claimRound` of its surplus or by `abandon` -/
  | requeue (lease : Lease) (now : Time) (detail : Bytes)
  deriving DecidableEq, Repr

/-- The driver call it is. -/
def Call.op : Call → Op
  | .insert now params => .insert now params
  | .insertMany now batch => .insertMany now batch
  | .fetchAvailable now queue leaseFor limit => .fetchAvailable now queue leaseFor limit
  | .fetchExpired now leaseFor limit => .fetchExpired now leaseFor limit
  | .extendLeases now leases leaseFor => .extendLeases now leases leaseFor
  | .finish row fate now => .mark row.lease (fate.mark row now)
  | .requeue lease now detail => .mark lease (.retryable now (some detail))

/-- A store and its clients.  `late` is history: no call reads it. -/
structure State where
  db : Memdriver.Driver
  /-- the rows fetches have handed to clients -/
  held : List JobRow
  /-- the jobs handed back at or past their ceiling, once for each time -/
  late : List Int

/-- Clients that start over a store. -/
def start (db : Memdriver.Driver) : State := ⟨db, [], []⟩

/-- Clients get rid only of rows they were handed. -/
def Call.Allowed (f : State) : Call → Prop
  | .finish row _ _ => row ∈ f.held
  | .requeue lease _ _ => ∃ row ∈ f.held, row.lease = lease
  | _ => True

instance Call.Allowed.decidable (f : State) : (c : Call) → Decidable (c.Allowed f)
  | .finish row _ _ => inferInstanceAs (Decidable (row ∈ f.held))
  | .requeue lease _ _ => inferInstanceAs (Decidable (∃ row ∈ f.held, row.lease = lease))
  | .insert _ _ | .insertMany _ _ | .fetchAvailable _ _ _ _ | .fetchExpired _ _ _
  | .extendLeases _ _ _ => .isTrue trivial

/-- The call hands a job back, and the job runs on its last attempt or a later one. -/
def Call.late (db : Memdriver.Driver) : Call → List Int
  | .requeue lease now detail =>
      match db.jobs.get? lease.id with
      | some row =>
          if row.maxAttempts ≤ row.attempt ∧ (db.mark lease (.retryable now (some detail))).2 = none then
            [lease.id]
          else []
      | none => []
  | _ => []

/-- The fleet after a call; one that is not allowed is not made. -/
def next (f : State) (c : Call) : State :=
  if c.Allowed f then
    { db := Memdriver.next f.db c.op
      held := fetched f.db c.op ++ f.held
      late := c.late f.db ++ f.late }
  else f

theorem op_ne_redriveDead (c : Call) (now : Time) (id : Int) : c.op ≠ .redriveDead now id := by
  cases c <;> nofun

theorem op_ne_operatorCancel (c : Call) (now : Time) (id : Int) : c.op ≠ .operatorCancel now id := by
  cases c <;> nofun

/-! ## A pool is a client -/

/-- The call a step of a pool makes. -/
def poolCall (cfg : Pool.Config) (s : Pool.State) : Pool.Label → Option Call
  | .fetch (.rows now limit) =>
      match s.fetch with
      | .ask ⟨_, _, queue :: _, _⟩ => some (.fetchAvailable now queue cfg.leaseDuration limit)
      | _ => none
  | .fetch (.requeue now detail true) =>
      match s.fetch with
      | .handBack _ _ _ (c :: _) | .abandon _ (c :: _) => some (.requeue c.lease now detail)
      | _ => none
  | .worker w (.write now true) =>
      match s.workers[w]? with
      | some (.finalizing c fate) => some (.finish c.row fate now)
      | _ => none
  | .heart (.extend now true) =>
      match s.heart with
      | .extending leases => some (.extendLeases now leases cfg.leaseDuration)
      | _ => none
  | .drain (.requeue now detail true) =>
      match s.drain with
      | .requeueing _ (lease :: _) => some (.requeue lease now detail)
      | _ => none
  | _ => none

/-- A step of the fetch loop changes the store as the call it makes does. -/
theorem db_of_fetchStep {cfg : Pool.Config} {s s' : Pool.State} {how : Pool.FetchStep}
    (h : Pool.fetchStep cfg s how = some s') :
    s'.db = ((poolCall cfg s (.fetch how)).map fun c => Memdriver.next s.db c.op).getD s.db := by
  cases Pool.FetchTurn.of_step h with
  | rows hpc => simp [poolCall, hpc, Call.op, Memdriver.next, Memdriver.step]
  | @handBack _ _ _ _ _ _ _ lands hpc =>
      cases lands <;> simp [poolCall, hpc, Call.op, Memdriver.next, Memdriver.step,
        Pool.State.requeue, Pool.State.mark]
  | @abandon _ _ _ _ _ lands hpc =>
      cases lands <;> simp [poolCall, hpc, Call.op, Memdriver.next, Memdriver.step,
        Pool.State.requeue, Pool.State.mark]
  | _ => rfl

theorem db_of_workerStep {cfg : Pool.Config} {s s' : Pool.State} {w : Nat} {how : Pool.WorkerStep}
    (h : Pool.workerStep cfg s w how = some s') :
    s'.db = ((poolCall cfg s (.worker w how)).map fun c => Memdriver.next s.db c.op).getD s.db := by
  cases Pool.WorkerTurn.of_step h with
  | @write _ _ _ lands hpc =>
      cases lands <;> simp [poolCall, hpc, Call.op, Memdriver.next, Memdriver.step, Pool.State.mark,
        Pool.Claim.lease]
  | _ => rfl

theorem db_of_heartStep {cfg : Pool.Config} {s s' : Pool.State} {how : Pool.HeartStep}
    (h : Pool.heartStep cfg s how = some s') :
    s'.db = ((poolCall cfg s (.heart how)).map fun c => Memdriver.next s.db c.op).getD s.db := by
  cases Pool.HeartTurn.of_step h with
  | @extend _ _ lands hpc =>
      cases lands <;> simp [poolCall, hpc, Call.op, Memdriver.next, Memdriver.step]
  | _ => rfl

theorem db_of_drainStep {cfg : Pool.Config} {s s' : Pool.State} {how : Pool.DrainStep}
    (h : Pool.drainStep cfg s how = some s') :
    s'.db = ((poolCall cfg s (.drain how)).map fun c => Memdriver.next s.db c.op).getD s.db := by
  cases Pool.DrainTurn.of_step h with
  | @requeue _ _ _ _ _ lands hpc =>
      cases lands <;> simp [poolCall, hpc, Call.op, Memdriver.next, Memdriver.step,
        Pool.State.requeue, Pool.State.mark]
  | _ => rfl

/-- A step of a pool changes the store as the call it makes does. -/
theorem db_of_step {cfg : Pool.Config} {s s' : Pool.State} {label : Pool.Label}
    (h : Pool.step cfg s label = some s') (hown : ∀ op, label ≠ .outside op) :
    s'.db = ((poolCall cfg s label).map fun c => Memdriver.next s.db c.op).getD s.db := by
  cases label with
  | outside op => exact absurd rfl (hown op)
  | nudge =>
      cases h
      rfl
  | fetch how => exact db_of_fetchStep h
  | handOff w =>
      simp only [Pool.step, Pool.handOff] at h
      split at h <;> cases h
      rfl
  | worker w how => exact db_of_workerStep h
  | heart how => exact db_of_heartStep h
  | drain how => exact db_of_drainStep h

/-- The leases a shutdown has yet to hand back. -/
def stranded : Pool.Drain → List Lease
  | .cancelling leases => leases
  | .requeueing _ todo => todo
  | _ => []

/-- Every lease the pool knows of is one of a claim of its own. -/
structure Issued (s : Pool.State) : Prop where
  inflight : ∀ id lease, s.inflight.get? id = some lease → ∃ c ∈ s.claims, c.lease = lease
  drain : ∀ lease ∈ stranded s.drain, ∃ c ∈ s.claims, c.lease = lease

/-- What a pool and the fleet it is part of have to do with each other. -/
structure Serves (s : Pool.State) (f : State) : Prop where
  db : f.db = s.db
  held : ∀ c ∈ s.claims, c.row ∈ f.held
  accounted : s.ledger.Accounted
  issued : Issued s

theorem serves_start (cfg : Pool.Config) (db : Memdriver.Driver) :
    Serves (cfg.start db) (start db) := by
  refine ⟨rfl, ?_, (Pool.tracked_start cfg db).accounted, ?_, ?_⟩
  · intro c hc
    cases hc
  · intro id lease hlease
    cases hlease
  · intro lease hlease
    cases hlease

/-- What the inflight set shows after a move was there or is of a claim held. -/
theorem inflight_of_move {answer : List Pool.Claim} {l l' : Pool.Ledger} (hl : l.Accounted)
    (h : Pool.Move answer l l')
    (hissued : ∀ id lease, l.inflight.get? id = some lease → ∃ c ∈ l.claims, c.lease = lease) :
    ∀ id lease, l'.inflight.get? id = some lease → ∃ c ∈ l'.claims, c.lease = lease := by
  intro id lease hlease
  cases h with
  | stay hclaims hlatest hheld hinflight hended =>
      rw [hinflight] at hlease
      rw [hclaims]
      exact hissued id lease hlease
  | claim hanswer hclaims hlatest hheld hinflight hended =>
      rw [hinflight] at hlease
      obtain ⟨c, hc, hsame⟩ := hissued id lease hlease
      exact ⟨c, by rw [hclaims]; exact List.mem_append_left _ hc, hsame⟩
  | add c old new rest hold hnew hclaims hlatest hheld hheld' hinflight hended =>
      rw [hinflight, Pool.Inflight.get?_add] at hlease
      rw [hclaims]
      split at hlease
      · exact ⟨c, hl.known (c, old) (hheld.mem_iff.mpr List.mem_cons_self), Option.some.inj hlease⟩
      · exact hissued id lease hlease
  | finish c old rest hold hclaims hlatest hheld hheld' hinflight hended =>
      rw [hinflight] at hlease
      rw [hclaims]
      exact hissued id lease hlease
  | remove c rest hclaims hlatest hheld hheld' hinflight hended =>
      rw [hinflight, Pool.Inflight.get?_remove] at hlease
      rw [hclaims]
      split at hlease
      · cases hlease
      · exact hissued id lease hlease

/-- A lease the shutdown has yet to hand back was so before or is in the inflight set. -/
theorem stranded_of_drainStep {cfg : Pool.Config} {s s' : Pool.State} {how : Pool.DrainStep}
    (h : Pool.drainStep cfg s how = some s') {lease : Lease} (hlease : lease ∈ stranded s'.drain) :
    lease ∈ stranded s.drain ∨ s.inflight.get? lease.id = some lease := by
  cases Pool.DrainTurn.of_step h with
  | escalate hsome hpc => exact Or.inr (Pool.Inflight.mem_snapshot.mp hlease)
  | cancelJobs hpc =>
      rw [hpc]
      exact Or.inl hlease
  | requeue hpc =>
      rw [hpc]
      exact Or.inl (List.mem_cons_of_mem _ hlease)
  | _ => cases hlease

theorem claims_of_next (cfg : Pool.Config) (s : Pool.State) (label : Pool.Label) :
    (Pool.next cfg s label).claims = s.claims ++ s.returned cfg label :=
  (Pool.after_passes cfg s (.step label)).claims

theorem Issued.next {cfg : Pool.Config} {s : Pool.State} (h : Issued s) (hl : s.ledger.Accounted)
    (label : Pool.Label) : Issued (Pool.next cfg s label) := by
  have hgrown : ∀ {lease : Lease}, (∃ c ∈ s.claims, c.lease = lease) →
      ∃ c ∈ (Pool.next cfg s label).claims, c.lease = lease := by
    rintro lease ⟨c, hc, hlease⟩
    exact ⟨c, by rw [claims_of_next]; exact List.mem_append_left _ hc, hlease⟩
  refine ⟨inflight_of_move hl (Pool.next_move cfg s label) h.inflight, ?_⟩
  intro lease hlease
  rw [Pool.next] at hlease
  cases hstep : Pool.step cfg s label with
  | none =>
      rw [hstep] at hlease
      exact hgrown (h.drain lease hlease)
  | some s' =>
      rw [hstep, Option.getD_some] at hlease
      by_cases hdrain : ∃ how, label = .drain how
      · obtain ⟨how, rfl⟩ := hdrain
        rcases stranded_of_drainStep hstep hlease with hbefore | hshown
        · exact hgrown (h.drain lease hbefore)
        · exact hgrown (h.inflight _ lease hshown)
      · rw [Pool.step_drain hstep fun how heq => hdrain ⟨how, heq⟩] at hlease
        exact hgrown (h.drain lease hlease)

/-- The call a step of a served pool makes is allowed. -/
theorem allowed_of_poolCall {cfg : Pool.Config} {s : Pool.State} {f : State} (h : Serves s f)
    {label : Pool.Label} {c : Call} (hcall : poolCall cfg s label = some c) : c.Allowed f := by
  have hknown : ∀ {x : Pool.Claim × Pool.Stage}, x ∈ s.held → x.1.row ∈ f.held :=
    fun hx => h.held _ (h.accounted.known _ hx)
  have hfetch : ∀ {x : Pool.Claim × Pool.Stage}, x ∈ s.fetch.held → x.1.row ∈ f.held :=
    fun hx => hknown (List.mem_append_left _ hx)
  cases label with
  | fetch how =>
      cases how with
      | rows now limit =>
          simp only [poolCall] at hcall
          split at hcall <;> cases hcall
          trivial
      | requeue now detail lands =>
          cases lands with
          | true =>
              simp only [poolCall] at hcall
              split at hcall <;> cases hcall
              all_goals rename_i hpc
              all_goals rw [hpc] at hfetch
              all_goals exact ⟨_, hfetch (List.mem_append_left _ List.mem_cons_self), rfl⟩
          | false => cases hcall
      | _ => cases hcall
  | worker w how =>
      cases how with
      | write now lands =>
          cases lands with
          | true =>
              simp only [poolCall] at hcall
              split at hcall <;> cases hcall
              rename_i c fate hworker
              have hheld : (c, Pool.Stage.running) ∈ s.workers.flatMap Pool.Worker.held :=
                List.mem_flatMap.mpr ⟨_, List.mem_of_getElem? hworker, List.mem_singleton_self _⟩
              exact hknown (List.mem_append_right _ hheld)
          | false => cases hcall
      | _ => cases hcall
  | heart how =>
      cases how with
      | extend now lands =>
          cases lands with
          | true =>
              simp only [poolCall] at hcall
              split at hcall <;> cases hcall
              trivial
          | false => cases hcall
      | _ => cases hcall
  | drain how =>
      cases how with
      | requeue now detail lands =>
          cases lands with
          | true =>
              simp only [poolCall] at hcall
              split at hcall <;> cases hcall
              rename_i hpc
              obtain ⟨c, hc, hlease⟩ := h.issued.drain _ (by rw [hpc]; exact List.mem_cons_self)
              exact ⟨c.row, h.held c hc, hlease⟩
          | false => cases hcall
      | _ => cases hcall
  | _ => cases hcall

/-- The rows a step returns to a pool are those its call fetches. -/
theorem returned_fetched {cfg : Pool.Config} {s : Pool.State} {label : Pool.Label} {c : Pool.Claim}
    (hc : c ∈ s.returned cfg label) :
    ∃ call, poolCall cfg s label = some call ∧ c.row ∈ fetched s.db call.op := by
  unfold Pool.State.returned at hc
  split at hc
  · rename_i now limit
    split at hc
    · rename_i n remaining queue queues claimed hpc
      refine ⟨.fetchAvailable now queue cfg.leaseDuration limit, by simp [poolCall, hpc], ?_⟩
      have hmem : c.row ∈ (Pool.State.answer cfg s queue now limit).map Pool.Claim.row :=
        List.mem_map_of_mem hc
      rw [Pool.State.answer, Pool.row_numbered] at hmem
      exact hmem
    · cases hc
  · cases hc

/-- A step of a pool is at most one call of its fleet. -/
theorem Serves.next {cfg : Pool.Config} {s : Pool.State} {f : State} (h : Serves s f)
    {label : Pool.Label} (hown : ∀ op, label ≠ .outside op) :
    ∃ calls, calls.length ≤ 1 ∧ Serves (Pool.next cfg s label) (run next f calls) := by
  have haccounted := h.accounted.move (Pool.next_move cfg s label)
  have hissued : Issued (Pool.next cfg s label) := h.issued.next h.accounted label
  have hclaims := claims_of_next cfg s label
  cases hstep : Pool.step cfg s label with
  | none =>
      have hsame : Pool.next cfg s label = s := by rw [Pool.next, hstep, Option.getD_none]
      exact ⟨[], Nat.zero_le 1, by rw [hsame]; exact h⟩
  | some s' =>
      have hnext : Pool.next cfg s label = s' := by rw [Pool.next, hstep, Option.getD_some]
      have hdb := db_of_step hstep hown
      rw [hnext] at haccounted hissued hclaims ⊢
      cases hcall : poolCall cfg s label with
      | none =>
          rw [hcall] at hdb
          refine ⟨[], Nat.zero_le 1, by rw [run_nil, h.db]; exact hdb.symm, ?_, haccounted, hissued⟩
          intro c hc
          rw [hclaims] at hc
          rcases List.mem_append.mp hc with hc | hc
          · exact h.held c hc
          · obtain ⟨call, hsome, -⟩ := returned_fetched hc
            rw [hcall] at hsome
            cases hsome
      | some call =>
          rw [hcall] at hdb
          have hallowed := allowed_of_poolCall h hcall
          refine ⟨[call], Nat.le_refl 1, ?_, ?_, haccounted, hissued⟩
          · rw [run_cons, run_nil, Fleet.next, if_pos hallowed, h.db]
            exact hdb.symm
          · intro c hc
            rw [hclaims] at hc
            rw [run_cons, run_nil, Fleet.next, if_pos hallowed]
            rcases List.mem_append.mp hc with hc | hc
            · exact List.mem_append_right _ (h.held c hc)
            · obtain ⟨call', hsome, hrow⟩ := returned_fetched hc
              rw [hcall] at hsome
              cases hsome
              exact List.mem_append_left _ (by rw [h.db]; exact hrow)

/-- And so a stretch of a pool's own steps is one of calls. -/
theorem Serves.run {cfg : Pool.Config} {s : Pool.State} {f : State} (h : Serves s f)
    {labels : List Pool.Label} (hown : ∀ label ∈ labels, ∀ op, label ≠ .outside op) :
    ∃ calls, calls.length ≤ labels.length ∧
      Serves (Foundation.run (Pool.next cfg) s labels) (Foundation.run Fleet.next f calls) := by
  induction labels generalizing s f with
  | nil => exact ⟨[], Nat.le_refl 0, h⟩
  | cons label labels ih =>
      rw [List.forall_mem_cons] at hown
      obtain ⟨calls, hlength, hnext⟩ := h.next hown.1
      obtain ⟨rest, hrest, hserves⟩ := ih hnext hown.2
      refine ⟨calls ++ rest, ?_, ?_⟩
      · rw [List.length_append, List.length_cons]
        omega
      · rw [run_append]
        exact hserves

/-- A call of another client is a step from outside. -/
theorem Serves.outside {cfg : Pool.Config} {s : Pool.State} {f : State} (h : Serves s f) {c : Call}
    (hallowed : c.Allowed f) : Serves (Pool.next cfg s (.outside c.op)) (Fleet.next f c) := by
  refine ⟨?_, ?_, h.accounted.move (Pool.next_move cfg s _), h.issued.next h.accounted _⟩
  · rw [Fleet.next, if_pos hallowed, h.db]
    rfl
  · intro claim hclaim
    rw [Fleet.next, if_pos hallowed]
    exact List.mem_append_right _ (h.held claim hclaim)

end Drover.Fleet
