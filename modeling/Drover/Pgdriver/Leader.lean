import Mathlib.Logic.Function.Basic
import Drover.Foundation.Run

set_option autoImplicit false

/-!
# The scheduler's lock and the pool (`TryBecomeLeader`, `ReleaseLeader`)

The lock belongs to a session, and a session to a connection of the pool.  One driver
takes a connection out to ask for the lock, and must give it back without the lock, keep
it as `leaderConn`, or close it.  The mutex lets one call run at a time, so a state has
one program counter; between any two statements of a call sessions may end, other users of
the pool take and return connections, and other processes take and drop the lock.

A closed connection may still hold the lock for a while: its session ends when the server
notices.
-/

namespace Drover.Pgdriver.Leader

open Drover.Foundation

/-- Where a connection is. -/
inductive Place where
  | unopened
  /-- idle in the pool -/
  | pooled
  /-- checked out by another user of the pool -/
  | lent
  /-- checked out by `TryBecomeLeader` -/
  | leading
  /-- hijacked and closed, or destroyed by the pool -/
  | closed
  deriving DecidableEq, Repr

/-- Who holds the lock: the session of a connection of this pool, or another process. -/
inductive Owner where
  | session (c : Nat)
  | other
  deriving DecidableEq, Repr

/-- Where a call is. -/
inductive Pc where
  | idle
  /-- before `leaderConn.Ping` -/
  | ping
  /-- before `pool.Acquire` -/
  | acquire
  /-- before the lock is asked for on `c` -/
  | query (c : Nat)
  deriving DecidableEq, Repr

/-- What `TryBecomeLeader` returns: true, false, or an error. -/
inductive Answer where
  | leader
  | follower
  | failed
  deriving DecidableEq, Repr

/-- The driver, its pool and the lock. -/
structure State where
  leaderConn : Option Nat
  pc : Pc
  place : Nat → Place
  /-- whether the session of a connection lives -/
  alive : Nat → Bool
  owner : Option Owner
  /-- every connection `TryBecomeLeader` ever acquired -/
  acquired : List Nat

/-- A driver that was never asked. -/
def start : State := ⟨none, .idle, fun _ => .unopened, fun _ => false, none, []⟩

/-- A step of a call, or of what is around it. -/
inductive Label where
  /-- `TryBecomeLeader` is called -/
  | call
  | ping (ok : Bool)
  /-- `pool.Acquire` returns a connection, idle or new -/
  | acquire (c : Nat)
  /-- it fails, perhaps because the context is done -/
  | acquireFails (done : Bool)
  /-- `pg_try_advisory_lock` is answered -/
  | locked (held : Bool)
  /-- the query or its scan fails, after the lock was granted or not -/
  | lockFails (granted done : Bool)
  /-- `ReleaseLeader` -/
  | release
  /-- a session ends -/
  | die (c : Nat)
  /-- another user takes a connection, gives it back, or the pool destroys it -/
  | lend (c : Nat)
  | handBack (c : Nat)
  | destroy (c : Nat)
  /-- another process takes the lock, or drops it -/
  | otherLocks
  | otherUnlocks
  deriving DecidableEq, Repr

/-- The state with one connection moved. -/
def State.move (s : State) (c : Nat) (place : Place) : State :=
  { s with place := Function.update s.place c place }

/-- `closeAcquiredConn` takes the connection out of the pool and closes it. -/
def State.closeAcquiredConn (s : State) (c : Nat) : State := s.move c .closed

/-- `closeLeaderConnLocked`. -/
def State.closeLeaderConnLocked (s : State) : State :=
  match s.leaderConn with
  | none => s
  | some c => { s.closeAcquiredConn c with leaderConn := none }

/-- The server would grant the lock to the session of `c`, which may hold it already. -/
def State.grants (s : State) (c : Nat) : Prop :=
  s.alive c = true ∧ (s.owner = none ∨ s.owner = some (.session c))

instance (s : State) (c : Nat) : Decidable (s.grants c) := inferInstanceAs (Decidable (_ ∧ _))

/-- What is returned when the context is done, and when it is not. -/
def giveUp (done : Bool) : Answer := if done then .follower else .failed

/-- One step, with what the call returns if it ends; `none` when it cannot be taken. -/
def step (s : State) : Label → Option (State × Option Answer)
  | .call =>
      if s.pc ≠ .idle then none
      else if s.leaderConn = none then some ({ s with pc := .acquire }, none)
      else some ({ s with pc := .ping }, none)
  | .ping ok =>
      match s.pc, s.leaderConn with
      | .ping, some c =>
          if !ok then some ({ s.closeLeaderConnLocked with pc := .acquire }, none)
          else if s.alive c then some ({ s with pc := .idle }, some .leader)
          else none
      | _, _ => none
  | .acquire c =>
      if s.pc ≠ .acquire then none
      else
        match s.place c with
        | .unopened =>
            some ({ s.move c .leading with
              alive := Function.update s.alive c true
              pc := .query c
              acquired := c :: s.acquired }, none)
        | .pooled => some ({ s.move c .leading with pc := .query c, acquired := c :: s.acquired }, none)
        | _ => none
  | .acquireFails done =>
      if s.pc ≠ .acquire then none else some ({ s with pc := .idle }, some (giveUp done))
  | .locked held =>
      match s.pc with
      | .query c =>
          if held then
            if s.grants c then
              some ({ s with leaderConn := some c, pc := .idle, owner := some (.session c) }, some .leader)
            else none
          else if s.alive c ∧ ¬s.grants c then
            some ({ s.move c .pooled with pc := .idle }, some .follower)
          else none
      | _ => none
  | .lockFails granted done =>
      match s.pc with
      | .query c =>
          if granted then
            if s.grants c then
              some ({ s.closeAcquiredConn c with pc := .idle, owner := some (.session c) },
                some (giveUp done))
            else none
          else some ({ s.closeAcquiredConn c with pc := .idle }, some (giveUp done))
      | _ => none
  | .release => if s.pc ≠ .idle then none else some ({ s.closeLeaderConnLocked with pc := .idle }, none)
  | .die c =>
      some ({ s with
        alive := Function.update s.alive c false
        owner := if s.owner = some (.session c) then none else s.owner }, none)
  | .lend c => if s.place c ≠ .pooled then none else some (s.move c .lent, none)
  | .handBack c => if s.place c ≠ .lent then none else some (s.move c .pooled, none)
  | .destroy c =>
      if s.place c = .pooled ∨ s.place c = .lent then some (s.move c .closed, none) else none
  | .otherLocks => if s.owner ≠ none then none else some ({ s with owner := some .other }, none)
  | .otherUnlocks => if s.owner ≠ some .other then none else some ({ s with owner := none }, none)

/-- The state after a step; a step that cannot be taken does nothing. -/
def next (s : State) (label : Label) : State := ((step s label).map Prod.fst).getD s

/-! ## What holds in every state -/

/-- The connection a call is working with. -/
def Pc.conn : Pc → Option Nat
  | .query c => some c
  | _ => none

/-- What holds in every state. -/
structure Inv (s : State) : Prop where
  /-- leadership has checked out `leaderConn`, or what a call is working with -/
  checkedOut : ∀ c, s.place c = .leading ↔ s.leaderConn = some c ∨ s.pc.conn = some c
  /-- a call looks for a connection only when there is no `leaderConn` -/
  alone : s.pc ≠ .idle → s.pc ≠ .ping → s.leaderConn = none
  /-- what others can get at does not hold the lock -/
  clean : ∀ c, s.place c = .unopened ∨ s.place c = .pooled ∨ s.place c = .lent →
    s.owner ≠ some (.session c)
  /-- the session of `leaderConn` holds the lock as long as it lives -/
  leads : ∀ c, s.leaderConn = some c → s.alive c = true → s.owner = some (.session c)
  opened : ∀ c ∈ s.acquired, s.place c ≠ .unopened

theorem inv_start : Inv start := by
  constructor <;> simp [start, Pc.conn]

@[simp]
theorem State.place_move (s : State) (c d : Nat) (place : Place) :
    (s.move c place).place d = if d = c then place else s.place d := by
  simp [State.move, Function.update_apply]

/-- A call goes on without touching a connection. -/
theorem Inv.goto {s : State} {pc : Pc} (h : Inv s) (hpc : s.pc.conn = none) (hnew : pc.conn = none)
    (halone : pc ≠ .idle → pc ≠ .ping → s.leaderConn = none) : Inv { s with pc := pc } :=
  ⟨by simpa [hpc, hnew] using h.checkedOut, halone, h.clean, h.leads, h.opened⟩

/-- Other users of the pool move connections that are not leadership's. -/
theorem Inv.move {s : State} {c : Nat} {place : Place} (h : Inv s)
    (hfrom : s.place c = .pooled ∨ s.place c = .lent)
    (hplace : place = .pooled ∨ place = .lent ∨ place = .closed) : Inv (s.move c place) where
  checkedOut d := by
    have hd := h.checkedOut d
    rw [State.place_move]
    show _ ↔ s.leaderConn = some d ∨ s.pc.conn = some d
    grind
  alone := h.alone
  clean d := by
    have hd := h.clean d
    rw [State.place_move]
    show _ → s.owner ≠ _
    grind
  leads := h.leads
  opened d hd := by
    have hd := h.opened d hd
    rw [State.place_move]
    grind

/-- Closing `leaderConn` leaves leadership without a connection. -/
theorem Inv.closeLeaderConnLocked {s : State} {pc : Pc} (h : Inv s) (hpc : s.pc.conn = none)
    (hnew : pc.conn = none) : Inv { s.closeLeaderConnLocked with pc := pc } := by
  rw [State.closeLeaderConnLocked]
  split
  · rename_i hnone
    exact h.goto hpc hnew (fun _ _ => hnone)
  · rename_i c hc
    constructor
    · intro d
      have hd := h.checkedOut d
      simp only [State.closeAcquiredConn, State.place_move, hnew]
      grind
    · exact fun _ _ => rfl
    · intro d
      have hd := h.clean d
      simp only [State.closeAcquiredConn, State.place_move]
      show _ → s.owner ≠ _
      grind
    · simp
    · intro d hd
      have hd := h.opened d hd
      simp only [State.closeAcquiredConn, State.place_move]
      grind

/-- A connection that was nobody's becomes the one a call works with. -/
theorem Inv.acquire {s : State} {c : Nat} {alive : Nat → Bool} (h : Inv s) (hpc : s.pc = .acquire)
    (hfrom : s.place c = .unopened ∨ s.place c = .pooled) :
    Inv { s.move c .leading with alive := alive, pc := .query c, acquired := c :: s.acquired } := by
  have hnone : s.leaderConn = none := h.alone (by simp [hpc]) (by simp [hpc])
  constructor
  · intro d
    have hd := h.checkedOut d
    simp only [State.place_move, Pc.conn]
    show _ ↔ s.leaderConn = some d ∨ _
    grind [Pc.conn]
  · exact fun _ _ => hnone
  · intro d
    have hd := h.clean d
    simp only [State.place_move]
    show _ → s.owner ≠ _
    grind
  · intro d hd
    cases hnone.symm.trans hd
  · intro d hd
    simp only [State.place_move]
    rcases List.mem_cons.mp hd with rfl | hd
    · simp
    · have hd := h.opened d hd
      grind

/-- The connection a call works with is given back without the lock, or closed. -/
theorem Inv.drop {s : State} {c : Nat} {place : Place} {owner : Option Owner} (h : Inv s)
    (hpc : s.pc = .query c)
    (howner : owner = s.owner ∨ owner = some (.session c) ∧ place = .closed)
    (hplace : place = .pooled ∧ s.owner ≠ some (.session c) ∨ place = .closed) :
    Inv { s.move c place with pc := .idle, owner := owner } := by
  have hnone : s.leaderConn = none := h.alone (by simp [hpc]) (by simp [hpc])
  constructor
  · intro d
    have hd := h.checkedOut d
    simp only [State.place_move, Pc.conn]
    show _ ↔ s.leaderConn = some d ∨ _
    grind [Pc.conn]
  · simp
  · intro d
    have hd := h.clean d
    simp only [State.place_move]
    grind
  · intro d hd
    cases hnone.symm.trans hd
  · intro d hd
    have hd := h.opened d hd
    simp only [State.place_move]
    grind

/-- The connection that was granted the lock becomes `leaderConn`. -/
theorem Inv.lead {s : State} {c : Nat} (h : Inv s) (hpc : s.pc = .query c) :
    Inv { s with leaderConn := some c, pc := .idle, owner := some (.session c) } := by
  have hnone : s.leaderConn = none := h.alone (by simp [hpc]) (by simp [hpc])
  have hleading := (h.checkedOut c).mpr (Or.inr (by rw [hpc]; rfl))
  constructor
  · intro d
    have hd := h.checkedOut d
    simp only [hpc, hnone, Pc.conn] at hd ⊢
    grind
  · simp
  · rintro d hd ⟨⟩
    simp [hleading] at hd
  · rintro d ⟨⟩ _
    rfl
  · exact h.opened

/-- The lock goes with its session. -/
theorem Inv.die {s : State} (c : Nat) (h : Inv s) :
    Inv { s with
      alive := Function.update s.alive c false
      owner := if s.owner = some (.session c) then none else s.owner } := by
  refine ⟨h.checkedOut, h.alone, ?_, ?_, h.opened⟩
  · intro d hd
    have := h.clean d hd
    show (if _ then _ else _) ≠ _
    split <;> simp_all
  · intro d hd halive
    have hdc : d ≠ c := by
      rintro rfl
      simp at halive
    have hlead := h.leads d hd (by simpa [Function.update_of_ne hdc] using halive)
    simp [hlead, hdc]

/-- Another process takes the lock only when no session here has it, and drops its own. -/
theorem Inv.other {s : State} {owner : Option Owner} (h : Inv s)
    (hs : ∀ c, s.owner ≠ some (.session c)) (howner : ∀ c, owner ≠ some (.session c)) :
    Inv { s with owner := owner } :=
  ⟨h.checkedOut, h.alone, fun c _ => howner c, fun c hc halive => absurd (h.leads c hc halive) (hs c),
    h.opened⟩

/-- What every step keeps. -/
theorem step_inv {s s' : State} {label : Label} {answer : Option Answer} (h : Inv s)
    (hstep : step s label = some (s', answer)) : Inv s' := by
  cases label with
  | call =>
      simp only [step] at hstep
      split_ifs at hstep with hpc hnone <;> cases hstep
      · exact h.goto (by rw [not_not.mp hpc]; rfl) rfl (fun _ _ => hnone)
      · exact h.goto (by rw [not_not.mp hpc]; rfl) rfl (by simp)
  | ping ok =>
      simp only [step] at hstep
      split at hstep
      · rename_i c hpc hc
        split_ifs at hstep <;> cases hstep
        · exact h.closeLeaderConnLocked (by rw [hpc]; rfl) rfl
        · exact h.goto (by rw [hpc]; rfl) rfl (by simp)
      · cases hstep
  | acquire c =>
      simp only [step] at hstep
      split_ifs at hstep with hpc
      split at hstep <;> cases hstep
      · rename_i hplace
        exact h.acquire (not_not.mp hpc) (Or.inl hplace)
      · rename_i hplace
        exact h.acquire (not_not.mp hpc) (Or.inr hplace)
  | acquireFails done =>
      simp only [step] at hstep
      split_ifs at hstep with hpc
      cases hstep
      exact h.goto (by rw [not_not.mp hpc]; rfl) rfl (by simp)
  | locked held =>
      simp only [step] at hstep
      split at hstep
      · rename_i c hpc
        split_ifs at hstep with hheld hgrants hrefused <;> cases hstep
        · exact h.lead hpc
        · have hclean : s.owner ≠ some (.session c) := fun howner =>
            hrefused.2 ⟨hrefused.1, Or.inr howner⟩
          exact h.drop hpc (Or.inl rfl) (Or.inl ⟨rfl, hclean⟩)
      · cases hstep
  | lockFails granted done =>
      simp only [step] at hstep
      split at hstep
      · rename_i c hpc
        split_ifs at hstep <;> cases hstep
        · exact h.drop hpc (Or.inr ⟨rfl, rfl⟩) (Or.inr rfl)
        · exact h.drop hpc (Or.inl rfl) (Or.inr rfl)
      · cases hstep
  | release =>
      simp only [step] at hstep
      split_ifs at hstep with hpc
      cases hstep
      exact h.closeLeaderConnLocked (by rw [not_not.mp hpc]; rfl) rfl
  | die c =>
      cases hstep
      exact h.die c
  | lend c =>
      simp only [step] at hstep
      split_ifs at hstep with hplace
      cases hstep
      exact h.move (Or.inl (not_not.mp hplace)) (Or.inr (Or.inl rfl))
  | handBack c =>
      simp only [step] at hstep
      split_ifs at hstep with hplace
      cases hstep
      exact h.move (Or.inr (not_not.mp hplace)) (Or.inl rfl)
  | destroy c =>
      simp only [step] at hstep
      split_ifs at hstep with hplace
      cases hstep
      exact h.move hplace (Or.inr (Or.inr rfl))
  | otherLocks =>
      simp only [step] at hstep
      split_ifs at hstep with howner
      cases hstep
      exact h.other (by simp [not_not.mp howner]) (by simp)
  | otherUnlocks =>
      simp only [step] at hstep
      split_ifs at hstep with howner
      cases hstep
      exact h.other (by simp [not_not.mp howner]) (by simp)

theorem inv_run (labels : List Label) : Inv (run next start labels) := by
  refine run_invariant (fun s label hs => ?_) inv_start labels
  rw [next]
  cases hstep : step s label with
  | none => exact hs
  | some pair => exact step_inv hs hstep

/-- `TryBecomeLeader` returns true when the session of `leaderConn` has just answered the ping
or been granted the lock; either way it holds it. -/
theorem leader_holds {s s' : State} {label : Label} (h : Inv s)
    (hstep : step s label = some (s', some .leader)) :
    ∃ c, s'.leaderConn = some c ∧ s'.owner = some (.session c) := by
  cases label with
  | ping ok =>
      simp only [step] at hstep
      split at hstep
      · rename_i c hpc hc
        split_ifs at hstep with hok halive <;> cases hstep
        exact ⟨c, hc, h.leads c hc halive⟩
      · cases hstep
  | locked held =>
      simp only [step] at hstep
      split at hstep
      · rename_i c hpc
        split_ifs at hstep <;> cases hstep
        exact ⟨c, rfl, rfl⟩
      · cases hstep
  | acquireFails done => cases done <;> simp [step, giveUp] at hstep
  | lockFails granted done =>
      simp only [step] at hstep
      split at hstep
      · rename_i c hpc
        cases done <;> split_ifs at hstep <;> cases hstep
      · cases hstep
  | acquire c =>
      simp only [step] at hstep
      split_ifs at hstep
      split at hstep <;> cases hstep
  | _ =>
      simp only [step] at hstep
      split_ifs at hstep <;> cases hstep

/-! ## No lock in the pool -/

/-- In every state the calls, their failures and what is around them can lead to: a connection
in the pool, or with another of its users, does not hold the lock; outside of a call leadership
has checked out `leaderConn` and nothing else, and within a call one connection at most; every
connection a call ever acquired is one of those, or is closed, or went back without the lock;
and a call that returns true leaves a `leaderConn` whose session holds the lock. -/
theorem run_lock_stays_with_leader (labels : List Label) :
    let s := run next start labels
    (∀ c, s.place c = .pooled ∨ s.place c = .lent → s.owner ≠ some (.session c)) ∧
    (∀ c, s.place c = .leading ↔ s.leaderConn = some c ∨ s.pc = .query c) ∧
    (∀ c, s.pc = .query c → s.leaderConn = none) ∧
    (∀ c ∈ s.acquired, s.place c = .leading ∨ s.place c = .closed ∨
      (s.place c = .pooled ∨ s.place c = .lent) ∧ s.owner ≠ some (.session c)) ∧
    (∀ label s', step s label = some (s', some .leader) →
      ∃ c, s'.leaderConn = some c ∧ s'.owner = some (.session c)) := by
  intro s
  have h : Inv s := inv_run labels
  refine ⟨fun c hc => h.clean c (Or.inr hc), ?_, ?_, ?_, fun label s' => leader_holds h⟩
  · intro c
    rw [h.checkedOut c]
    cases s.pc <;> simp [Pc.conn]
  · intro c hpc
    exact h.alone (by simp [hpc]) (by simp [hpc])
  · intro c hc
    have hopened := h.opened c hc
    have hclean := h.clean c
    cases hplace : s.place c with
    | unopened => exact absurd hplace hopened
    | pooled => exact Or.inr (Or.inr ⟨Or.inl rfl, hclean (Or.inr (Or.inl hplace))⟩)
    | lent => exact Or.inr (Or.inr ⟨Or.inr rfl, hclean (Or.inr (Or.inr hplace))⟩)
    | leading => exact Or.inl rfl
    | closed => exact Or.inr (Or.inl rfl)

-- The scan fails after the grant: the session keeps the lock, and its connection is closed.
example :
    let s := run next start [.call, .acquire 0, .lockFails true false, .call, .acquire 1, .locked false]
    s.owner = some (.session 0) ∧ s.place 0 = .closed ∧ s.place 1 = .pooled := by
  decide

end Drover.Pgdriver.Leader
