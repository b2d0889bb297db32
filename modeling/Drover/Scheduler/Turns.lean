import Drover.Scheduler.Loop

set_option autoImplicit false

/-!
# What a step of the scheduler can do

A client's place in the loop says something about its session and its flag (`Client.Fits`),
and given that, each of its steps is one of five turns.  What is proved of whole runs is
proved of the turns; the loop itself is not looked at again.
-/

namespace Drover.Scheduler

open Drover.Foundation
open Drover.Driver
open Drover.Go (Time)

/-! ## What its place says of a client -/

/-- The client leads, as far as it knows. -/
def Pc.leads : Pc → Bool
  | .leader | .read | .pass _ _ => true
  | _ => false

/-- The client has seen to its watermarks. -/
def Pc.settled : Pc → Bool
  | .read | .pass _ _ => true
  | _ => false

/-- The client has no connection to a session. -/
def Pc.free : Pc → Bool
  | .idle | .acquire => true
  | _ => false

/-- A client between two steps, as far as its place in the loop says. -/
structure Client.Fits (cfg : Config) (c : Client) : Prop where
  leads : c.pc.leads = true → cfg.hasLocker = true → c.leaderConn ≠ none
  settled : c.pc.settled = true → c.wasLeader = true
  free : c.pc.free = true → c.leaderConn = none
  fresh : c.pc = .idle → c.wasLeader = false
  locked : c.pc = .acquire ∨ c.leaderConn ≠ none → cfg.hasLocker = true

/-- A client that does not lead and has no session. -/
theorem fits_of_none {cfg : Config} {c : Client} (hnone : c.leaderConn = none)
    (hleads : c.pc.leads = false) (hidle : c.pc ≠ .idle)
    (hacquire : c.pc = .acquire → cfg.hasLocker = true) : c.Fits cfg := by
  refine ⟨fun h => ?_, fun h => ?_, fun _ => hnone, fun h => absurd h hidle, fun h => ?_⟩
  · rw [hleads] at h
    cases h
  · cases hpc : c.pc <;> rw [hpc] at h hleads <;> cases h <;> cases hleads
  · exact h.elim hacquire (absurd hnone)

/-- A client that goes on in the loop with its session. -/
theorem Client.Fits.goto {cfg : Config} {c : Client} (h : c.Fits cfg) {pc : Pc}
    (hleads : pc.leads = true → cfg.hasLocker = true → c.leaderConn ≠ none)
    (hsettled : pc.settled = true → c.wasLeader = true) (hfree : pc.free = false) :
    Client.Fits cfg { c with pc := pc } := by
  refine ⟨hleads, hsettled, fun hpc => ?_, fun hpc => ?_, fun hpc => ?_⟩
  · exact absurd (hfree.symm.trans hpc) (by decide)
  · cases hpc
    cases hfree
  · rcases hpc with hpc | hpc
    · cases hpc
      cases hfree
    · exact h.locked (Or.inr hpc)

/-! ## What a step can do -/

/-- The ways in which a step of a client matters: it keeps its session and its watermarks,
or drops the session; it is granted the lock; it moves its watermarks to the present; it
begins a pass; or it moves one watermark to a due instant, which it may have inserted. -/
inductive Turn (cfg : Config) (s : State) (n : Nat) : ClientStep → State → Prop where
  | keep {how : ClientStep} {c : Client} {db : Memdriver.Driver} (hfits : c.Fits cfg)
      (hkeep : c.leaderConn = none ∧ (cfg.hasLocker = true ∨ (s.clients n).wasLeader = false) ∨
        c.leaderConn = (s.clients n).leaderConn ∧ c.wasLeader = (s.clients n).wasLeader ∧
          c.lastFire = (s.clients n).lastFire)
      (hpass : ∀ now i, c.pc = .pass now i → c.leaderConn = (s.clients n).leaderConn ∧
        ∃ j, (s.clients n).pc = .pass now j) :
      Turn cfg s n how { s with db := db, clients := Function.update s.clients n c }
  | grant (hpc : (s.clients n).pc = .acquire) (howner : s.owner = none) :
      Turn cfg s n (.lock true)
        { s with
          owner := some s.acquired.length
          acquired := s.acquired ++ [s.clock]
          clients := Function.update s.clients n
            { s.clients n with pc := .leader, leaderConn := some s.acquired.length } }
  | lead (hpc : (s.clients n).pc = .leader) (hwas : (s.clients n).wasLeader = false) :
      Turn cfg s n .go
        { s with
          clients := Function.update s.clients n
            { s.clients n with
              pc := .read
              wasLeader := true
              lastFire := List.replicate (s.clients n).lastFire.length s.clock } }
  | read (hpc : (s.clients n).pc = .read) :
      Turn cfg s n .go
        { s with clients := Function.update s.clients n { s.clients n with pc := .pass s.clock 0 } }
  | advance {ok : Bool} {now last fire : Time} {i : Nat} {entry : Entry} {db : Memdriver.Driver}
      {log : List Tick} (hpc : (s.clients n).pc = .pass now i)
      (hentry : cfg.periodic[i]? = some entry) (hlast : (s.clients n).lastFire[i]? = some last)
      (hfire : entry.schedule.next last = fire) (hne : fire ≠ 0) (hdue : fire ≤ now)
      (hlog : log = s.log ∨
        log = ⟨entry.job.id, fire, n, (s.clients n).leaderConn⟩ :: s.log) :
      Turn cfg s n (.insert ok)
        { s with
          db := db
          clients := Function.update s.clients n
            { s.clients n with lastFire := (s.clients n).lastFire.set i fire }
          log := log }

theorem due_eq_some {cfg : Config} {c : Client} {i : Nat} {entry : Entry} {fire : Time}
    (h : cfg.due c i = some (entry, fire)) :
    ∃ last, cfg.periodic[i]? = some entry ∧ c.lastFire[i]? = some last ∧
      entry.schedule.next last = fire := by
  unfold Config.due at h
  obtain ⟨found, hfound, h⟩ := Option.bind_eq_some_iff.mp h
  obtain ⟨last, hlast, heq⟩ := Option.map_eq_some_iff.mp h
  cases heq
  exact ⟨last, hfound, hlast, rfl⟩

/-- A client that goes on in the loop with all it has. -/
theorem Turn.goto {cfg : Config} {s : State} {n : Nat} {how : ClientStep} {pc : Pc}
    {db : Memdriver.Driver} (hfits : (s.clients n).Fits cfg)
    (hleads : pc.leads = true → cfg.hasLocker = true → (s.clients n).leaderConn ≠ none)
    (hsettled : pc.settled = true → (s.clients n).wasLeader = true) (hfree : pc.free = false)
    (hpass : ∀ now i, pc = .pass now i → ∃ j, (s.clients n).pc = .pass now j) :
    Turn cfg s n how
      { s with db := db, clients := Function.update s.clients n { s.clients n with pc := pc } } :=
  .keep (hfits.goto hleads hsettled hfree) (Or.inr ⟨rfl, rfl, rfl⟩)
    fun now i h => ⟨rfl, hpass now i h⟩

/-- On to the next entry of the pass. -/
theorem turn_of_pass {cfg : Config} {s : State} {n : Nat} {how : ClientStep} {now : Time} {i : Nat}
    {db : Memdriver.Driver} (hfits : (s.clients n).Fits cfg) (hpc : (s.clients n).pc = .pass now i)
    (j : Nat) :
    Turn cfg s n how
      { s with
        db := db
        clients := Function.update s.clients n { s.clients n with pc := .pass now j } } := by
  refine .goto hfits (fun _ => ?_) (fun _ => ?_) rfl fun now' k h => ?_
  · exact hfits.leads (by rw [hpc]; rfl)
  · exact hfits.settled (by rw [hpc]; rfl)
  · cases h
    exact ⟨i, hpc⟩

/-- An inserted tick is dealt with. -/
theorem advance_of_inserted {db : Memdriver.Driver} {clock fire : Time} {entry : Entry} {ok : Bool}
    (h : (insertPeriodicTick db clock entry fire ok).2.1 = true) :
    (insertPeriodicTick db clock entry fire ok).2.2 = true := by
  unfold insertPeriodicTick at h ⊢
  split at h
  · split at h
    · rfl
    · rfl
    · cases h
  · cases h

/-- A due tick moves the watermark, inserted or not, or the pass goes on without it. -/
theorem insertStep_turn {cfg : Config} {s : State} {n : Nat} {now fire : Time} {i : Nat}
    {entry : Entry} (hfits : (s.clients n).Fits cfg) (hpc : (s.clients n).pc = .pass now i)
    (hdue : cfg.due (s.clients n) i = some (entry, fire)) (hne : fire ≠ 0) (hle : fire ≤ now)
    (ok : Bool) :
    Turn cfg s n (.insert ok) (insertStep s n now i entry fire ok) := by
  obtain ⟨last, hentry, hlast, hfire⟩ := due_eq_some hdue
  have hinserted := @advance_of_inserted s.db s.clock fire entry ok
  unfold insertStep
  generalize insertPeriodicTick s.db s.clock entry fire ok = result at hinserted
  obtain ⟨db, inserted, advance⟩ := result
  cases inserted with
  | true =>
      obtain rfl : advance = true := hinserted rfl
      exact .advance hpc hentry hlast hfire hne hle (Or.inr rfl)
  | false =>
      cases advance with
      | true => exact .advance hpc hentry hlast hfire hne hle (Or.inl rfl)
      | false => exact turn_of_pass hfits hpc (i + 1)

/-- A client that leaves the loop drops its session. -/
theorem turn_of_quit {cfg : Config} {s s' : State} {n : Nat} (hfits : (s.clients n).Fits cfg)
    (hidle : (s.clients n).pc ≠ .idle) (hexited : (s.clients n).pc ≠ .exited)
    (h : clientStep cfg s n .quit = some s') : Turn cfg s n .quit s' := by
  have hquit : clientStep cfg s n .quit = some { s with
      clients := Function.update s.clients n
        { s.clients n with pc := .exited, leaderConn := none } } := by
    cases hpc : (s.clients n).pc with
    | idle => exact absurd hpc hidle
    | exited => exact absurd hpc hexited
    | _ => simp [clientStep, hpc]
  rw [hquit, Option.some.injEq] at h
  subst h
  refine .keep (fits_of_none rfl rfl nofun nofun) ?_ nofun
  by_cases hnone : (s.clients n).leaderConn = none
  · exact Or.inr ⟨hnone.symm, rfl, rfl⟩
  · exact Or.inl ⟨rfl, Or.inl (hfits.locked (Or.inr hnone))⟩

/-- `TryBecomeLeader`, as far as it looks at the connection it has. -/
theorem turn_of_top {cfg : Config} {s s' : State} {n : Nat} {how : ClientStep}
    (hfits : (s.clients n).Fits cfg) (hpc : (s.clients n).pc = .top)
    (h : clientStep cfg s n how = some s') : Turn cfg s n how s' := by
  cases how with
  | go =>
      simp only [clientStep, hpc] at h
      split at h
      · rename_i hlocker
        cases h
        refine .goto hfits (fun _ hhas => ?_) nofun rfl nofun
        rw [hhas] at hlocker
        cases hlocker
      · split at h <;> cases h
        rename_i hlocker hnone
        refine .keep (fits_of_none hnone rfl nofun fun _ => ?_) (Or.inr ⟨rfl, rfl, rfl⟩) nofun
        simpa using hlocker
  | ping ok =>
      cases ok with
      | true =>
          simp only [clientStep, hpc] at h
          split at h <;> cases h
          rename_i hping
          exact .goto hfits (fun _ _ => hping.2.1) nofun rfl nofun
      | false =>
          simp only [clientStep, hpc] at h
          split at h <;> cases h
          rename_i hping
          exact .keep (fits_of_none rfl rfl nofun fun _ => hping.1)
            (Or.inl ⟨rfl, Or.inl hping.1⟩) nofun
  | quit => exact turn_of_quit hfits (by rw [hpc]; nofun) (by rw [hpc]; nofun) h
  | _ => simp [clientStep, hpc] at h

/-- `TryBecomeLeader`, without a connection. -/
theorem turn_of_acquire {cfg : Config} {s s' : State} {n : Nat} {how : ClientStep}
    (hfits : (s.clients n).Fits cfg) (hpc : (s.clients n).pc = .acquire)
    (h : clientStep cfg s n how = some s') : Turn cfg s n how s' := by
  have hnone := hfits.free (by rw [hpc]; rfl)
  have hlocker := hfits.locked (Or.inl hpc)
  cases how with
  | lock held =>
      cases held with
      | true =>
          simp only [clientStep, hpc] at h
          split at h <;> cases h
          rename_i howner
          exact .grant hpc howner
      | false =>
          simp only [clientStep, hpc] at h
          split at h <;> cases h
          exact .keep (fits_of_none hnone rfl nofun nofun) (Or.inl ⟨hnone, Or.inl hlocker⟩) nofun
  | fail =>
      simp only [clientStep, hpc] at h
      cases h
      exact .keep (fits_of_none hnone rfl nofun nofun) (Or.inl ⟨hnone, Or.inl hlocker⟩) nofun
  | quit => exact turn_of_quit hfits (by rw [hpc]; nofun) (by rw [hpc]; nofun) h
  | _ => simp [clientStep, hpc] at h

/-- Each step of a client is one of the turns. -/
theorem clientStep_turn {cfg : Config} {s s' : State} {n : Nat} {how : ClientStep}
    (hfits : (s.clients n).Fits cfg) (h : clientStep cfg s n how = some s') :
    Turn cfg s n how s' := by
  cases hpc : (s.clients n).pc with
  | idle =>
      cases how with
      | go =>
          simp only [clientStep, hpc] at h
          cases h
          have hnone := hfits.free (by rw [hpc]; rfl)
          exact .keep (fits_of_none hnone rfl nofun nofun)
            (Or.inl ⟨hnone, Or.inr (hfits.fresh hpc)⟩) nofun
      | _ => simp [clientStep, hpc] at h
  | top => exact turn_of_top hfits hpc h
  | acquire => exact turn_of_acquire hfits hpc h
  | leader =>
      cases how with
      | go =>
          simp only [clientStep, hpc] at h
          split at h <;> cases h
          · rename_i hwas
            exact .goto hfits (fun _ => hfits.leads (by rw [hpc]; rfl)) (fun _ => hwas) rfl nofun
          · rename_i hwas
            exact .lead hpc (by simpa using hwas)
      | quit => exact turn_of_quit hfits (by rw [hpc]; nofun) (by rw [hpc]; nofun) h
      | _ => simp [clientStep, hpc] at h
  | read =>
      cases how with
      | go =>
          simp only [clientStep, hpc] at h
          cases h
          exact .read hpc
      | quit => exact turn_of_quit hfits (by rw [hpc]; nofun) (by rw [hpc]; nofun) h
      | _ => simp [clientStep, hpc] at h
  | pass now i =>
      cases how with
      | go =>
          simp only [clientStep, hpc] at h
          split at h
          · cases h
            exact .goto hfits nofun nofun rfl nofun
          · split at h <;> cases h
            exact turn_of_pass hfits hpc (i + 1)
      | insert ok =>
          simp only [clientStep, hpc] at h
          split at h
          · cases h
          · rename_i entry fire hdue
            split at h <;> cases h
            rename_i hnot
            rw [not_or] at hnot
            exact insertStep_turn hfits hpc hdue hnot.1 (Int.not_lt.mp hnot.2) ok
      | quit => exact turn_of_quit hfits (by rw [hpc]; nofun) (by rw [hpc]; nofun) h
      | _ => simp [clientStep, hpc] at h
  | waiting =>
      cases how with
      | go =>
          simp only [clientStep, hpc] at h
          cases h
          exact .goto hfits nofun nofun rfl nofun
      | quit => exact turn_of_quit hfits (by rw [hpc]; nofun) (by rw [hpc]; nofun) h
      | _ => simp [clientStep, hpc] at h
  | exited => simp [clientStep, hpc] at h

/-- After a turn every client still fits its place. -/
theorem Turn.fits {cfg : Config} {s s' : State} {n : Nat} {how : ClientStep}
    (hturn : Turn cfg s n how s') (h : ∀ m, (s.clients m).Fits cfg) (m : Nat) :
    (s'.clients m).Fits cfg := by
  have hupdate : ∀ {c : Client}, c.Fits cfg → (Function.update s.clients n c m).Fits cfg :=
    fun hc => (Function.forall_update_iff s.clients fun _ c => c.Fits cfg).mpr
      ⟨hc, fun m _ => h m⟩ m
  cases hturn with
  | keep hfits _ _ => exact hupdate hfits
  | grant hpc _ =>
      refine hupdate ⟨nofun, nofun, nofun, nofun, fun _ => ?_⟩
      exact (h n).locked (Or.inl hpc)
  | lead hpc _ =>
      refine hupdate ⟨fun _ => ?_, fun _ => rfl, nofun, nofun, fun hlocked => ?_⟩
      · exact (h n).leads (by rw [hpc]; rfl)
      · exact (h n).locked (Or.inr (hlocked.resolve_left nofun))
  | read hpc =>
      refine hupdate ((h n).goto (fun _ => ?_) (fun _ => ?_) rfl)
      · exact (h n).leads (by rw [hpc]; rfl)
      · exact (h n).settled (by rw [hpc]; rfl)
  | advance _ _ _ _ _ _ _ =>
      exact hupdate ⟨(h n).leads, (h n).settled, (h n).free, (h n).fresh, (h n).locked⟩

/-- What every turn keeps, and every step of the surroundings, every step keeps. -/
theorem next_rule {cfg : Config} {s : State} {P : State → Prop}
    (hfits : ∀ n, (s.clients n).Fits cfg) (label : Label) (h : P s)
    (hclient : ∀ n how s', label = .client n how → Turn cfg s n how s' → P s')
    (htick : ∀ d : Nat, P { s with clock := s.clock + d }) (hdie : P { s with owner := none })
    (houtside : ∀ db, P { s with db := db }) : P (next cfg s label) := by
  cases label with
  | client n how =>
      unfold next
      cases hstep : step cfg s (.client n how) with
      | none => exact h
      | some s' => exact hclient n how s' rfl (clientStep_turn (hfits n) hstep)
  | tick d => exact htick d
  | die => exact hdie
  | outside op => exact houtside _

end Drover.Scheduler
