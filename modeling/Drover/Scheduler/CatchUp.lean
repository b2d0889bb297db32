import Mathlib.Data.Fintype.Order
import Drover.Client.Settings
import Drover.Scheduler.Enqueue

set_option autoImplicit false

/-!
# Every tick once and in order

What calls of `enqueueDuePeriodic` in a row do to an entry, whatever the store answers: the
ticks that were taken are the fires between the watermark at the start and the one at the
end, a failed tick is where the next call goes on, and no entry sees the others.  The wait a
call returns is positive unless an insert failed.
-/

namespace Drover.Scheduler

open Drover.Foundation
open Drover.Go (Time Duration)
open Drover.Client (orDefault orDefault_pos defaultPollInterval)

variable {n : Nat}

/-! ## One call -/

/-- The inserts of an entry's loop, by tick. -/
def Caught.ticks (c : Caught n) : List (Time × Reply) := c.attempts.map fun a => (a.fire, a.reply)

/-- The inserts a call made for an entry, by tick. -/
def Pass.ticks (p : Pass n) (i : Fin n) : List (Time × Reply) :=
  (p.attempts.filter (·.entry = i)).map fun a => (a.fire, a.reply)

/-- What a call leaves when the loops of its entries end like this. -/
def Pass.of (pollInterval : Duration) (now : Time) (c : Fin n → Caught n) : Pass n where
  lastFire i := (c i).lastFire
  wait := waitFor pollInterval now ((List.finRange n).foldl (fun s i => earlier s (c i).fire) 0)
  attempts := (List.finRange n).flatMap fun i => (c i).attempts

section Call

variable {pollInterval : Duration} {periodic : Fin n → Time → Time} {fuel : Nat} {call : Call n}

theorem enqueueEntries_eq {c : Fin n → Caught n} (hgoing : ∀ i, (c i).stopped = false) :
    ∀ {entries : List (Fin n)} {lastFire : Fin n → Time} {soonest : Time}, entries.Nodup →
      (∀ i ∈ entries, catchUp call i (periodic i) fuel (lastFire i) = some (c i)) →
      enqueueEntries pollInterval periodic fuel call entries lastFire soonest =
        some
          { lastFire := fun i => if i ∈ entries then (c i).lastFire else lastFire i
            wait := waitFor pollInterval call.now
              (entries.foldl (fun s i => earlier s (c i).fire) soonest)
            attempts := entries.flatMap fun i => (c i).attempts } := by
  intro entries
  induction entries with
  | nil =>
      intro lastFire soonest _ _
      simp [enqueueEntries]
  | cons j entries ih =>
      intro lastFire soonest hnodup hcaught
      obtain ⟨hj, hnodup⟩ := List.nodup_cons.mp hnodup
      have hrest : ∀ i ∈ entries, catchUp call i (periodic i) fuel
          (Function.update lastFire j (c j).lastFire i) = some (c i) := by
        intro i hi
        have hne : i ≠ j := fun heq => hj (heq ▸ hi)
        rw [Function.update_of_ne hne]
        exact hcaught i (List.mem_cons_of_mem j hi)
      simp only [enqueueEntries, hcaught j List.mem_cons_self, Option.bind_some, hgoing j,
        Bool.false_eq_true, if_false, ih hnodup hrest, Option.map_some]
      congr 2
      funext i
      by_cases hij : i = j
      · subst hij
        simp [hj]
      · simp [hij]

/-- The loops of the entries all end when the call does. -/
theorem catchUp_of_enqueueEntries (hlive : call.Live) :
    ∀ {entries : List (Fin n)} {lastFire : Fin n → Time} {soonest : Time} {p : Pass n},
      entries.Nodup →
      enqueueEntries pollInterval periodic fuel call entries lastFire soonest = some p →
      ∀ i ∈ entries, ∃ c, catchUp call i (periodic i) fuel (lastFire i) = some c := by
  intro entries
  induction entries with
  | nil => exact fun _ _ i hi => absurd hi List.not_mem_nil
  | cons j entries ih =>
      intro lastFire soonest p hnodup h
      obtain ⟨hj, hnodup⟩ := List.nodup_cons.mp hnodup
      obtain ⟨c, hc, h⟩ := Option.bind_eq_some_iff.mp h
      rw [(catchUp_catches hlive hc).going] at h
      obtain ⟨rest, hrest, -⟩ := Option.map_eq_some_iff.mp h
      intro i hi
      rcases List.mem_cons.mp hi with rfl | hi
      · exact ⟨c, hc⟩
      · obtain ⟨c', hc'⟩ := ih hnodup hrest i hi
        have hne : i ≠ j := fun heq => hj (heq ▸ hi)
        rw [Function.update_of_ne hne] at hc'
        exact ⟨c', hc'⟩

/-- A call is the loops of its entries. -/
theorem enqueueDuePeriodic_eq_some (hlive : call.Live) {lastFire : Fin n → Time} {p : Pass n} :
    enqueueDuePeriodic pollInterval periodic fuel call lastFire = some p ↔
      ∃ c : Fin n → Caught n,
        (∀ i, catchUp call i (periodic i) fuel (lastFire i) = some (c i)) ∧
          p = Pass.of pollInterval call.now c := by
  have heq : ∀ c : Fin n → Caught n,
      (∀ i, catchUp call i (periodic i) fuel (lastFire i) = some (c i)) →
      enqueueDuePeriodic pollInterval periodic fuel call lastFire =
        some (Pass.of pollInterval call.now c) := by
    intro c hc
    have hgoing : ∀ i, (c i).stopped = false := fun i => (catchUp_catches hlive (hc i)).going
    rw [enqueueDuePeriodic, enqueueEntries_eq hgoing (List.nodup_finRange n) fun i _ => hc i]
    simp [Pass.of]
  constructor
  · intro h
    have hex := fun i => catchUp_of_enqueueEntries hlive (List.nodup_finRange n) h i
      (List.mem_finRange i)
    choose c hc using hex
    exact ⟨c, hc, Option.some.inj (h.symm.trans (heq c hc))⟩
  · rintro ⟨c, hc, rfl⟩
    exact heq c hc

/-- A call comes back once it has fuel enough. -/
theorem exists_pass (pollInterval : Duration) {fires : Fin n → Set Time} {lastFire : Fin n → Time}
    (hcontract : ∀ i, Contract (periodic i) (fires i) (lastFire i)) (hlive : call.Live) :
    ∃ (m : Nat) (p : Pass n), ∀ fuel, m ≤ fuel →
      enqueueDuePeriodic pollInterval periodic fuel call lastFire = some p := by
  obtain ⟨m, hm⟩ : ∃ m, ∀ i, (call.now - lastFire i).toNat < m := by
    obtain ⟨m, hm⟩ := Finite.exists_le fun i => (call.now - lastFire i).toNat
    exact ⟨m + 1, fun i => Nat.lt_succ_of_le (hm i)⟩
  have hex : ∀ i, ∃ c, catchUp call i (periodic i) m (lastFire i) = some c := fun i =>
    catchUp_terminates (hcontract i) le_rfl (hm i)
  choose c hc using hex
  refine ⟨m, Pass.of pollInterval call.now c, fun fuel hle => ?_⟩
  exact (enqueueDuePeriodic_eq_some hlive).mpr ⟨c, fun i => catchUp_of_le hle (hc i), rfl⟩

theorem flatMap_filter_entry {c : Fin n → Caught n} (hc : ∀ i, ∀ a ∈ (c i).attempts, a.entry = i)
    (i : Fin n) : ∀ {entries : List (Fin n)}, entries.Nodup → i ∈ entries →
      (entries.flatMap fun j => (c j).attempts).filter (·.entry = i) = (c i).attempts := by
  -- only the entry's own attempts pass the filter
  have hown : (c i).attempts.filter (·.entry = i) = (c i).attempts :=
    List.filter_eq_self.mpr fun a ha => decide_eq_true (hc i a ha)
  have hother : ∀ j, j ≠ i → (c j).attempts.filter (·.entry = i) = [] := fun j hj =>
    List.filter_eq_nil_iff.mpr fun a ha => by simp [hc j a ha, hj]
  intro entries
  induction entries with
  | nil => exact fun _ hi => absurd hi List.not_mem_nil
  | cons j entries ih =>
      intro hnodup hi
      obtain ⟨hj, hnodup⟩ := List.nodup_cons.mp hnodup
      rw [List.flatMap_cons, List.filter_append]
      by_cases hji : j = i
      · subst hji
        have hnone : (entries.flatMap fun k => (c k).attempts).filter (·.entry = j) = [] := by
          rw [List.filter_flatMap]
          exact List.flatMap_eq_nil_iff.mpr fun k hk => hother k fun heq => hj (heq ▸ hk)
        rw [hown, hnone, List.append_nil]
      · rw [hother j hji, List.nil_append]
        exact ih hnodup ((List.mem_cons.mp hi).resolve_left (Ne.symm hji))

theorem ticks_of {c : Fin n → Caught n} (hc : ∀ i, ∀ a ∈ (c i).attempts, a.entry = i) (now : Time)
    (i : Fin n) : (Pass.of pollInterval now c).ticks i = (c i).ticks := by
  rw [Pass.ticks, Caught.ticks, Pass.of,
    flatMap_filter_entry hc i (List.nodup_finRange n) (List.mem_finRange i)]

end Call

/-! ## The wait -/

section Wait

variable {now soonest fire : Time}

/-- Nothing is pending that is already due. -/
def Ahead (now fire : Time) : Prop := fire = 0 ∨ now < fire

theorem ahead_earlier : Ahead now (earlier soonest fire) ↔ Ahead now soonest ∧ Ahead now fire := by
  unfold Ahead earlier
  grind

theorem ahead_foldl {ι : Type} (f : ι → Time) : ∀ (entries : List ι) (soonest : Time),
    Ahead now (entries.foldl (fun s i => earlier s (f i)) soonest) ↔
      Ahead now soonest ∧ ∀ i ∈ entries, Ahead now (f i) := by
  intro entries
  induction entries with
  | nil => simp
  | cons j entries ih =>
      intro soonest
      rw [List.foldl_cons, ih, ahead_earlier, List.forall_mem_cons, and_assoc]

theorem waitFor_pos {pollInterval : Duration} (hpoll : 0 < pollInterval) :
    0 < waitFor pollInterval now soonest ↔ Ahead now soonest := by
  unfold waitFor Ahead Go.Time.sub
  grind

end Wait

/-- Nothing of an entry is overdue after its loop exactly when every fire that was due has been
taken. -/
theorem Catches.ahead_iff {call : Call n} {i : Fin n} {schedule : Time → Time} {last : Time}
    {c : Caught n} {fires : Set Time} (hcontract : Contract schedule fires last)
    (h : Catches call i schedule last c) :
    Ahead call.now c.fire ↔
      ∀ u ∈ fires, last < u → u ≤ call.now → (call.reply i u).advances := by
  cases h with
  | @current us w walk taken pending =>
      refine ⟨fun _ u hu hlow hhigh => (taken u ?_).2, fun _ => pending⟩
      refine (walk.mem_iff hcontract le_rfl).mpr ⟨hu, hlow, not_lt.mp fun hlt => ?_⟩
      obtain ⟨hne, hle⟩ := hcontract.le_of_fire (walk.le hcontract le_rfl) hu hlt
      exact pending.elim hne fun hpending => absurd (hle.trans hhigh) hpending.not_ge
  | @failed us w walk taken due refused =>
      constructor
      · rintro (hzero | hlater)
        · exact absurd hzero due.1
        · exact absurd due.2 hlater.not_ge
      · intro hall
        have hlow := walk.le hcontract le_rfl
        obtain ⟨hfire, hlt⟩ := hcontract.fire hlow due.1
        have htaken := hall _ hfire (hlow.trans_lt hlt) due.2
        rw [refused] at htaken
        cases htaken

/-- The duration of the timer of `waitFetch`. -/
def waitFetch (d : Duration) : Duration := if d < 0 then 0 else d

theorem waitFetch_pos {d : Duration} : 0 < waitFetch d ↔ 0 < d := by
  unfold waitFetch
  grind

/-- Every call comes back, and the wait that it returns and `waitFetch` waits is positive
exactly when the store takes every tick that is due. -/
theorem wait_pos_iff (configured : Duration) {periodic : Fin n → Time → Time}
    {fires : Fin n → Set Time} {lastFire : Fin n → Time}
    (hcontract : ∀ i, Contract (periodic i) (fires i) (lastFire i)) {call : Call n}
    (hlive : call.Live) :
    ∃ (m : Nat) (p : Pass n),
      (∀ fuel, m ≤ fuel →
        enqueueDuePeriodic (orDefault configured defaultPollInterval) periodic fuel call lastFire =
          some p) ∧
      (0 < p.wait ∧ 0 < waitFetch p.wait ↔
        ∀ i, ∀ u ∈ fires i, lastFire i < u → u ≤ call.now → (call.reply i u).advances) := by
  have hpos : 0 < orDefault configured defaultPollInterval := orDefault_pos (by decide)
  obtain ⟨m, p, hp⟩ := exists_pass (orDefault configured defaultPollInterval) hcontract hlive
  refine ⟨m, p, hp, ?_⟩
  obtain ⟨c, hc, rfl⟩ := (enqueueDuePeriodic_eq_some hlive).mp (hp m le_rfl)
  rw [waitFetch_pos, and_self, Pass.of, waitFor_pos hpos, ahead_foldl]
  constructor
  · intro h i
    exact ((catchUp_catches hlive (hc i)).ahead_iff (hcontract i)).mp (h.2 i (List.mem_finRange i))
  · intro h
    refine ⟨.inl rfl, fun i _ => ?_⟩
    exact ((catchUp_catches hlive (hc i)).ahead_iff (hcontract i)).mpr (h i)

/-- An entry that fires every ten nanoseconds. -/
def everyTen : Fin 1 → Time → Time := fun _ => Cron.everyNext 10

/-- A call at the instant 15 to which the store answers `reply`. -/
def callAtFifteen (reply : Reply) : Call 1 := ⟨15, fun _ _ => false, fun _ _ => reply⟩

theorem everyTen_wait_pos :
    ∃ (m : Nat) (p : Pass 1),
      (∀ fuel, m ≤ fuel →
        enqueueDuePeriodic (orDefault 0 defaultPollInterval) everyTen fuel
          (callAtFifteen .inserted) (fun _ => 0) = some p) ∧
      0 < p.wait := by
  have hcontract : ∀ i, Contract (everyTen i) {u | 10 ∣ u} 0 := fun _ => .every (by decide)
  have hlive : (callAtFifteen .inserted).Live := fun _ _ => rfl
  obtain ⟨m, p, hp, hwait⟩ := wait_pos_iff 0 hcontract hlive
  exact ⟨m, p, hp, (hwait.mpr fun _ _ _ _ _ => rfl).1⟩

/-- The store fails: two calls in a row insert the same tick, and the wait between them is no
wait at all. -/
theorem everyTen_spins :
    (enqueueAll (orDefault 0 defaultPollInterval) everyTen 9
      [callAtFifteen .failed, callAtFifteen .failed] fun _ => 0).map (·.map fun p => (p.ticks 0, waitFetch p.wait)) =
      some [([(10, .failed)], 0), ([(10, .failed)], 0)] := by
  decide

/-! ## Calls in a row -/

/-- The ticks that were taken. -/
def taken (ticks : List (Time × Reply)) : List Time :=
  (ticks.filter fun tick => tick.2.advances).map Prod.fst

/-- The first tick whose insert failed. -/
def refused (ticks : List (Time × Reply)) : Option Time :=
  (ticks.find? fun tick => !tick.2.advances).map Prod.fst

/-- The ticks of an entry that were taken in calls. -/
def accepted (passes : List (Pass n)) (i : Fin n) : List Time :=
  taken (passes.flatMap fun p => p.ticks i)

/-- The watermarks after the calls. -/
def watermark (start : Fin n → Time) (passes : List (Pass n)) : Fin n → Time :=
  (passes.getLast?.map Pass.lastFire).getD start

section Entry

variable {call : Call n} {i : Fin n} {schedule : Time → Time} {last : Time} {c : Caught n}

theorem taken_append (ticks ticks' : List (Time × Reply)) :
    taken (ticks ++ ticks') = taken ticks ++ taken ticks' := by
  simp [taken]

theorem ticks_attempts (us : List Time) :
    (us.map (call.attempt i)).map (fun a => (a.fire, a.reply)) =
      us.map fun u => (u, call.reply i u) :=
  List.map_map

/-- The ticks before the end of the loop were all taken. -/
theorem taken_map {us : List Time} (h : ∀ u ∈ us, u ≤ call.now ∧ (call.reply i u).advances) :
    taken (us.map fun u => (u, call.reply i u)) = us := by
  have hall : (us.map fun u => (u, call.reply i u)).filter (fun tick => tick.2.advances) =
      us.map fun u => (u, call.reply i u) := by
    refine List.filter_eq_self.mpr fun tick htick => ?_
    obtain ⟨u, hu, rfl⟩ := List.mem_map.mp htick
    exact (h u hu).2
  rw [taken, hall, List.map_map]
  exact List.map_id us

theorem refused_map {us : List Time} (h : ∀ u ∈ us, u ≤ call.now ∧ (call.reply i u).advances) :
    (us.map fun u => (u, call.reply i u)).find? (fun tick => !tick.2.advances) = none := by
  refine List.find?_eq_none.mpr fun tick htick => ?_
  obtain ⟨u, hu, rfl⟩ := List.mem_map.mp htick
  simp [(h u hu).2]

/-- The ticks an entry takes in a call lead from its watermark to the next one. -/
theorem Catches.walk (h : Catches call i schedule last c) :
    Walk (answer schedule) last (taken c.ticks) c.lastFire ∧ ∀ u ∈ taken c.ticks, u ≤ call.now := by
  cases h with
  | current us walk htaken pending =>
      rw [Caught.ticks, ticks_attempts, taken_map htaken]
      exact ⟨walk, fun u hu => (htaken u hu).1⟩
  | @failed us w walk htaken due hrefused =>
      have hticks : taken ((us.map (call.attempt i) ++ [call.attempt i (schedule w)]).map
          fun a => (a.fire, a.reply)) = us := by
        rw [List.map_append, taken_append, ticks_attempts, taken_map htaken]
        simp [taken, Call.attempt, hrefused]
      rw [Caught.ticks, hticks]
      exact ⟨walk, fun u hu => (htaken u hu).1⟩

/-- Without a failed insert nothing is overdue; a failed tick is the one the schedule gives. -/
theorem Catches.refused (h : Catches call i schedule last c) :
    (refused c.ticks = none → Ahead call.now (schedule c.lastFire)) ∧
      ∀ f, refused c.ticks = some f → schedule c.lastFire = f ∧ f ≠ 0 ∧ f ≤ call.now := by
  cases h with
  | current us walk htaken pending =>
      refine ⟨fun _ => pending, fun f hf => ?_⟩
      rw [Scheduler.refused, Caught.ticks, ticks_attempts, refused_map htaken] at hf
      cases hf
  | @failed us w walk htaken due hrefused =>
      have hfound : refused ((us.map (call.attempt i) ++ [call.attempt i (schedule w)]).map
          fun a => (a.fire, a.reply)) = some (schedule w) := by
        rw [Scheduler.refused, List.map_append, List.find?_append, ticks_attempts,
          refused_map htaken]
        simp [Call.attempt, hrefused]
      rw [Caught.ticks, hfound]
      refine ⟨fun hnone => absurd hnone (Option.some_ne_none _), fun f hf => ?_⟩
      obtain rfl := Option.some.inj hf
      exact ⟨rfl, due⟩

/-- A tick that is due is the first one that is inserted. -/
theorem Catches.head (h : Catches call i schedule last c)
    (hdue : schedule last ≠ 0 ∧ schedule last ≤ call.now) :
    c.ticks.head?.map Prod.fst = some (schedule last) := by
  cases h with
  | current us walk htaken pending =>
      cases walk with
      | nil =>
          rcases pending with hzero | hlater
          · exact absurd hzero hdue.1
          · exact absurd hdue.2 hlater.not_ge
      | cons hnext _ =>
          obtain ⟨rfl, -⟩ := answer_eq_some.mp hnext
          rfl
  | failed us walk htaken due hrefused =>
      cases walk with
      | nil => rfl
      | cons hnext _ =>
          obtain ⟨rfl, -⟩ := answer_eq_some.mp hnext
          rfl

/-- What the contract says at a watermark it says at every later one. -/
theorem Catches.contract {fires : Set Time} (hcontract : Contract schedule fires last)
    (h : Catches call i schedule last c) : Contract schedule fires c.lastFire := 
  hcontract.of_le (h.walk.1.le hcontract le_rfl)

end Entry

/-- Calls in a row as an entry sees them. -/
inductive Series (i : Fin n) (schedule : Time → Time) : Time → List (Call n) → List (Pass n) →
    Prop where
  | nil (last : Time) : Series i schedule last [] []
  | cons {last : Time} {call : Call n} {c : Caught n} {p : Pass n} {calls : List (Call n)}
      {passes : List (Pass n)} (head : Catches call i schedule last c)
      (lastFire : p.lastFire i = c.lastFire) (ticks : p.ticks i = c.ticks)
      (tail : Series i schedule c.lastFire calls passes) :
      Series i schedule last (call :: calls) (p :: passes)

section Series

variable {pollInterval : Duration} {periodic : Fin n → Time → Time}

theorem series_of_enqueueAll {fuel : Nat} : ∀ {calls : List (Call n)} {lastFire : Fin n → Time}
    {passes : List (Pass n)}, (∀ call ∈ calls, call.Live) →
    enqueueAll pollInterval periodic fuel calls lastFire = some passes →
    ∀ i, Series i (periodic i) (lastFire i) calls passes := by
  intro calls
  induction calls with
  | nil =>
      intro lastFire passes _ h i
      cases h
      exact .nil _
  | cons call calls ih =>
      intro lastFire passes hlive h i
      obtain ⟨hcall, hcalls⟩ := List.forall_mem_cons.mp hlive
      obtain ⟨p, hp, h⟩ := Option.bind_eq_some_iff.mp h
      obtain ⟨rest, hrest, rfl⟩ := Option.map_eq_some_iff.mp h
      obtain ⟨c, hc, rfl⟩ := (enqueueDuePeriodic_eq_some hcall).mp hp
      have hcatches := fun i => catchUp_catches hcall (hc i)
      exact .cons (hcatches i) rfl (ticks_of (fun j => (hcatches j).entry) call.now i)
        (ih hcalls hrest i)

/-- Calls in a row come back. -/
theorem exists_passes (pollInterval : Duration) {fires : Fin n → Set Time} :
    ∀ {calls : List (Call n)} {lastFire : Fin n → Time},
      (∀ i, Contract (periodic i) (fires i) (lastFire i)) → (∀ call ∈ calls, call.Live) →
      ∃ (m : Nat) (passes : List (Pass n)), ∀ fuel, m ≤ fuel →
        enqueueAll pollInterval periodic fuel calls lastFire = some passes := by
  intro calls
  induction calls with
  | nil => exact fun _ _ => ⟨0, [], fun _ _ => rfl⟩
  | cons call calls ih =>
      intro lastFire hcontract hlive
      obtain ⟨hcall, hcalls⟩ := List.forall_mem_cons.mp hlive
      obtain ⟨m, p, hp⟩ := exists_pass pollInterval hcontract hcall
      obtain ⟨c, hc, hof⟩ := (enqueueDuePeriodic_eq_some hcall).mp (hp m le_rfl)
      have hcontract' : ∀ i, Contract (periodic i) (fires i) (p.lastFire i) := by
        intro i
        rw [hof]
        exact (catchUp_catches hcall (hc i)).contract (hcontract i)
      obtain ⟨k, passes, hpasses⟩ := ih hcontract' hcalls
      refine ⟨max m k, p :: passes, fun fuel hfuel => ?_⟩
      rw [enqueueAll, hp fuel (le_of_max_le_left hfuel), Option.bind_some,
        hpasses fuel (le_of_max_le_right hfuel), Option.map_some]

/-- The watermark of an entry after calls. -/
theorem watermark_cons (start : Fin n → Time) (p : Pass n) (passes : List (Pass n)) :
    watermark start (p :: passes) = watermark p.lastFire passes := by
  rw [watermark, watermark, List.getLast?_cons]
  cases passes.getLast? with
  | none => rfl
  | some q => rfl

theorem watermark_eq_of_getLast? (start : Fin n → Time) {passes : List (Pass n)} {p : Pass n}
    (hp : p ∈ passes.getLast?) : watermark start passes = p.lastFire := by
  rw [watermark, hp]
  rfl

namespace Series

variable {i : Fin n} {schedule : Time → Time} {last : Time} {calls : List (Call n)}
  {passes : List (Pass n)}

/-- The ticks an entry takes over all calls lead from its watermark to the last one. -/
theorem walk (h : Series i schedule last calls passes) : ∀ start : Fin n → Time, start i = last →
    Walk (answer schedule) last (accepted passes i) (watermark start passes i) := by
  induction h with
  | nil last =>
      rintro start rfl
      exact .nil (start i)
  | @cons last call c p calls passes head lastFire ticks tail ih =>
      rintro start rfl
      rw [watermark_cons, accepted, List.flatMap_cons, taken_append, ticks]
      exact head.walk.1.append (ih p.lastFire lastFire)

/-- With a clock that does not go back, no tick is taken before its time. -/
theorem le_last (h : Series i schedule last calls passes)
    (hmono : (calls.map Call.now).Pairwise (· ≤ ·)) :
    ∀ call ∈ calls.getLast?, ∀ u ∈ accepted passes i, u ≤ call.now := by
  induction h with
  | nil last => exact fun call hcall => absurd hcall (Option.not_mem_none call)
  | @cons last call c p calls passes head lastFire ticks tail ih =>
      obtain ⟨hfirst, hmono⟩ := List.pairwise_cons.mp hmono
      intro final hfinal u hu
      rw [accepted, List.flatMap_cons, taken_append, ticks, List.mem_append] at hu
      rcases hu with hu | hu
      · refine (head.walk.2 u hu).trans ?_
        rcases List.mem_cons.mp (List.mem_of_mem_getLast? hfinal) with rfl | hmem
        · exact le_rfl
        · exact hfirst _ (List.mem_map_of_mem hmem)
      · cases calls with
        | nil =>
            cases tail
            exact absurd hu List.not_mem_nil
        | cons next calls => exact ih hmono final hfinal u hu

/-- The last of the calls. -/
theorem last_catches (h : Series i schedule last calls passes) :
    ∀ call ∈ calls.getLast?, ∀ p ∈ passes.getLast?, ∃ (prev : Time) (c : Caught n),
      Catches call i schedule prev c ∧ p.lastFire i = c.lastFire ∧ p.ticks i = c.ticks := by
  induction h with
  | nil last => exact fun call hcall => absurd hcall (Option.not_mem_none call)
  | @cons last call c p calls passes head lastFire ticks tail ih =>
      cases tail with
      | nil =>
          intro final hfinal q hq
          obtain rfl := Option.some.inj hfinal
          obtain rfl := Option.some.inj hq
          exact ⟨last, c, head, lastFire, ticks⟩
      | cons _ _ _ _ => exact ih

variable {fires : Set Time} {start : Fin n → Time} {call : Call n} {p : Pass n}

/-- If the last call had no insert that failed, every fire up to then has been taken. -/
theorem isGreatest_watermark (h : Series i schedule (start i) calls passes)
    (hcontract : Contract schedule fires (start i))
    (hmono : (calls.map Call.now).Pairwise (· ≤ ·)) (hcall : call ∈ calls.getLast?)
    (hp : p ∈ passes.getLast?) (hnone : refused (p.ticks i) = none) :
    IsGreatest {u | u = start i ∨ u ∈ fires ∧ start i < u ∧ u ≤ call.now}
      (watermark start passes i) := by
  have hwalk := h.walk start rfl
  obtain ⟨prev, c, hcatches, hlastFire, hticks⟩ := h.last_catches call hcall p hp
  have hahead := hcatches.refused.1 (hticks ▸ hnone)
  rw [← hlastFire, ← congrFun (watermark_eq_of_getLast? start hp) i] at hahead
  constructor
  · rcases hwalk.last_eq_or_mem with heq | hmem
    · exact .inl heq
    · obtain ⟨hfire, hlow, -⟩ := (hwalk.mem_iff hcontract le_rfl).mp hmem
      exact .inr ⟨hfire, hlow, h.le_last hmono call hcall _ hmem⟩
  · have hlast := hwalk.le hcontract le_rfl
    rintro u (rfl | ⟨hu, -, hhigh⟩)
    · exact hlast
    · -- a later fire that was due would still be pending
      refine not_lt.mp fun hlt => ?_
      obtain ⟨hne, hle⟩ := hcontract.le_of_fire hlast hu hlt
      exact hahead.elim hne fun hlater => absurd (hle.trans hhigh) hlater.not_ge

/-- If the last call had one, its tick is due and is what the schedule gives next. -/
theorem next_watermark (h : Series i schedule (start i) calls passes)
    (hcall : call ∈ calls.getLast?) (hp : p ∈ passes.getLast?) {f : Time}
    (hf : refused (p.ticks i) = some f) :
    schedule (watermark start passes i) = f ∧ f ≠ 0 ∧ f ≤ call.now := by
  obtain ⟨prev, c, hcatches, hlastFire, hticks⟩ := h.last_catches call hcall p hp
  obtain ⟨hnext, hne, hdue⟩ := hcatches.refused.2 f (hticks ▸ hf)
  rw [← hlastFire, ← congrFun (watermark_eq_of_getLast? start hp) i] at hnext
  exact ⟨hnext, hne, hdue⟩

end Series

/-- A call begins with the tick its entry's schedule gives next, when that is due. -/
theorem exists_pass_head (pollInterval : Duration) {fires : Fin n → Set Time}
    {lastFire : Fin n → Time} (hcontract : ∀ i, Contract (periodic i) (fires i) (lastFire i))
    {call : Call n} (hlive : call.Live) {i : Fin n}
    (hdue : periodic i (lastFire i) ≠ 0 ∧ periodic i (lastFire i) ≤ call.now) :
    ∃ (m : Nat) (q : Pass n),
      (∀ fuel, m ≤ fuel → enqueueDuePeriodic pollInterval periodic fuel call lastFire = some q) ∧
        (q.ticks i).head?.map Prod.fst = some (periodic i (lastFire i)) := by
  obtain ⟨m, q, hq⟩ := exists_pass pollInterval hcontract hlive
  refine ⟨m, q, hq, ?_⟩
  obtain ⟨c, hc, rfl⟩ := (enqueueDuePeriodic_eq_some hlive).mp (hq m le_rfl)
  have hcatches := fun j => catchUp_catches hlive (hc j)
  rw [ticks_of fun j => (hcatches j).entry, (hcatches i).head hdue]

end Series

/-! ## An entry on its own -/

/-- What a call finds, for one entry alone. -/
def Call.only (call : Call n) (i : Fin n) : Call 1 :=
  ⟨call.now, fun _ => call.done i, fun _ => call.reply i⟩

/-- The end of an entry's loop, were it the only entry. -/
def Caught.only (c : Caught n) : Caught 1 :=
  ⟨c.lastFire, c.fire, c.stopped, c.attempts.map fun a => ⟨0, a.fire, a.reply⟩⟩

section Only

variable {pollInterval : Duration} {periodic : Fin n → Time → Time} {i : Fin n} {fuel : Nat}

theorem catchUp_only (call : Call n) (schedule : Time → Time) : ∀ (fuel : Nat) (last : Time),
    catchUp (call.only i) 0 schedule fuel last =
      (catchUp call i schedule fuel last).map Caught.only := by
  intro fuel
  induction fuel with
  | zero => exact fun _ => rfl
  | succ fuel ih =>
      intro last
      rw [catchUp, catchUp]
      dsimp only
      by_cases hpending : schedule last = 0 ∨ call.now < schedule last
      · have hpending' : schedule last = 0 ∨ (call.only i).now < schedule last := hpending
        rw [if_pos hpending, if_pos hpending']
        rfl
      · have hpending' : ¬(schedule last = 0 ∨ (call.only i).now < schedule last) := hpending
        rw [if_neg hpending, if_neg hpending']
        by_cases hdone : call.done i (schedule last)
        · have hdone' : (call.only i).done 0 (schedule last) := hdone
          rw [if_pos hdone, if_pos hdone']
          rfl
        · have hdone' : ¬(call.only i).done 0 (schedule last) := hdone
          rw [if_neg hdone, if_neg hdone']
          by_cases htaken : (call.reply i (schedule last)).advances
          · have htaken' : ((call.only i).reply 0 (schedule last)).advances := htaken
            rw [if_pos htaken, if_pos htaken', ih, Option.map_map, Option.map_map]
            rfl
          · have htaken' : ¬((call.only i).reply 0 (schedule last)).advances := htaken
            rw [if_neg htaken, if_neg htaken']
            rfl

theorem ticks_only (c : Caught n) : c.only.ticks = c.ticks := List.map_map

/-- An entry is served as if it were the only one. -/
theorem enqueueAll_only : ∀ {calls : List (Call n)} {lastFire : Fin n → Time}
    {passes : List (Pass n)}, (∀ call ∈ calls, call.Live) →
    enqueueAll pollInterval periodic fuel calls lastFire = some passes →
    ∃ alone, enqueueAll pollInterval (fun _ : Fin 1 => periodic i) fuel (calls.map (·.only i))
        (fun _ => lastFire i) = some alone ∧
      List.Forall₂ (fun p q => p.lastFire i = q.lastFire 0 ∧ p.ticks i = q.ticks 0)
        passes alone := by
  intro calls
  induction calls with
  | nil =>
      intro lastFire passes _ h
      cases h
      exact ⟨[], rfl, .nil⟩
  | cons call calls ih =>
      intro lastFire passes hlive h
      obtain ⟨hcall, hcalls⟩ := List.forall_mem_cons.mp hlive
      obtain ⟨p, hp, h⟩ := Option.bind_eq_some_iff.mp h
      obtain ⟨rest, hrest, rfl⟩ := Option.map_eq_some_iff.mp h
      obtain ⟨c, hc, rfl⟩ := (enqueueDuePeriodic_eq_some hcall).mp hp
      obtain ⟨alone, halone, hrests⟩ := ih hcalls hrest
      have honly : (call.only i).Live := fun _ => hcall i
      have hcaught : ∀ j : Fin 1, catchUp (call.only i) j (periodic i) fuel (lastFire i) =
          some (c i).only := by
        intro j
        rw [Subsingleton.elim j 0, catchUp_only, hc i]
        rfl
      have hpass : enqueueDuePeriodic pollInterval (fun _ : Fin 1 => periodic i) fuel (call.only i)
          (fun _ => lastFire i) = some (Pass.of pollInterval call.now fun _ => (c i).only) :=
        (enqueueDuePeriodic_eq_some honly).mpr ⟨fun _ => (c i).only, hcaught, rfl⟩
      have hentry : ∀ j, ∀ a ∈ (c j).attempts, a.entry = j := fun j =>
        (catchUp_catches hcall (hc j)).entry
      have hentry' : ∀ j : Fin 1, ∀ a ∈ (c i).only.attempts, a.entry = j := fun j =>
        (catchUp_catches honly (hcaught j)).entry
      refine ⟨Pass.of pollInterval call.now (fun _ => (c i).only) :: alone, ?_, .cons ⟨rfl, ?_⟩ hrests⟩
      · rw [List.map_cons, enqueueAll, hpass, Option.bind_some]
        exact congrArg (Option.map _) halone
      · rw [ticks_of hentry, ticks_of hentry', ticks_only]

/-- So are calls in a row, which come back for the entry alone. -/
theorem exists_alone {fires : Set Time} {calls : List (Call n)} {lastFire : Fin n → Time}
    {passes : List (Pass n)} {m : Nat} (hcontract : Contract (periodic i) fires (lastFire i))
    (hlive : ∀ call ∈ calls, call.Live)
    (hpasses : ∀ fuel, m ≤ fuel → enqueueAll pollInterval periodic fuel calls lastFire = some passes) :
    ∃ (k : Nat) (alone : List (Pass 1)),
      (∀ fuel, k ≤ fuel → enqueueAll pollInterval (fun _ => periodic i) fuel
        (calls.map (·.only i)) (fun _ => lastFire i) = some alone) ∧
      List.Forall₂ (fun p q => p.lastFire i = q.lastFire 0 ∧ p.ticks i = q.ticks 0) passes alone := by
  have honly : ∀ call ∈ calls.map (·.only i), call.Live := by
    intro call hcall
    obtain ⟨call, hmem, rfl⟩ := List.mem_map.mp hcall
    exact fun _ => hlive call hmem i
  obtain ⟨k, alone, halone⟩ := exists_passes pollInterval (fun _ : Fin 1 => hcontract) honly
  obtain ⟨alone', halone', hsame⟩ :=
    enqueueAll_only (i := i) hlive (hpasses (max m k) (le_max_left m k))
  rw [halone (max m k) (le_max_right m k)] at halone'
  obtain rfl := Option.some.inj halone'
  exact ⟨k, alone, halone, hsame⟩

end Only

/-! ## Every tick once -/

/-- What calls in a row have done for an entry. -/
structure CaughtUp (pollInterval : Duration) (periodic : Fin n → Time → Time) (fires : Set Time)
    (start : Fin n → Time) (calls : List (Call n)) (passes : List (Pass n)) (i : Fin n) :
    Prop where
  /-- the ticks were taken in order -/
  increasing : (accepted passes i).Pairwise (· < ·)
  /-- they are the fires between the watermarks -/
  exact_fires : ∀ u, u ∈ accepted passes i ↔
    u ∈ fires ∧ start i < u ∧ u ≤ watermark start passes i
  /-- unless an insert failed in the last call, every fire up to then has been taken -/
  current : ∀ call ∈ calls.getLast?, ∀ p ∈ passes.getLast?, refused (p.ticks i) = none →
    IsGreatest {u | u = start i ∨ u ∈ fires ∧ start i < u ∧ u ≤ call.now}
      (watermark start passes i)
  /-- and if one did, the next call begins with that tick -/
  resumes : ∀ call ∈ calls.getLast?, ∀ p ∈ passes.getLast?, ∀ f, refused (p.ticks i) = some f →
    ∀ later : Call n, later.Live → call.now ≤ later.now →
      ∃ (m : Nat) (q : Pass n),
        (∀ fuel, m ≤ fuel → enqueueDuePeriodic pollInterval periodic fuel later
          (watermark start passes) = some q) ∧
        (q.ticks i).head?.map Prod.fst = some f
  /-- no other entry matters -/
  alone : ∃ (m : Nat) (alone : List (Pass 1)),
    (∀ fuel, m ≤ fuel → enqueueAll pollInterval (fun _ => periodic i) fuel
      (calls.map (·.only i)) (fun _ => start i) = some alone) ∧
    List.Forall₂ (fun p q => p.lastFire i = q.lastFire 0 ∧ p.ticks i = q.ticks 0) passes alone

/-- For all schedules that meet the contract from their entry's watermark on, whatever the store
answers in calls with a clock that does not go back: the calls come back, and every entry is
caught up. -/
theorem enqueueAll_catches_up (pollInterval : Duration) {periodic : Fin n → Time → Time}
    {fires : Fin n → Set Time} {start : Fin n → Time}
    (hcontract : ∀ i, Contract (periodic i) (fires i) (start i)) {calls : List (Call n)}
    (hlive : ∀ call ∈ calls, call.Live) (hmono : (calls.map Call.now).Pairwise (· ≤ ·)) :
    ∃ (m : Nat) (passes : List (Pass n)),
      (∀ fuel, m ≤ fuel → enqueueAll pollInterval periodic fuel calls start = some passes) ∧
        ∀ i, CaughtUp pollInterval periodic (fires i) start calls passes i := by
  obtain ⟨m, passes, hpasses⟩ := exists_passes pollInterval hcontract hlive
  have hseries := fun i => series_of_enqueueAll hlive (hpasses m le_rfl) i
  have hwalk := fun i => (hseries i).walk start rfl
  refine ⟨m, passes, hpasses, fun i => ⟨(hwalk i).pairwise (hcontract i) le_rfl,
    fun u => (hwalk i).mem_iff (hcontract i) le_rfl, ?_, ?_, exists_alone (hcontract i) hlive hpasses⟩⟩
  · intro call hcall p hp hnone
    exact (hseries i).isGreatest_watermark (hcontract i) hmono hcall hp hnone
  · intro call hcall p hp f hf later hlater hnow
    obtain ⟨rfl, hne, hdue⟩ := (hseries i).next_watermark hcall hp hf
    have hcontract' : ∀ j, Contract (periodic j) (fires j) (watermark start passes j) := fun j =>
      (hcontract j).of_le ((hwalk j).le (hcontract j) le_rfl)
    exact exists_pass_head pollInterval hcontract' hlater ⟨hne, hdue.trans hnow⟩

/-- A tick fails, and is taken in the next call with the one after it. -/
theorem everyTen_catches_up :
    ∃ (m : Nat) (passes : List (Pass 1)),
      (∀ fuel, m ≤ fuel →
        enqueueAll 1 everyTen fuel [callAtFifteen .failed, ⟨25, fun _ _ => false, fun _ _ => .duplicate⟩]
          (fun _ => 0) = some passes) ∧
        ∀ i, CaughtUp 1 everyTen {u | 10 ∣ u} (fun _ => 0)
          [callAtFifteen .failed, ⟨25, fun _ _ => false, fun _ _ => .duplicate⟩] passes i := by
  have hcontract : ∀ i, Contract (everyTen i) {u | 10 ∣ u} 0 := fun _ => .every (by decide)
  refine enqueueAll_catches_up 1 hcontract ?_ (by decide)
  intro call hcall
  rcases List.mem_cons.mp hcall with rfl | hcall
  · exact fun _ _ => rfl
  · obtain rfl := List.mem_singleton.mp hcall
    exact fun _ _ => rfl

end Drover.Scheduler
