import Mathlib.Data.List.GetD
import Mathlib.Tactic.Push
import Drover.Scheduler.CatchUp
import Drover.Scheduler.Distinct

set_option autoImplicit false

/-!
# The passes of the scheduler's runs

A pass that a client makes step by step, with the other clients, the clock and the store's
other callers in between, is one call of `enqueueDuePeriodic`: there are answers of the store
with which the call leaves the same watermarks and inserts the same ticks.  So what is proved
of calls holds of every pass in every run.

An answer is recorded under its entry and its tick.  No tick comes twice in a pass when the
schedules rise, which they do unless a location sets its clock back.
-/

namespace Drover.Scheduler

open Drover.Foundation
open Drover.Go (Time Duration)

/-! ## What a step leaves alone -/

/-- Client `n` has changed nothing of the others', and has logged at most one tick. -/
structure Frame (n : Nat) (s s' : State) : Prop where
  clients : ∀ k, k ≠ n → s'.clients k = s.clients k
  log : s'.log = s.log ∨ ∃ tick : Tick, tick.client = n ∧ s'.log = tick :: s.log

theorem frame_of_update {n : Nat} {s s' : State} {c : Client}
    (hclients : s'.clients = Function.update s.clients n c)
    (hlog : s'.log = s.log ∨ ∃ tick : Tick, tick.client = n ∧ s'.log = tick :: s.log) :
    Frame n s s' := by
  refine ⟨fun k hk => ?_, hlog⟩
  rw [hclients, Function.update_of_ne hk]

theorem frame_insertStep (s : State) (n : Nat) (now : Time) (i : Nat) (entry : Entry) (fire : Time)
    (ok : Bool) : Frame n s (insertStep s n now i entry fire ok) := by
  refine frame_of_update rfl ?_
  unfold insertStep
  dsimp only
  split
  · exact .inr ⟨_, rfl, rfl⟩
  · exact .inl rfl

theorem clientStep_frame {cfg : Config} {s s' : State} {n : Nat} {how : ClientStep}
    (h : clientStep cfg s n how = some s') : Frame n s s' := by
  unfold clientStep at h
  dsimp only at h
  repeat' split at h
  all_goals cases h
  all_goals first
    | exact frame_insertStep _ _ _ _ _ _ _
    | exact frame_of_update rfl (.inl rfl)

/-- The ticks of an entry that a client has inserted, the last one first. -/
def State.inserted (s : State) (n : Nat) (id : Bytes) : List Time :=
  (s.log.filter fun tick => tick.client = n ∧ tick.id = id).map Tick.fire

/-- A step that is not the client's own is nothing to it. -/
theorem next_of_other {cfg : Config} (s : State) {n : Nat} {label : Label}
    (hother : ∀ how, label ≠ .client n how) :
    (next cfg s label).clients n = s.clients n ∧
      ∀ id, (next cfg s label).inserted n id = s.inserted n id := by
  cases label with
  | client k how =>
      have hne : n ≠ k := fun heq => hother how (by rw [heq])
      unfold next
      cases hstep : step cfg s (.client k how) with
      | none => exact ⟨rfl, fun _ => rfl⟩
      | some s' =>
          obtain ⟨hclients, hlog⟩ := clientStep_frame hstep
          refine ⟨hclients n hne, fun id => ?_⟩
          change s'.inserted n id = s.inserted n id
          unfold State.inserted
          rcases hlog with hlog | ⟨tick, hclient, hlog⟩
          · rw [hlog]
          · have hnot : ¬(tick.client = n ∧ tick.id = id) := fun h => hne (h.1 ▸ hclient)
            rw [hlog, List.filter_cons_of_neg (by simpa using hnot)]
  | tick d => exact ⟨rfl, fun _ => rfl⟩
  | die => exact ⟨rfl, fun _ => rfl⟩
  | outside op => exact ⟨rfl, fun _ => rfl⟩

/-! ## The steps of a pass -/

/-- The steps a client can take at entry `i` of a pass. -/
inductive PassStep (cfg : Config) (s : State) (n : Nat) (now : Time) (i : Nat) : State → Prop where
  | quit :
      PassStep cfg s n now i
        { s with
          clients := Function.update s.clients n
            { s.clients n with pc := .exited, leaderConn := none } }
  | ends (hnone : cfg.due (s.clients n) i = none) :
      PassStep cfg s n now i
        { s with clients := Function.update s.clients n { s.clients n with pc := .waiting } }
  | skip {entry : Entry} {fire : Time} (hdue : cfg.due (s.clients n) i = some (entry, fire))
      (hpending : fire = 0 ∨ now < fire) :
      PassStep cfg s n now i
        { s with
          clients := Function.update s.clients n { s.clients n with pc := .pass now (i + 1) } }
  | insert {entry : Entry} {fire : Time} (ok : Bool)
      (hdue : cfg.due (s.clients n) i = some (entry, fire)) (hne : fire ≠ 0) (hle : fire ≤ now) :
      PassStep cfg s n now i (insertStep s n now i entry fire ok)

theorem clientStep_pass {cfg : Config} {s s' : State} {n : Nat} {how : ClientStep} {now : Time}
    {i : Nat} (hpc : (s.clients n).pc = .pass now i) (h : clientStep cfg s n how = some s') :
    PassStep cfg s n now i s' := by
  unfold clientStep at h
  dsimp only at h
  rw [hpc] at h
  cases how with
  | quit =>
      cases h
      exact .quit
  | go =>
      simp only at h
      split at h
      · rename_i hnone
        cases h
        exact .ends hnone
      · rename_i entry fire hdue
        split at h
        · rename_i hpending
          cases h
          exact .skip hdue hpending
        · cases h
  | insert ok =>
      simp only at h
      split at h
      · cases h
      · rename_i entry fire hdue
        split at h
        · cases h
        · rename_i hnot
          cases h
          rw [not_or, not_lt] at hnot
          exact .insert ok hdue hnot.1 hnot.2
  | ping ok => cases h
  | lock held => cases h
  | fail => cases h

/-- The schedules of the entries. -/
def Config.schedules (cfg : Config) (i : Fin cfg.periodic.length) (t : Time) : Time :=
  (cfg.periodic.get i).schedule.next t

/-- The id of an entry's job. -/
def Config.idOf (cfg : Config) (i : Fin cfg.periodic.length) : Bytes := (cfg.periodic.get i).job.id

/-- The watermarks of a client. -/
def Client.marks {m : Nat} (c : Client) (i : Fin m) : Time := c.lastFire.getD i 0

section Due

variable {cfg : Config} {c : Client}

/-- An entry that a pass is at, and the instant its schedule gives after its watermark. -/
theorem due_of_lt (hlength : c.lastFire.length = cfg.periodic.length)
    (i : Fin cfg.periodic.length) :
    cfg.due c i = some (cfg.periodic.get i, cfg.schedules i (c.marks i)) := by
  have hi : (i : Nat) < c.lastFire.length := by
    rw [hlength]
    exact i.isLt
  unfold Config.due Config.schedules Client.marks
  rw [List.getElem?_eq_getElem i.isLt, List.getElem?_eq_getElem hi, List.getD_eq_getElem _ _ hi]
  rfl

theorem length_le_of_due_none (hlength : c.lastFire.length = cfg.periodic.length) {k : Nat}
    (hnone : cfg.due c k = none) : cfg.periodic.length ≤ k := by
  by_contra hlt
  rw [due_of_lt hlength ⟨k, not_le.mp hlt⟩] at hnone
  cases hnone

theorem due_eq (hlength : c.lastFire.length = cfg.periodic.length) {k : Nat} {entry : Entry}
    {fire : Time} (hdue : cfg.due c k = some (entry, fire)) :
    ∃ i : Fin cfg.periodic.length, (i : Nat) = k ∧ entry = cfg.periodic.get i ∧
      fire = cfg.schedules i (c.marks i) := by
  have hk : k < cfg.periodic.length := by
    by_contra hge
    unfold Config.due at hdue
    rw [List.getElem?_eq_none (not_lt.mp hge)] at hdue
    cases hdue
  rw [due_of_lt hlength ⟨k, hk⟩] at hdue
  cases hdue
  exact ⟨⟨k, hk⟩, rfl, rfl, rfl⟩

end Due

theorem Config.idOf_inj {cfg : Config} {i j : Fin cfg.periodic.length}
    (h : cfg.idOf i = cfg.idOf j) : i = j :=
  Fin.ext (cfg.index_unique (List.getElem?_eq_getElem i.isLt) (List.getElem?_eq_getElem j.isLt) h)

/-! ## Answers of the store -/

/-- The ticks that gave a row. -/
def insertedTicks (ticks : List (Time × Reply)) : List Time :=
  (ticks.filter (·.2 = .inserted)).map Prod.fst

theorem insertedTicks_append (ticks ticks' : List (Time × Reply)) :
    insertedTicks (ticks ++ ticks') = insertedTicks ticks ++ insertedTicks ticks' := by
  rw [insertedTicks, List.filter_append, List.map_append]
  rfl

/-- What the turn of a pass that inserts a tick does, by the store's answer. -/
theorem insertStep_reply (s : State) (n : Nat) (now : Time) (i : Nat) (entry : Entry) (fire : Time)
    (ok : Bool) :
    ∃ reply : Reply,
      (insertStep s n now i entry fire ok).clients n =
          (if reply.advances then
            { s.clients n with lastFire := (s.clients n).lastFire.set i fire }
          else { s.clients n with pc := .pass now (i + 1) }) ∧
        ∀ id, (insertStep s n now i entry fire ok).inserted n id =
          (if id = entry.job.id then insertedTicks [(fire, reply)] else []) ++ s.inserted n id := by
  have hadvance := @advance_of_inserted s.db s.clock fire entry ok
  unfold insertStep State.inserted
  generalize insertPeriodicTick s.db s.clock entry fire ok = result at hadvance
  obtain ⟨db, inserted, advance⟩ := result
  cases inserted with
  | true =>
      obtain rfl : advance = true := hadvance rfl
      refine ⟨.inserted, Function.update_self _ _ _, fun id => ?_⟩
      by_cases hid : id = entry.job.id
      · simp [hid, insertedTicks]
      · simp [hid, Ne.symm hid]
  | false =>
      have hnone : ∀ id : Bytes, ∀ times : List Time,
          (if id = entry.job.id then ([] : List Time) else []) ++ times = times := by
        intro id times
        rw [ite_self, List.nil_append]
      cases advance with
      | true => exact ⟨.duplicate, Function.update_self _ _ _, fun id => (hnone id _).symm⟩
      | false => exact ⟨.failed, Function.update_self _ _ _, fun id => (hnone id _).symm⟩

section Call

variable {m : Nat}

/-- A call in which the store answers an insert of entry `i` like this. -/
def Call.answered (call : Call m) (i : Fin m) (fire : Time) (reply : Reply) : Call m :=
  { call with reply := Function.update call.reply i (Function.update (call.reply i) fire reply) }

variable {call call' : Call m} {i j : Fin m} {fire u : Time} {reply : Reply}

theorem reply_answered : (call.answered i fire reply).reply i fire = reply := by
  simp [Call.answered]

theorem reply_answered_of_ne (h : u ≠ fire) :
    (call.answered i fire reply).reply i u = call.reply i u := by
  simp [Call.answered, h]

theorem reply_answered_of_entry_ne (h : j ≠ i) :
    (call.answered i fire reply).reply j = call.reply j := by
  simp [Call.answered, h]

variable {schedule : Time → Time} {last w : Time} {c : Caught m} {us : List Time}

/-- How the loop of an entry ends depends on the answers to its own inserts alone. -/
theorem Catches.congr (hnow : call'.now = call.now) (hreply : call'.reply i = call.reply i)
    (h : Catches call i schedule last c) : Catches call' i schedule last c := by
  have hattempt : call.attempt i = call'.attempt i := by
    funext u
    rw [Call.attempt, Call.attempt, hreply]
  cases h with
  | current us walk taken pending =>
      rw [hattempt]
      rw [← hnow, ← hreply] at taken
      exact .current us walk taken (hnow ▸ pending)
  | failed us walk taken due refused =>
      rw [hattempt]
      rw [← hnow, ← hreply] at taken
      exact .failed us walk taken (hnow ▸ due) (hreply ▸ refused)

/-- The loop goes along the ticks that are taken. -/
theorem catchUp_walk (hlive : call.Live) (hwalk : Walk (answer schedule) last us w)
    (htaken : ∀ u ∈ us, u ≤ call.now ∧ (call.reply i u).advances) (fuel : Nat) :
    catchUp call i schedule (fuel + us.length) last =
      (catchUp call i schedule fuel w).map fun c =>
        { c with attempts := us.map (call.attempt i) ++ c.attempts } := by
  induction hwalk with
  | nil a =>
      cases hend : catchUp call i schedule fuel a with
      | none => rfl
      | some c => rfl
  | @cons a b w us hnext tail ih =>
      obtain ⟨rfl, hne⟩ := answer_eq_some.mp hnext
      obtain ⟨⟨hdue, htaken⟩, hrest⟩ := List.forall_mem_cons.mp htaken
      have hpending : ¬(schedule a = 0 ∨ call.now < schedule a) := by
        rw [not_or, not_lt]
        exact ⟨hne, hdue⟩
      rw [List.length_cons, ← Nat.add_assoc, catchUp]
      simp only [if_neg hpending, hlive i, Bool.false_eq_true, if_false, htaken, if_true, ih hrest,
        Option.map_map]
      rfl

/-- An end of an entry's loop is one the loop comes to. -/
theorem Catches.exists_catchUp (hlive : call.Live) (h : Catches call i schedule last c) :
    ∃ fuel, catchUp call i schedule fuel last = some c := by
  cases h with
  | current us walk taken pending =>
      refine ⟨1 + us.length, ?_⟩
      rw [catchUp_walk hlive walk taken, catchUp]
      simp [pending]
  | @failed us w walk taken due refused =>
      have hpending : ¬(schedule w = 0 ∨ call.now < schedule w) := by
        rw [not_or, not_lt]
        exact due
      refine ⟨1 + us.length, ?_⟩
      rw [catchUp_walk hlive walk taken, catchUp]
      simp [hpending, hlive i, refused, Call.attempt]

end Call

/-! ## A pass under way -/

/-- Since `s₀`, these inserts have been made for an entry. -/
def Gained (n : Nat) (id : Bytes) (s₀ s : State) (ticks : List (Time × Reply)) : Prop :=
  s.inserted n id = (insertedTicks ticks).reverse ++ s₀.inserted n id

theorem Gained.other {n : Nat} {id : Bytes} {s₀ s s' : State} {ticks : List (Time × Reply)}
    (h : Gained n id s₀ s ticks) (h' : s'.inserted n id = s.inserted n id) :
    Gained n id s₀ s' ticks :=
  h'.trans h

theorem Gained.concat {n : Nat} {id : Bytes} {s₀ s s' : State} {ticks : List (Time × Reply)}
    {fire : Time} {reply : Reply} (h : Gained n id s₀ s ticks)
    (h' : s'.inserted n id = insertedTicks [(fire, reply)] ++ s.inserted n id) :
    Gained n id s₀ s' (ticks ++ [(fire, reply)]) := by
  have hone : (insertedTicks [(fire, reply)]).reverse = insertedTicks [(fire, reply)] := by
    cases reply <;> rfl
  rw [Gained, h', h, insertedTicks_append, List.reverse_append, hone, List.append_assoc]

/-- Client `n` is at entry `k` of the pass it began at `s₀`, and the store has answered as in
`call`: the loops of the entries before have ended, and that of entry `k` has gone along
ticks that were taken. -/
structure Underway (cfg : Config) (n : Nat) (s₀ : State) (call : Call cfg.periodic.length) (k : Nat)
    (s : State) : Prop where
  live : call.Live
  pc : (s.clients n).pc = .pass call.now k
  length : (s.clients n).lastFire.length = cfg.periodic.length
  ended : ∀ i : Fin cfg.periodic.length, (i : Nat) < k →
    ∃ c, Catches call i (cfg.schedules i) ((s₀.clients n).marks i) c ∧
      (s.clients n).marks i = c.lastFire ∧ Gained n (cfg.idOf i) s₀ s c.ticks
  here : ∀ i : Fin cfg.periodic.length, (i : Nat) = k →
    ∃ us, Walk (answer (cfg.schedules i)) ((s₀.clients n).marks i) us ((s.clients n).marks i) ∧
      (∀ u ∈ us, u ≤ call.now ∧ (call.reply i u).advances) ∧
      Gained n (cfg.idOf i) s₀ s (us.map fun u => (u, call.reply i u))
  left : ∀ i : Fin cfg.periodic.length, k < (i : Nat) →
    (s.clients n).marks i = (s₀.clients n).marks i ∧ Gained n (cfg.idOf i) s₀ s []

theorem underway_start {cfg : Config} {n : Nat} {s : State} {now : Time}
    (hpc : (s.clients n).pc = .pass now 0)
    (hlength : (s.clients n).lastFire.length = cfg.periodic.length) :
    Underway cfg n s ⟨now, fun _ _ => false, fun _ _ => .failed⟩ 0 s where
  live := fun _ _ => rfl
  pc := hpc
  length := hlength
  ended := fun i hi => absurd hi (Nat.not_lt_zero i)
  here := fun _ _ => ⟨[], .nil _, fun _ hu => absurd hu List.not_mem_nil, rfl⟩
  left := fun _ _ => ⟨rfl, rfl⟩

namespace Underway

variable {cfg : Config} {n : Nat} {s₀ s s' : State} {call : Call cfg.periodic.length} {k : Nat}
  {i : Fin cfg.periodic.length} {fire : Time} {reply : Reply}

/-- Steps of others do not show. -/
theorem other (h : Underway cfg n s₀ call k s) (hclient : s'.clients n = s.clients n)
    (hinserted : ∀ id, s'.inserted n id = s.inserted n id) : Underway cfg n s₀ call k s' := by
  obtain ⟨live, pc, length, ended, here, left⟩ := h
  simp only [Gained, ← hclient, ← hinserted] at pc length ended here left
  exact ⟨live, pc, length, ended, here, left⟩

/-- The answer to the insert that comes next can be any. -/
theorem answered (h : Underway cfg n s₀ call k s)
    (hrises : ∀ t, cfg.schedules i t ≠ 0 → t < cfg.schedules i t) (hi : (i : Nat) = k)
    (hfire : (s.clients n).marks i < fire) (reply : Reply) :
    Underway cfg n s₀ (call.answered i fire reply) k s where
  live := h.live
  pc := h.pc
  length := h.length
  ended := by
    intro j hj
    obtain ⟨c, hcatches, hrest⟩ := h.ended j hj
    have hne : j ≠ i := by
      rintro rfl
      omega
    have hnow : (call.answered i fire reply).now = call.now := rfl
    exact ⟨c, hcatches.congr hnow (reply_answered_of_entry_ne hne), hrest⟩
  here := by
    intro j hj
    obtain rfl : j = i := Fin.ext (hj.trans hi.symm)
    obtain ⟨us, hwalk, htaken, hgained⟩ := h.here j hj
    have hrises' : ∀ a b, answer (cfg.schedules j) a = some b → a < b := by
      intro a b hnext
      obtain ⟨rfl, hne⟩ := answer_eq_some.mp hnext
      exact hrises a hne
    -- the ticks so far are earlier ones
    have hreply : ∀ u ∈ us, (call.answered j fire reply).reply j u = call.reply j u := by
      intro u hu
      exact reply_answered_of_ne (((hwalk.le_of_rises hrises').2 u hu).trans_lt hfire).ne
    refine ⟨us, hwalk, fun u hu => ?_, ?_⟩
    · rw [hreply u hu]
      exact htaken u hu
    · rw [List.map_congr_left fun u hu => by rw [hreply u hu]]
      exact hgained
  left := h.left

/-- The loop of entry `k` has ended. -/
theorem close (h : Underway cfg n s₀ call k s) (hi : (i : Nat) = k) {c : Caught cfg.periodic.length}
    (hcatches : Catches call i (cfg.schedules i) ((s₀.clients n).marks i) c)
    (hmark : (s.clients n).marks i = c.lastFire) (hgained : Gained n (cfg.idOf i) s₀ s' c.ticks)
    (hclient : s'.clients n = { s.clients n with pc := .pass call.now (k + 1) })
    (hothers : ∀ j, j ≠ i → s'.inserted n (cfg.idOf j) = s.inserted n (cfg.idOf j)) :
    Underway cfg n s₀ call (k + 1) s' := by
  have hmarks : ∀ j : Fin cfg.periodic.length, (s'.clients n).marks j = (s.clients n).marks j := by
    intro j
    rw [hclient]
    rfl
  refine ⟨h.live, by rw [hclient], by rw [hclient]; exact h.length, fun j hj => ?_, fun j hj => ?_,
    fun j hj => ?_⟩
  · rw [hmarks]
    by_cases hji : j = i
    · subst hji
      exact ⟨c, hcatches, hmark, hgained⟩
    · have hne : (j : Nat) ≠ i := fun heq => hji (Fin.ext heq)
      obtain ⟨c', hcatches', hmark', hgained'⟩ := h.ended j (by omega)
      exact ⟨c', hcatches', hmark', hgained'.other (hothers j hji)⟩
  · have hji : j ≠ i := by
      rintro rfl
      omega
    obtain ⟨hsame, hnothing⟩ := h.left j (by omega)
    rw [hmarks, hsame]
    exact ⟨[], .nil _, fun _ hu => absurd hu List.not_mem_nil, hnothing.other (hothers j hji)⟩
  · have hji : j ≠ i := by
      rintro rfl
      omega
    obtain ⟨hsame, hnothing⟩ := h.left j (by omega)
    exact ⟨(hmarks j).trans hsame, hnothing.other (hothers j hji)⟩

/-- Nothing more of the entry is due. -/
theorem skip (h : Underway cfg n s₀ call k s) (hi : (i : Nat) = k)
    (hpending : cfg.schedules i ((s.clients n).marks i) = 0 ∨
      call.now < cfg.schedules i ((s.clients n).marks i))
    (hclient : s'.clients n = { s.clients n with pc := .pass call.now (k + 1) })
    (hinserted : ∀ id, s'.inserted n id = s.inserted n id) :
    Underway cfg n s₀ call (k + 1) s' := by
  obtain ⟨us, hwalk, htaken, hgained⟩ := h.here i hi
  refine h.close hi (.current us hwalk htaken hpending) rfl ?_ hclient fun j _ => hinserted _
  rw [Caught.ticks, List.map_map]
  exact hgained.other (hinserted _)

/-- The insert of a tick fails. -/
theorem refused (h : Underway cfg n s₀ call k s) (hi : (i : Nat) = k)
    (hfire : cfg.schedules i ((s.clients n).marks i) = fire) (hne : fire ≠ 0)
    (hle : fire ≤ call.now) (hrefused : (call.reply i fire).advances = false)
    (hclient : s'.clients n = { s.clients n with pc := .pass call.now (k + 1) })
    (hinserted : ∀ id, s'.inserted n id =
      (if id = cfg.idOf i then insertedTicks [(fire, call.reply i fire)] else []) ++
        s.inserted n id) :
    Underway cfg n s₀ call (k + 1) s' := by
  subst hfire
  obtain ⟨us, hwalk, htaken, hgained⟩ := h.here i hi
  refine h.close hi (.failed us hwalk htaken ⟨hne, hle⟩ hrefused) rfl ?_ hclient fun j hj => ?_
  · rw [Caught.ticks, List.map_append, List.map_map]
    refine hgained.concat ?_
    rw [hinserted, if_pos rfl]
    rfl
  · have hid : cfg.idOf j ≠ cfg.idOf i := fun heq => hj (Config.idOf_inj heq)
    rw [hinserted, if_neg hid, List.nil_append]

/-- A tick is taken. -/
theorem taken (h : Underway cfg n s₀ call k s) (hi : (i : Nat) = k)
    (hfire : cfg.schedules i ((s.clients n).marks i) = fire) (hne : fire ≠ 0)
    (hle : fire ≤ call.now) (htaken : (call.reply i fire).advances = true)
    (hclient : s'.clients n =
      { s.clients n with lastFire := (s.clients n).lastFire.set k fire })
    (hinserted : ∀ id, s'.inserted n id =
      (if id = cfg.idOf i then insertedTicks [(fire, call.reply i fire)] else []) ++
        s.inserted n id) :
    Underway cfg n s₀ call k s' := by
  have hk : k < (s.clients n).lastFire.length := by
    rw [h.length, ← hi]
    exact i.isLt
  have hmark : (s'.clients n).marks i = fire := by
    rw [hclient, Client.marks, hi]
    simp [List.getD, hk]
  have hmarks : ∀ j : Fin cfg.periodic.length, (j : Nat) ≠ k →
      (s'.clients n).marks j = (s.clients n).marks j := by
    intro j hj
    rw [hclient, Client.marks, Client.marks]
    simp [List.getD, hj.symm]
  have hothers : ∀ j : Fin cfg.periodic.length, (j : Nat) ≠ k →
      s'.inserted n (cfg.idOf j) = s.inserted n (cfg.idOf j) := by
    intro j hj
    have hid : cfg.idOf j ≠ cfg.idOf i := fun heq => hj (Config.idOf_inj heq ▸ hi)
    rw [hinserted, if_neg hid, List.nil_append]
  refine ⟨h.live, by rw [hclient]; exact h.pc, ?_, fun j hj => ?_, fun j hj => ?_, fun j hj => ?_⟩
  · rw [hclient]
    exact List.length_set.trans h.length
  · obtain ⟨c, hcatches, hend, hgained⟩ := h.ended j hj
    exact ⟨c, hcatches, (hmarks j hj.ne).trans hend, hgained.other (hothers j hj.ne)⟩
  · obtain rfl : j = i := Fin.ext (hj.trans hi.symm)
    obtain ⟨us, hwalk, hus, hgained⟩ := h.here j hj
    refine ⟨us ++ [fire], ?_, fun u hu => ?_, ?_⟩
    · rw [hmark]
      exact hwalk.append (.cons (answer_eq_some.mpr ⟨hfire, hne⟩) (.nil fire))
    · rcases List.mem_append.mp hu with hu | hu
      · exact hus u hu
      · obtain rfl := List.mem_singleton.mp hu
        exact ⟨hle, htaken⟩
    · rw [List.map_append]
      refine hgained.concat ?_
      rw [hinserted, if_pos rfl]
  · obtain ⟨hsame, hnothing⟩ := h.left j hj
    exact ⟨(hmarks j hj.ne').trans hsame, hnothing.other (hothers j hj.ne')⟩

theorem insertStep (h : Underway cfg n s₀ call k s)
    (hrises : ∀ i t, cfg.schedules i t ≠ 0 → t < cfg.schedules i t) {entry : Entry} (ok : Bool)
    (hdue : cfg.due (s.clients n) k = some (entry, fire)) (hne : fire ≠ 0) (hle : fire ≤ call.now) :
    ∃ call' k', call'.now = call.now ∧
      Underway cfg n s₀ call' k' (Scheduler.insertStep s n call.now k entry fire ok) := by
  obtain ⟨i, hi, rfl, rfl⟩ := due_eq h.length hdue
  obtain ⟨reply, hclient, hinserted⟩ := insertStep_reply s n call.now k (cfg.periodic.get i)
    (cfg.schedules i ((s.clients n).marks i)) ok
  have hcall := h.answered (hrises i) hi (hrises i _ hne) reply
  refine ⟨call.answered i (cfg.schedules i ((s.clients n).marks i)) reply, ?_⟩
  rw [← @reply_answered _ call i (cfg.schedules i ((s.clients n).marks i)) reply] at hclient hinserted
  split at hclient
  · rename_i htaken
    exact ⟨k, rfl, hcall.taken hi rfl hne hle htaken hclient hinserted⟩
  · rename_i hrefused
    exact ⟨k + 1, rfl, hcall.refused hi rfl hne hle (Bool.eq_false_iff.mpr hrefused) hclient hinserted⟩

/-- What a step of a run does to a pass: it goes on, or the client exits, or all entries have
been seen to. -/
theorem next (h : Underway cfg n s₀ call k s)
    (hrises : ∀ i t, cfg.schedules i t ≠ 0 → t < cfg.schedules i t) (label : Label) :
    (∃ call' k', call'.now = call.now ∧
        Underway cfg n s₀ call' k' (Scheduler.next cfg s label)) ∨
      ((Scheduler.next cfg s label).clients n).pc = .exited ∨
      cfg.periodic.length ≤ k ∧
        (Scheduler.next cfg s label).clients n = { s.clients n with pc := .waiting } ∧
        (Scheduler.next cfg s label).log = s.log := by
  by_cases hother : ∀ how, label ≠ .client n how
  · obtain ⟨hclient, hinserted⟩ := @next_of_other cfg s n label hother
    exact .inl ⟨call, k, rfl, h.other hclient hinserted⟩
  · push Not at hother
    obtain ⟨how, rfl⟩ := hother
    unfold Scheduler.next
    cases hstep : step cfg s (.client n how) with
    | none => exact .inl ⟨call, k, rfl, h⟩
    | some s' =>
        dsimp only [Option.getD_some]
        cases clientStep_pass h.pc hstep with
        | quit => exact .inr (.inl (by simp))
        | ends hnone =>
            exact .inr (.inr ⟨length_le_of_due_none h.length hnone, Function.update_self _ _ _, rfl⟩)
        | skip hdue hpending =>
            obtain ⟨i, hi, -, rfl⟩ := due_eq h.length hdue
            exact .inl ⟨call, k + 1, rfl, h.skip hi hpending (Function.update_self _ _ _)
              fun _ => rfl⟩
        | insert ok hdue hne hle => exact .inl (h.insertStep hrises ok hdue hne hle)

/-- A run that does not leave the pass. -/
theorem run (hrises : ∀ i t, cfg.schedules i t ≠ 0 → t < cfg.schedules i t) {now : Time} :
    ∀ {labels : List Label} {s : State} {call : Call cfg.periodic.length} {k : Nat},
      call.now = now → Underway cfg n s₀ call k s →
      Along (Scheduler.next cfg) (fun s => ∃ i, (s.clients n).pc = .pass now i) s labels →
      ∃ call' k', call'.now = now ∧
        Underway cfg n s₀ call' k' (Foundation.run (Scheduler.next cfg) s labels) := by
  intro labels
  induction labels with
  | nil => exact fun hnow h _ => ⟨_, _, hnow, h⟩
  | cons label labels ih =>
      intro s call k hnow h halong
      obtain ⟨i, hpc⟩ := halong.2.head
      rcases h.next hrises label with ⟨call', k', hnow', h'⟩ | hexited | ⟨-, hwaiting, -⟩
      · exact ih (hnow'.trans hnow) h' halong.2
      · rw [hexited] at hpc
        cases hpc
      · rw [hwaiting] at hpc
        cases hpc

/-- When all entries have been seen to, their loops are a call of `enqueueDuePeriodic`. -/
theorem enqueues (h : Underway cfg n s₀ call k s) (hall : cfg.periodic.length ≤ k)
    (pollInterval : Duration) :
    ∃ (p : Pass cfg.periodic.length) (m : Nat),
      (∀ fuel, m ≤ fuel → enqueueDuePeriodic pollInterval cfg.schedules fuel call
        (s₀.clients n).marks = some p) ∧
      ∀ i, (s.clients n).marks i = p.lastFire i ∧ Gained n (cfg.idOf i) s₀ s (p.ticks i) := by
  choose c hcatches hmark hgained using fun i => h.ended i (i.isLt.trans_le hall)
  choose fuels hfuels using fun i => (hcatches i).exists_catchUp h.live
  obtain ⟨m, hm⟩ := Finite.exists_le fuels
  refine ⟨Pass.of pollInterval call.now c, m, fun fuel hfuel => ?_, fun i => ⟨hmark i, ?_⟩⟩
  · exact (enqueueDuePeriodic_eq_some h.live).mpr
      ⟨c, fun i => catchUp_of_le ((hm i).trans hfuel) (hfuels i), rfl⟩
  · rw [ticks_of fun j => (hcatches j).entry]
    exact hgained i

end Underway

/-! ## Every pass of every run -/

/-- A client has a watermark for each entry, once it has started. -/
def Config.Equipped (cfg : Config) (c : Client) : Prop :=
  c.pc = .idle ∨ c.lastFire.length = cfg.periodic.length

theorem length_insertStep (s : State) (n : Nat) (now : Time) (i : Nat) (entry : Entry) (fire : Time)
    (ok : Bool) :
    ((insertStep s n now i entry fire ok).clients n).lastFire.length =
      (s.clients n).lastFire.length := by
  obtain ⟨reply, hclient, -⟩ := insertStep_reply s n now i entry fire ok
  rw [hclient]
  split
  · exact List.length_set
  · rfl

theorem length_clientStep {cfg : Config} {s s' : State} {n : Nat} {how : ClientStep}
    (h : cfg.Equipped (s.clients n)) (hstep : clientStep cfg s n how = some s') :
    (s'.clients n).lastFire.length = cfg.periodic.length := by
  by_cases hidle : (s.clients n).pc = .idle
  · unfold clientStep at hstep
    dsimp only at hstep
    rw [hidle] at hstep
    cases how <;> cases hstep
    simp
  · have hlength := h.resolve_left hidle
    unfold clientStep at hstep
    dsimp only at hstep
    repeat' split at hstep
    all_goals cases hstep
    all_goals first
      | exact (length_insertStep _ _ _ _ _ _ _).trans hlength
      | simp [hlength]

theorem equipped_next {cfg : Config} (s : State) (label : Label)
    (h : ∀ n, cfg.Equipped (s.clients n)) (n : Nat) : cfg.Equipped ((next cfg s label).clients n) := by
  by_cases hother : ∀ how, label ≠ .client n how
  · rw [(@next_of_other cfg s n label hother).1]
    exact h n
  · push Not at hother
    obtain ⟨how, rfl⟩ := hother
    unfold next
    cases hstep : step cfg s (.client n how) with
    | none => exact h n
    | some s' => exact .inr (length_clientStep (h n) hstep)

/-- The schedules rise unless the clock is set back where they are asked. -/
theorem schedules_rise {cfg : Config}
    (hforward : ∀ entry ∈ cfg.periodic, ∀ t, ¬entry.schedule.Repeats t)
    (i : Fin cfg.periodic.length) (t : Time) (hne : cfg.schedules i t ≠ 0) :
    t < cfg.schedules i t := by
  have hmem : cfg.periodic.get i ∈ cfg.periodic := List.get_mem cfg.periodic i
  exact Cron.lt_next_of_not_repeats (parseIn_of_checkJobs cfg.checked hmem) (hforward _ hmem t) hne

/-- In every run of any clients, a pass that a client goes through to its end is a call of
`enqueueDuePeriodic`, for the clock reading it began with and for answers of the store that are
the same for every `pollInterval` and fuel: it leaves the client's watermarks as the pass did, and
what it reports as inserted is what the pass has inserted. -/
theorem pass_enqueues (cfg : Config)
    (hforward : ∀ entry ∈ cfg.periodic, ∀ t, ¬entry.schedule.Repeats t) (db : Memdriver.Driver)
    (clock : Time) (before labels : List Label) (last : Label) (n : Nat) (now : Time)
    (hpc : ((run (next cfg) (start db clock) before).clients n).pc = .pass now 0)
    (hpass : Along (next cfg) (fun s => ∃ i, (s.clients n).pc = .pass now i)
      (run (next cfg) (start db clock) before) labels)
    (hend : ((run (next cfg) (start db clock) (before ++ labels ++ [last])).clients n).pc = .waiting) :
    ∃ call : Call cfg.periodic.length, call.now = now ∧ call.Live ∧ ∀ pollInterval,
      ∃ (p : Pass cfg.periodic.length) (m : Nat),
        (∀ fuel, m ≤ fuel → enqueueDuePeriodic pollInterval cfg.schedules fuel call
          ((run (next cfg) (start db clock) before).clients n).marks = some p) ∧
        ∀ i, ((run (next cfg) (start db clock) (before ++ labels ++ [last])).clients n).marks i =
            p.lastFire i ∧
          Gained n (cfg.idOf i) (run (next cfg) (start db clock) before)
            (run (next cfg) (start db clock) (before ++ labels ++ [last])) (p.ticks i) := by
  have hrises := @schedules_rise cfg hforward
  have hequipped : ∀ k, cfg.Equipped ((run (next cfg) (start db clock) before).clients k) :=
    run_invariant equipped_next (fun _ => .inl rfl) before
  have hlength : ((run (next cfg) (start db clock) before).clients n).lastFire.length =
      cfg.periodic.length := by
    refine (hequipped n).resolve_left ?_
    rw [hpc]
    exact Pc.noConfusion
  rw [run_append, run_append] at hend ⊢
  generalize run (next cfg) (start db clock) before = s₀ at hpc hpass hend hlength ⊢
  obtain ⟨call, k, hnow, h⟩ := Underway.run hrises rfl (underway_start hpc hlength) hpass
  rw [run_cons, run_nil] at hend ⊢
  generalize run (next cfg) s₀ labels = s at hend h ⊢
  refine ⟨call, hnow, h.live, fun pollInterval => ?_⟩
  rcases h.next hrises last with ⟨call', k', -, h'⟩ | hexited | ⟨hall, hclient, hlog⟩
  · rw [h'.pc] at hend
    cases hend
  · rw [hexited] at hend
    cases hend
  · obtain ⟨p, m, hp, hsame⟩ := h.enqueues hall pollInterval
    refine ⟨p, m, hp, fun i => ⟨?_, (hsame i).2.other ?_⟩⟩
    · rw [hclient]
      exact (hsame i).1
    · unfold State.inserted
      rw [hlog]

end Drover.Scheduler
