import Drover.Scheduler.Ticks

set_option autoImplicit false

/-!
# One row for each tick

A client keeps its own ticks apart by its watermarks.  Between clients the sessions keep
them apart: the ticks of a session come after it was acquired, and not after the next one
is, as long as the clock of each pass was read while the session lived.  A session that
dies later does no harm, and the pass may well end after that.

The unique key of a tick is no part of the argument: once its row is done the key is free,
and the same tick can be inserted again.
-/

namespace Drover.Scheduler

open Drover.Foundation
open Drover.Driver
open Drover.Foundation.Bytes (ofChars)
open Drover.Go (Time)

/-! ## What is asked of the steps -/

/-- The clock of a pass is read by a client whose session still holds the lock; without a
lock, by one client `only`. -/
def InTime (cfg : Config) (only : Nat) (s : State) : Label → Prop
  | .client n .go =>
      (s.clients n).pc = .read →
        (cfg.hasLocker = true → (s.clients n).leaderConn = s.owner) ∧
          (cfg.hasLocker = false → n = only)
  | _ => True

instance InTime.decidable (cfg : Config) (only : Nat) (s : State) : (label : Label) →
    Decidable (InTime cfg only s label)
  | .client n .go => inferInstanceAs (Decidable ((s.clients n).pc = .read → _ ∧ _))
  | .client _ (.ping _) | .client _ (.lock _) | .client _ .fail | .client _ (.insert _)
  | .client _ .quit | .tick _ | .die | .outside _ => inferInstanceAs (Decidable True)

/-! ## Distinct ids -/

theorem lookup_of_checkJobs {i : Nat} {seen : List (Bytes × Nat)} {jobs : List PeriodicJob}
    {entries : List Entry} (h : checkJobs i seen jobs = .ok entries) {entry : Entry}
    (hentry : entry ∈ entries) : seen.lookup entry.job.id = none := by
  induction jobs generalizing i seen entries with
  | nil =>
      cases h
      cases hentry
  | cons job jobs ih =>
      obtain ⟨args, schedule, rest, hnew, -, hrest, rfl⟩ := checkJobs_cons h
      rcases List.mem_cons.mp hentry with rfl | hmem
      · exact hnew
      · have hlookup := ih hrest hmem
        rw [List.lookup_cons] at hlookup
        split at hlookup
        · cases hlookup
        · exact hlookup

/-- No two entries have one id. -/
theorem nodup_of_checkJobs {i : Nat} {seen : List (Bytes × Nat)} {jobs : List PeriodicJob}
    {entries : List Entry} (h : checkJobs i seen jobs = .ok entries) :
    (entries.map fun entry => entry.job.id).Nodup := by
  induction jobs generalizing i seen entries with
  | nil =>
      cases h
      exact List.nodup_nil
  | cons job jobs ih =>
      obtain ⟨args, schedule, rest, -, -, hrest, rfl⟩ := checkJobs_cons h
      refine List.nodup_cons.mpr ⟨fun hmem => ?_, ih hrest⟩
      obtain ⟨entry, hentry, hid⟩ := List.mem_map.mp hmem
      have hlookup := lookup_of_checkJobs hrest hentry
      rw [hid, List.lookup_cons_self] at hlookup
      cases hlookup

theorem Config.index_unique (cfg : Config) {i j : Nat} {a b : Entry}
    (ha : cfg.periodic[i]? = some a) (hb : cfg.periodic[j]? = some b) (hid : a.job.id = b.job.id) :
    i = j := by
  have hnodup := nodup_of_checkJobs cfg.checked
  have hi := (List.getElem?_eq_some_iff.mp ha).1
  refine (List.getElem?_inj (by rwa [List.length_map]) hnodup).mp ?_
  rw [List.getElem?_map, List.getElem?_map, ha, hb, Option.map_some, Option.map_some, hid]

/-! ## Ticks and later sessions -/

/-- The instant has come, and is not later than the beginning of any session after this
one. -/
structure Before (acquired : List Time) (clock : Time) (session : Option Nat) (x : Time) : Prop where
  clock : x ≤ clock
  later : ∀ sid, session = some sid → ∀ sid' t, sid < sid' → acquired[sid']? = some t → x ≤ t

section Before

variable {acquired : List Time} {clock x y : Time} {session : Option Nat}

/-- A session acquired now. -/
theorem Before.append (h : Before acquired clock session x) :
    Before (acquired ++ [clock]) clock session x := by
  refine ⟨h.clock, fun sid hsid sid' t hlt ht => ?_⟩
  rcases Nat.lt_or_ge sid' acquired.length with hold | hnew
  · rw [List.getElem?_append_left hold] at ht
    exact h.later sid hsid sid' t hlt ht
  · rw [List.getElem?_append_right hnew] at ht
    rw [List.mem_singleton.mp (List.mem_of_getElem? ht)]
    exact h.clock

theorem Before.le (h : Before acquired clock session x) (hle : y ≤ x) :
    Before acquired clock session y :=
  ⟨Int.le_trans hle h.clock,
    fun sid hsid sid' t hlt ht => Int.le_trans hle (h.later sid hsid sid' t hlt ht)⟩

theorem Before.wait (h : Before acquired clock session x) {clock' : Time} (hle : clock ≤ clock') :
    Before acquired clock' session x :=
  ⟨Int.le_trans h.clock hle, h.later⟩

/-- The present, in the last session. -/
theorem before_now (h : ∀ sid, session = some sid → sid + 1 = acquired.length) :
    Before acquired clock session clock := by
  refine ⟨Int.le_refl clock, fun sid hsid sid' t hlt ht => ?_⟩
  have hlast := h sid hsid
  have hsome := (List.getElem?_eq_some_iff.mp ht).1
  omega

end Before

/-! ## What is kept of each tick -/

/-- The client leads, and its watermark has passed the tick. -/
structure Client.Dealt (cfg : Config) (c : Client) (tick : Tick) : Prop where
  leader : c.wasLeader = true
  marks : ∀ (i : Nat) (entry : Entry) (last : Time), cfg.periodic[i]? = some entry →
    entry.job.id = tick.id → c.lastFire[i]? = some last → tick.fire ≤ last

/-- A tick in the log: its session belongs to its client, who has dealt with it for as long
as it has the session. -/
structure Recorded (cfg : Config) (only : Nat) (acquired : List Time) (clock : Time)
    (clients : Nat → Client) (tick : Tick) : Prop where
  before : Before acquired clock tick.session tick.fire
  own : ∀ n, (clients n).leaderConn = tick.session → tick.session ≠ none → tick.client = n
  alone : cfg.hasLocker = false → tick.client = only ∧ tick.session = none
  dealt : (clients tick.client).leaderConn = tick.session → (clients tick.client).Dealt cfg tick

/-- One client changes. -/
theorem Recorded.update {cfg : Config} {only : Nat} {acquired : List Time} {clock : Time}
    {clients : Nat → Client} {tick : Tick} (h : Recorded cfg only acquired clock clients tick)
    {n : Nat} {c : Client}
    (hown : c.leaderConn = tick.session → tick.session ≠ none →
      (clients n).leaderConn = tick.session)
    (hdealt : tick.client = n → c.leaderConn = tick.session → c.Dealt cfg tick) :
    Recorded cfg only acquired clock (Function.update clients n c) tick := by
  refine ⟨h.before, fun m hm hsome => ?_, h.alone, fun hconn => ?_⟩
  · rcases eq_or_ne m n with rfl | hne
    · rw [Function.update_self] at hm
      exact h.own m (hown hm hsome) hsome
    · rw [Function.update_of_ne hne] at hm
      exact h.own m hm hsome
  · rcases eq_or_ne tick.client n with heq | hne
    · rw [heq, Function.update_self] at hconn ⊢
      exact hdealt heq hconn
    · rw [Function.update_of_ne hne] at hconn ⊢
      exact h.dealt hconn

/-- No two clients share a session. -/
def Exclusive (clients : Nat → Client) : Prop :=
  ∀ m n sid, (clients m).leaderConn = some sid → (clients n).leaderConn = some sid → m = n

/-- A client changes to a session nobody else has. -/
theorem Exclusive.update {clients : Nat → Client} (h : Exclusive clients) {n : Nat} {c : Client}
    (hc : ∀ m sid, (clients m).leaderConn = some sid → c.leaderConn = some sid → m = n) :
    Exclusive (Function.update clients n c) := by
  intro m m' sid hm hm'
  by_cases heq : m = n <;> by_cases heq' : m' = n
  · rw [heq, heq']
  · rw [heq, Function.update_self] at hm
    rw [Function.update_of_ne heq'] at hm'
    rw [heq, hc m' sid hm' hm]
  · rw [Function.update_of_ne heq] at hm
    rw [heq', Function.update_self] at hm'
    rw [heq', hc m sid hm hm']
  · rw [Function.update_of_ne heq] at hm
    rw [Function.update_of_ne heq'] at hm'
    exact h m m' sid hm hm'

/-- A pass of client `n` is in time. -/
def PassInTime (cfg : Config) (only : Nat) (acquired : List Time) (clock : Time) (n : Nat)
    (c : Client) : Prop :=
  ∀ now i, c.pc = .pass now i →
    Before acquired clock c.leaderConn now ∧ (cfg.hasLocker = false → n = only)

/-- What holds in a run whose passes are all in time. -/
structure State.Sorted (cfg : Config) (only : Nat) (s : State) : Prop where
  led : s.Led cfg
  owner : ∀ sid, s.owner = some sid → sid + 1 = s.acquired.length
  own : Exclusive s.clients
  pass : ∀ n, PassInTime cfg only s.acquired s.clock n (s.clients n)
  ticks : ∀ tick ∈ s.log, Recorded cfg only s.acquired s.clock s.clients tick
  once : (s.log.map fun tick => (tick.id, tick.fire)).Nodup

theorem sorted_start (cfg : Config) (only : Nat) (db : Memdriver.Driver) (clock : Time) :
    (start db clock).Sorted cfg only := by
  refine ⟨led_start cfg db clock, ?_, ?_, ?_, ?_, ?_⟩
  all_goals simp [start, Exclusive, PassInTime]

section Sorted

variable {cfg : Config} {only : Nat} {s s' : State} {n : Nat}

/-- Without a lock nobody has a session. -/
theorem State.Sorted.conn_eq_none (h : s.Sorted cfg only) (hlocker : cfg.hasLocker = false) (n : Nat) :
    (s.clients n).leaderConn = none := by
  by_contra hconn
  exact absurd (hlocker.symm.trans ((h.led.fits n).locked (Or.inr hconn))) (by decide)

/-- The session of a tick is one of those that were acquired. -/
theorem State.Sorted.session_lt (h : s.Sorted cfg only) {tick : Tick} (htick : tick ∈ s.log) {sid : Nat}
    (hsid : tick.session = some sid) : sid < s.acquired.length := by
  cases hlocker : cfg.hasLocker with
  | false =>
      rw [((h.ticks tick htick).alone hlocker).2] at hsid
      cases hsid
  | true =>
      obtain ⟨sid', hsid', t, ht, -⟩ := h.led.log hlocker tick htick
      cases hsid.symm.trans hsid'
      exact (List.getElem?_eq_some_iff.mp ht).1

/-- With a lock every tick has a session. -/
theorem State.Sorted.session_ne_none (h : s.Sorted cfg only) (hlocker : cfg.hasLocker = true)
    {tick : Tick} (htick : tick ∈ s.log) : tick.session ≠ none := by
  obtain ⟨sid, hsid, -⟩ := h.led.log hlocker tick htick
  exact Option.ne_none_iff_exists'.mpr ⟨sid, hsid⟩

/-- The ticks of a pass's session are those of its client. -/
theorem State.Sorted.client_eq (h : s.Sorted cfg only) {now : Time} {i : Nat}
    (hpc : (s.clients n).pc = .pass now i) {tick : Tick} (htick : tick ∈ s.log)
    (hsession : (s.clients n).leaderConn = tick.session) : tick.client = n := by
  have hrecorded := h.ticks tick htick
  cases hlocker : cfg.hasLocker with
  | false => rw [(hrecorded.alone hlocker).1, (h.pass n now i hpc).2 hlocker]
  | true => exact hrecorded.own n hsession (h.session_ne_none hlocker htick)

/-- A due tick is none of those already inserted: those of the same session are behind the
watermark, those of earlier sessions are from before this one, and those of later
sessions from after the pass began. -/
theorem State.Sorted.fresh (h : s.Sorted cfg only) {now last fire : Time} {i : Nat} {entry : Entry}
    (hpc : (s.clients n).pc = .pass now i) (hentry : cfg.periodic[i]? = some entry)
    (hlast : (s.clients n).lastFire[i]? = some last) (hlt : last < fire) (hdue : fire ≤ now)
    {tick : Tick} (htick : tick ∈ s.log) (hid : tick.id = entry.job.id) : tick.fire ≠ fire := by
  rintro rfl
  have hrecorded := h.ticks tick htick
  by_cases hsession : (s.clients n).leaderConn = tick.session
  · obtain rfl := h.client_eq hpc htick hsession
    have hle := (hrecorded.dealt hsession).marks i entry last hentry hid.symm hlast
    exact absurd hlt (Int.not_lt.mpr hle)
  · have hlocker : cfg.hasLocker = true := by
      by_contra hno
      rw [Bool.not_eq_true] at hno
      exact hsession ((h.conn_eq_none hno n).trans (hrecorded.alone hno).2.symm)
    obtain ⟨sid, hsid, t, ht, hafter⟩ := h.led.log hlocker tick htick
    obtain ⟨mine, hmine⟩ :=
      Option.ne_none_iff_exists'.mp ((h.led.fits n).leads (by rw [hpc]; rfl) hlocker)
    have hu := List.getElem?_eq_getElem ((h.led.marked n).session mine hmine)
    have hmark := (h.led.marked n).after mine _ hmine
      ((h.led.fits n).settled (by rw [hpc]; rfl)) hu last (List.mem_of_getElem? hlast)
    rcases Nat.lt_trichotomy sid mine with hearlier | rfl | hlater
    · have hle := hrecorded.before.later sid hsid mine _ hearlier hu
      exact absurd hlt (Int.not_lt.mpr (Int.le_trans hle hmark))
    · exact hsession (hmine.trans hsid.symm)
    · have hle := (h.pass n now i hpc).1.later mine hmine sid t hlater ht
      exact absurd hafter (Int.not_lt.mpr (Int.le_trans hdue hle))

/-- Replacing one client. -/
theorem forall_pass_update {acquired : List Time} {clock : Time} {clients : Nat → Client}
    {c : Client} (hc : PassInTime cfg only acquired clock n c)
    (h : ∀ m, PassInTime cfg only acquired clock m (clients m)) (m : Nat) :
    PassInTime cfg only acquired clock m (Function.update clients n c m) :=
  (Function.forall_update_iff clients fun m c => PassInTime cfg only acquired clock m c).mpr
    ⟨hc, fun m _ => h m⟩ m

/-- A client has dealt with the ticks of its session. -/
theorem State.Sorted.dealt (h : s.Sorted cfg only) {tick : Tick} (htick : tick ∈ s.log)
    (hclient : tick.client = n) (hconn : (s.clients n).leaderConn = tick.session) :
    (s.clients n).Dealt cfg tick := by
  have hdealt := (h.ticks tick htick).dealt
  rw [hclient] at hdealt
  exact hdealt hconn

/-- A client that drops its session has no ticks in it; with all it has kept it has dealt
with what it had. -/
theorem State.Sorted.dealt_keep (h : s.Sorted cfg only) {c : Client}
    (hkeep : c.leaderConn = none ∧ (cfg.hasLocker = true ∨ (s.clients n).wasLeader = false) ∨
      c.leaderConn = (s.clients n).leaderConn ∧ c.wasLeader = (s.clients n).wasLeader ∧
        c.lastFire = (s.clients n).lastFire)
    {tick : Tick} (htick : tick ∈ s.log) (hclient : tick.client = n)
    (hconn : c.leaderConn = tick.session) : c.Dealt cfg tick := by
  rcases hkeep with ⟨hnone, hwas⟩ | ⟨hsame, hwas, hlast⟩
  · have hsession : tick.session = none := hconn.symm.trans hnone
    have hlocker : cfg.hasLocker = false := by
      by_contra hlocker
      exact h.session_ne_none (by simpa using hlocker) htick hsession
    have hold := (h.conn_eq_none hlocker n).trans hsession.symm
    have hleader := (h.dealt htick hclient hold).leader
    rcases hwas with hhas | hwas
    · exact absurd (hlocker.symm.trans hhas) (by decide)
    · exact absurd (hwas.symm.trans hleader) (by decide)
  · have hold := h.dealt htick hclient (hsame.symm.trans hconn)
    refine ⟨hwas.trans hold.leader, ?_⟩
    rw [hlast]
    exact hold.marks

/-- A watermark that moves forward stays past what it was past. -/
theorem Client.Dealt.set {c : Client} {tick : Tick} (h : c.Dealt cfg tick) {i : Nat}
    {last fire : Time} (hlast : c.lastFire[i]? = some last) (hlt : last < fire) :
    Client.Dealt cfg { c with lastFire := c.lastFire.set i fire } tick := by
  refine ⟨h.leader, fun j entry mark hentry hid hmark => ?_⟩
  rcases eq_or_ne i j with rfl | hne
  · have hlength := (List.getElem?_eq_some_iff.mp hlast).1
    rw [List.getElem?_set_self hlength] at hmark
    cases hmark
    exact Int.le_trans (h.marks i entry last hentry hid hlast) (Int.le_of_lt hlt)
  · rw [List.getElem?_set_ne hne] at hmark
    exact h.marks j entry mark hentry hid hmark

/-- The tick a client has just inserted. -/
theorem dealt_inserted {c : Client} {i : Nat} {last fire : Time} {entry : Entry}
    (hwas : c.wasLeader = true) (hentry : cfg.periodic[i]? = some entry)
    (hlast : c.lastFire[i]? = some last) :
    Client.Dealt cfg { c with lastFire := c.lastFire.set i fire }
      ⟨entry.job.id, fire, n, c.leaderConn⟩ := by
  refine ⟨hwas, fun j other mark hother hid hmark => ?_⟩
  obtain rfl := cfg.index_unique hentry hother hid.symm
  rw [List.getElem?_set_self (List.getElem?_eq_some_iff.mp hlast).1] at hmark
  cases hmark
  exact Int.le_refl fire

/-- What is kept of it. -/
theorem State.Sorted.recorded_inserted (h : s.Sorted cfg only) {now last fire : Time} {i : Nat}
    {entry : Entry} (hpc : (s.clients n).pc = .pass now i)
    (hentry : cfg.periodic[i]? = some entry) (hlast : (s.clients n).lastFire[i]? = some last)
    (hdue : fire ≤ now) :
    Recorded cfg only s.acquired s.clock
      (Function.update s.clients n
        { s.clients n with lastFire := (s.clients n).lastFire.set i fire })
      ⟨entry.job.id, fire, n, (s.clients n).leaderConn⟩ := by
  obtain ⟨hbefore, halone⟩ := h.pass n now i hpc
  refine ⟨hbefore.le hdue, fun m hm hsome => ?_, fun hlocker => ?_, fun _ => ?_⟩
  · obtain ⟨sid, hsid⟩ := Option.ne_none_iff_exists'.mp hsome
    rcases eq_or_ne m n with rfl | hne
    · rfl
    · rw [Function.update_of_ne hne] at hm
      exact h.own n m sid hsid (hm.trans hsid)
  · exact ⟨halone hlocker, h.conn_eq_none hlocker n⟩
  · rw [Function.update_self]
    exact dealt_inserted ((h.led.fits n).settled (by rw [hpc]; rfl)) hentry hlast

/-- The step lemma, for the steps of the clients. -/
theorem State.Sorted.turn {how : ClientStep} (h : s.Sorted cfg only)
    (hsteady : Steady cfg s (.client n how)) (hintime : InTime cfg only s (.client n how))
    (hturn : Turn cfg s n how s') : s'.Sorted cfg only := by
  have hled := h.led.turn hsteady hturn
  have hsame : ∀ m sid, (s.clients m).leaderConn = some sid →
      (s.clients n).leaderConn = some sid → m = n := fun m sid => h.own m n sid
  cases hturn with
  | keep _ hkeep hpass =>
      refine ⟨hled, h.owner, h.own.update fun m sid hm hc => ?_,
        forall_pass_update (fun now i hpc => ?_) h.pass, fun tick htick => ?_, h.once⟩
      · rcases hkeep with ⟨hnone, -⟩ | ⟨hconn, -⟩
        · rw [hnone] at hc
          cases hc
        · exact hsame m sid hm (hconn.symm.trans hc)
      · obtain ⟨hconn, j, hold⟩ := hpass now i hpc
        rw [hconn]
        exact h.pass n now j hold
      · refine (h.ticks tick htick).update (fun hconn hsome => ?_) fun hclient hconn =>
          h.dealt_keep hkeep htick hclient hconn
        rcases hkeep with ⟨hnone, -⟩ | ⟨hsession, -⟩
        · exact absurd (hconn.symm.trans hnone) hsome
        · exact hsession.symm.trans hconn
  | grant _ _ =>
      -- the new session is nobody's and no tick's
      have hnew : ∀ tick ∈ s.log, some s.acquired.length ≠ tick.session := fun tick htick heq =>
        absurd (h.session_lt htick heq.symm) (Nat.lt_irrefl _)
      refine ⟨hled, fun sid hsid => ?_, h.own.update fun m sid hm hc => ?_,
        forall_pass_update nofun fun m now i hpc => ?_, fun tick htick => ?_, h.once⟩
      · cases hsid
        rw [List.length_append, List.length_singleton]
      · cases hc
        exact absurd ((h.led.marked m).session _ hm) (Nat.lt_irrefl _)
      · obtain ⟨hbefore, halone⟩ := h.pass m now i hpc
        exact ⟨hbefore.append, halone⟩
      · have hold := h.ticks tick htick
        exact Recorded.update ⟨hold.before.append, hold.own, hold.alone, hold.dealt⟩
          (fun hconn => absurd hconn (hnew tick htick)) fun _ hconn => absurd hconn (hnew tick htick)
  | lead _ hwas =>
      refine ⟨hled, h.owner, h.own.update hsame, forall_pass_update nofun h.pass,
        fun tick htick => (h.ticks tick htick).update (fun hconn _ => hconn) ?_, h.once⟩
      intro hclient hconn
      exact absurd (hwas.symm.trans (h.dealt htick hclient hconn).leader) (by decide)
  | read hpc =>
      obtain ⟨hlive, halone⟩ := hintime hpc
      refine ⟨hled, h.owner, h.own.update hsame, forall_pass_update ?_ h.pass,
        fun tick htick => (h.ticks tick htick).update (fun hconn _ => hconn) ?_, h.once⟩
      · rintro now i hpass
        cases hpass
        refine ⟨before_now fun sid hsid => ?_, halone⟩
        cases hlocker : cfg.hasLocker with
        | true => exact h.owner sid ((hlive hlocker).symm.trans hsid)
        | false =>
            rw [h.conn_eq_none hlocker n] at hsid
            cases hsid
      · intro hclient hconn
        have hold := h.dealt htick hclient hconn
        exact ⟨hold.leader, hold.marks⟩
  | advance hpc hentry hlast hfire hne hdue hlog =>
      have hlt := hsteady.lt_fire hpc hentry hlast (by rw [hfire]; exact hne)
      rw [hfire] at hlt
      have hold : ∀ tick ∈ s.log, Recorded cfg only s.acquired s.clock (Function.update s.clients n
          { s.clients n with lastFire := (s.clients n).lastFire.set _ _ }) tick :=
        fun tick htick => (h.ticks tick htick).update (fun hconn _ => hconn) fun hclient hconn =>
          (h.dealt htick hclient hconn).set hlast hlt
      refine ⟨hled, h.owner, h.own.update hsame,
        forall_pass_update (fun now i hpass => h.pass n now i hpass) h.pass, ?_, ?_⟩
      · rcases hlog with rfl | rfl
        · exact hold
        · exact List.forall_mem_cons.mpr ⟨h.recorded_inserted hpc hentry hlast hdue, hold⟩
      · rcases hlog with rfl | rfl
        · exact h.once
        · refine List.nodup_cons.mpr ⟨fun hmem => ?_, h.once⟩
          obtain ⟨tick, htick, hkey⟩ := List.mem_map.mp hmem
          obtain ⟨hid, hsame⟩ := Prod.mk.inj hkey
          exact h.fresh hpc hentry hlast hlt hdue htick hid hsame

theorem sorted_next (s : State) (label : Label) (h : s.Sorted cfg only)
    (hstep : Steady cfg s label ∧ InTime cfg only s label) : (next cfg s label).Sorted cfg only := by
  refine next_rule h.led.fits label h ?_ ?_ ?_ ?_
  · rintro n how s' rfl hturn
    exact h.turn hstep.1 hstep.2 hturn
  · intro d
    have hle : s.clock ≤ s.clock + d := Int.le_add_of_nonneg_right (Int.natCast_nonneg d)
    refine ⟨led_next s (.tick d) h.led trivial, h.owner, h.own, fun n now i hpc => ?_,
      fun tick htick => ?_, h.once⟩
    · obtain ⟨hbefore, halone⟩ := h.pass n now i hpc
      exact ⟨hbefore.wait hle, halone⟩
    · have hold := h.ticks tick htick
      exact ⟨hold.before.wait hle, hold.own, hold.alone, hold.dealt⟩
  · exact ⟨led_next s .die h.led trivial, nofun, h.own, h.pass, h.ticks, h.once⟩
  · intro db
    exact ⟨⟨h.led.fits, h.led.clock, h.led.marked, h.led.log⟩, h.owner, h.own, h.pass, h.ticks,
      h.once⟩

end Sorted

/-! ## Runs -/

/-- In every run of any number of clients, over any store and with any other callers of it,
in which a client is granted the lock only when it knows that it did not lead before, no
tick is inserted where its schedule turns back, and the clock of each pass is read in a
live session, or without a lock by one and the same client, at most one row is inserted for
each id and instant. -/
theorem run_one_row_per_tick (cfg : Config) (only : Nat) (db : Memdriver.Driver) (clock : Time)
    (labels : List Label)
    (h : Steps (next cfg) (fun s label => Steady cfg s label ∧ InTime cfg only s label)
      (start db clock) labels) :
    ((run (next cfg) (start db clock) labels).log.map fun tick => (tick.id, tick.fire)).Nodup :=
  (run_of_steps sorted_next (sorted_start cfg only db clock) h).once

/-- A worker somewhere takes a job and completes it. -/
def execute (id : Int) (now : Time) : List Label :=
  [.outside (.fetchAvailable now defaultQueue (30 * Go.second) 1),
    .outside (.mark ⟨id, 1⟩ (.completed now))]

/-- A leader's session dies in the middle of a pass.  A second client takes over before the
first inserts the tick; the row is done when the next tick comes. -/
def overlap : List Label :=
  .client 0 .go :: .client 1 .go :: leadOnce 0 ++
    [.tick 30000000000, .client 0 .go, .client 0 (.ping true), .client 0 .go, .client 0 .go, .die] ++
    leadOnce 1 ++ .client 0 (.insert true) :: execute 1 30000000001 ++
    .tick 30000000000 :: insertOnce 1

theorem overlap_one_row_per_tick :
    (run (next thirty) (start Memdriver.new 1) overlap).log =
        [⟨ofChars ['t'], 60 * Go.second, 1, some 1⟩, ⟨ofChars ['t'], 30 * Go.second, 0, some 0⟩] ∧
      ((run (next thirty) (start Memdriver.new 1) overlap).log.map
        fun tick => (tick.id, tick.fire)).Nodup :=
  ⟨by decide +kernel, run_one_row_per_tick thirty 0 Memdriver.new 1 overlap (by decide +kernel)⟩

/-- A leader's session dies while it waits.  A second client leads, inserts the tick and
goes, and the row is done; then the first takes the lock again, within the call of
`TryBecomeLeader` that finds its session dead. -/
def replay : List Label :=
  .client 0 .go :: .client 1 .go :: leadOnce 0 ++ .die :: leadOnce 1 ++
    .tick 30000000000 :: insertOnce 1 ++ .die :: execute 1 30000000001 ++
    [.client 0 .go, .client 0 (.ping false), .client 0 (.lock true), .client 0 .go, .client 0 .go,
      .client 0 (.insert true)]

/-- Two rows are inserted for one tick. -/
theorem replay_second_row :
    ¬((run (next thirty) (start Memdriver.new 1) replay).log.map
      fun tick => (tick.id, tick.fire)).Nodup := by
  decide +kernel

/-- A leader is held up between `TryBecomeLeader` and its reading of the clock, for as long
as a second client leads. -/
def heldUp : List Label :=
  .client 0 .go :: .client 1 .go :: leadOnce 0 ++
    [.client 0 .go, .client 0 (.ping true), .client 0 .go, .die] ++
    leadOnce 1 ++ .tick 30000000000 :: insertOnce 1 ++ execute 1 30000000001 ++
    [.client 0 .go, .client 0 (.insert true)]

-- nobody takes the lock unnoticed here, and still the tick is inserted twice
example :
    Steps (next thirty) (Steady thirty) (start Memdriver.new 1) heldUp ∧
      ¬((run (next thirty) (start Memdriver.new 1) heldUp).log.map
        fun tick => (tick.id, tick.fire)).Nodup := by
  decide +kernel

end Drover.Scheduler
