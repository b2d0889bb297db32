import Mathlib.Data.Int.ConditionallyCompleteOrder
import Mathlib.Data.Int.Interval
import Mathlib.Data.Int.LeastGreatest
import Mathlib.Tactic.Linarith
import Drover.Cron.Grammar
import Drover.Foundation.Successor
import Drover.Go.Calendar

set_option autoImplicit false

/-!
# The firings of a cron schedule in UTC

`Next` scans minute by minute for at most `maxScanMinutes` minutes.  In UTC it starts at the
minute after the one its argument lies in, so what it finds is the least match of that stretch.
When no two consecutive matches are further apart, it is the least match after its argument, and
asking again and again lists them all.

The calendar repeats after 400 years, so a schedule that matches at all matches before and after
every instant.
-/

namespace Drover.Cron

open Drover.Foundation
open Drover.Foundation.Bytes
open Drover.Go (Location Time Clock)

/-- `Parse`. -/
def parse (spec : Bytes) : Outcome Schedule := parseIn spec (some Location.utc)

/-- The whole minutes a schedule matches. -/
def CronSchedule.fires (s : CronSchedule) : Set Time :=
  {u | u % Go.minute = 0 ∧ s.matches u = true}

/-- The last instant at which `Next` looks for a match. -/
def horizon (t : Time) : Time := t.truncate Go.minute + maxScanMinutes * Go.minute

/-- Consecutive matches are at most `maxScanMinutes` apart. -/
def CronSchedule.Close (s : CronSchedule) : Prop :=
  ∀ u v, u ∈ s.fires → v ∈ s.fires → u < v → (∀ w ∈ s.fires, u < w → v ≤ w) →
    v ≤ u + maxScanMinutes * Go.minute

/-! ## One scan -/

theorem truncate_minute (t : Time) : t.truncate Go.minute = t - t % Go.minute := by
  rw [Time.truncate, if_neg (by decide)]

theorem minuteOf_utc (t : Time) : minuteOf Location.utc t = t.truncate Go.minute := by
  have hwall : Location.utc.wall t.unix = t.unix := Int.add_zero _
  have hresolve : ∀ wall, Location.utc.resolve wall = wall := by
    intro wall
    rw [Location.resolve]
    exact if_pos rfl
  rw [minuteOf, hwall, hresolve, truncate_minute]
  unfold Go.ofUnix Time.unix Go.unixToInternal Go.minute Go.second
  change @Eq Int _ _
  omega

/-- A whole minute that is not after `t` is not after the minute `t` lies in. -/
theorem le_truncate {t u : Time} (hu : u % Go.minute = 0) (hle : u ≤ t) :
    u ≤ t.truncate Go.minute := by
  have hfloor : ∀ {a b : Int}, b % 60000000000 = 0 → b ≤ a → b ≤ a - a % 60000000000 := by
    intro a b hb hba
    omega
  rw [truncate_minute]
  exact hfloor hu hle

theorem horizon_mono {t u : Time} (h : t ≤ u) : horizon t ≤ horizon u := by
  have hfloor : ∀ {a b : Int}, a ≤ b → a - a % 60000000000 ≤ b - b % 60000000000 := by
    intro a b hab
    omega
  unfold horizon
  rw [truncate_minute, truncate_minute]
  exact Int.add_le_add_right (hfloor h) _

/-- The whole minutes up to the horizon, counted. -/
theorem window_iff {t u : Time} (hu : u % Go.minute = 0) :
    t < u ∧ u ≤ horizon t ↔
      ∃ k, k < maxScanMinutes ∧ u = minutesAfter (t.truncate Go.minute) (k + 1) := by
  unfold horizon minutesAfter
  rw [truncate_minute]
  have hcount : ∀ {a b : Int} {n : Nat}, b % 60000000000 = 0 →
      (a < b ∧ b ≤ a - a % 60000000000 + n * 60000000000 ↔
        ∃ k, k < n ∧ b = a - a % 60000000000 + ((k + 1 : Nat) : Int) * 60000000000) := by
    intro a b n hb
    constructor
    · rintro ⟨hlt, hle⟩
      refine ⟨((b - (a - a % 60000000000)) / 60000000000 - 1).toNat, ?_, ?_⟩ <;> omega
    · rintro ⟨k, hk, rfl⟩
      omega
  exact hcount hu

/-- `Next` gives the least match up to the horizon, and the zero time when there is none. -/
theorem next_cases {s : CronSchedule} (hloc : s.loc = Location.utc) (t : Time) :
    ((∀ u ∈ s.fires, t < u → ¬u ≤ horizon t) ∧ s.next t = 0) ∨
      IsLeast {u | u ∈ s.fires ∧ t < u} (s.next t) ∧ s.next t ≤ horizon t := by
  have hnext : s.next t = s.scan maxScanMinutes (t.truncate Go.minute + Go.minute) := by
    rw [next_eq, hloc, minuteOf_utc]
  have hwhole : ∀ k, minutesAfter (t.truncate Go.minute) k % Go.minute = 0 := by
    intro k
    rw [minutesAfter, truncate_minute]
    exact Int.emod_eq_zero_of_dvd
      (Int.dvd_add (Int.dvd_self_sub_of_emod_eq rfl) (Int.dvd_mul_left _ _))
  rw [hnext]
  rcases scan_cases s maxScanMinutes (t.truncate Go.minute) with
    ⟨hnone, heq⟩ | ⟨k, hk, hmatch, hbefore, heq⟩
  · refine Or.inl ⟨fun u hu hlt hle => ?_, heq⟩
    obtain ⟨k, hk, rfl⟩ := (window_iff hu.1).mp ⟨hlt, hle⟩
    have hmatch := hu.2
    rw [hnone k hk] at hmatch
    cases hmatch
  · right
    have hwindow := (window_iff (hwhole (k + 1))).mpr ⟨k, hk, rfl⟩
    rw [heq]
    refine ⟨⟨⟨⟨hwhole (k + 1), hmatch⟩, hwindow.1⟩, ?_⟩, hwindow.2⟩
    rintro u ⟨hu, hlt⟩
    by_contra hless
    obtain ⟨j, hj, rfl⟩ := (window_iff hu.1).mp ⟨hlt, (not_le.mp hless).le.trans hwindow.2⟩
    have hjk : j < k := by
      by_contra hkj
      exact hless (minutesAfter_mono _ (Nat.succ_le_succ (Nat.le_of_not_lt hkj)))
    have hmatch' := hu.2
    rw [hbefore j hjk] at hmatch'
    cases hmatch'

/-! ## The calendar repeats -/

/-- 400 years. -/
def era : Go.Duration := 146097 * 86400 * Go.second

theorem clockIn_add_era (t : Time) :
    Time.clockIn (t + era) Location.utc =
      { Time.clockIn t Location.utc with
        date := { (Time.clockIn t Location.utc).date with
          year := (Time.clockIn t Location.utc).date.year + 400 } } := by
  have hunix : Time.unix (t + era) = t.unix + 146097 * 86400 := by
    unfold Time.unix era Go.second
    omega
  have hwall : ∀ sec, Location.utc.wall sec = sec := fun sec => Int.add_zero _
  have hday : (t.unix + 146097 * 86400) / 86400 = t.unix / 86400 + 146097 := by omega
  simp only [Time.clockIn, Go.clockOfWall, hunix, hwall, hday, Go.civilOfDays_add_era,
    Go.weekdayOfDays_add_era]
  congr 1 <;> omega

theorem fires_add_era {s : CronSchedule} (hloc : s.loc = Location.utc) (t : Time) :
    t + era ∈ s.fires ↔ t ∈ s.fires := by
  have hwhole : (t + era) % Go.minute = t % Go.minute := by
    unfold era Go.minute Go.second
    change @Eq Int _ _
    omega
  have hmatches : s.matches (t + era) = s.matches t := by
    rw [CronSchedule.matches, CronSchedule.matches, hloc, clockIn_add_era]
    rfl
  unfold CronSchedule.fires
  rw [Set.mem_ofPred_eq, Set.mem_ofPred_eq, hwhole, hmatches]

/-- What matches once matches again any number of eras before or after. -/
theorem fires_add_eras {s : CronSchedule} (hloc : s.loc = Location.utc) (t : Time) (k : Int) :
    t + k * era ∈ s.fires ↔ t ∈ s.fires := by
  induction k using Int.induction_on with
  | zero => simp
  | succ k ih => rw [add_mul, one_mul, ← add_assoc, fires_add_era hloc, ih]
  | pred k ih => rw [← fires_add_era hloc, sub_mul, one_mul, add_assoc, sub_add_cancel, ih]

/-- A schedule that matches at all has a last match up to an instant and a first one after it. -/
theorem exists_around {s : CronSchedule} (hloc : s.loc = Location.utc) (hne : s.fires.Nonempty)
    (t : Time) :
    (∃ u, IsGreatest {u | u ∈ s.fires ∧ u ≤ t} u) ∧ ∃ v, IsLeast {v | v ∈ s.fires ∧ t < v} v := by
  obtain ⟨w, hw⟩ := hne
  have hpos : (0 : Int) < era := by decide
  constructor
  · have hexists : ∃ u : Int, u ∈ s.fires ∧ u ≤ t := by
      refine ⟨w + (-(|w - t| : Int)) * era, (fires_add_eras hloc w _).mpr hw, ?_⟩
      have hle : w - t ≤ |w - t| := le_abs_self _
      nlinarith [abs_nonneg (w - t)]
    obtain ⟨u, hu, hgreatest⟩ := Int.exists_greatest_of_bdd ⟨t, fun u hu => hu.2⟩ hexists
    exact ⟨u, hu, fun v hv => hgreatest v hv⟩
  · have hexists : ∃ v : Int, v ∈ s.fires ∧ t < v := by
      refine ⟨w + (|t - w| + 1) * era, (fires_add_eras hloc w _).mpr hw, ?_⟩
      have hle : t - w ≤ |t - w| := le_abs_self _
      nlinarith [abs_nonneg (t - w)]
    obtain ⟨v, hv, hleast⟩ := Int.exists_least_of_bdd ⟨t, fun v hv => hv.2.le⟩ hexists
    exact ⟨v, hv, fun u hu => hleast u hu⟩

/-- Where matches are close, `Next` gives the least match after its argument. -/
theorem isLeast_next {s : CronSchedule} (hloc : s.loc = Location.utc) (hclose : s.Close)
    (hne : s.fires.Nonempty) (t : Time) : IsLeast {u | u ∈ s.fires ∧ t < u} (s.next t) := by
  rcases next_cases hloc t with ⟨hnone, -⟩ | ⟨hleast, -⟩
  · obtain ⟨⟨u, ⟨hu, hut⟩, hgreatest⟩, v, ⟨hv, htv⟩, hleast⟩ := exists_around hloc hne t
    -- the last match up to `t` and the first one after it are consecutive
    have hgap : v ≤ u + maxScanMinutes * Go.minute := by
      refine hclose u v hu hv (hut.trans_lt htv) fun w hw huw => hleast ⟨hw, ?_⟩
      by_contra hwt
      exact absurd (hgreatest ⟨hw, not_lt.mp hwt⟩) (not_le.mpr huw)
    refine absurd (hgap.trans ?_) (hnone v hv htv)
    exact Int.add_le_add_right (le_truncate hu.1 hut) _
  · exact hleast

theorem loc_of_parse {spec : Bytes} {s : CronSchedule} (h : parse spec = .ok (.cron s)) :
    s.loc = Location.utc := by
  obtain ⟨tok, x, -, hfields⟩ := parseIn_cron h
  obtain ⟨s', hs', -, -, -, -, -, -, -, hloc⟩ := parseFields_ok hfields
  cases hs'
  exact hloc

/-- `Next` enumerates the matching minutes in UTC.  It gives the least match up to the horizon,
and the zero time when there is none; and where consecutive matches are no further apart than
that, asking again and again from any instant lists all matches after it in increasing order,
and a later instant does not get an earlier answer. -/
theorem next_enumerates (spec : Bytes) (s : CronSchedule) (hparse : parse spec = .ok (.cron s)) :
    (∀ t, (∃ u ∈ s.fires, t < u ∧ u ≤ horizon t) →
      IsLeast {u | u ∈ s.fires ∧ t < u ∧ u ≤ horizon t} (s.next t)) ∧
    (∀ t, (¬∃ u ∈ s.fires, t < u ∧ u ≤ horizon t) → s.next t = 0) ∧
    (s.Close →
      (s.fires.Nonempty → ∀ t, StrictMono (fun k => s.next^[k + 1] t) ∧
        Set.range (fun k => s.next^[k + 1] t) = {u | u ∈ s.fires ∧ t < u}) ∧
      Monotone s.next) := by
  have hloc := loc_of_parse hparse
  refine ⟨fun t hsome => ?_, fun t hnone => ?_, fun hclose => ⟨fun hne t => ?_, ?_⟩⟩
  · rcases next_cases hloc t with ⟨hnone, -⟩ | ⟨hleast, hhorizon⟩
    · obtain ⟨u, hu, hlt, hle⟩ := hsome
      exact absurd hle (hnone u hu hlt)
    · exact ⟨⟨hleast.1.1, hleast.1.2, hhorizon⟩, fun u hu => hleast.2 ⟨hu.1, hu.2.1⟩⟩
  · rcases next_cases hloc t with ⟨-, hzero⟩ | ⟨hleast, hhorizon⟩
    · exact hzero
    · exact absurd ⟨_, hleast.1.1, hleast.1.2, hhorizon⟩ hnone
  · have hnext : Enumerates (fun a => some (s.next a)) s.fires t :=
      Enumerates.of_isLeast fun {a} _ => isLeast_next hloc hclose hne a
    exact ⟨hnext.strictMono_iterate, hnext.range_iterate⟩
  · intro a b hab
    by_cases hne : s.fires.Nonempty
    · have hnext : Enumerates (fun a => some (s.next a)) s.fires a :=
        Enumerates.of_isLeast fun {a} _ => isLeast_next hloc hclose hne a
      exact hnext.mono (le_refl a) hab rfl rfl
    · have hzero : ∀ t, s.next t = 0 := by
        intro t
        rcases next_cases hloc t with ⟨-, hzero⟩ | ⟨hleast, -⟩
        · exact hzero
        · exact absurd ⟨_, hleast.1.1⟩ hne
      rw [hzero a, hzero b]

/-- From half past one on 2 November 2025, a Sunday, the next firing of `31 1 2 11 0` is the least
one. -/
theorem repeatedSpec_least :
    let s := { repeatedSchedule with loc := Location.utc }
    let t := Go.ofUnix 1762047000
    IsLeast {u | u ∈ s.fires ∧ t < u ∧ u ≤ horizon t} (s.next t) :=
  (next_enumerates repeatedSpec { repeatedSchedule with loc := Location.utc }
    (parseIn_repeatedSpec Location.utc)).1 (Go.ofUnix 1762047000)
    ⟨Go.ofUnix 1762047060, ⟨by decide, by decide⟩, by decide, by decide⟩

end Drover.Cron
