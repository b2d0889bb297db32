import Drover.Cron.Fires

set_option autoImplicit false

/-!
# When `Next` gives up

`Next` looks for a match for 1830 days.  A schedule that can match in every year has a match
within two years of any day.  The only others that match at all are those that fire on
February 29 alone, and those have eight years to wait when the century year between two leap
years is not one.  `Next` also seems to give up when what it finds is the zero time itself.
-/

namespace Drover.Cron

open Drover.Foundation
open Drover.Foundation.Bytes
open Drover.Go (Location Time)

/-! ## Schedules the parser makes -/

/-- What the fields of a schedule admit. -/
structure CronSchedule.Proper (s : CronSchedule) : Prop where
  loc : s.loc = Location.utc
  minute : ∃ v, 0 ≤ v ∧ v ≤ 59 ∧ s.minute.has v = true
  hour : ∃ v, 0 ≤ v ∧ v ≤ 23 ∧ s.hour.has v = true
  month : ∃ v, s.month.has v = true
  month_bounds : ∀ {v}, s.month.has v = true → 1 ≤ v ∧ v ≤ 12
  dow : ∃ v, 0 ≤ v ∧ v ≤ 6 ∧ s.dow.has v = true
  domStar : s.domStar = true → ∀ v, 1 ≤ v → v ≤ 31 → s.dom.has v = true
  dowStar : s.dowStar = true → ∀ v, 0 ≤ v → v ≤ 6 → s.dow.has v = true

theorem readAs_false (v : Int) : readAs false v = v := by simp [readAs]

theorem readAs_true (v : Int) : readAs true v = if v = 7 then 0 else v := by simp [readAs]

/-- Without the wrap, what a field has lies within its bounds. -/
theorem mem_bounds {b : Bounds} {tok : Bytes} {f : Field} (hwrap : b.wrap7 = false)
    (hf : parseField tok b.minVal b.maxVal b.wrap7 = .ok f) {w : Int} (hw : f.has w = true) :
    b.minVal.toInt ≤ w ∧ w ≤ b.maxVal.toInt := by
  obtain ⟨v, hlow, hhigh, rfl⟩ := bounds_of_has hf hw
  rw [hwrap, readAs_false]
  exact ⟨hlow, hhigh⟩

theorem exists_mem_bounds {b : Bounds} {tok : Bytes} {f : Field} (hwrap : b.wrap7 = false)
    (hf : parseField tok b.minVal b.maxVal b.wrap7 = .ok f) :
    ∃ w, b.minVal.toInt ≤ w ∧ w ≤ b.maxVal.toInt ∧ f.has w = true := by
  obtain ⟨w, hw⟩ := exists_has hf
  obtain ⟨hlow, hhigh⟩ := mem_bounds hwrap hf hw
  exact ⟨w, hlow, hhigh, hw⟩

/-- The weekday field has a weekday: 7 is read as 0. -/
theorem exists_weekday {tok : Bytes} {f : Field}
    (hf : parseField tok dowBounds.minVal dowBounds.maxVal dowBounds.wrap7 = .ok f) :
    ∃ w, 0 ≤ w ∧ w ≤ 6 ∧ f.has w = true := by
  obtain ⟨w, hw⟩ := exists_has hf
  obtain ⟨v, hlow, hhigh, hread⟩ := bounds_of_has hf hw
  change 0 ≤ v at hlow
  change v ≤ 7 at hhigh
  rw [show dowBounds.wrap7 = true from rfl, readAs_true] at hread
  have hweekday : 0 ≤ w ∧ w ≤ 6 := by split at hread <;> omega
  exact ⟨w, hweekday.1, hweekday.2, hw⟩

theorem proper_of_parse {spec : Bytes} {s : CronSchedule} (h : parse spec = .ok (.cron s)) :
    s.Proper := by
  obtain ⟨tok, x, -, hfields⟩ := parseIn_cron h
  obtain ⟨s', hs', hminute, hhour, hdom, hmonth, hdow, hdomStar, hdowStar, hloc⟩ :=
    parseFields_ok hfields
  cases hs'
  refine ⟨hloc, @exists_mem_bounds minuteBounds _ _ rfl hminute,
    @exists_mem_bounds hourBounds _ _ rfl hhour, @exists_has monthBounds _ _ hmonth,
    @mem_bounds monthBounds _ _ rfl hmonth, exists_weekday hdow, ?_, ?_⟩
  · intro hstar v hlow hhigh
    rw [hdomStar, beq_iff_eq] at hstar
    rw [hstar] at hdom
    have hall := @has_star domBounds _ hdom v hlow hhigh
    rwa [show domBounds.wrap7 = false from rfl, readAs_false] at hall
  · intro hstar v hlow hhigh
    rw [hdowStar, beq_iff_eq] at hstar
    rw [hstar] at hdow
    have hall := @has_star dowBounds _ hdow v hlow (hhigh.trans (by decide))
    rwa [show dowBounds.wrap7 = true from rfl, readAs_true, if_neg (by omega)] at hall

/-! ## Days -/

section Days

variable {s : CronSchedule}

/-- A schedule can fire on a day: the month and the rule for days admit it. -/
def CronSchedule.OnDay (s : CronSchedule) (days : Int) : Prop :=
  s.month.has (Go.civilOfDays days).month = true ∧
    if s.domStar = false ∧ s.dowStar = false then
      s.dom.has (Go.civilOfDays days).day = true ∨ s.dow.has (Go.weekdayOfDays days) = true
    else s.dom.has (Go.civilOfDays days).day = true ∧ s.dow.has (Go.weekdayOfDays days) = true

/-- The day an instant lies in, counted from the Unix epoch. -/
def dayOf (t : Time) : Int := t.unix / 86400

theorem mem_fires_iff (hloc : s.loc = Location.utc) {u : Time} :
    u ∈ s.fires ↔ u % Go.minute = 0 ∧ s.minute.has (u.unix % 3600 / 60) = true ∧
      s.hour.has (u.unix % 86400 / 3600) = true ∧ s.OnDay (dayOf u) := by
  have hwall : Location.utc.wall u.unix = u.unix := Int.add_zero _
  unfold CronSchedule.fires CronSchedule.matches
  rw [Set.mem_ofPred_eq, hloc, matchesClock_iff, Time.clockIn, hwall]
  rfl

/-- The instant of a minute of a day. -/
def instantOf (days hour minute : Int) : Time := Go.ofUnix (days * 86400 + hour * 3600 + minute * 60)

theorem instantOf_spec {days hour minute : Int} (hhour : 0 ≤ hour ∧ hour ≤ 23)
    (hminute : 0 ≤ minute ∧ minute ≤ 59) :
    instantOf days hour minute % Go.minute = 0 ∧
      (instantOf days hour minute).unix % 3600 / 60 = minute ∧
      (instantOf days hour minute).unix % 86400 / 3600 = hour ∧
      dayOf (instantOf days hour minute) = days := by
  unfold dayOf instantOf
  rw [Go.unix_ofUnix]
  refine ⟨?_, by omega, by omega, by omega⟩
  unfold Go.ofUnix Go.unixToInternal Go.minute Go.second
  change @Eq Int _ _
  omega

/-- On a day on which the schedule can fire it does. -/
theorem exists_fire_onDay (hs : s.Proper) {days : Int} (hday : s.OnDay days) :
    ∃ u ∈ s.fires, dayOf u = days := by
  obtain ⟨minute, hminute0, hminute1, hminute⟩ := hs.minute
  obtain ⟨hour, hhour0, hhour1, hhour⟩ := hs.hour
  obtain ⟨hwhole, hm, hh, hd⟩ :=
    @instantOf_spec days hour minute ⟨hhour0, hhour1⟩ ⟨hminute0, hminute1⟩
  refine ⟨instantOf days hour minute, (mem_fires_iff hs.loc).mpr ⟨hwhole, ?_, ?_, ?_⟩, hd⟩
  · rw [hm]
    exact hminute
  · rw [hh]
    exact hhour
  · rw [hd]
    exact hday

/-- Instants are in the order of their days. -/
theorem lt_of_dayOf_lt {t u : Time} (h : dayOf t < dayOf u) : t < u := by
  unfold dayOf Time.unix Go.unixToInternal Go.second at h
  change @LT.lt Int _ t u
  omega

/-- A day less than 1830 days later is over before the horizon. -/
theorem le_horizon_of_dayOf_le {t u : Time} (h : dayOf u ≤ dayOf t + 1829) : u ≤ horizon t := by
  unfold dayOf Time.unix Go.unixToInternal Go.second at h
  unfold horizon maxScanMinutes
  rw [truncate_minute]
  unfold Go.minute Go.second
  change @LE.le Int _ _ _
  push_cast
  omega

/-- Where the schedule can fire within 1829 days of any day, `Next` finds a match. -/
theorem exists_fire_of_onDay (hs : s.Proper)
    (hdays : ∀ n, ∃ n', n < n' ∧ n' ≤ n + 1829 ∧ s.OnDay n') (t : Time) :
    ∃ u ∈ s.fires, t < u ∧ u ≤ horizon t := by
  obtain ⟨n, hlow, hhigh, hday⟩ := hdays (dayOf t)
  obtain ⟨u, hu, rfl⟩ := exists_fire_onDay hs hday
  exact ⟨u, hu, lt_of_dayOf_lt hlow, le_horizon_of_dayOf_le hhigh⟩

end Days

/-! ## Schedules that can fire in every year -/

section Yearly

variable {s : CronSchedule}

/-- Every month has at least 28 days in every year, and only February has less than 30. -/
theorem shortestMonth_bounds {month : Int} (hmonth : 1 ≤ month ∧ month ≤ 12) :
    28 ≤ Go.shortestMonth month ∧ (month ≠ 2 → 30 ≤ Go.shortestMonth month) := by
  obtain ⟨hlow, hhigh⟩ := hmonth
  unfold Go.shortestMonth Go.marchMonth Go.daysBeforeMonth
  split
  · omega
  · split <;> omega

/-- A month of the next year, counted from March, begins within two years. -/
theorem exists_month_after {month : Int} (hmonth : 1 ≤ month ∧ month ≤ 12) (n : Int) :
    ∃ first, n < first ∧ first ≤ n + 731 ∧ ∀ day, 1 ≤ day ∧ day ≤ Go.shortestMonth month →
      (Go.civilOfDays (first + (day - 1))).month = month ∧
        (Go.civilOfDays (first + (day - 1))).day = day := by
  obtain ⟨y, doy, hlow, hhigh, hn, -⟩ := Go.exists_march n
  have hshortest := (shortestMonth_bounds hmonth).1
  obtain ⟨hfirst0, hfirst1, -⟩ :=
    Go.ofMarch_dayOfMarchYear hmonth ⟨Int.le_refl 1, by omega⟩ (y + 1)
  have hlength := Go.marchLength_bounds y
  have hlength' := Go.marchLength_bounds (y + 1)
  have hsucc := Go.marchStart_succ y
  refine ⟨Go.marchStart (y + 1) + Go.dayOfMarchYear month 1 - Go.marchToUnix, by omega, by omega, ?_⟩
  intro day hday
  obtain ⟨hdoy0, hdoy1, hm, hd⟩ := Go.ofMarch_dayOfMarchYear hmonth hday (y + 1)
  have hplace : Go.marchStart (y + 1) + Go.dayOfMarchYear month 1 - Go.marchToUnix + (day - 1) =
      Go.marchStart (y + 1) + Go.dayOfMarchYear month day - Go.marchToUnix := by
    unfold Go.dayOfMarchYear
    omega
  rw [hplace, Go.civilOfDays_march hdoy0 (by omega)]
  exact ⟨hm, hd⟩

/-- A date that every year has comes within 1829 days. -/
theorem onDay_of_date {month day : Int} (hmonth : 1 ≤ month ∧ month ≤ 12)
    (hday : 1 ≤ day ∧ day ≤ Go.shortestMonth month)
    (hrule : ∀ n, (Go.civilOfDays n).month = month → (Go.civilOfDays n).day = day → s.OnDay n)
    (n : Int) : ∃ n', n < n' ∧ n' ≤ n + 1829 ∧ s.OnDay n' := by
  obtain ⟨first, hlow, hhigh, hdates⟩ := exists_month_after hmonth n
  obtain ⟨hm, hd⟩ := hdates day hday
  have hlong : Go.shortestMonth month ≤ 31 := by
    unfold Go.shortestMonth Go.daysBeforeMonth
    split <;> omega
  exact ⟨first + (day - 1), by omega, by omega, hrule _ hm hd⟩

/-- So does a day of the week in the first week of a month. -/
theorem onDay_of_weekday {month weekday : Int} (hmonth : 1 ≤ month ∧ month ≤ 12)
    (hweekday : 0 ≤ weekday ∧ weekday ≤ 6)
    (hrule : ∀ n, (Go.civilOfDays n).month = month → 1 ≤ (Go.civilOfDays n).day →
      (Go.civilOfDays n).day ≤ 7 → Go.weekdayOfDays n = weekday → s.OnDay n)
    (n : Int) : ∃ n', n < n' ∧ n' ≤ n + 1829 ∧ s.OnDay n' := by
  obtain ⟨first, hlow, hhigh, hdates⟩ := exists_month_after hmonth n
  have hshortest := (shortestMonth_bounds hmonth).1
  obtain ⟨k, hk0, hk1, hk⟩ : ∃ k, 0 ≤ k ∧ k ≤ 6 ∧ Go.weekdayOfDays (first + k) = weekday := by
    refine ⟨(weekday - Go.weekdayOfDays first) % 7, by omega, by omega, ?_⟩
    unfold Go.weekdayOfDays
    omega
  obtain ⟨hm, hd⟩ := hdates (k + 1) ⟨by omega, by omega⟩
  rw [Int.add_sub_cancel] at hm hd
  exact ⟨first + k, by omega, by omega, hrule _ hm (by omega) (by omega) hk⟩

/-- The day of the week is one of seven. -/
theorem weekdayOfDays_bounds (n : Int) : 0 ≤ Go.weekdayOfDays n ∧ Go.weekdayOfDays n ≤ 6 := by
  unfold Go.weekdayOfDays
  omega

/-- A schedule with a field for the day of the week can fire every week. -/
theorem onDay_of_not_dowStar (hs : s.Proper) (hstar : s.dowStar = false) (n : Int) :
    ∃ n', n < n' ∧ n' ≤ n + 1829 ∧ s.OnDay n' := by
  obtain ⟨month, hmonth⟩ := hs.month
  obtain ⟨weekday, hlow, hhigh, hweekday⟩ := hs.dow
  refine onDay_of_weekday (hs.month_bounds hmonth) ⟨hlow, hhigh⟩ (fun n hm hd0 hd1 hw => ?_) n
  refine ⟨by rw [hm]; exact hmonth, ?_⟩
  rw [hw, hstar, hweekday]
  cases hdom : s.domStar with
  | false => simp
  | true =>
      have hall := hs.domStar hdom (Go.civilOfDays n).day hd0 (by omega)
      simp [hall]

/-- One without fires on the dates its other fields admit. -/
theorem onDay_iff_of_dowStar (hs : s.Proper) (hstar : s.dowStar = true) {n : Int} :
    s.OnDay n ↔ s.month.has (Go.civilOfDays n).month = true ∧
      s.dom.has (Go.civilOfDays n).day = true := by
  obtain ⟨hlow, hhigh⟩ := weekdayOfDays_bounds n
  unfold CronSchedule.OnDay
  rw [hs.dowStar hstar _ hlow hhigh, hstar]
  simp

end Yearly

/-! ## Schedules that fire on February 29 alone -/

/-- The schedule fires on February 29 and on no other day: its month is February, its days of the
month are 29 and none before, and it has no field for the day of the week. -/
structure CronSchedule.LeapDayOnly (s : CronSchedule) : Prop where
  dowStar : s.dowStar = true
  month : ∀ m, s.month.has m = true ↔ m = 2
  dom : s.dom.has 29 = true
  early : ∀ d, 1 ≤ d → d ≤ 28 → s.dom.has d = false

/-- The year the clock shows. -/
def yearOf (t : Time) : Int := (Go.civilOfDays (dayOf t)).year

/-- An instant between the last firing of the leap year before a century year that is not a leap
year and 1830 days before the first firing of the leap year after it. -/
def CronSchedule.CenturyGap (s : CronSchedule) (t : Time) : Prop :=
  ∃ century, century % 100 = 0 ∧ century % 400 ≠ 0 ∧
    (∀ u ∈ s.fires, yearOf u = century - 4 → u ≤ t) ∧
    ∀ u ∈ s.fires, yearOf u = century + 4 → horizon t < u

section LeapDay

variable {s : CronSchedule}

/-- A schedule that can fire, and not on February 29 alone, can fire within 1829 days. -/
theorem onDay_of_not_leapDayOnly (hs : s.Proper) (hnot : ¬s.LeapDayOnly) {m : Int} (hm : s.OnDay m)
    (n : Int) : ∃ n', n < n' ∧ n' ≤ n + 1829 ∧ s.OnDay n' := by
  cases hstar : s.dowStar with
  | false => exact onDay_of_not_dowStar hs hstar n
  | true =>
      have hrule : ∀ {month day : Int}, s.month.has month = true → s.dom.has day = true → ∀ n,
          (Go.civilOfDays n).month = month → (Go.civilOfDays n).day = day → s.OnDay n := by
        rintro month day hmonth hday n rfl rfl
        exact (onDay_iff_of_dowStar hs hstar).mpr ⟨hmonth, hday⟩
      obtain ⟨hmonth, hday⟩ := (onDay_iff_of_dowStar hs hstar).mp hm
      have hrange := hs.month_bounds hmonth
      obtain ⟨y, doy, hlow, hhigh, -, hcivil⟩ := Go.exists_march m
      have hlength := Go.marchLength_bounds y
      rcases lt_or_ge doy 365 with hyearly | hleap
      · have hdate := Go.day_le_shortestMonth (y := y) hlow hyearly
        rw [← hcivil] at hdate
        exact onDay_of_date hrange hdate (hrule hmonth hday) n
      · -- the day is February 29, so another month or an earlier day is admitted
        obtain rfl : doy = 365 := by omega
        have hfebruary : (Go.civilOfDays m).month = 2 ∧ (Go.civilOfDays m).day = 29 := by
          rw [hcivil]
          exact ⟨rfl, rfl⟩
        rw [hfebruary.1] at hmonth
        rw [hfebruary.2] at hday
        by_cases hother : ∃ month, s.month.has month = true ∧ month ≠ 2
        · obtain ⟨month, hadmitted, hne⟩ := hother
          have hlong := (shortestMonth_bounds (hs.month_bounds hadmitted)).2 hne
          exact onDay_of_date (hs.month_bounds hadmitted) ⟨by omega, by omega⟩
            (hrule hadmitted hday) n
        · by_cases hearly : ∃ day, 1 ≤ day ∧ day ≤ 28 ∧ s.dom.has day = true
          · obtain ⟨day, hday0, hday1, hadmitted⟩ := hearly
            exact @onDay_of_date s 2 day (by omega) ⟨hday0, hday1⟩ (hrule hmonth hadmitted) n
          · refine absurd ⟨hstar, fun month => ⟨fun hadmitted => ?_, ?_⟩, hday, ?_⟩ hnot
            · by_contra hne
              exact hother ⟨month, hadmitted, hne⟩
            · rintro rfl
              exact hmonth
            · intro day hday0 hday1
              by_contra hadmitted
              exact hearly ⟨day, hday0, hday1, by simpa using hadmitted⟩

/-- February 29 of a leap year. -/
def leapDay (y : Int) : Int := Go.marchStart (y - 1) + 365 - Go.marchToUnix

theorem civilOfDays_leapDay {y : Int} (h : Go.Leap y) : Go.civilOfDays (leapDay y) = ⟨y, 2, 29⟩ := by
  have hlength : Go.marchLength (y - 1) = 366 := by
    rw [Go.marchLength, Int.sub_add_cancel, if_pos h]
  rw [leapDay, Go.civilOfDays_march (by omega) (by omega)]
  change (⟨y - 1 + 1, 2, 29⟩ : Go.CivilDate) = _
  rw [Int.sub_add_cancel]

theorem leapDay_lt {y y' : Int} (h : y < y') : leapDay y < leapDay y' := by
  have hle := Go.marchStart_le (show y - 1 < y' - 1 by omega)
  have hlength := Go.marchLength_bounds (y - 1)
  unfold leapDay
  omega

theorem leapDay_add_four {y : Int} (h : Go.Leap y) : leapDay (y + 4) = leapDay y + 1461 := by
  unfold Go.Leap at h
  unfold leapDay Go.marchStart
  omega

/-- The days on which such a schedule can fire. -/
theorem onDay_iff_of_leapDayOnly (hs : s.Proper) (hleap : s.LeapDayOnly) {n : Int} :
    s.OnDay n ↔ ∃ y, Go.Leap y ∧ n = leapDay y := by
  rw [onDay_iff_of_dowStar hs hleap.dowStar, hleap.month]
  constructor
  · rintro ⟨hmonth, hday⟩
    obtain ⟨y, doy, hlow, hhigh, hn, hcivil⟩ := Go.exists_march n
    have hlength := Go.marchLength_bounds y
    have hlast : doy = 365 := by
      by_contra hne
      have hdate := Go.day_le_shortestMonth (y := y) hlow (by omega)
      rw [← hcivil, hmonth] at hdate
      rw [hleap.early _ hdate.1 hdate.2] at hday
      cases hday
    refine ⟨y + 1, ?_, ?_⟩
    · by_contra hnot
      rw [Go.marchLength, if_neg hnot] at hhigh
      omega
    · rw [leapDay, Int.add_sub_cancel]
      omega
  · rintro ⟨y, hy, rfl⟩
    rw [civilOfDays_leapDay hy]
    exact ⟨rfl, hleap.dom⟩

/-- A firing of such a schedule lies on February 29 of its year. -/
theorem dayOf_fire (hs : s.Proper) (hleap : s.LeapDayOnly) {u : Time} (hu : u ∈ s.fires) :
    Go.Leap (yearOf u) ∧ dayOf u = leapDay (yearOf u) := by
  obtain ⟨-, -, -, hday⟩ := (mem_fires_iff hs.loc).mp hu
  obtain ⟨y, hy, heq⟩ := (onDay_iff_of_leapDayOnly hs hleap).mp hday
  rw [yearOf, heq, civilOfDays_leapDay hy]
  exact ⟨hy, rfl⟩

theorem exists_fire_of_leap (hs : s.Proper) (hleap : s.LeapDayOnly) {y : Int} (hy : Go.Leap y) :
    ∃ u ∈ s.fires, yearOf u = y := by
  obtain ⟨u, hu, hday⟩ :=
    exists_fire_onDay hs ((onDay_iff_of_leapDayOnly hs hleap).mpr ⟨y, hy, rfl⟩)
  exact ⟨u, hu, by rw [yearOf, hday, civilOfDays_leapDay hy]⟩

/-- A firing in a later year is later. -/
theorem lt_of_yearOf_lt (hs : s.Proper) (hleap : s.LeapDayOnly) {u v : Time} (hu : u ∈ s.fires)
    (hv : v ∈ s.fires) (h : yearOf u < yearOf v) : u < v := by
  refine lt_of_dayOf_lt ?_
  rw [(dayOf_fire hs hleap hu).2, (dayOf_fire hs hleap hv).2]
  exact leapDay_lt h

/-- In the gap around a century year there is no match up to the horizon. -/
theorem no_fire_of_centuryGap (hs : s.Proper) (hleap : s.LeapDayOnly) {t : Time}
    (hgap : s.CenturyGap t) {u : Time} (hu : u ∈ s.fires) (hlt : t < u) : ¬u ≤ horizon t := by
  intro hle
  obtain ⟨century, hhundred, hera, hbefore, hafter⟩ := hgap
  obtain ⟨v, hv, hvyear⟩ := exists_fire_of_leap hs hleap
    (show Go.Leap (century - 4) by unfold Go.Leap; omega)
  obtain ⟨w, hw, hwyear⟩ := exists_fire_of_leap hs hleap
    (show Go.Leap (century + 4) by unfold Go.Leap; omega)
  have hlow : century - 4 < yearOf u := by
    by_contra hnot
    rcases (not_lt.mp hnot).lt_or_eq with hearlier | hsame
    · have huv := lt_of_yearOf_lt hs hleap hu hv (hvyear ▸ hearlier)
      exact absurd (hlt.trans huv) (not_lt.mpr (hbefore v hv hvyear))
    · exact absurd hlt (not_lt.mpr (hbefore u hu hsame))
  have hhigh : yearOf u < century + 4 := by
    by_contra hnot
    rcases (not_lt.mp hnot).lt_or_eq with hlater | hsame
    · have hwu := lt_of_yearOf_lt hs hleap hw hu (hwyear ▸ hlater)
      exact absurd (hwu.trans_le hle) (not_lt.mpr (hafter w hw hwyear).le)
    · exact absurd hle (not_le.mpr (hafter u hu hsame.symm))
  -- the one year of four between them that could be a leap year is the century year
  have hyear := (dayOf_fire hs hleap hu).1
  unfold Go.Leap at hyear
  omega

/-- Without a match up to the horizon, the instant lies in such a gap. -/
theorem centuryGap_of_no_fire (hs : s.Proper) (hleap : s.LeapDayOnly) {t : Time}
    (hnone : ∀ u ∈ s.fires, t < u → ¬u ≤ horizon t) : s.CenturyGap t := by
  have hne : s.fires.Nonempty := by
    obtain ⟨u, hu, -⟩ := exists_fire_of_leap hs hleap (show Go.Leap 0 by decide)
    exact ⟨u, hu⟩
  obtain ⟨⟨u, ⟨hu, hut⟩, hgreatest⟩, -⟩ := exists_around hs.loc hne t
  have hafter : ∀ w ∈ s.fires, u < w → horizon t < w := by
    intro w hw huw
    refine not_le.mp (hnone w hw ?_)
    by_contra hwt
    exact absurd (hgreatest ⟨hw, not_lt.mp hwt⟩) (not_le.mpr huw)
  -- a match within 1829 days of the last one would lie before the horizon
  have hnear : ∀ w ∈ s.fires, dayOf w ≤ dayOf u + 1829 → w ≤ u := by
    intro w hw hdays
    by_contra hlater
    have hhorizon := hafter w hw (not_le.mp hlater)
    have hle : w ≤ horizon u := le_horizon_of_dayOf_le hdays
    exact absurd hhorizon (not_lt.mpr (hle.trans (horizon_mono hut)))
  obtain ⟨hyear, hday⟩ := dayOf_fire hs hleap hu
  have hnot : ¬Go.Leap (yearOf u + 4) := by
    intro hfour
    obtain ⟨w, hw, hwyear⟩ := exists_fire_of_leap hs hleap hfour
    have hlater := lt_of_yearOf_lt hs hleap hu hw (by omega)
    refine absurd (hnear w hw ?_) (not_le.mpr hlater)
    rw [(dayOf_fire hs hleap hw).2, hwyear, leapDay_add_four hyear, hday]
    omega
  have hyear' := hyear
  unfold Go.Leap at hyear' hnot
  refine ⟨yearOf u + 4, by omega, by omega, fun w hw hwyear => ?_, fun w hw hwyear => ?_⟩
  · have hsame : dayOf w = dayOf u := by
      rw [(dayOf_fire hs hleap hw).2, hday, hwyear, Int.add_sub_cancel]
    exact (hnear w hw (by omega)).trans hut
  · exact hafter w hw (lt_of_yearOf_lt hs hleap hu hw (by omega))

end LeapDay

/-! ## Giving up -/

/-- A schedule that matches at all has a match up to the horizon, unless it fires on February 29
alone and the instant lies in the gap around a century year. -/
theorem exists_fire_iff {s : CronSchedule} (hs : s.Proper) (t : Time) :
    (s.fires.Nonempty → ∃ u ∈ s.fires, t < u ∧ u ≤ horizon t) ↔
      ¬(s.LeapDayOnly ∧ s.CenturyGap t) := by
  constructor
  · rintro hfinds ⟨hleap, hgap⟩
    obtain ⟨w, hw, -⟩ := exists_fire_of_leap hs hleap (show Go.Leap 0 by decide)
    obtain ⟨u, hu, hlt, hle⟩ := hfinds ⟨w, hw⟩
    exact no_fire_of_centuryGap hs hleap hgap hu hlt hle
  · rintro hnot ⟨w, hw⟩
    by_cases hleap : s.LeapDayOnly
    · by_contra hnone
      refine hnot ⟨hleap, centuryGap_of_no_fire hs hleap fun u hu hlt hle => ?_⟩
      exact hnone ⟨u, hu, hlt, hle⟩
    · obtain ⟨-, -, -, hday⟩ := (mem_fires_iff hs.loc).mp hw
      exact exists_fire_of_onDay hs (onDay_of_not_leapDayOnly hs hleap hday) t

/-- `Next` gives up only on schedules that never fire again, and every schedule that can fire
has a match up to the horizon, exactly unless the schedule fires on February 29 alone and the
instant lies in the gap around a century year that is not a leap year; and unless the next match
is the zero time itself, which `Next` then returns. -/
theorem next_gives_up_iff (spec : Bytes) (s : CronSchedule) (hparse : parse spec = .ok (.cron s))
    (t : Time) :
    ((s.next t = 0 → ∀ u ∈ s.fires, ¬t < u) ↔
      ¬(s.LeapDayOnly ∧ s.CenturyGap t) ∧ ¬IsLeast {u | u ∈ s.fires ∧ t < u} 0) ∧
    ((s.fires.Nonempty → ∃ u ∈ s.fires, t < u ∧ u ≤ horizon t) ↔
      ¬(s.LeapDayOnly ∧ s.CenturyGap t)) := by
  have hs := proper_of_parse hparse
  refine ⟨?_, exists_fire_iff hs t⟩
  rw [← exists_fire_iff hs t]
  by_cases hne : s.fires.Nonempty
  · obtain ⟨-, v, ⟨hv, htv⟩, -⟩ := exists_around hs.loc hne t
    rcases next_cases hs.loc t with ⟨hnone, hzero⟩ | ⟨hleast, hhorizon⟩
    · refine iff_of_false (fun h => h hzero v hv htv) fun h => ?_
      obtain ⟨u, hu, hlt, hle⟩ := h.1 hne
      exact hnone u hu hlt hle
    · have hfinds : ∃ u ∈ s.fires, t < u ∧ u ≤ horizon t :=
        ⟨_, hleast.1.1, hleast.1.2, hhorizon⟩
      constructor
      · intro h
        refine ⟨fun _ => hfinds, fun hfirst => ?_⟩
        exact h (hleast.unique hfirst) v hv htv
      · rintro ⟨-, hfirst⟩ hzero
        rw [hzero] at hleast
        exact absurd hleast hfirst
  · refine iff_of_true (fun _ u hu _ => hne ⟨u, hu⟩) ⟨fun h => absurd h hne, fun hfirst => ?_⟩
    exact hne ⟨_, hfirst.1.1⟩

/-- `31 1 2 11 0` is not one of the exceptions. -/
theorem repeatedSpec_gives_up :
    let s := { repeatedSchedule with loc := Location.utc }
    let t := Go.ofUnix 1762047000
    s.next t = 0 → ∀ u ∈ s.fires, ¬t < u := by
  refine (next_gives_up_iff repeatedSpec { repeatedSchedule with loc := Location.utc }
    (parseIn_repeatedSpec Location.utc) (Go.ofUnix 1762047000)).1.mpr ⟨fun h => ?_, fun h => ?_⟩
  · cases h.1.dowStar
  · exact absurd h.1.2 (by decide)

/-- A field that is `*` is accepted. -/
theorem parseField_star (b : Bounds) :
    ∃ f, parseField [ascii '*'] b.minVal b.maxVal b.wrap7 = .ok f := by
  have hsmall := b.small
  have hle := b.le
  have hstep : itemStep [ascii '*'] = .ok ⟨1, by decide⟩ := rfl
  have hrange : parseRange (rangeTok [ascii '*']) b.minVal b.maxVal = .ok (b.minVal, b.maxVal) := rfl
  refine (parseField_reads b [ascii '*']).accepts ?_ (exists_fieldForm_iff.mp
    ⟨_, fieldForm_star b⟩)
  rw [show items [ascii '*'] = [[ascii '*']] from rfl, hits_cons]
  rintro (⟨-, step, range, hstep', hrange', hover⟩ | ⟨-, hrest⟩)
  · rw [hstep] at hstep'
    rw [hrange] at hrange'
    cases hstep'
    cases hrange'
    have hone : (1 : Int64).toInt = 1 := by decide
    unfold Go.maxInt at hover
    simp only [hone] at hover
    omega
  · exact not_hits_nil hrest

/-- A schedule for midnight of one date. -/
def dateSchedule (d m : Int64) (dow : Field) : CronSchedule where
  minute := ⟨0 ||| 1#64 <<< 0⟩
  hour := ⟨0 ||| 1#64 <<< 0⟩
  dom := ⟨0 ||| 1#64 <<< d.toInt.toNat⟩
  month := ⟨0 ||| 1#64 <<< m.toInt.toNat⟩
  dow := dow
  domStar := false
  dowStar := true
  loc := Location.utc

theorem parse_date {spec day month : Bytes} {d m : Int64}
    (hfields : Go.fields spec = [ofChars ['0'], ofChars ['0'], day, month, [ascii '*']])
    (hday : parseField day 1 31 false = .ok ⟨0 ||| 1#64 <<< d.toInt.toNat⟩)
    (hmonth : parseField month 1 12 false = .ok ⟨0 ||| 1#64 <<< m.toInt.toNat⟩)
    (hstar : (day == [ascii '*']) = false) :
    ∃ dow, parse spec = .ok (.cron (dateSchedule d m dow)) := by
  have hminute : parseField _ 0 59 false = _ :=
    parseField_single minuteBounds (ofChars ['0']) 0 (by decide) (by decide) rfl rfl
  have hhour : parseField _ 0 23 false = _ :=
    parseField_single hourBounds (ofChars ['0']) 0 (by decide) (by decide) rfl rfl
  obtain ⟨f, hdow⟩ := parseField_star dowBounds
  change parseField [ascii '*'] 0 7 true = .ok f at hdow
  refine ⟨f, ?_⟩
  rw [parse, parseIn, hfields]
  simp only
  rw [if_neg (by decide), parseFields, hminute, hhour, hday, hmonth, hdow, hstar]
  rfl

theorem has_single {n : Int64} (hlow : 0 ≤ n.toInt) (hhigh : n.toInt ≤ 63) {v : Int} :
    Field.has ⟨0 ||| 1#64 <<< n.toInt.toNat⟩ v = true ↔ v = n.toInt := by
  rw [has_or_bit hlow hhigh, has_empty]
  simp

/-- It fires at midnight of its date. -/
theorem mem_fires_dateSchedule {d m : Int64} {dow : Field} (hs : (dateSchedule d m dow).Proper)
    (hd : 0 ≤ d.toInt ∧ d.toInt ≤ 63) (hm : 0 ≤ m.toInt ∧ m.toInt ≤ 63) {days : Int}
    (hday : (Go.civilOfDays days).day = d.toInt) (hmonth : (Go.civilOfDays days).month = m.toInt) :
    instantOf days 0 0 ∈ (dateSchedule d m dow).fires := by
  obtain ⟨hwhole, hminute, hhour, hdays⟩ := @instantOf_spec days 0 0 (by decide) (by decide)
  have hzero : ∀ v, Field.has ⟨0 ||| 1#64 <<< 0⟩ v = true ↔ v = 0 := fun v =>
    @has_single 0 (by decide) (by decide) v
  rw [mem_fires_iff hs.loc, hminute, hhour, hdays, onDay_iff_of_dowStar hs rfl]
  refine ⟨hwhole, (hzero 0).mpr rfl, (hzero 0).mpr rfl, ?_, ?_⟩
  · exact (has_single hm.1 hm.2).mpr hmonth
  · exact (has_single hd.1 hd.2).mpr hday

theorem leapDayOnly_dateSchedule (dow : Field) : (dateSchedule 29 2 dow).LeapDayOnly where
  dowStar := rfl
  month m := @has_single 2 (by decide) (by decide) m
  dom := (@has_single 29 (by decide) (by decide) 29).mpr rfl
  early d hlow hhigh := by
    have hne : ¬(dateSchedule 29 2 dow).dom.has d = true := by
      intro hadmitted
      have heq : d = 29 := (@has_single 29 (by decide) (by decide) d).mp hadmitted
      omega
    simpa using hne

/-- The spec `0 0 29 2 *`. -/
def leapSpec : Bytes := ofChars ['0', ' ', '0', ' ', '2', '9', ' ', '2', ' ', '*']

/-- The spec `0 0 1 1 *`. -/
def newYearSpec : Bytes := ofChars ['0', ' ', '0', ' ', '1', ' ', '1', ' ', '*']

/-- What finds no match is the zero time. -/
theorem next_of_centuryGap {s : CronSchedule} (hs : s.Proper) (hleap : s.LeapDayOnly) {t : Time}
    (hgap : s.CenturyGap t) : s.next t = 0 := by
  rcases next_cases hs.loc t with ⟨-, hzero⟩ | ⟨hleast, hhorizon⟩
  · exact hzero
  · exact absurd hhorizon (no_fire_of_centuryGap hs hleap hgap hleast.1.1 hleast.1.2)

/-- On 1 March 2096 the leap day of that year is over, and the next one is eight years away. -/
theorem centuryGap_2096 {s : CronSchedule} (hs : s.Proper) (hleap : s.LeapDayOnly) :
    s.CenturyGap (Go.ofUnix 3981398400) := by
  refine ⟨2100, by decide, by decide, fun u hu hyear => ?_, fun u hu hyear => ?_⟩
  · have hday := (dayOf_fire hs hleap hu).2
    rw [hyear] at hday
    refine (lt_of_dayOf_lt ?_).le
    rw [hday]
    decide
  · have hday := (dayOf_fire hs hleap hu).2
    rw [hyear] at hday
    refine lt_of_dayOf_lt ?_
    rw [hday]
    decide

/-- `Next` gives up on 1 March 2096 on a schedule for midnight of each leap day, which fires on
29 February 2104; and just before year 1 on one for New Year, which fires then and in every year
after. -/
theorem leapSpec_gives_up :
    (∃ s, parse leapSpec = .ok (.cron s) ∧ s.next (Go.ofUnix 3981398400) = 0 ∧
      Go.ofUnix 4233686400 ∈ s.fires ∧ Go.ofUnix 3981398400 < Go.ofUnix 4233686400) ∧
    ∃ s, parse newYearSpec = .ok (.cron s) ∧ s.next (-1) = 0 ∧ era ∈ s.fires ∧ -1 < era := by
  constructor
  · obtain ⟨dow, hparse⟩ := @parse_date leapSpec (ofChars ['2', '9']) (ofChars ['2']) 29 2 (by decide)
      (parseField_single domBounds (ofChars ['2', '9']) 29 (by decide) (by decide) rfl rfl)
      (parseField_single monthBounds (ofChars ['2']) 2 (by decide) (by decide) rfl rfl) (by decide)
    have hs := proper_of_parse hparse
    have hleap := leapDayOnly_dateSchedule dow
    refine ⟨_, hparse, next_of_centuryGap hs hleap (centuryGap_2096 hs hleap), ?_, by decide⟩
    rw [show Go.ofUnix 4233686400 = instantOf 49001 0 0 by decide]
    exact mem_fires_dateSchedule hs (by decide) (by decide) (by decide) (by decide)
  · obtain ⟨dow, hparse⟩ := @parse_date newYearSpec (ofChars ['1']) (ofChars ['1']) 1 1 (by decide)
      (parseField_single domBounds (ofChars ['1']) 1 (by decide) (by decide) rfl rfl)
      (parseField_single monthBounds (ofChars ['1']) 1 (by decide) (by decide) rfl rfl) (by decide)
    have hs := proper_of_parse hparse
    have hzero : (0 : Time) ∈ (dateSchedule 1 1 dow).fires := by
      rw [show (0 : Time) = instantOf (-719162) 0 0 by decide]
      exact mem_fires_dateSchedule hs (by decide) (by decide) (by decide) (by decide)
    refine ⟨_, hparse, ?_, ?_, by decide⟩
    · rcases next_cases hs.loc (-1) with ⟨-, hnext⟩ | ⟨hleast, -⟩
      · exact hnext
      · exact le_antisymm (hleast.2 ⟨hzero, by decide⟩) hleast.1.2
    · have hera := (fires_add_era hs.loc 0).mpr hzero
      rwa [zero_add] at hera

end Drover.Cron
