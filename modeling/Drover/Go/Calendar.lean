import Drover.Go.Time

set_option autoImplicit false

/-!
# Years, months and leap days

The calendar of `time.Time` counted in years that begin on March 1, where a leap day is the last
day of a year.  Every day is one day of one such year (`exists_march`, `march_unique`), so what a
clock shows on a day is read off its place in the year (`civilOfDays_march`).  Nothing in this
file names a particular program.
-/

namespace Drover.Go

/-! ## Years that begin in March -/

/-- Days from March 1 of year 0 to March 1 of year `y`. -/
def marchStart (y : Int) : Int := 365 * y + y / 4 - y / 100 + y / 400

/-- A leap year. -/
def Leap (y : Int) : Prop := y % 4 = 0 ∧ (y % 100 ≠ 0 ∨ y % 400 = 0)

instance (y : Int) : Decidable (Leap y) := inferInstanceAs (Decidable (_ ∧ _))

/-- Days of the year that begins on March 1 of year `y`: its February is that of the next year. -/
def marchLength (y : Int) : Int := if Leap (y + 1) then 366 else 365

theorem marchLength_bounds (y : Int) : 365 ≤ marchLength y ∧ marchLength y ≤ 366 := by
  unfold marchLength
  split <;> omega

theorem marchStart_succ (y : Int) : marchStart (y + 1) = marchStart y + marchLength y := by
  by_cases hleap : Leap (y + 1)
  · rw [marchLength, if_pos hleap]
    unfold Leap at hleap
    unfold marchStart
    omega
  · rw [marchLength, if_neg hleap]
    unfold Leap at hleap
    unfold marchStart
    omega

/-- A year begins when the years before it are over. -/
theorem marchStart_le {y y' : Int} (h : y < y') : marchStart y + marchLength y ≤ marchStart y' := by
  have hmono : ∀ k : Nat, marchStart (y + 1) ≤ marchStart (y + 1 + k) := by
    intro k
    induction k with
    | zero => simp
    | succ k ih =>
        have hsucc := marchStart_succ (y + 1 + k)
        have hlength := marchLength_bounds (y + 1 + k)
        rw [Int.natCast_succ, ← Int.add_assoc]
        omega
  have hk : y' = y + 1 + (y' - (y + 1)).toNat := by omega
  rw [← marchStart_succ, hk]
  exact hmono _

/-- The day of a year is one day of one year. -/
theorem march_unique {y y' doy doy' : Int} (hlow : 0 ≤ doy) (hhigh : doy < marchLength y)
    (hlow' : 0 ≤ doy') (hhigh' : doy' < marchLength y')
    (h : marchStart y + doy = marchStart y' + doy') : y = y' ∧ doy = doy' := by
  have heq : y = y' := by
    rcases Int.lt_trichotomy y y' with hlt | heq | hlt
    · have hle := marchStart_le hlt
      omega
    · exact heq
    · have hle := marchStart_le hlt
      omega
  subst heq
  exact ⟨rfl, by omega⟩

/-- A year of an era whose last day is day 365 ends in a leap day. -/
theorem leap_of_yearOfEra {doe : Int} (hlow : 0 ≤ doe) (hhigh : doe < 146097)
    (h : doe - daysBeforeYear (yearOfEra doe) = 365) : Leap (yearOfEra doe + 1) := by
  revert h
  simp only [yearOfEra]
  generalize hcentury : min (doe / 36524) 3 = century
  have hc : 0 ≤ century ∧ century ≤ 3 ∧ 0 ≤ doe - 36524 * century ∧
      (doe - 36524 * century ≤ 36523 ∨ (doe - 36524 * century = 36524 ∧ century = 3)) := by omega
  generalize hcycle : (doe - 36524 * century) / 1461 = cycle
  have hq : 0 ≤ cycle ∧ cycle ≤ 24 ∧ 0 ≤ doe - 36524 * century - 1461 * cycle ∧
      doe - 36524 * century - 1461 * cycle ≤ 1460 := by omega
  generalize hyear : min ((doe - 36524 * century - 1461 * cycle) / 365) 3 = year
  have hy : 0 ≤ year ∧ year ≤ 3 := by omega
  rw [daysBeforeYear_eq ⟨hq.1, hq.2.1⟩ hy]
  intro hday
  -- a year of 366 days is the last one of its cycle, and the last cycle of a century has one
  -- only in the last century
  have hlast : year = 3 ∧ (cycle < 24 ∨ century = 3) := by omega
  obtain ⟨rfl, hcycles⟩ := hlast
  unfold Leap
  omega

/-- Every day is a day of a year. -/
theorem exists_march (days : Int) :
    ∃ y doy, 0 ≤ doy ∧ doy < marchLength y ∧ days + marchToUnix = marchStart y + doy ∧
      civilOfDays days = .ofMarch y doy := by
  have hdoe : 0 ≤ (days + marchToUnix) % 146097 ∧ (days + marchToUnix) % 146097 < 146097 := by
    omega
  obtain ⟨hyearLow, hyearHigh, hdayLow, hdayHigh⟩ := yearOfEra_bounds hdoe.1 hdoe.2
  have hleap := leap_of_yearOfEra hdoe.1 hdoe.2
  refine ⟨_, _, hdayLow, ?_, ?_, rfl⟩
  · generalize yearOfEra ((days + marchToUnix) % 146097) = yoe at *
    have hsame : Leap ((days + marchToUnix) / 146097 * 400 + yoe + 1) ↔ Leap (yoe + 1) := by
      unfold Leap
      omega
    unfold marchLength
    rw [if_congr hsame rfl rfl]
    split
    · omega
    · rename_i hnot
      have hne : (days + marchToUnix) % 146097 - daysBeforeYear yoe ≠ 365 := fun h365 =>
        hnot (hleap h365)
      omega
  · generalize yearOfEra ((days + marchToUnix) % 146097) = yoe at *
    unfold marchStart daysBeforeYear
    omega

/-- What the calendar shows on a day of a year. -/
theorem civilOfDays_march {y doy : Int} (hlow : 0 ≤ doy) (hhigh : doy < marchLength y) :
    civilOfDays (marchStart y + doy - marchToUnix) = .ofMarch y doy := by
  obtain ⟨y', doy', hlow', hhigh', hdays, hcivil⟩ := exists_march (marchStart y + doy - marchToUnix)
  rw [Int.sub_add_cancel] at hdays
  obtain ⟨rfl, rfl⟩ := march_unique hlow hhigh hlow' hhigh' hdays
  exact hcivil

/-- The calendar repeats after 400 years. -/
theorem civilOfDays_add_era (days : Int) :
    civilOfDays (days + 146097) =
      { civilOfDays days with year := (civilOfDays days).year + 400 } := by
  have hdoe : (days + 146097 + marchToUnix) % 146097 = (days + marchToUnix) % 146097 := by omega
  have hera : (days + 146097 + marchToUnix) / 146097 = (days + marchToUnix) / 146097 + 1 := by omega
  simp only [civilOfDays, hdoe, hera, CivilDate.ofMarch]
  generalize yearOfEra ((days + marchToUnix) % 146097) = yoe
  congr 1
  split <;> omega

/-- 400 years are whole weeks. -/
theorem weekdayOfDays_add_era (days : Int) : weekdayOfDays (days + 146097) = weekdayOfDays days := by
  unfold weekdayOfDays
  omega

/-! ## Months -/

/-- The place of a month in a year that begins in March. -/
def marchMonth (month : Int) : Int := if month ≤ 2 then month + 9 else month - 3

/-- Days of a month that every year has: 28 for February. -/
def shortestMonth (month : Int) : Int :=
  if month = 2 then 28
  else daysBeforeMonth (marchMonth month + 1) - daysBeforeMonth (marchMonth month)

/-- The day of the year of a date. -/
def dayOfMarchYear (month day : Int) : Int := daysBeforeMonth (marchMonth month) + (day - 1)

/-- A date that every year has. -/
theorem ofMarch_dayOfMarchYear {month day : Int} (hmonth : 1 ≤ month ∧ month ≤ 12)
    (hday : 1 ≤ day ∧ day ≤ shortestMonth month) (y : Int) :
    0 ≤ dayOfMarchYear month day ∧ dayOfMarchYear month day < 365 ∧
      (CivilDate.ofMarch y (dayOfMarchYear month day)).month = month ∧
      (CivilDate.ofMarch y (dayOfMarchYear month day)).day = day := by
  unfold shortestMonth at hday
  unfold dayOfMarchYear CivilDate.ofMarch
  dsimp only
  generalize hmp : marchMonth month = mp at *
  unfold marchMonth at hmp
  have hplace : (5 * (daysBeforeMonth mp + (day - 1)) + 2) / 153 = mp := by
    unfold daysBeforeMonth at *
    split at hday <;> split at hmp <;> omega
  rw [hplace]
  unfold daysBeforeMonth at *
  split at hmp <;> split at hday <;> split <;> omega

/-- Every date but February 29 is one that every year has. -/
theorem day_le_shortestMonth {y doy : Int} (hlow : 0 ≤ doy) (hhigh : doy < 365) :
    1 ≤ (CivilDate.ofMarch y doy).day ∧
      (CivilDate.ofMarch y doy).day ≤ shortestMonth (CivilDate.ofMarch y doy).month := by
  unfold CivilDate.ofMarch shortestMonth
  dsimp only
  generalize hmp : (5 * doy + 2) / 153 = mp
  have hbounds : 0 ≤ mp ∧ mp ≤ 11 := by omega
  have hplace : marchMonth (if mp < 10 then mp + 3 else mp - 9) = mp := by
    unfold marchMonth
    split <;> split <;> omega
  have hfebruary : (if mp < 10 then mp + 3 else mp - 9) = 2 ↔ mp = 11 := by split <;> omega
  rw [hplace, if_congr hfebruary rfl rfl]
  unfold daysBeforeMonth
  split <;> omega

end Drover.Go
