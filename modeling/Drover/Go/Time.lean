import Mathlib.Algebra.Group.Int.Defs
import Mathlib.Data.List.DropRight
import Mathlib.Data.List.Pairwise
import Drover.Foundation.Bytes

set_option autoImplicit false

/-!
# `time.Time`, `time.Location` and `time.Date`

An instant is a number of nanoseconds since Go's zero time, January 1 of year 1 UTC,
so the zero time is `0` and `After`, `Add` and `IsZero` are the order, the sum and
the zero of integers.  A location is a finite table of the moments at which its
offset from UTC changes.  The calendar is the proleptic Gregorian one, counted in
eras of 400 years that begin on March 1.  Nothing in this file names a particular
program.
-/

namespace Drover.Go

/-- A `time.Time`, in nanoseconds since the zero time. -/
abbrev Time := Int

/-- A `time.Duration`, in nanoseconds. -/
abbrev Duration := Int

/-- `t.Sub(u)`, which saturates at the ends of the `int64` range. -/
def Time.sub (t u : Time) : Duration := max (-2 ^ 63) (min (2 ^ 63 - 1) (t - u))

/-- `time.Second`. -/
def second : Duration := 1000000000

/-- `time.Minute`. -/
def minute : Duration := 60 * second

/-- Seconds from the zero time to the Unix epoch. -/
def unixToInternal : Int := 62135596800

/-- `t.Unix()`. -/
def Time.unix (t : Time) : Int := t / second - unixToInternal

/-- `time.Unix(sec, 0)`. -/
def ofUnix (sec : Int) : Time := (sec + unixToInternal) * second

@[simp] theorem unix_ofUnix (sec : Int) : Time.unix (ofUnix sec) = sec := by
  unfold Time.unix ofUnix second
  omega

/-- `t.Truncate(d)`: rounded down to a multiple of `d` since the zero time. -/
def Time.truncate (t : Time) (d : Duration) : Time := if d ≤ 0 then t else t - t % d

/-! ## The calendar -/

/-- Days from March 1 of year 0 to the Unix epoch. -/
def marchToUnix : Int := 719468

/-- A date of the proleptic Gregorian calendar. -/
structure CivilDate where
  year : Int
  month : Int
  day : Int
  deriving DecidableEq, Repr

/-- Days before year `yoe` of an era whose years begin in March. -/
def daysBeforeYear (yoe : Int) : Int := 365 * yoe + yoe / 4 - yoe / 100

/-- Days before month `mp` of a year that begins in March. -/
def daysBeforeMonth (mp : Int) : Int := (153 * mp + 2) / 5

/-- The year of an era that its day `doe` falls in: whole centuries, then whole
four-year cycles, then whole years.  The last century of an era and the last year of
a cycle have one more day. -/
def yearOfEra (doe : Int) : Int :=
  let century := min (doe / 36524) 3
  let inCentury := doe - 36524 * century
  let cycle := inCentury / 1461
  let inCycle := inCentury - 1461 * cycle
  100 * century + 4 * cycle + min (inCycle / 365) 3

/-- The date of day `doy` of the year `y` that begins on March 1. -/
def CivilDate.ofMarch (y doy : Int) : CivilDate :=
  let mp := (5 * doy + 2) / 153
  { year := if mp < 10 then y else y + 1
    month := if mp < 10 then mp + 3 else mp - 9
    day := doy - daysBeforeMonth mp + 1 }

/-- The year that begins on March 1 in which a date lies. -/
def CivilDate.marchYear (date : CivilDate) : Int :=
  if date.month ≤ 2 then date.year - 1 else date.year

/-- The day of that year. -/
def CivilDate.marchDay (date : CivilDate) : Int :=
  daysBeforeMonth (if date.month ≤ 2 then date.month + 9 else date.month - 3) + (date.day - 1)

/-- The date of a day counted from the Unix epoch. -/
def civilOfDays (days : Int) : CivilDate :=
  let era := (days + marchToUnix) / 146097
  let doe := (days + marchToUnix) % 146097
  .ofMarch (era * 400 + yearOfEra doe) (doe - daysBeforeYear (yearOfEra doe))

/-- The day of a date, counted from the Unix epoch. -/
def daysOfCivil (date : CivilDate) : Int :=
  date.marchYear / 400 * 146097 + daysBeforeYear (date.marchYear % 400) + date.marchDay -
    marchToUnix

theorem march_ofMarch {y doy : Int} (hlow : 0 ≤ doy) (hhigh : doy ≤ 365) :
    (CivilDate.ofMarch y doy).marchYear = y ∧ (CivilDate.ofMarch y doy).marchDay = doy := by
  simp only [CivilDate.ofMarch, CivilDate.marchYear, CivilDate.marchDay]
  have hmonth : 0 ≤ (5 * doy + 2) / 153 ∧ (5 * doy + 2) / 153 ≤ 11 := by omega
  by_cases hearly : (5 * doy + 2) / 153 < 10
  · simp only [if_pos hearly]
    rw [if_neg (by omega), if_neg (by omega), Int.add_sub_cancel]
    omega
  · simp only [if_neg hearly]
    rw [if_pos (by omega), if_pos (by omega), Int.sub_add_cancel]
    omega

theorem daysBeforeYear_eq {century cycle year : Int} (hcycle : 0 ≤ cycle ∧ cycle ≤ 24)
    (hyear : 0 ≤ year ∧ year ≤ 3) :
    daysBeforeYear (100 * century + 4 * cycle + year) =
      36524 * century + 1461 * cycle + 365 * year := by
  have hfour : (100 * century + 4 * cycle + year) / 4 = 25 * century + cycle := by omega
  have hhundred : (100 * century + 4 * cycle + year) / 100 = century := by omega
  rw [daysBeforeYear, hfour, hhundred]
  omega

/-- The year of an era that a day falls in leaves at most 365 days. -/
theorem yearOfEra_bounds {doe : Int} (hlow : 0 ≤ doe) (hhigh : doe < 146097) :
    0 ≤ yearOfEra doe ∧ yearOfEra doe < 400 ∧ 0 ≤ doe - daysBeforeYear (yearOfEra doe) ∧
      doe - daysBeforeYear (yearOfEra doe) ≤ 365 := by
  simp only [yearOfEra]
  generalize hcentury : min (doe / 36524) 3 = century
  have hc : 0 ≤ century ∧ century ≤ 3 ∧ 0 ≤ doe - 36524 * century ∧
      doe - 36524 * century ≤ 36524 := by omega
  generalize hcycle : (doe - 36524 * century) / 1461 = cycle
  have hq : 0 ≤ cycle ∧ cycle ≤ 24 ∧ 0 ≤ doe - 36524 * century - 1461 * cycle ∧
      doe - 36524 * century - 1461 * cycle ≤ 1460 := by omega
  generalize hyear : min ((doe - 36524 * century - 1461 * cycle) / 365) 3 = year
  have hy : 0 ≤ year ∧ year ≤ 3 ∧ 0 ≤ doe - 36524 * century - 1461 * cycle - 365 * year ∧
      doe - 36524 * century - 1461 * cycle - 365 * year ≤ 365 := by omega
  rw [daysBeforeYear_eq ⟨hq.1, hq.2.1⟩ ⟨hy.1, hy.2.1⟩]
  omega

/-- The date of a day is a date of that day. -/
theorem daysOfCivil_civilOfDays (days : Int) : daysOfCivil (civilOfDays days) = days := by
  have hdoe : 0 ≤ (days + marchToUnix) % 146097 ∧ (days + marchToUnix) % 146097 < 146097 := by
    omega
  obtain ⟨hyearLow, hyearHigh, hdayLow, hdayHigh⟩ := yearOfEra_bounds hdoe.1 hdoe.2
  obtain ⟨hyear, hday⟩ := march_ofMarch
    (y := (days + marchToUnix) / 146097 * 400 + yearOfEra ((days + marchToUnix) % 146097))
    hdayLow hdayHigh
  rw [daysOfCivil, civilOfDays, hyear, hday]
  have hera : ((days + marchToUnix) / 146097 * 400 + yearOfEra ((days + marchToUnix) % 146097)) / 400 =
      (days + marchToUnix) / 146097 := by omega
  have hyoe : ((days + marchToUnix) / 146097 * 400 + yearOfEra ((days + marchToUnix) % 146097)) % 400 =
      yearOfEra ((days + marchToUnix) % 146097) := by omega
  rw [hera, hyoe]
  omega

/-- Months are 1 to 12. -/
theorem month_civilOfDays (days : Int) :
    1 ≤ (civilOfDays days).month ∧ (civilOfDays days).month ≤ 12 := by
  have hdoe : 0 ≤ (days + marchToUnix) % 146097 ∧ (days + marchToUnix) % 146097 < 146097 := by
    omega
  have hbounds := yearOfEra_bounds hdoe.1 hdoe.2
  simp only [civilOfDays, CivilDate.ofMarch]
  split <;> omega

/-- A day later is a day later. -/
theorem daysOfCivil_day (date : CivilDate) (day : Int) :
    daysOfCivil { date with day := day } = daysOfCivil date + (day - date.day) := by
  simp only [daysOfCivil, CivilDate.marchDay, CivilDate.marchYear]
  omega

/-- `time.Weekday`, Sunday being 0: the epoch was a Thursday. -/
def weekdayOfDays (days : Int) : Int := (days + 4) % 7

/-! ## Locations -/

/-- What `lookup` reports: an offset and the stretch of time it holds for. -/
structure Zone where
  offset : Int
  start : Int
  stop : Int
  deriving DecidableEq, Repr

/-- The ends of time, `alpha` and `omega`. -/
def alpha : Int := -2 ^ 63

@[inherit_doc alpha] def omega : Int := 2 ^ 63 - 1

/-- A `time.Location`: the offset from UTC, in seconds, before the first transition,
and the transitions, each the Unix time from which an offset holds. -/
structure Location where
  first : Int
  tx : List (Int × Int)
  sorted : tx.Pairwise fun a b => a.1 < b.1

/-- `time.UTC`. -/
def Location.utc : Location := ⟨0, [], List.Pairwise.nil⟩

/-- The search of `lookup`: the last transition not after `sec`. -/
def lookupFrom (sec : Int) (offset start : Int) : List (Int × Int) → Zone
  | [] => ⟨offset, start, omega⟩
  | (when_, next) :: tx => if sec < when_ then ⟨offset, start, when_⟩ else lookupFrom sec next when_ tx

/-- `lookup`: the zone in use at the Unix time `sec`. -/
def Location.lookup (loc : Location) (sec : Int) : Zone := lookupFrom sec loc.first alpha loc.tx

/-- Seconds of the local clock, counted as if it showed UTC. -/
def Location.wall (loc : Location) (sec : Int) : Int := sec + (loc.lookup sec).offset

/-- The instant `Date` picks for a local clock reading: it looks the reading up as if
it were UTC, and again when the instant that gives lies outside the zone found. -/
def Location.resolve (loc : Location) (wall : Int) : Int :=
  let zone := loc.lookup wall
  if zone.offset = 0 then wall
  else
    let utc := wall - zone.offset
    if utc < zone.start ∨ zone.stop ≤ utc then wall - (loc.lookup utc).offset else utc

/-! ## Fields of an instant -/

/-- What a clock in a location shows. -/
structure Clock where
  date : CivilDate
  hour : Int
  minute : Int
  second : Int
  weekday : Int
  deriving DecidableEq, Repr

/-- The fields of a local clock reading. -/
def clockOfWall (wall : Int) : Clock :=
  { date := civilOfDays (wall / 86400)
    hour := wall % 86400 / 3600
    minute := wall % 3600 / 60
    second := wall % 60
    weekday := weekdayOfDays (wall / 86400) }

/-- `t.In(loc)` read off field by field: `Date`, `Clock` and `Weekday`. -/
def Time.clockIn (t : Time) (loc : Location) : Clock := clockOfWall (loc.wall t.unix)

/-- `time.Date`.  The source carries excess seconds, minutes and hours into the day
first; their sum, which is all it uses, is the same before and after. -/
def date (year month day hour min sec nsec : Int) (loc : Location) : Time :=
  let days := daysOfCivil ⟨year + (month - 1) / 12, (month - 1) % 12 + 1, 1⟩ + (day - 1)
  ofUnix (loc.resolve (days * 86400 + hour * 3600 + min * 60 + sec)) + nsec

/-- Rebuilding a clock reading to the minute gives the reading rounded down. -/
theorem date_clockOfWall (wall : Int) (loc : Location) :
    date (clockOfWall wall).date.year (clockOfWall wall).date.month (clockOfWall wall).date.day
      (clockOfWall wall).hour (clockOfWall wall).minute 0 0 loc =
      ofUnix (loc.resolve (wall - wall % 60)) := by
  have hmonth := month_civilOfDays (wall / 86400)
  have hdays := daysOfCivil_civilOfDays (wall / 86400)
  have hfirst := daysOfCivil_day (civilOfDays (wall / 86400)) 1
  simp only [date, clockOfWall]
  generalize civilOfDays (wall / 86400) = civil at hmonth hdays hfirst ⊢
  have hyear : civil.year + (civil.month - 1) / 12 = civil.year := by omega
  have hsame : (civil.month - 1) % 12 + 1 = civil.month := by omega
  have hwall : wall / 86400 * 86400 + wall % 86400 / 3600 * 3600 + wall % 3600 / 60 * 60 + 0 =
      wall - wall % 60 := by omega
  rw [hyear, hsame, hfirst, hdays, Int.add_zero]
  rw [show wall / 86400 + (1 - civil.day) + (civil.day - 1) = wall / 86400 by omega, hwall]

/-! ## Formatting -/

open Drover.Foundation (Bytes)
open Drover.Foundation.Bytes (ascii ofChars isDigit)

/-- `appendInt`: decimal digits, at least `width` of them. -/
def appendInt (n : Int) (width : Nat) : Bytes :=
  let digits := ofChars (Nat.toDigits 10 n.natAbs)
  (if n < 0 then [ascii '-'] else []) ++ List.replicate (width - digits.length) (ascii '0') ++ digits

/-- `.999999999`: the digits of a fraction of a second without trailing zeros. -/
def appendNano (nsec : Int) : Bytes :=
  let digits := (appendInt nsec 9).rdropWhile (· = ascii '0')
  if digits = [] then [] else ascii '.' :: digits

/-- `t.UTC().Format(time.RFC3339Nano)`. -/
def Time.formatRFC3339Nano (t : Time) : Bytes :=
  let clock := clockOfWall t.unix
  appendInt clock.date.year 4 ++ [ascii '-'] ++ appendInt clock.date.month 2 ++ [ascii '-'] ++
    appendInt clock.date.day 2 ++ [ascii 'T'] ++ appendInt clock.hour 2 ++ [ascii ':'] ++
    appendInt clock.minute 2 ++ [ascii ':'] ++ appendInt clock.second 2 ++
    appendNano (t % second) ++ [ascii 'Z']

example : Time.formatRFC3339Nano (ofUnix 1700000000 + 120000000) =
    ofChars "2023-11-14T22:13:20.12Z".toList := by
  decide

theorem isDigit_ascii {c : Char} (h : c.isDigit = true) : isDigit (ascii c) = true := by
  simp only [Char.isDigit, Bool.and_eq_true, decide_eq_true_eq, UInt32.le_iff_toNat_le] at h
  have hzero : ('0' : Char).val.toNat = 48 := by decide
  have hnine : ('9' : Char).val.toNat = 57 := by decide
  have hlow : (ascii '0').toNat = 48 := by decide
  have hhigh : (ascii '9').toNat = 57 := by decide
  have hbyte : (ascii c).toNat = c.val.toNat := by
    rw [ascii, UInt8.toNat_ofNat', ← Char.toNat_val]
    omega
  simp only [isDigit, Bool.and_eq_true, decide_eq_true_eq, UInt8.le_iff_toNat_le]
  omega

theorem mem_appendInt {n : Int} {width : Nat} {b : UInt8} (h : b ∈ appendInt n width) :
    isDigit b = true ∨ b = ascii '-' := by
  rw [appendInt] at h
  simp only [List.mem_append, List.mem_replicate] at h
  rcases h with (hsign | ⟨-, rfl⟩) | hdigit
  · split at hsign
    · exact .inr (List.mem_singleton.mp hsign)
    · exact absurd hsign List.not_mem_nil
  · exact .inl (by decide)
  · obtain ⟨c, hc, rfl⟩ := List.mem_map.mp hdigit
    exact .inl (isDigit_ascii (Nat.isDigit_of_mem_toDigits (by omega) (by omega) hc))

theorem mem_appendNano {nsec : Int} {b : UInt8} (h : b ∈ appendNano nsec) :
    isDigit b = true ∨ b = ascii '-' ∨ b = ascii '.' := by
  rw [appendNano] at h
  split at h
  · exact absurd h List.not_mem_nil
  · rcases List.mem_cons.mp h with hdot | hdigits
    · exact .inr (.inr hdot)
    · exact (mem_appendInt ((List.rdropWhile_prefix _ _).subset hdigits)).imp_right .inl

/-- The bytes of a formatted time. -/
theorem mem_formatRFC3339Nano {t : Time} {b : UInt8} (h : b ∈ t.formatRFC3339Nano) :
    isDigit b = true ∨ b ∈ ofChars ['-', 'T', ':', '.', 'Z'] := by
  have hint : ∀ {n : Int} {width : Nat}, b ∈ appendInt n width →
      isDigit b = true ∨ b ∈ ofChars ['-', 'T', ':', '.', 'Z'] := by
    intro n width hmem
    rcases mem_appendInt hmem with hdigit | rfl
    · exact .inl hdigit
    · exact .inr (by decide)
  have hnano : ∀ {n : Int}, b ∈ appendNano n →
      isDigit b = true ∨ b ∈ ofChars ['-', 'T', ':', '.', 'Z'] := by
    intro n hmem
    rcases mem_appendNano hmem with hdigit | rfl | rfl
    · exact .inl hdigit
    · exact .inr (by decide)
    · exact .inr (by decide)
  simp only [Time.formatRFC3339Nano, List.mem_append, List.mem_singleton, or_assoc] at h
  rcases h with h | rfl | h | rfl | h | rfl | h | rfl | h | rfl | h | h | rfl
  all_goals first
    | exact hint h
    | exact hnano h
    | exact .inr (by decide)

/-- No byte of a formatted time is NUL. -/
theorem zero_notMem_formatRFC3339Nano (t : Time) : (0 : UInt8) ∉ t.formatRFC3339Nano := by
  intro hmem
  exact absurd (mem_formatRFC3339Nano hmem) (by decide)

end Drover.Go
