import Mathlib.Data.List.DropRight
import Drover.Go.Strings
import Drover.Go.Time

set_option autoImplicit false

/-!
# What a formatted time says

`Format(time.RFC3339Nano)` of a time in its location, and of a time in UTC, which it says
completely: two instants that are printed alike are the same (`formatRFC3339Nano_inj`).  The
year may have any number of digits and a sign, and the fraction any number up to nine; the
fields in between have two digits each, and one `T` stands in the middle.  Nothing in this file
names a particular program.
-/

namespace Drover.Go

open Drover.Foundation (Bytes)
open Drover.Foundation.Bytes (ascii ofChars isDigit)

/-! ## Numbers -/

theorem ofChars_inj {cs ds : List Char} (hcs : ∀ c ∈ cs, c.isDigit = true)
    (hds : ∀ c ∈ ds, c.isDigit = true) (h : ofChars cs = ofChars ds) : cs = ds := by
  -- a digit is its byte read as a character
  have hread : ∀ {cs : List Char}, (∀ c ∈ cs, c.isDigit = true) →
      (ofChars cs).map (fun b => Char.ofNat b.toNat) = cs := by
    intro cs hcs
    rw [ofChars, List.map_map]
    conv_rhs => rw [← List.map_id cs]
    refine List.map_congr_left fun c hc => ?_
    have hdigit := hcs c hc
    simp only [Char.isDigit, Bool.and_eq_true, decide_eq_true_eq, UInt32.le_iff_toNat_le] at hdigit
    have hnine : ('9' : Char).val.toNat = 57 := by decide
    have hbyte : (ascii c).toNat = c.toNat := by
      rw [ascii, UInt8.toNat_ofNat', ← Char.toNat_val]
      omega
    rw [Function.comp_apply, hbyte, Char.ofNat_toNat]
    rfl
  rw [← hread hcs, ← hread hds, h]

theorem isDigit_of_mem_padded {k n : Nat} {c : Char}
    (hc : c ∈ List.replicate k '0' ++ Nat.toDigits 10 n) : c.isDigit = true := by
  rcases List.mem_append.mp hc with hc | hc
  · rw [(List.mem_replicate.mp hc).2]
    rfl
  · exact Nat.isDigit_of_mem_toDigits (by omega) (by omega) hc

/-- The digits of a number, padded, say which number it is. -/
theorem digits_inj {m n k l : Nat}
    (h : ofChars (List.replicate k '0' ++ Nat.toDigits 10 m) =
      ofChars (List.replicate l '0' ++ Nat.toDigits 10 n)) : m = n := by
  have hvalue : ∀ k n, Nat.ofDigitChars 10 (List.replicate k '0' ++ Nat.toDigits 10 n) 0 = n := by
    intro k n
    rw [Nat.ofDigitChars_append, Nat.ofDigitChars_replicate_zero, Nat.mul_zero,
      Nat.ofDigitChars_toDigits (by omega) (by omega)]
  rw [← hvalue k m, ofChars_inj (fun _ => isDigit_of_mem_padded) (fun _ => isDigit_of_mem_padded) h, hvalue]

theorem appendInt_eq (n : Int) (width : Nat) :
    appendInt n width = (if n < 0 then [ascii '-'] else []) ++
      ofChars (List.replicate (width - (Nat.toDigits 10 n.natAbs).length) '0' ++
        Nat.toDigits 10 n.natAbs) := by
  rw [appendInt, ofChars, ofChars, List.map_append, List.map_replicate, List.length_map,
    List.append_assoc]

/-- The digits of a number are read as the number. -/
theorem decimal_toDigits (n : Nat) : decimal (ofChars (Nat.toDigits 10 n)) = some n := by
  have hdigit : ∀ c ∈ Nat.toDigits 10 n, c.isDigit = true :=
    fun c hc => Nat.isDigit_of_mem_toDigits (by omega) (by omega) hc
  have hall : (ofChars (Nat.toDigits 10 n)).all isDigit = true := by
    rw [List.all_eq_true]
    intro b hb
    obtain ⟨c, hc, rfl⟩ := List.mem_map.mp hb
    exact isDigit_ascii (hdigit c hc)
  have hbyte : ∀ c ∈ Nat.toDigits 10 n, (ascii c).toNat = c.toNat := by
    intro c hc
    have hlt := hdigit c hc
    simp only [Char.isDigit, Bool.and_eq_true, decide_eq_true_eq, UInt32.le_iff_toNat_le] at hlt
    have hnine : ('9' : Char).val.toNat = 57 := by decide
    rw [ascii, UInt8.toNat_ofNat', ← Char.toNat_val]
    omega
  rw [decimal, if_neg (by simp [ofChars, Nat.toDigits_ne_nil]), if_pos hall, Option.some.injEq,
    ofChars, List.foldl_map]
  refine Eq.trans ?_ (Nat.ofDigitChars_toDigits (b := 10) (n := n) (by omega) (by omega))
  refine List.foldl_ext _ _ _ fun value c hc => ?_
  rw [hbyte c hc]
  rfl

/-- `Atoi` reads back what `Itoa` writes. -/
theorem atoi_appendInt {n : Int} (hn : 0 ≤ n) (hmax : n ≤ maxInt) :
    atoi (appendInt n 0) = some (Int64.ofInt n) := by
  obtain ⟨m, rfl⟩ := Int.eq_ofNat_of_zero_le hn
  have hdigits : appendInt m 0 = ofChars (Nat.toDigits 10 m) := by
    rw [appendInt_eq, if_neg (by omega), List.nil_append, Nat.zero_sub, List.replicate_zero,
      List.nil_append, Int.natAbs_natCast]
  have hread : signedDecimal (ofChars (Nat.toDigits 10 m)) = some (m : Int) := by
    have hdecimal := decimal_toDigits m
    cases htext : ofChars (Nat.toDigits 10 m) with
    | nil =>
        rw [htext] at hdecimal
        cases hdecimal
    | cons b rest =>
        rw [htext] at hdecimal
        have hdigit : isDigit b = true := isDigit_of_decimal hdecimal List.mem_cons_self
        have hsign : b ≠ ascii '-' ∧ b ≠ ascii '+' := by
          constructor
          · rintro rfl
            cases hdigit
          · rintro rfl
            cases hdigit
        rw [signedDecimal, if_neg hsign.1, if_neg hsign.2, hdecimal]
        rfl
  have hrange : (decide (-2 ^ 63 ≤ (m : Int)) && decide ((m : Int) ≤ maxInt)) = true := by
    rw [Bool.and_eq_true, decide_eq_true_eq, decide_eq_true_eq]
    exact ⟨by omega, hmax⟩
  rw [atoi, hdigits, hread, Option.filter_some, if_pos hrange, Option.map_some]

/-- A number that is not negative begins with a digit. -/
theorem dash_ne_digits {n : Int} {width : Nat} {rest : Bytes} (hn : 0 ≤ n) :
    appendInt n width ≠ ascii '-' :: rest := by
  intro h
  have hmem : ascii '-' ∈ appendInt n width := h ▸ List.mem_cons_self
  rw [appendInt_eq, if_neg (by omega), List.nil_append] at hmem
  obtain ⟨c, hc, hdash⟩ := List.mem_map.mp hmem
  have hbyte := isDigit_ascii (isDigit_of_mem_padded hc)
  rw [hdash] at hbyte
  cases hbyte

theorem appendInt_inj {m n : Int} {width : Nat} (h : appendInt m width = appendInt n width) :
    m = n := by
  rcases Int.lt_or_le m 0 with hm | hm
  · rcases Int.lt_or_le n 0 with hn | hn
    · rw [appendInt_eq, appendInt_eq, if_pos hm, if_pos hn] at h
      have habs := digits_inj (List.append_cancel_left h)
      omega
    · rw [appendInt_eq m, if_pos hm] at h
      exact absurd h.symm (dash_ne_digits hn)
  · rcases Int.lt_or_le n 0 with hn | hn
    · rw [appendInt_eq n, if_pos hn] at h
      exact absurd h (dash_ne_digits hm)
    · rw [appendInt_eq, appendInt_eq, if_neg (by omega), if_neg (by omega)] at h
      have habs := digits_inj (List.append_cancel_left h)
      omega

/-- A number with few enough digits fills its width. -/
theorem length_appendInt {n : Int} {width : Nat} (hlow : 0 ≤ n) (hhigh : n < 10 ^ width)
    (hwidth : 0 < width) : (appendInt n width).length = width := by
  have habs : n.natAbs < 10 ^ width := by
    have hcast : (n.natAbs : Int) < ((10 ^ width : Nat) : Int) := by
      rw [Int.natAbs_of_nonneg hlow]
      exact_mod_cast hhigh
    exact_mod_cast hcast
  have hdigits := (Nat.length_toDigits_le_iff (by omega) hwidth).mpr habs
  rw [appendInt_eq, if_neg (by omega), List.nil_append, ofChars, List.length_map,
    List.length_append, List.length_replicate]
  omega

/-! ## Fractions -/

/-- Lists of one length are the same when they are without their trailing `a`s. -/
theorem eq_of_rdropWhile_eq {α : Type} [DecidableEq α] {a : α} {xs ys : List α}
    (hlength : xs.length = ys.length)
    (h : xs.rdropWhile (· = a) = ys.rdropWhile (· = a)) : xs = ys := by
  have hsplit : ∀ zs : List α, zs = zs.rdropWhile (· = a) ++
      List.replicate (zs.length - (zs.rdropWhile (· = a)).length) a := by
    intro zs
    have htake : zs.reverse.takeWhile (· = a) =
        List.replicate (zs.reverse.takeWhile (· = a)).length a := by
      refine List.eq_replicate_of_mem fun b hb => ?_
      have hb := List.mem_takeWhile_imp hb
      exact of_decide_eq_true hb
    have hwhole : zs.reverse.takeWhile (· = a) ++ zs.reverse.dropWhile (· = a) = zs.reverse :=
      List.takeWhile_append_dropWhile
    have hcount := congrArg List.length hwhole
    rw [List.length_append, List.length_reverse] at hcount
    have hzs := congrArg List.reverse hwhole
    rw [List.reverse_append, List.reverse_reverse, htake, List.reverse_replicate] at hzs
    rw [List.rdropWhile, List.length_reverse, ← hcount, Nat.add_sub_cancel]
    exact hzs.symm
  rw [hsplit xs, hsplit ys, h, hlength]

theorem appendNano_inj {m n : Int} (hm : 0 ≤ m ∧ m < 10 ^ 9) (hn : 0 ≤ n ∧ n < 10 ^ 9)
    (h : appendNano m = appendNano n) : m = n := by
  have hdigits : (appendInt m 9).rdropWhile (· = ascii '0') =
      (appendInt n 9).rdropWhile (· = ascii '0') := by
    unfold appendNano at h
    dsimp only at h
    split at h
    · rename_i hnil
      split at h
      · rename_i hnil'
        rw [hnil, hnil']
      · cases h
    · split at h
      · cases h
      · exact (List.cons.inj h).2
  refine appendInt_inj (eq_of_rdropWhile_eq ?_ hdigits)
  rw [length_appendInt hm.1 hm.2 (by omega), length_appendInt hn.1 hn.2 (by omega)]

/-! ## Dates and times of the day -/

/-- Days of a month are 1 to 31. -/
theorem day_civilOfDays (days : Int) :
    1 ≤ (civilOfDays days).day ∧ (civilOfDays days).day ≤ 31 := by
  have hdoe : 0 ≤ (days + marchToUnix) % 146097 ∧ (days + marchToUnix) % 146097 < 146097 := by
    omega
  have hbounds := yearOfEra_bounds hdoe.1 hdoe.2
  simp only [civilOfDays, CivilDate.ofMarch, daysBeforeMonth]
  omega

theorem clockOfWall_bounds (wall : Int) :
    (0 ≤ (clockOfWall wall).hour ∧ (clockOfWall wall).hour < 24) ∧
      (0 ≤ (clockOfWall wall).minute ∧ (clockOfWall wall).minute < 60) ∧
      0 ≤ (clockOfWall wall).second ∧ (clockOfWall wall).second < 60 := by
  simp only [clockOfWall]
  omega

/-- A clock that shows date and time of day shows one reading. -/
theorem clockOfWall_inj {wall wall' : Int} (hdate : (clockOfWall wall).date = (clockOfWall wall').date)
    (hhour : (clockOfWall wall).hour = (clockOfWall wall').hour)
    (hminute : (clockOfWall wall).minute = (clockOfWall wall').minute)
    (hsecond : (clockOfWall wall).second = (clockOfWall wall').second) : wall = wall' := by
  have hdays : wall / 86400 = wall' / 86400 := by
    rw [← daysOfCivil_civilOfDays (wall / 86400), ← daysOfCivil_civilOfDays (wall' / 86400)]
    exact congrArg daysOfCivil hdate
  simp only [clockOfWall] at hhour hminute hsecond
  omega

/-- A number of two digits, read off the front. -/
theorem appendTwo_inj {m n : Int} {xs ys : Bytes} (hm : 0 ≤ m ∧ m < 100) (hn : 0 ≤ n ∧ n < 100)
    (h : appendInt m 2 ++ xs = appendInt n 2 ++ ys) : m = n ∧ xs = ys := by
  have hlength : ∀ {k : Int}, 0 ≤ k ∧ k < 100 → (appendInt k 2).length = 2 := fun hk =>
    length_appendInt hk.1 hk.2 (by omega)
  obtain ⟨hfirst, hrest⟩ := List.append_inj h (by rw [hlength hm, hlength hn])
  exact ⟨appendInt_inj hfirst, hrest⟩

/-- The date as it is printed. -/
def CivilDate.text (date : CivilDate) : Bytes :=
  appendInt date.year 4 ++ ascii '-' :: (appendInt date.month 2 ++ ascii '-' :: appendInt date.day 2)

/-- The time of day as it is printed, and what follows it. -/
def Clock.text (clock : Clock) (rest : Bytes) : Bytes :=
  appendInt clock.hour 2 ++ ascii ':' :: (appendInt clock.minute 2 ++ ascii ':' ::
    (appendInt clock.second 2 ++ rest))

theorem notMem_appendInt {n : Int} {width : Nat} : ascii 'T' ∉ appendInt n width := by
  intro hmem
  exact absurd (mem_appendInt hmem) (by decide)

theorem notMem_appendNano {n : Int} : ascii 'T' ∉ appendNano n := by
  intro hmem
  exact absurd (mem_appendNano hmem) (by decide)

/-- Days are printed apart: whatever the year, the month and the day are the last six bytes. -/
theorem text_civilOfDays_inj {days days' : Int}
    (h : (civilOfDays days).text = (civilOfDays days').text) :
    civilOfDays days = civilOfDays days' := by
  have htwo : ∀ days, (0 ≤ (civilOfDays days).month ∧ (civilOfDays days).month < 100) ∧
      0 ≤ (civilOfDays days).day ∧ (civilOfDays days).day < 100 := by
    intro days
    have hmonth := month_civilOfDays days
    have hday := day_civilOfDays days
    omega
  obtain ⟨hmonth, hday⟩ := htwo days
  obtain ⟨hmonth', hday'⟩ := htwo days'
  generalize civilOfDays days = date at *
  generalize civilOfDays days' = date' at *
  have hlength : ∀ {k : Int}, 0 ≤ k ∧ k < 100 → (appendInt k 2).length = 2 := fun hk =>
    length_appendInt hk.1 hk.2 (by omega)
  obtain ⟨hyear, hrest⟩ := List.append_inj' h (by
    simp [hlength hmonth, hlength hday, hlength hmonth', hlength hday'])
  obtain ⟨hm, hrest⟩ := appendTwo_inj hmonth hmonth' (List.cons.inj hrest).2
  cases date
  cases date'
  rw [CivilDate.mk.injEq]
  exact ⟨appendInt_inj hyear, hm, appendInt_inj (List.cons.inj hrest).2⟩

/-- So are the times of the day. -/
theorem text_clockOfWall_inj {wall wall' : Int} {rest rest' : Bytes}
    (h : (clockOfWall wall).text rest = (clockOfWall wall').text rest') :
    (clockOfWall wall).hour = (clockOfWall wall').hour ∧
      (clockOfWall wall).minute = (clockOfWall wall').minute ∧
      (clockOfWall wall).second = (clockOfWall wall').second ∧ rest = rest' := by
  obtain ⟨hhour, hminute, hsecond⟩ := clockOfWall_bounds wall
  obtain ⟨hhour', hminute', hsecond'⟩ := clockOfWall_bounds wall'
  unfold Clock.text at h
  obtain ⟨hh, h⟩ := appendTwo_inj (by omega) (by omega) h
  obtain ⟨hm, h⟩ := appendTwo_inj (by omega) (by omega) (List.cons.inj h).2
  obtain ⟨hs, h⟩ := appendTwo_inj (by omega) (by omega) (List.cons.inj h).2
  exact ⟨hh, hm, hs, h⟩

/-! ## Instants -/

theorem formatRFC3339Nano_eq (t : Time) :
    t.formatRFC3339Nano = (clockOfWall t.unix).date.text ++
      ascii 'T' :: (clockOfWall t.unix).text (appendNano (t % second) ++ [ascii 'Z']) := by
  simp [Time.formatRFC3339Nano, CivilDate.text, Clock.text]

theorem notMem_date_text (date : CivilDate) : ascii 'T' ∉ date.text := by
  simp only [CivilDate.text, List.mem_append, List.mem_cons, notMem_appendInt, or_false, false_or]
  decide

theorem notMem_clock_text (clock : Clock) (nsec : Int) :
    ascii 'T' ∉ clock.text (appendNano nsec ++ [ascii 'Z']) := by
  simp only [Clock.text, List.mem_append, List.mem_cons, notMem_appendInt, notMem_appendNano,
    List.not_mem_nil, or_false, false_or]
  decide

/-- Instants that are printed alike are the same. -/
theorem formatRFC3339Nano_inj {s t : Time} (h : s.formatRFC3339Nano = t.formatRFC3339Nano) :
    s = t := by
  rw [formatRFC3339Nano_eq, formatRFC3339Nano_eq] at h
  obtain ⟨hdate, -, htime⟩ := (List.append_cons_inj_of_notMem (notMem_date_text _)
    (notMem_clock_text _ _)).mp h
  obtain ⟨hhour, hminute, hsecond, hrest⟩ := text_clockOfWall_inj htime
  have hunix : s.unix = t.unix :=
    clockOfWall_inj (text_civilOfDays_inj hdate) hhour hminute hsecond
  have hnano : ∀ n : Int, 0 ≤ n % 1000000000 ∧ n % 1000000000 < 10 ^ 9 := by
    intro n
    omega
  have hfraction := appendNano_inj (hnano s) (hnano t) (List.append_cancel_right hrest)
  have hwhole : ∀ {m n : Int}, m / 1000000000 - unixToInternal = n / 1000000000 - unixToInternal →
      m % 1000000000 = n % 1000000000 → m = n := by
    intro m n hsec hnsec
    omega
  exact hwhole hunix hfraction

/-! ## Times in their location -/

/-- A `time.Time` with the location it is shown in. -/
structure Located where
  instant : Time
  loc : Location

/-- `t.UTC()`. -/
def Located.utc (t : Located) : Located := { t with loc := Location.utc }

/-- The offset of a zone: `Z`, or hours and minutes with a sign. -/
def appendZone (offset : Int) : Bytes :=
  if offset = 0 then [ascii 'Z']
  else
    let zone := offset.tdiv 60
    (if zone < 0 then ascii '-' else ascii '+') ::
      (appendInt (zone.natAbs / 60) 2 ++ ascii ':' :: appendInt (zone.natAbs % 60) 2)

/-- `t.Format(time.RFC3339Nano)`. -/
def Located.formatRFC3339Nano (t : Located) : Bytes :=
  let clock := t.instant.clockIn t.loc
  clock.date.text ++ ascii 'T' :: clock.text
    (appendNano (t.instant % second) ++ appendZone (t.loc.lookup t.instant.unix).offset)

example : Located.formatRFC3339Nano ⟨ofUnix 1700000000, ⟨-12600, [], List.Pairwise.nil⟩⟩ =
    ofChars "2023-11-14T18:43:20-03:30".toList := by
  decide

theorem formatRFC3339Nano_utc (t : Located) :
    t.utc.formatRFC3339Nano = t.instant.formatRFC3339Nano := by
  have hoffset : (Location.utc.lookup t.instant.unix).offset = 0 := rfl
  rw [Located.formatRFC3339Nano, formatRFC3339Nano_eq, Located.utc, Time.clockIn, Location.wall,
    hoffset, Int.add_zero, appendZone, if_pos rfl]

end Drover.Go
