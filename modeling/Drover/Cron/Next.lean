import Drover.Cron.Safety

set_option autoImplicit false

/-!
# The next firing of a cron schedule

`Next` rebuilds its argument from the fields of the local clock, to the minute, and
then looks at one minute after another.  A local clock that is set back shows some
readings twice, and `time.Date` has to pick one of the two instants; when it picks
the earlier one for a `t` in the second pass, the search starts in the past.
-/

namespace Drover.Cron

open Drover.Foundation
open Drover.Foundation.Bytes
open Drover.Go (Location Time Clock)

/-- `maxScanMinutes`. -/
def maxScanMinutes : Nat := 5 * 366 * 24 * 60

/-- `cronSchedule.matches`, on what the local clock shows. -/
def CronSchedule.matchesClock (s : CronSchedule) (c : Clock) : Bool :=
  if !s.minute.has c.minute || !s.hour.has c.hour || !s.month.has c.date.month then false
  else
    let dom := s.dom.has c.date.day
    let dow := s.dow.has c.weekday
    if !s.domStar && !s.dowStar then dom || dow else dom && dow

/-- `cronSchedule.matches`. -/
def CronSchedule.matches (s : CronSchedule) (t : Time) : Bool := s.matchesClock (t.clockIn s.loc)

/-- The loop of `Next`: the first match among `n` minutes from `t` on, else the zero
time. -/
def CronSchedule.scan (s : CronSchedule) : Nat → Time → Time
  | 0, _ => 0
  | n + 1, t => if s.matches t then t else s.scan n (t + Go.minute)

/-- `cronSchedule.Next`. -/
def CronSchedule.next (s : CronSchedule) (t : Time) : Time :=
  let c := t.clockIn s.loc
  s.scan maxScanMinutes
    (Go.date c.date.year c.date.month c.date.day c.hour c.minute 0 0 s.loc + Go.minute)

/-- The instant `time.Date` gives for the minute the local clock shows at `t`. -/
def minuteOf (loc : Location) (t : Time) : Time :=
  Go.ofUnix (loc.resolve (loc.wall t.unix - loc.wall t.unix % 60))

theorem next_eq (s : CronSchedule) (t : Time) :
    s.next t = s.scan maxScanMinutes (minuteOf s.loc t + Go.minute) := by
  rw [CronSchedule.next, Time.clockIn, Go.date_clockOfWall, minuteOf]

/-! ## The scan -/

/-- The `k`-th minute after `t`. -/
def minutesAfter (t : Time) (k : Nat) : Time := t + k * Go.minute

/-- The scan stops at the first match, and gives the zero time when there is none. -/
theorem scan_cases (s : CronSchedule) (n : Nat) (t : Time) :
    ((∀ k, k < n → s.matches (minutesAfter t (k + 1)) = false) ∧
        s.scan n (t + Go.minute) = 0) ∨
      ∃ k, k < n ∧ s.matches (minutesAfter t (k + 1)) = true ∧
        (∀ j, j < k → s.matches (minutesAfter t (j + 1)) = false) ∧
        s.scan n (t + Go.minute) = minutesAfter t (k + 1) := by
  induction n generalizing t with
  | zero => exact Or.inl ⟨fun k hk => absurd hk (Nat.not_lt_zero k), rfl⟩
  | succ n ih =>
      have hfirst : minutesAfter t 1 = t + Go.minute := by simp [minutesAfter]
      have hshift : ∀ k, minutesAfter (t + Go.minute) (k + 1) = minutesAfter t (k + 1 + 1) := by
        intro k
        rw [minutesAfter, minutesAfter, Int.natCast_add_one (k + 1), Int.add_mul, Int.one_mul,
          Int.add_comm (_ * _), Int.add_assoc]
      rw [CronSchedule.scan]
      by_cases hmatch : s.matches (t + Go.minute) = true
      · rw [if_pos hmatch]
        exact Or.inr ⟨0, Nat.succ_pos n, by rw [Nat.zero_add, hfirst]; exact hmatch,
          fun j hj => absurd hj (Nat.not_lt_zero j), by rw [Nat.zero_add, hfirst]⟩
      · rw [if_neg hmatch]
        have hzero : s.matches (minutesAfter t (0 + 1)) = false := by
          rw [Nat.zero_add, hfirst]
          simpa using hmatch
        rcases ih (t + Go.minute) with ⟨hnone, heq⟩ | ⟨k, hk, hmatch', hbefore, heq⟩
        · refine Or.inl ⟨?_, heq⟩
          intro k hk
          cases k with
          | zero => exact hzero
          | succ k =>
              rw [← hshift]
              exact hnone k (Nat.lt_of_succ_lt_succ hk)
        · refine Or.inr ⟨k + 1, Nat.succ_lt_succ hk, by rw [← hshift]; exact hmatch', ?_,
            by rw [heq, hshift]⟩
          intro j hj
          cases j with
          | zero => exact hzero
          | succ j =>
              rw [← hshift]
              exact hbefore j (Nat.lt_of_succ_lt_succ hj)

theorem minutesAfter_mono (t : Time) {j k : Nat} (h : j ≤ k) :
    minutesAfter t j ≤ minutesAfter t k :=
  Int.add_le_add_left (Int.mul_le_mul_of_nonneg_right (Int.ofNat_le.mpr h) (by decide)) t

/-! ## Strictly after `t` -/

/-- The schedule matches a minute that is not after `t` but comes after the instant
`time.Date` gives for the minute the clock shows at `t`: the clock has shown that minute
before, and `t` lies in a later pass.  A match at the zero time itself is not seen as
one, since `Next` then returns what it returns for no match. -/
def CronSchedule.Repeats (s : CronSchedule) (t : Time) : Prop :=
  ∃ k, k < maxScanMinutes ∧ s.matches (minutesAfter (minuteOf s.loc t) (k + 1)) = true ∧
    minutesAfter (minuteOf s.loc t) (k + 1) ≤ t ∧
    ∀ j, j ≤ k → s.matches (minutesAfter (minuteOf s.loc t) (j + 1)) = true →
      minutesAfter (minuteOf s.loc t) (j + 1) ≠ 0

/-- Without such a minute `Next` moves forward. -/
theorem next_after_of_not_repeats {s : CronSchedule} {t : Time} (h : ¬s.Repeats t) :
    s.next t = 0 ∨ t < s.next t := by
  rw [next_eq]
  rcases scan_cases s maxScanMinutes (minuteOf s.loc t) with
    ⟨-, heq⟩ | ⟨k, hk, hmatch, hbefore, heq⟩
  · rw [heq]
    exact Or.inl rfl
  · rw [heq]
    by_cases hzero : minutesAfter (minuteOf s.loc t) (k + 1) = 0
    · exact Or.inl hzero
    · refine Or.inr (Int.not_le.mp fun hle => h ⟨k, hk, hmatch, hle, ?_⟩)
      intro j hj hmatch'
      rcases Nat.lt_or_eq_of_le hj with hlt | rfl
      · rw [hbefore j hlt] at hmatch'
        exact absurd hmatch' (by decide)
      · exact hzero

/-- For every schedule, those `parseIn` accepts among them, in every location and at
every instant, `Next` gives the zero time or a later instant exactly when the schedule
does not match again in a repeated stretch of the clock. -/
theorem next_after_iff (s : CronSchedule) (t : Time) :
    (s.next t = 0 ∨ t < s.next t) ↔ ¬s.Repeats t := by
  refine ⟨?_, next_after_of_not_repeats⟩
  rw [next_eq]
  rcases scan_cases s maxScanMinutes (minuteOf s.loc t) with
    ⟨hnone, heq⟩ | ⟨k, hk, hmatch, hbefore, heq⟩
  · rintro - ⟨k, hk, hmatch, -⟩
    rw [hnone k hk] at hmatch
    exact absurd hmatch (by decide)
  · rw [heq]
    rintro hnext ⟨k', -, hmatch', hle, hzero⟩
    -- `Next` returned the first match, so nothing matches before `k`
    have hfirst : k ≤ k' := by
      by_contra hlt
      rw [hbefore k' (Nat.lt_of_not_le hlt)] at hmatch'
      exact absurd hmatch' (by decide)
    rcases hnext with hnext | hnext
    · exact hzero k hfirst hmatch hnext
    · have hmono := minutesAfter_mono (minuteOf s.loc t) (Nat.succ_le_succ hfirst)
      exact absurd (Int.lt_of_lt_of_le hnext (Int.le_trans hmono hle)) (Int.lt_irrefl t)

/-! ## A clock set back -/

/-- `Date` that gives the minute `t` lies in leaves nothing to repeat. -/
theorem not_repeats_of_own_minute {s : CronSchedule} {t : Time}
    (h : t < minuteOf s.loc t + Go.minute) : ¬s.Repeats t := by
  rintro ⟨k, -, -, hle, -⟩
  have hfirst : minutesAfter (minuteOf s.loc t) 1 = minuteOf s.loc t + Go.minute := by
    simp [minutesAfter]
  have hmono := minutesAfter_mono (minuteOf s.loc t) (Nat.succ_le_succ (Nat.zero_le k))
  rw [hfirst] at hmono
  exact absurd (Int.lt_of_lt_of_le h (Int.le_trans hmono hle)) (Int.lt_irrefl t)

/-- The offset `Date` reckons with for a local clock reading. -/
def dateOffset (loc : Location) (wall : Int) : Int := wall - loc.resolve wall

theorem offset_lookupFrom_mem (sec offset start : Int) (tx : List (Int × Int)) :
    (Go.lookupFrom sec offset start tx).offset ∈ offset :: tx.map Prod.snd := by
  induction tx generalizing offset start with
  | nil => exact List.mem_cons_self
  | cons head tx ih =>
      obtain ⟨when_, next⟩ := head
      rw [Go.lookupFrom]
      split
      · exact List.mem_cons_self
      · exact List.mem_cons_of_mem _ (ih next when_)

theorem dateOffset_mem (loc : Location) (wall : Int) :
    dateOffset loc wall ∈ loc.first :: loc.tx.map Prod.snd := by
  have hmem : ∀ sec, (loc.lookup sec).offset ∈ loc.first :: loc.tx.map Prod.snd :=
    fun sec => offset_lookupFrom_mem sec loc.first Go.alpha loc.tx
  unfold dateOffset Location.resolve
  dsimp only
  split
  · rename_i hzero
    rw [Int.sub_self, ← hzero]
    exact hmem wall
  · split
    · rw [Int.sub_sub_self]
      exact hmem _
    · rw [Int.sub_sub_self]
      exact hmem wall

/-- What repeats is read off two offsets of the location: the one `Date` reckons with for the
minute the clock shows at `t`, and the one in use at `t`.  The search starts as far back as
the first is ahead of the second, and the schedule matches a minute it goes through. -/
theorem repeats_iff_offsets (s : CronSchedule) (t : Time) :
    s.Repeats t ↔
      ∃ k, k < maxScanMinutes ∧ s.matches (minutesAfter (minuteOf s.loc t) (k + 1)) = true ∧
        60 * ((k : Int) + 1) ≤ s.loc.wall t.unix % 60 +
          (dateOffset s.loc (s.loc.wall t.unix - s.loc.wall t.unix % 60) -
            (s.loc.lookup t.unix).offset) ∧
        ∀ j, j ≤ k → s.matches (minutesAfter (minuteOf s.loc t) (j + 1)) = true →
          minutesAfter (minuteOf s.loc t) (j + 1) ≠ 0 := by
  have hle : ∀ k : Nat, minutesAfter (minuteOf s.loc t) (k + 1) ≤ t ↔
      60 * ((k : Int) + 1) ≤ s.loc.wall t.unix % 60 +
        (dateOffset s.loc (s.loc.wall t.unix - s.loc.wall t.unix % 60) -
          (s.loc.lookup t.unix).offset) := by
    intro k
    have hwall : s.loc.wall t.unix = t.unix + (s.loc.lookup t.unix).offset := rfl
    unfold dateOffset minutesAfter minuteOf
    generalize s.loc.resolve (s.loc.wall t.unix - s.loc.wall t.unix % 60) = u
    generalize s.loc.wall t.unix % 60 = m
    rw [hwall]
    generalize (s.loc.lookup t.unix).offset = o
    unfold Go.ofUnix Time.unix Go.unixToInternal Go.minute Go.second
    push_cast
    change (_ : Int) ≤ (_ : Int) ↔ _
    omega
  unfold CronSchedule.Repeats
  simp only [hle]

/-- Nothing repeats while the clock is as far ahead as it ever is. -/
theorem not_repeats_of_offsets_le {s : CronSchedule} {t : Time}
    (h : ∀ offset ∈ s.loc.first :: s.loc.tx.map Prod.snd, offset ≤ (s.loc.lookup t.unix).offset) :
    ¬s.Repeats t := by
  rw [repeats_iff_offsets]
  rintro ⟨k, -, -, hle, -⟩
  have hdate := h _ (dateOffset_mem s.loc (s.loc.wall t.unix - s.loc.wall t.unix % 60))
  omega

/-- A field that is one number sets one bit. -/
theorem parseField_single (b : Bounds) (tok : Bytes) (v : Int64) (hitems : items tok = [tok])
    (hne : tok ≠ []) (hstep : itemStep tok = .ok ⟨1, by decide⟩)
    (hrange : parseRange (rangeTok tok) b.minVal b.maxVal = .ok (v, v)) :
    parseField tok b.minVal b.maxVal b.wrap7 =
      .ok ⟨0 ||| 1#64 <<< (bitOf b.wrap7 v).toInt.toNat⟩ := by
  obtain ⟨hlow, -, hsmall⟩ := parseRange_bounds hrange
  simp only at hlow hsmall
  have hpast : ¬v + 1 ≤ v := by
    have hone : (1 : Int64).toInt = 1 := by decide
    have hsum := Go.toInt_add_of_le hlow (by decide : 0 ≤ (1 : Int64).toInt)
      (by unfold Go.maxInt; omega)
    rw [Int64.le_iff_toInt_le, hsum]
    omega
  have hbit : ¬bitOf b.wrap7 v < 0 := by
    rw [bitOf_neg_iff]
    omega
  have hloop : addLoop b.wrap7 v 1 (by decide) v 0 =
      .ok (0 ||| 1#64 <<< (bitOf b.wrap7 v).toInt.toNat) := by
    rw [addLoop, dif_pos (Int64.le_refl v), dif_neg hbit, addLoop, dif_neg hpast]
  have hitem : addItem b.minVal b.maxVal b.wrap7 ⟨0⟩ tok =
      .ok ⟨0 ||| 1#64 <<< (bitOf b.wrap7 v).toInt.toNat⟩ := by
    rw [addItem_eq b ⟨0⟩ hne, hstep]
    simp only [bind, Except.bind, hrange, hloop]
  apply parseField_of_addItems hne
  rw [hitems, List.foldlM_cons, hitem]
  rfl

/-- A clock four hours behind UTC that is set back by an hour on 2 November 2025 at
06:00 UTC. -/
def setBack : Location := ⟨-14400, [(1762063200, -18000)], by decide⟩

/-- The spec `31 1 2 11 0`. -/
def repeatedSpec : Bytes :=
  ofChars ['3', '1', ' ', '1', ' ', '2', ' ', '1', '1', ' ', '0']

/-- What the parser makes of it. -/
def repeatedSchedule : CronSchedule :=
  { minute := ⟨0 ||| 1#64 <<< 31⟩
    hour := ⟨0 ||| 1#64 <<< 1⟩
    dom := ⟨0 ||| 1#64 <<< 2⟩
    month := ⟨0 ||| 1#64 <<< 11⟩
    dow := ⟨0 ||| 1#64 <<< 0⟩
    domStar := false
    dowStar := false
    loc := setBack }

theorem parseIn_repeatedSpec (loc : Location) :
    parseIn repeatedSpec (some loc) = .ok (.cron { repeatedSchedule with loc := loc }) := by
  have hfields : Go.fields repeatedSpec =
      [ofChars ['3', '1'], ofChars ['1'], ofChars ['2'], ofChars ['1', '1'], ofChars ['0']] := by
    decide
  have hminute : parseField _ 0 59 false = _ :=
    parseField_single minuteBounds (ofChars ['3', '1']) 31 (by decide) (by decide) rfl rfl
  have hhour : parseField _ 0 23 false = _ :=
    parseField_single hourBounds (ofChars ['1']) 1 (by decide) (by decide) rfl rfl
  have hdom : parseField _ 1 31 false = _ :=
    parseField_single domBounds (ofChars ['2']) 2 (by decide) (by decide) rfl rfl
  have hmonth : parseField _ 1 12 false = _ :=
    parseField_single monthBounds (ofChars ['1', '1']) 11 (by decide) (by decide) rfl rfl
  have hdow : parseField _ 0 7 true = _ :=
    parseField_single dowBounds (ofChars ['0']) 0 (by decide) (by decide) rfl rfl
  rw [parseIn, hfields]
  simp only
  rw [if_neg (by decide), parseFields, hminute, hhour, hdom, hmonth, hdow]
  rfl

/-- The parser accepts the spec, and half an hour into the repeated hour the next firing
it gives is the one of the first pass, 59 minutes before. -/
theorem repeatedSpec_goes_back :
    parseIn repeatedSpec (some setBack) = .ok (.cron repeatedSchedule) ∧
      repeatedSchedule.next (Go.ofUnix 1762065000) = Go.ofUnix 1762061460 ∧
      ¬(repeatedSchedule.next (Go.ofUnix 1762065000) = 0 ∨
        Go.ofUnix 1762065000 < repeatedSchedule.next (Go.ofUnix 1762065000)) := by
  have hscan : maxScanMinutes = 2635199 + 1 := rfl
  have hnext : repeatedSchedule.next (Go.ofUnix 1762065000) = Go.ofUnix 1762061460 := by
    rw [next_eq, hscan, CronSchedule.scan, if_pos (by decide)]
    decide
  exact ⟨parseIn_repeatedSpec setBack, hnext, by rw [hnext]; decide⟩

end Drover.Cron
