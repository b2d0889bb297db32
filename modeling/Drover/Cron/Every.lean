import Drover.Cron.Next
import Mathlib.Algebra.Ring.Divisibility.Basic
import Mathlib.Algebra.Ring.Int.Defs
import Mathlib.Order.Bounds.Defs

set_option autoImplicit false

/-!
# The next firing of an `@every` schedule

`Truncate` rounds down to a multiple of the duration since the zero time, January 1 of
year 1, and the ticks are the multiples counted from there.  The Unix epoch is one of
them exactly when the duration divides the time between the two, so every divisor of a
day puts it on the grid and seven seconds does not.
-/

namespace Drover.Cron

open Drover.Foundation
open Drover.Foundation.Bytes
open Drover.Go (Location Time Duration)

/-- The loop of `everySchedule.Next`, at most `n` times round. -/
def everyLoop (d : Duration) (t : Time) : Nat → Time → Time
  | 0, next => next
  | n + 1, next => if t < next then next else everyLoop d t n (next + d)

/-- `everySchedule.Next`.  The duration is positive, so going round once for each
nanosecond up to `t` is enough. -/
def everyNext (d : Duration) (t : Time) : Time :=
  let next := t.truncate d + d
  everyLoop d t (t + 1 - next).toNat next

/-- `Schedule.Next`. -/
def Schedule.next : Schedule → Time → Time
  | .cron s, t => s.next t
  | .every d, t => everyNext d t

/-- Five fields make a cron schedule. -/
theorem parseFields_ne_every {minute hour dom month dow : Bytes} {loc : Location} {d : Duration} :
    parseFields minute hour dom month dow loc ≠ .ok (.every d) := by
  intro h
  obtain ⟨s, hs, -⟩ := parseFields_ok h
  cases hs

theorem parseEvery_pos {rest : List Bytes} {d : Duration}
    (h : parseEvery rest = .ok (.every d)) : 0 < d := by
  unfold parseEvery at h
  split at h
  · cases h
  · split at h
    · cases h
    · split at h
      · cases h
      · rename_i hpos
        cases h
        exact Int.not_le.mp hpos

/-- A duration `ParseIn` accepts is positive. -/
theorem every_pos {spec : Bytes} {loc : Option Location} {d : Duration}
    (h : parseIn spec loc = .ok (.every d)) : 0 < d := by
  unfold parseIn at h
  split at h
  · split at h
    · exact parseEvery_pos h
    · split at h
      · exact absurd h parseFields_ne_every
      · cases h
  · cases h

/-! ## The grid -/

/-- The loop is never entered: one duration past the truncated instant is past `t`. -/
theorem everyNext_eq {d : Duration} (hd : 0 < d) (t : Time) : everyNext d t = (t / d + 1) * d := by
  have htruncate : t.truncate d + d = (t / d + 1) * d := by
    rw [Time.truncate, if_neg (Int.not_le.mpr hd), Int.emod_def, Int.sub_sub_self, Int.add_mul,
      Int.one_mul, Int.mul_comm]
  have hafter := Int.lt_ediv_add_one_mul_self t hd
  have hfuel : (t + 1 - (t / d + 1) * d).toNat = 0 :=
    Int.toNat_of_nonpos (Int.sub_nonpos_of_le (Int.add_one_le_of_lt hafter))
  simp only [everyNext, htruncate, hfuel, everyLoop]

/-- The next tick is the least later instant that is a multiple of the duration since
the zero time. -/
theorem everyNext_isLeast {d : Duration} (hd : 0 < d) (t : Time) :
    IsLeast {u : Time | t < u ∧ d ∣ u} (everyNext d t) := by
  rw [everyNext_eq hd]
  refine ⟨⟨Int.lt_ediv_add_one_mul_self t hd, Int.dvd_mul_left _ _⟩, ?_⟩
  rintro u ⟨hafter, k, rfl⟩
  -- a later multiple is at least one step past the last multiple not after `t`
  have hk : t / d < k := Int.ediv_lt_of_lt_mul hd (by rwa [Int.mul_comm])
  rw [Int.mul_comm d k]
  exact Int.mul_le_mul_of_nonneg_right (Int.add_one_le_of_lt hk) (Int.le_of_lt hd)

/-- The schedule matches again in a repeated stretch of the clock; only a cron schedule
looks at the clock of a location. -/
def Schedule.Repeats : Schedule → Time → Prop
  | .cron s, t => s.Repeats t
  | .every _, _ => False

instance Schedule.Repeats.decidable : (s : Schedule) → (t : Time) → Decidable (s.Repeats t)
  | .cron _, _ => inferInstanceAs (Decidable (∃ k, k < maxScanMinutes ∧ _ ∧ _ ∧ ∀ j, j ≤ k → _))
  | .every _, _ => inferInstanceAs (Decidable False)

/-- Elsewhere a schedule that `ParseIn` accepts moves forward. -/
theorem lt_next_of_not_repeats {spec : Bytes} {loc : Option Location} {schedule : Schedule}
    {t : Time} (hparse : parseIn spec loc = .ok schedule) (hrepeats : ¬schedule.Repeats t)
    (hne : schedule.next t ≠ 0) : t < schedule.next t := by
  cases schedule with
  | cron s => exact (next_after_of_not_repeats hrepeats).resolve_left hne
  | every d => exact (everyNext_isLeast (every_pos hparse) t).1.1

/-- `time.Unix(0, 0)`. -/
def unixEpoch : Time := Go.ofUnix 0

/-- For every duration `ParseIn` accepts, in every location and at every instant, the
next tick is the least later multiple of the duration since the zero time, so all
processes share one grid; and it is the least later multiple since the Unix epoch
exactly when the duration divides the time from the zero time to the epoch. -/
theorem everyNext_epoch_aligned_iff {spec : Bytes} {loc : Option Location} {d : Duration}
    (hparse : parseIn spec loc = .ok (.every d)) (t : Time) :
    IsLeast {u : Time | t < u ∧ d ∣ u} (Schedule.next (.every d) t) ∧
      (IsLeast {u : Time | t < u ∧ d ∣ u - unixEpoch} (Schedule.next (.every d) t) ↔
        d ∣ unixEpoch) := by
  have hleast := everyNext_isLeast (every_pos hparse) t
  refine ⟨hleast, ?_, ?_⟩
  · rintro ⟨⟨-, haligned⟩, -⟩
    exact (dvd_iff_dvd_of_dvd_sub haligned).mp hleast.1.2
  · intro hepoch
    have hsame : {u : Time | t < u ∧ d ∣ u - unixEpoch} = {u : Time | t < u ∧ d ∣ u} := by
      ext u
      exact and_congr_right fun _ => dvd_sub_left hepoch
    rw [hsame]
    exact hleast

/-- A spec of `@every` and one number of seconds. -/
theorem parseIn_every_seconds {spec : Bytes} (tok : Bytes) (n : Nat)
    (hfields : Go.fields spec = [everyWord, tok]) (hsign : tok.head? ≠ some (ascii '-'))
    (hplus : tok.head? ≠ some (ascii '+')) (hzero : tok ≠ [ascii '0'])
    (hterm : Go.parseTerm tok tok = .ok (n, [])) (hpos : 0 < n) (hfit : n ≤ 2 ^ 63 - 1) :
    parseIn spec none = .ok (.every n) := by
  have hne : tok ≠ [] := by
    rintro rfl
    cases hterm
  have hparse : Go.parseDuration tok = .ok n := by
    simp only [Go.parseDuration, hsign, hplus, or_self, if_false, if_neg hzero, if_neg hne,
      Go.parseTerms_single hterm (d := 0) (by omega), Nat.zero_add, if_neg (Nat.not_lt.mpr hfit)]
  have hjoin : Go.join (ascii ' ') [tok] = tok := rfl
  simp only [parseIn, hfields, if_true, parseEvery, List.length_cons, List.length_nil, hjoin, hparse,
    if_neg (show ¬(n : Int) ≤ 0 by omega), if_neg (show ¬0 + 1 = 0 by omega)]

/-- The specs `@every 30s` and `@every 7s`. -/
def everyThirty : Bytes := everyWord ++ ofChars [' ', '3', '0', 's']

@[inherit_doc everyThirty] def everySeven : Bytes := everyWord ++ ofChars [' ', '7', 's']

theorem parseIn_everyThirty : parseIn everyThirty none = .ok (.every (30 * Go.second)) :=
  parseIn_every_seconds (ofChars ['3', '0', 's']) 30000000000 (by decide) (by decide)
    (by decide) (by decide) rfl (by decide) (by decide)

/-- Half a minute divides the time to the epoch. -/
theorem everyThirty_epoch_aligned :
    IsLeast {u : Time | unixEpoch < u ∧ 30 * Go.second ∣ u - unixEpoch}
      (Schedule.next (.every (30 * Go.second)) unixEpoch) :=
  (everyNext_epoch_aligned_iff parseIn_everyThirty unixEpoch).2.mpr (by decide)

/-- From the epoch on, the first tick of `@every 7s` is three seconds later. -/
theorem everySeven_not_epoch_aligned :
    parseIn everySeven none = .ok (.every (7 * Go.second)) ∧
      Schedule.next (.every (7 * Go.second)) unixEpoch = unixEpoch + 3 * Go.second ∧
      ¬IsLeast {u : Time | unixEpoch < u ∧ 7 * Go.second ∣ u - unixEpoch}
        (Schedule.next (.every (7 * Go.second)) unixEpoch) := by
  refine ⟨parseIn_every_seconds (ofChars ['7', 's']) 7000000000 (by decide) (by decide)
    (by decide) (by decide) rfl (by decide) (by decide), by decide, ?_⟩
  rintro ⟨⟨-, haligned⟩, -⟩
  exact absurd haligned (by decide)

end Drover.Cron
