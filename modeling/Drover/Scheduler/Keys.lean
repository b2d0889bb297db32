import Drover.Go.Format
import Drover.Go.Strings
import Drover.Memdriver.Unique
import Drover.Scheduler.Loop

set_option autoImplicit false

/-!
# The keys of ticks (`periodicUniqueKey`)

The key of a tick is the id of its job, a slash and the instant in UTC.  An id may contain
slashes and anything that looks like an instant; the instant contains no slash, so the last
slash of a key is where it was put.  What a key says of the instant is all of it, to the
nanosecond, so no tick is refused because of another one.
-/

namespace Drover.Scheduler

open Drover.Foundation
open Drover.Foundation.Bytes (ascii ofChars)
open Drover.Go (Time Located)

/-- `periodicUniqueKey`, of a time in its location. -/
def periodicUniqueKeyAt (id : Bytes) (fire : Located) : Bytes :=
  id ++ [ascii '/'] ++ fire.utc.formatRFC3339Nano

/-- The location does not show. -/
theorem periodicUniqueKeyAt_eq (id : Bytes) (fire : Located) :
    periodicUniqueKeyAt id fire = periodicUniqueKey id fire.instant := by
  rw [periodicUniqueKeyAt, periodicUniqueKey, Go.formatRFC3339Nano_utc]

theorem slash_notMem_formatRFC3339Nano (t : Time) : ascii '/' ∉ t.formatRFC3339Nano := by
  intro hmem
  exact absurd (Go.mem_formatRFC3339Nano hmem) (by decide)

theorem periodicUniqueKey_inj {a b : Bytes} {s t : Time}
    (h : periodicUniqueKey a s = periodicUniqueKey b t) : a = b ∧ s = t := by
  simp only [periodicUniqueKey, List.append_assoc, List.singleton_append] at h
  obtain ⟨hid, hfire⟩ := Go.append_sep_inj (slash_notMem_formatRFC3339Nano s)
    (slash_notMem_formatRFC3339Nano t) h
  exact ⟨hid, Go.formatRFC3339Nano_inj hfire⟩

/-! ## Two ticks, one key -/

/-- Keys of ticks are the same exactly when the ids are the same and the instants are. -/
theorem periodicUniqueKey_eq_iff (a b : Bytes) (s t : Located) :
    periodicUniqueKeyAt a s = periodicUniqueKeyAt b t ↔ a = b ∧ s.instant = t.instant := by
  rw [periodicUniqueKeyAt_eq, periodicUniqueKeyAt_eq]
  constructor
  · exact periodicUniqueKey_inj
  · rintro ⟨rfl, hinstant⟩
    rw [hinstant]

/-! ## What the store refuses -/

theorem uniqueKey_of_params {entry : Entry} {fire : Time} {params : Driver.InsertParams}
    (h : entry.params fire = some params) :
    params.uniqueKey = periodicUniqueKey entry.job.id fire := by
  obtain ⟨encoded, -, rfl⟩ := Option.map_eq_some_iff.mp h
  rfl

/-- A tick is refused as a duplicate because of a live row with its key, and a row that another
tick has left there is one of the same job and the same instant. -/
theorem refused_by_same_tick {db : Memdriver.Driver} {clock fire : Time} {entry : Entry} {ok : Bool}
    (hdone : (insertPeriodicTick db clock entry fire ok).2.2 = true)
    (hnot : (insertPeriodicTick db clock entry fire ok).2.1 = false) :
    ∃ row ∈ db.jobs.rows, Memdriver.uniqueActive row.state = true ∧
      row.uniqueKey = periodicUniqueKey entry.job.id fire ∧
      ∀ (other : Entry) (fire' : Time) (params : Driver.InsertParams),
        other.params fire' = some params → params.uniqueKey = row.uniqueKey →
          other.job.id = entry.job.id ∧ fire' = fire := by
  cases hparams : entry.params fire with
  | none => simp [insertPeriodicTick, hparams] at hdone
  | some params =>
      cases ok with
      | false => simp [insertPeriodicTick, hparams] at hdone
      | true =>
          cases hconflict : db.uniqueConflict params.queue params.kind params.uniqueKey [] with
          | false =>
              simp [insertPeriodicTick, hparams, Memdriver.Driver.insert, hconflict] at hnot
          | true =>
              obtain ⟨-, row, hrow, hocc⟩ := Memdriver.uniqueConflict_eq_true hconflict
              obtain ⟨⟨hkey, -⟩, hactive⟩ := Memdriver.occupies_iff.mp hocc
              rw [uniqueKey_of_params hparams] at hkey
              refine ⟨row, hrow, hactive, hkey, fun other fire' params' hother hsame => ?_⟩
              rw [uniqueKey_of_params hother, hkey] at hsame
              exact periodicUniqueKey_inj hsame

end Drover.Scheduler
