import Mathlib.Data.List.Pairwise
import Drover.Memdriver.Step

set_option autoImplicit false

/-!
# Unique keys

A job with a unique key is meant to be the only one of its queue, kind and key that
is waiting or running; the migrations of the Postgres driver enforce it with the
partial unique index `drover_jobs_unique_active_idx`.  The in-memory store checks
it when it inserts.  `RedriveDead` brings a row back from a terminal state without
that check, and it is the only call that can break it: a run keeps keys unique
exactly when no `RedriveDead` revives a job whose key is taken.
-/

namespace Drover.Memdriver

open Drover.Foundation
open Drover.Driver
open Drover.Go (Time Duration)

/-- The row occupies the unique key `key` of this queue and kind. -/
def occupies (queue kind key : Bytes) (row : JobRow) : Bool :=
  sameKey queue kind key row && uniqueActive row.state

/-- At most one row occupies a queue, kind and non-empty key. -/
def Driver.Unique (d : Driver) : Prop :=
  ∀ queue kind key, key ≠ [] → ∀ a ∈ d.jobs.rows, ∀ b ∈ d.jobs.rows,
    occupies queue kind key a = true → occupies queue kind key b = true → a = b

theorem occupies_iff {queue kind key : Bytes} {row : JobRow} :
    occupies queue kind key row = true ↔
      (row.uniqueKey = key ∧ row.queue = queue ∧ row.kind = kind) ∧
        uniqueActive row.state = true := by
  simp [occupies, sameKey, and_assoc]

/-- No stored row occupies the key, and no row of the batch carries it. -/
theorem uniqueConflict_eq_false {d : Driver} {queue kind key : Bytes} {extra : List JobRow}
    (hkey : key ≠ []) (h : d.uniqueConflict queue kind key extra = false) :
    (∀ row ∈ d.jobs.rows, occupies queue kind key row = false) ∧
      ∀ row ∈ extra, sameKey queue kind key row = false := by
  simp only [Driver.uniqueConflict, hkey, if_false] at h
  split at h
  · cases h
  · rename_i hstored
    refine ⟨fun row hrow => ?_, fun row hrow => ?_⟩
    · by_contra hocc
      exact hstored (List.any_eq_true.mpr ⟨row, hrow, by simpa [occupies] using hocc⟩)
    · exact List.any_eq_false.mp h row hrow |> Bool.eq_false_of_not_eq_true

theorem uniqueConflict_eq_true {d : Driver} {queue kind key : Bytes}
    (h : d.uniqueConflict queue kind key [] = true) :
    key ≠ [] ∧ ∃ row ∈ d.jobs.rows, occupies queue kind key row = true := by
  unfold Driver.uniqueConflict at h
  split at h
  · cases h
  · rename_i hkey
    split at h
    · rename_i hstored
      exact ⟨hkey, List.any_eq_true.mp hstored⟩
    · cases h

/-! ## What each call does to occupied keys -/

/-- A row that occupies a key after a change occupied it before, unless the change
is a `RedriveDead`. -/
theorem occupies_of_change {op : Op} {row row' : JobRow} {queue kind key : Bytes}
    (h : Change op row row') (hocc : occupies queue kind key row' = true) :
    occupies queue kind key row = true ∨
      row.state = .dead ∧ ∃ now, op = .redriveDead now row.id := by
  have hsame := sameJob_of_change h
  rw [occupies_iff, hsame.uniqueKey, hsame.queue, hsame.kind] at hocc
  have hactive : uniqueActive row.state = true → occupies queue kind key row = true :=
    fun hactive => occupies_iff.mpr ⟨hocc.1, hactive⟩
  cases h with
  | @claim now queue leaseFor limit row hdue =>
      refine Or.inl (hactive ?_)
      simp only [due, Bool.and_eq_true] at hdue
      cases hstate : row.state <;> simp_all [waiting, uniqueActive]
  | @reclaim now leaseFor limit row hexpired => exact Or.inl (hactive hocc.2)
  | extend hrunning hheld => exact Or.inl (hactive hocc.2)
  | mark hrunning happend => exact Or.inl (hactive (by rw [hrunning]; rfl))
  | operatorCancel hcan => cases hocc.2
  | redriveDead hdead => exact Or.inr ⟨hdead, _, rfl⟩

/-- `RedriveDead` finds its job's key free, or its job not dead. -/
def Driver.Admits (d : Driver) : Op → Prop
  | .redriveDead _ id => ∀ row, d.jobs.get? id = some row → row.state = .dead →
      d.uniqueConflict row.queue row.kind row.uniqueKey [] = false
  | _ => True

/-! ## Inserts -/

/-- Not both rows carry the key. -/
def Apart (queue kind key : Bytes) (a b : JobRow) : Prop :=
  sameKey queue kind key a = true → sameKey queue kind key b = false

instance (queue kind key : Bytes) : Std.Symm (Apart queue kind key) where
  symm a b h hb := by
    by_contra ha
    rw [h (by simpa using ha)] at hb
    cases hb

/-- Rows whose keys are free in the store and distinct among themselves. -/
def Driver.Clear (d : Driver) (rows : List JobRow) : Prop :=
  ∀ queue kind key, key ≠ [] →
    (∀ row ∈ rows, sameKey queue kind key row = true →
      ∀ stored ∈ d.jobs.rows, occupies queue kind key stored = false) ∧
    rows.Pairwise (Apart queue kind key)

theorem sameKey_jobFromParams {queue kind key : Bytes} {id : Int} {params : InsertParams}
    {now : Time} (h : sameKey queue kind key (jobFromParams id params now) = true) :
    params.uniqueKey = key ∧ params.queue = queue ∧ params.kind = kind := by
  simpa [sameKey, jobFromParams, and_assoc] using h

/-- A row without a conflict joins a clear batch. -/
theorem Driver.Clear.snoc {d : Driver} {rows : List JobRow} {params : InsertParams}
    (h : d.Clear rows)
    (hfree : d.uniqueConflict params.queue params.kind params.uniqueKey rows = false)
    (id : Int) (now : Time) : d.Clear (rows ++ [jobFromParams id params now]) := by
  intro queue kind key hkey
  obtain ⟨hstored, hpairs⟩ := h queue kind key hkey
  refine ⟨?_, ?_⟩
  · intro row hrow hsame
    rcases List.mem_append.mp hrow with hold | hnew
    · exact hstored row hold hsame
    · rw [List.mem_singleton.mp hnew] at hsame
      obtain ⟨rfl, rfl, rfl⟩ := sameKey_jobFromParams hsame
      exact (uniqueConflict_eq_false hkey hfree).1
  · refine List.pairwise_append.mpr ⟨hpairs, List.pairwise_singleton _ _, ?_⟩
    intro a ha b hb hsame
    rw [List.mem_singleton.mp hb]
    by_contra hb'
    obtain ⟨rfl, rfl, rfl⟩ := sameKey_jobFromParams (by simpa using hb')
    rw [(uniqueConflict_eq_false hkey hfree).2 a ha] at hsame
    cases hsame

theorem clear_nil (d : Driver) : d.Clear [] := by
  intro queue kind key hkey
  refine ⟨?_, List.Pairwise.nil⟩
  intro row hrow
  cases hrow

theorem clear_pendingRows {d : Driver} {now : Time} {batch : List InsertParams}
    {pending out : List JobRow} (hpending : d.Clear pending)
    (h : d.pendingRows now batch pending = some out) : d.Clear out := by
  induction batch generalizing pending with
  | nil =>
      simp only [Driver.pendingRows, Option.some.injEq] at h
      rw [← h]
      exact hpending
  | cons params batch ih =>
      rw [Driver.pendingRows] at h
      split at h
      · cases h
      · rename_i hfree
        exact ih (hpending.snoc (by simpa using hfree) _ now) h

/-- What an insert files is a clear batch of rows with ids of their own. -/
theorem next_created {d : Driver} {op : Op} {row : JobRow} (h : Created op row) :
    next d op = d ∨ ∃ rows, d.Clear rows ∧ (rows.map JobRow.id).Nodup ∧
      (next d op).jobs = d.jobs.putAll rows := by
  cases h with
  | @insert now params id =>
      rcases insert_cases d now params with heq | ⟨hfree, heq⟩
      · exact Or.inl (by rw [next, step, heq])
      · refine Or.inr ⟨[jobFromParams (d.nextID + 1) params now],
          (clear_nil d).snoc hfree _ now, List.nodup_singleton _, ?_⟩
        simp [next, step, heq]
  | @insertMany now batch params id hmem =>
      rcases insertMany_cases d now batch with heq | ⟨hpending, heq⟩
      · exact Or.inl (by rw [next, step, heq])
      · exact Or.inr ⟨_, clear_pendingRows (clear_nil d) hpending, nodup_buildRows now batch _,
          by simp [next, step, heq]⟩

/-- A row of a clear batch has its key to itself once the batch is filed. -/
theorem Driver.Clear.occupies {d : Driver} {rows : List JobRow} (h : d.Clear rows)
    (hnodup : (rows.map JobRow.id).Nodup) {queue kind key : Bytes} (hkey : key ≠ [])
    {a b : JobRow} (ha : a ∈ rows) (hb : b ∈ (d.jobs.putAll rows).rows)
    (hocc : occupies queue kind key a = true) (hocc' : occupies queue kind key b = true) :
    b = a := by
  have hsame : ∀ {row}, Memdriver.occupies queue kind key row = true →
      sameKey queue kind key row = true := by
    intro row hrow
    simp only [Memdriver.occupies, Bool.and_eq_true] at hrow
    exact hrow.1
  obtain ⟨hstored, hpairs⟩ := h queue kind key hkey
  have hget := Table.get?_of_mem hb
  by_cases hmem : b.id ∈ rows.map JobRow.id
  · obtain ⟨b', hb', hid⟩ := List.mem_map.mp hmem
    rw [← hid, Table.get?_putAll_of_mem hnodup hb'] at hget
    cases hget
    by_contra hne
    have hclash := hpairs.forall hb' ha hne (hsame hocc')
    rw [hsame hocc] at hclash
    cases hclash
  · rw [Table.get?_putAll_of_notMem hmem] at hget
    rw [hstored a ha (hsame hocc) b (Table.mem_of_get? hget)] at hocc'
    cases hocc'

/-- A new row of an insert has its key to itself. -/
theorem created_occupies {d : Driver} {op : Op} {id : Int} {row other : JobRow}
    {queue kind key : Bytes} (hkey : key ≠ []) (hnew : d.jobs.get? id = none)
    (hrow : (next d op).jobs.get? id = some row) (hocc : occupies queue kind key row = true)
    (hother : other ∈ (next d op).jobs.rows) (hocc' : occupies queue kind key other = true) :
    other = row := by
  rcases next_created (d := d) (next_new op hnew hrow).2.2 with heq | ⟨rows, hclear, hnodup, heq⟩
  · rw [heq, hnew] at hrow
    cases hrow
  · rw [heq] at hrow hother
    have hmem : row ∈ rows := by
      by_cases hid : id ∈ rows.map JobRow.id
      · obtain ⟨row', hrow', hid'⟩ := List.mem_map.mp hid
        rw [← hid', Table.get?_putAll_of_mem hnodup hrow'] at hrow
        cases hrow
        exact hrow'
      · rw [Table.get?_putAll_of_notMem hid, hnew] at hrow
        cases hrow
    exact hclear.occupies hnodup hkey hmem hother hocc hocc'

/-! ## Runs -/

/-- Of two rows that occupy one key after a call that admits its row, each occupied
it before. -/
theorem Driver.Admits.occupies {d : Driver} (hfresh : d.Fresh) {op : Op} (hop : d.Admits op)
    {queue kind key : Bytes} {row row' other other' : JobRow}
    (hrow : d.jobs.get? row'.id = some row) (hrow' : row' ∈ (next d op).jobs.rows)
    (hother : d.jobs.get? other'.id = some other) (hother' : other' ∈ (next d op).jobs.rows)
    (hkey : key ≠ []) (hne : row'.id ≠ other'.id)
    (hocc : occupies queue kind key row' = true) (hocc' : occupies queue kind key other' = true) :
    Memdriver.occupies queue kind key row = true := by
  obtain ⟨row'', hget, hchange⟩ := next_row hfresh op hrow
  rw [Table.get?_of_mem hrow'] at hget
  cases hget
  rcases hchange with rfl | hchange
  · exact hocc
  · rcases occupies_of_change hchange hocc with hbefore | ⟨hdead, now, rfl⟩
    · exact hbefore
    · -- The row was revived, so its key was free; but the other row has not changed.
      have hid : row.id = row'.id := Table.key_of_get? hrow
      have hfree := hop row (by rw [hid]; exact hrow) hdead
      have hsame := sameJob_of_change hchange
      obtain ⟨⟨hk, hq, hkind⟩, -⟩ := occupies_iff.mp hocc
      rw [← hsame.uniqueKey, ← hsame.queue, ← hsame.kind, hk, hq, hkind] at hfree
      obtain ⟨other'', hget, hcases⟩ := next_row hfresh (.redriveDead now row.id) hother
      rw [Table.get?_of_mem hother'] at hget
      cases hget
      rcases hcases with rfl | hchange'
      · rw [(uniqueConflict_eq_false hkey hfree).1 other' (Table.mem_of_get? hother)] at hocc'
        cases hocc'
      · have hid' : other.id = other'.id := Table.key_of_get? hother
        exact absurd ((change_redriveDead hchange').1.symm.trans hid') (by rw [hid]; exact hne)

/-- A call that admits its row keeps the keys unique. -/
theorem Driver.Unique.next {d : Driver} (hfresh : d.Fresh) (h : d.Unique) {op : Op}
    (hop : d.Admits op) : (Memdriver.next d op).Unique := by
  intro queue kind key hkey a' ha' b' hb' hocca hoccb
  have hgeta := Table.get?_of_mem ha'
  have hgetb := Table.get?_of_mem hb'
  cases holda : d.jobs.get? a'.id with
  | none => exact (created_occupies hkey holda hgeta hocca hb' hoccb).symm
  | some a =>
      cases holdb : d.jobs.get? b'.id with
      | none => exact created_occupies hkey holdb hgetb hoccb ha' hocca
      | some b =>
          by_contra hne
          have hids : a'.id ≠ b'.id := by
            intro hid
            rw [hid, hgetb] at hgeta
            exact hne (Option.some.inj hgeta).symm
          have ha := hop.occupies hfresh holda ha' holdb hb' hkey hids hocca hoccb
          have hb := hop.occupies hfresh holdb hb' holda ha' hkey (Ne.symm hids) hoccb hocca
          have hsame := h queue kind key hkey a (Table.mem_of_get? holda) b
            (Table.mem_of_get? holdb) ha hb
          have hida : a.id = a'.id := Table.key_of_get? holda
          have hidb : b.id = b'.id := Table.key_of_get? holdb
          rw [hsame] at hida
          exact hids (hida.symm.trans hidb)

/-- A call that revives a job whose key is taken breaks it. -/
theorem not_unique_of_not_admits {d : Driver} {op : Op} (h : ¬d.Admits op) :
    ¬(next d op).Unique := by
  cases op with
  | redriveDead now id =>
      simp only [Driver.Admits, not_forall, Bool.not_eq_false] at h
      obtain ⟨row, hrow, hdead, hconflict⟩ := h
      obtain ⟨hkey, other, hother, hocc⟩ := uniqueConflict_eq_true hconflict
      have hid : row.id = id := Table.key_of_get? hrow
      have hne : (redriveRow now row).id ≠ other.id := by
        intro hsame
        -- The other row is active, the revived one was dead.
        have hget := Table.get?_of_mem hother
        rw [← hsame, show (redriveRow now row).id = id from hid, hrow] at hget
        cases hget
        have hactive := (occupies_iff.mp hocc).2
        rw [hdead] at hactive
        cases hactive
      intro hunique
      rw [Driver.Unique, redriveDead_of_dead hrow hdead] at hunique
      have hstays : other ∈ (d.jobs.put (redriveRow now row)).rows := by
        refine Table.mem_of_get? (k := other.id) ?_
        rw [Table.get?_put_of_ne hne]
        exact Table.get?_of_mem hother
      have hrevived : occupies row.queue row.kind row.uniqueKey (redriveRow now row) = true :=
        occupies_iff.mpr ⟨⟨rfl, rfl, rfl⟩, rfl⟩
      have hsame := hunique _ _ _ hkey _ (Table.mem_put_self _ _) _ hstays hrevived hocc
      exact hne (by rw [hsame])
  | _ => exact absurd trivial h

theorem unique_new : new.Unique := by
  intro queue kind key hkey a ha
  cases ha

/-- In a run from the empty store keys stay unique in every state exactly when every
`RedriveDead` of a dead job finds the job's key free. -/
theorem run_unique_iff (ops : List Op) :
    Along next Driver.Unique new ops ↔ Steps next Driver.Admits new ops := by
  constructor
  · exact steps_of_along fun d op _ hunique => by_contra fun h => not_unique_of_not_admits h hunique
  · intro hsteps
    have halong : Along next (fun d => d.Fresh ∧ d.Unique) new ops :=
      along_of_steps (fun d op hd hop => ⟨hd.1.next op, hd.2.next hd.1 hop⟩)
        ⟨fresh_new, unique_new⟩ hsteps
    rw [along_iff] at halong ⊢
    exact fun pre post hsplit => (halong pre post hsplit).2

/-- A job dies, its key is taken by a second job, and the first is revived. -/
def revivedRun : List Op :=
  [.insert 1 ⟨[], [], [], 0, [1]⟩, .fetchAvailable 2 [] 1 1, .mark ⟨1, 1⟩ (.dead 3 none),
    .insert 4 ⟨[], [], [], 0, [1]⟩, .redriveDead 5 1]

/-- Both jobs are then available under one key. -/
theorem revivedRun_not_unique : ¬(run next new revivedRun).Unique := by
  intro h
  have hfirst : (run next new revivedRun).jobs.get? 1 =
      some { jobFromParams 1 ⟨[], [], [], 0, [1]⟩ 1 with scheduledAt := 5 } := by decide
  have hsecond : (run next new revivedRun).jobs.get? 2 =
      some (jobFromParams 2 ⟨[], [], [], 0, [1]⟩ 4) := by decide
  have hsame := h [] [] [1] (by decide) _ (Table.mem_of_get? hfirst) _ (Table.mem_of_get? hsecond)
    (by decide) (by decide)
  exact absurd (congrArg JobRow.id hsame) (by decide)

end Drover.Memdriver
