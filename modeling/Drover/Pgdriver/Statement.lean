import Drover.Pgdriver.Driver

set_option autoImplicit false

/-!
# What the statements do

One specification per shape of statement: which rows it changes, and that the unique
index lets it through.  A statement that changes one row is an assignment to the table,
and one that changes none leaves the database as it was.
-/

namespace Drover.Pgdriver

open Drover.Foundation
open Drover.Driver
open Drover.Go (Time Duration)
open Drover.Memdriver (Mark Op)

variable {pg : Postgres}

/-! ## The unique index -/

theorem commit_of_indexed {jobs : Jobs pg} (h : Indexed jobs) : commit jobs = .ok ⟨jobs, h⟩ :=
  dif_pos h

theorem jobs_of_commit {jobs : Jobs pg} {db : Database pg} (h : commit jobs = .ok db) :
    db.jobs = jobs := by
  unfold commit at h
  split at h
  · cases h
    rfl
  · cases h

/-- Writing one row keeps the index in order exactly when no other row has its entry. -/
theorem indexed_put_iff {jobs : Jobs pg} (h : Indexed jobs) (job : DroverJob pg) :
    Indexed (jobs.put job) ↔
      job.entry = none ∨ ∀ other ∈ jobs.rows, other.id ≠ job.id → other.entry ≠ job.entry := by
  constructor
  · intro hput
    refine or_iff_not_imp_left.mpr fun hne other hother hid heq => ?_
    have hmem : other ∈ (jobs.put job).rows := Table.mem_put_iff.mpr (Or.inr ⟨hother, hid⟩)
    exact hid (hput job (Table.mem_put_self jobs job) other hmem hne heq.symm).symm
  · intro hfree a ha b hb hne heq
    rcases Table.mem_put_iff.mp ha with hjob | ⟨ha', hida⟩
    · rcases Table.mem_put_iff.mp hb with hjob' | ⟨hb', hidb⟩
      · rw [hjob, hjob']
      · subst hjob
        exact absurd heq.symm (hfree.resolve_left hne b hb' hidb)
    · rcases Table.mem_put_iff.mp hb with hjob' | ⟨hb', hidb⟩
      · subst hjob'
        exact absurd heq (hfree.resolve_left (heq ▸ hne) a ha' hida)
      · exact h a ha' b hb' hne heq

/-- The entry of a row after a `SET`: gone, or the one it had. -/
def Shrinks (set : DroverJob pg → DroverJob pg) (job : DroverJob pg) : Prop :=
  (set job).entry = none ∨ (set job).entry = job.entry

/-- A `SET` that leaves the key, and no state of the index but for another one. -/
theorem shrinks_of_state {set : DroverJob pg → DroverJob pg} {job : DroverJob pg}
    (hqueue : (set job).queue = job.queue) (hkind : (set job).kind = job.kind)
    (hkey : (set job).uniqueKey = job.uniqueKey)
    (hstate : indexedState (set job).state = true → indexedState job.state = true) :
    Shrinks set job := by
  unfold Shrinks DroverJob.entry
  cases hactive : indexedState (set job).state with
  | false => exact Or.inl rfl
  | true =>
      refine Or.inr ?_
      rw [hstate hactive, hqueue, hkind, hkey]

theorem Indexed.put_of_shrinks {jobs : Jobs pg} (h : Indexed jobs)
    {set : DroverJob pg → DroverJob pg} {job : DroverJob pg} (hset : (set job).id = job.id)
    (hjob : job ∈ jobs.rows) (hentry : Shrinks set job) : Indexed (jobs.put (set job)) := by
  rw [indexed_put_iff h]
  rcases hentry with hnone | hsame
  · exact Or.inl hnone
  · refine or_iff_not_imp_left.mpr fun hne other hother hid heq => ?_
    rw [hset] at hid
    exact hid (h job hjob other hother (hsame ▸ hne) (hsame.symm.trans heq.symm)).symm

/-- An update that adds no entry keeps the index in order. -/
theorem Indexed.updateWhere {jobs : Jobs pg} (h : Indexed jobs) {p : DroverJob pg → Bool}
    {set : DroverJob pg → DroverJob pg} (hset : ∀ job, (set job).id = job.id)
    (hentry : ∀ job ∈ jobs.rows, p job = true → Shrinks set job) :
    Indexed (jobs.updateWhere p set hset) := by
  have hrow : ∀ job ∈ (jobs.updateWhere p set hset).rows, ∃ old ∈ jobs.rows,
      job.id = old.id ∧ (job.entry = none ∨ job.entry = old.entry) := by
    intro job hjob
    obtain ⟨old, hold, rfl⟩ := List.mem_map.mp hjob
    refine ⟨old, hold, ?_⟩
    by_cases hp : p old = true
    · rw [if_pos hp]
      exact ⟨hset old, hentry old hold hp⟩
    · rw [if_neg hp]
      exact ⟨rfl, Or.inr rfl⟩
  intro a ha b hb hne heq
  obtain ⟨a', ha', hida, hentrya⟩ := hrow a ha
  obtain ⟨b', hb', hidb, hentryb⟩ := hrow b hb
  have hea := hentrya.resolve_left hne
  have heb := hentryb.resolve_left (heq ▸ hne)
  rw [hida, hidb]
  exact h a' ha' b' hb' (hea ▸ hne) (by rw [← hea, ← heb, heq])

/-! ## Updates of several rows -/

/-- What `UPDATE ... WHERE id IN (ids)` does, row by row. -/
theorem updateIds_spec (db : Database pg) (ids : List Int) {set : DroverJob pg → DroverJob pg}
    (hset : ∀ job, (set job).id = job.id)
    (hentry : ∀ job ∈ db.jobs.rows, ids.contains job.id = true → Shrinks set job) :
    ∃ db', db.updateIds ids set hset =
        .ok (db', (db.jobs.rows.filter fun job => ids.contains job.id).map set) ∧
      ∀ k, db'.jobs.get? k =
        (db.jobs.get? k).map fun job => if ids.contains job.id then set job else job := by
  have hindexed := db.unique.updateWhere hset hentry
  refine ⟨⟨_, hindexed⟩, ?_, fun k => Table.get?_updateWhere hset k⟩
  rw [Database.updateIds, commit_of_indexed hindexed]
  rfl

/-! ## Guarded transitions -/

theorem heldWhere_iff {id attempt : Int} {job : DroverJob pg} :
    heldWhere id attempt job = true ↔
      job.id = id ∧ job.attempt = attempt ∧ job.state = .running := by
  simp [heldWhere, and_assoc]

/-- A guarded transition writes the row that is held. -/
theorem transition_of_held {db : Database pg} {id attempt : Int}
    {set : DroverJob pg → DroverJob pg} (hset : ∀ job, (set job).id = job.id)
    {job : DroverJob pg} (hjob : db.jobs.get? id = some job)
    (hheld : heldWhere id attempt job = true) (hentry : Shrinks set job) :
    ∃ hindexed n, db.transition id attempt set hset =
      .ok (⟨db.jobs.put (set job), hindexed⟩, n + 1) := by
  have hmem := Table.mem_of_get? hjob
  have hindexed := db.unique.put_of_shrinks (hset job) hmem hentry
  have hput : db.jobs.updateWhere (heldWhere id attempt) set hset = db.jobs.put (set job) :=
    Table.updateWhere_of_one hset hmem hheld fun other _ hother => by
      rw [(heldWhere_iff.mp hother).1, (heldWhere_iff.mp hheld).1]
  have hpos : 0 < (db.jobs.rows.filter (heldWhere id attempt)).length :=
    List.length_pos_of_mem (List.mem_filter.mpr ⟨hmem, hheld⟩)
  obtain ⟨n, hn⟩ := Nat.exists_eq_add_of_lt hpos
  refine ⟨hindexed, n, ?_⟩
  rw [Database.transition, hput, commit_of_indexed hindexed, hn, Nat.zero_add]
  rfl

/-- When the row is not held, it changes nothing. -/
theorem transition_of_not_held {db : Database pg} {id attempt : Int}
    {set : DroverJob pg → DroverJob pg} (hset : ∀ job, (set job).id = job.id)
    (h : ∀ job, db.jobs.get? id = some job → heldWhere id attempt job = false) :
    db.transition id attempt set hset = .ok (db, 0) := by
  have hnone : ∀ job ∈ db.jobs.rows, heldWhere id attempt job = false := by
    intro job hjob
    by_contra hheld
    have hget := Table.get?_of_mem hjob
    rw [(heldWhere_iff.mp (by simpa using hheld)).1] at hget
    exact hheld (h job hget)
  have hfilter : db.jobs.rows.filter (heldWhere id attempt) = [] :=
    List.filter_eq_nil_iff.mpr fun job hjob => by simp [hnone job hjob]
  rw [Database.transition, Table.updateWhere_of_none hset hnone, commit_of_indexed db.unique,
    hfilter]
  rfl

/-! ## Operator statements -/

/-- The rows an operator statement matches are the job, when its state allows it. -/
theorem eq_of_operatorWhere {db : Database pg} {id : Int} {eligible : JobState → Bool}
    {job : DroverJob pg} (hjob : db.jobs.get? id = some job) {other : DroverJob pg}
    (hother : other ∈ db.jobs.rows)
    (hmatch : (other.id == id && eligible other.state) = true) : other = job := by
  simp only [Bool.and_eq_true, beq_iff_eq] at hmatch
  have hget := Table.get?_of_mem hother
  rw [hmatch.1, hjob] at hget
  exact (Option.some.inj hget).symm

/-- Then it writes that one, if the index lets it. -/
theorem updateOne_eq_commit {db : Database pg} {id : Int} {eligible : JobState → Bool}
    {set : DroverJob pg → DroverJob pg} (hset : ∀ job, (set job).id = job.id)
    {job : DroverJob pg} (hjob : db.jobs.get? id = some job) (heligible : eligible job.state = true) :
    db.updateOne id eligible set hset =
      (commit (db.jobs.put (set job))).map fun db' => (db', some (set job)) := by
  have hkey : job.id = id := Table.key_of_get? hjob
  have hmem := Table.mem_of_get? hjob
  have hput : db.jobs.updateWhere (fun job => job.id == id && eligible job.state) set hset =
      db.jobs.put (set job) :=
    Table.updateWhere_of_one hset hmem (by simp [hkey, heligible]) fun other hother hmatch => by
      rw [eq_of_operatorWhere hjob hother hmatch]
  have hfind : db.jobs.rows.find? (fun job => job.id == id && eligible job.state) = some job := by
    cases hfind : db.jobs.rows.find? (fun job => job.id == id && eligible job.state) with
    | none =>
        have hnone := List.find?_eq_none.mp hfind job hmem
        simp [hkey, heligible] at hnone
    | some found =>
        have hmatch := List.find?_some hfind
        rw [eq_of_operatorWhere hjob (List.mem_of_find?_eq_some hfind) hmatch]
  rw [Database.updateOne, hput, hfind]
  rfl

/-- An operator statement writes the job when its state allows it. -/
theorem updateOne_of_eligible {db : Database pg} {id : Int} {eligible : JobState → Bool}
    {set : DroverJob pg → DroverJob pg} (hset : ∀ job, (set job).id = job.id)
    {job : DroverJob pg} (hjob : db.jobs.get? id = some job) (heligible : eligible job.state = true)
    (hindexed : Indexed (db.jobs.put (set job))) :
    db.updateOne id eligible set hset = .ok (⟨_, hindexed⟩, some (set job)) := by
  rw [updateOne_eq_commit hset hjob heligible, commit_of_indexed hindexed]
  rfl

/-- Otherwise it changes nothing. -/
theorem updateOne_of_not_eligible {db : Database pg} {id : Int} {eligible : JobState → Bool}
    {set : DroverJob pg → DroverJob pg} (hset : ∀ job, (set job).id = job.id)
    (h : ∀ job, db.jobs.get? id = some job → eligible job.state = false) :
    db.updateOne id eligible set hset = .ok (db, none) := by
  have hnone : ∀ job ∈ db.jobs.rows, (job.id == id && eligible job.state) = false := by
    intro job hjob
    by_cases hid : job.id = id
    · have hget := Table.get?_of_mem hjob
      rw [hid] at hget
      simp [h job hget]
    · simp [hid]
  have hfind : db.jobs.rows.find? (fun job => job.id == id && eligible job.state) = none :=
    List.find?_eq_none.mpr fun job hjob => by simp [hnone job hjob]
  rw [Database.updateOne, Table.updateWhere_of_none hset hnone, commit_of_indexed db.unique, hfind]
  rfl

end Drover.Pgdriver
