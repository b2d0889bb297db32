import Drover.Memdriver.Step

set_option autoImplicit false

/-!
# A batch, item by item

`InsertMany` does not call `Insert`: it looks for conflicts in the store and in the rows
it has built so far, numbers those rows ahead of the counter, and only then files them.
Here the batch is inserted item by item instead, and the two are compared.  They agree
because the rows built so far are exactly what the store would hold in addition: each of
them is in a state that occupies its key, and none is filed under an id in use.
-/

namespace Drover.Memdriver

open Drover.Foundation
open Drover.Driver
open Drover.Go (Time Duration)

/-- `Insert` for one item of the batch after another, up to the first that fails. -/
def insertEach (now : Time) :
    List InsertParams → Driver → Driver × Except DriverError (List JobRow)
  | [], d => (d, .ok [])
  | params :: batch, d =>
      match d.insert now params with
      | (d, .error err) => (d, .error err)
      | (d, .ok row) => ((insertEach now batch d).1, (insertEach now batch d).2.map (row :: ·))

/-- A store whose counter is ahead of every id, as the methods keep it. -/
structure Store extends Driver where
  fresh : toDriver.Fresh

/-- Every store a run of calls leads to is one. -/
def Store.reached (ops : List Op) : Store := ⟨run next new ops, fresh_run ops fresh_new⟩

/-! ## What is pending counts as stored -/

/-- The store with the first items of a batch filed. -/
def Driver.filed (d : Driver) (now : Time) (done : List InsertParams) : Driver :=
  ⟨d.nextID + done.length, d.jobs.putAll (buildRows now (d.nextID + 1) done)⟩

theorem buildRows_append (now : Time) (first : Int) (done batch : List InsertParams) :
    buildRows now first (done ++ batch) =
      buildRows now first done ++ buildRows now (first + done.length) batch := by
  induction done generalizing first with
  | nil => simp [buildRows]
  | cons params done ih =>
      have hnext : first + 1 + (done.length : Int) = first + ((params :: done).length : Int) := by
        simp only [List.length_cons]
        omega
      rw [List.cons_append, buildRows, buildRows, ih, hnext, List.cons_append]

theorem length_buildRows (now : Time) (first : Int) (batch : List InsertParams) :
    (buildRows now first batch).length = batch.length := by
  induction batch generalizing first with
  | nil => rfl
  | cons params batch ih => rw [buildRows, List.length_cons, ih, List.length_cons]

/-- The rows built so far conflict with an item exactly as they would from the store. -/
theorem uniqueConflict_filed {d : Driver} (hfresh : d.Fresh) (now : Time)
    (done : List InsertParams) (queue kind key : Bytes) :
    (d.filed now done).uniqueConflict queue kind key [] =
      d.uniqueConflict queue kind key (buildRows now (d.nextID + 1) done) := by
  have hmem : ∀ row, row ∈ (d.filed now done).jobs.rows ↔
      row ∈ d.jobs.rows ∨ row ∈ buildRows now (d.nextID + 1) done := by
    intro row
    rw [Driver.filed, Table.mem_putAll_iff (nodup_buildRows now done _), or_comm]
    refine or_congr_left (and_iff_left_of_imp fun hrow hid => ?_)
    obtain ⟨built, hbuilt, heq⟩ := List.mem_map.mp hid
    have hlow := (mem_buildRows hbuilt).1
    have hhigh := (hfresh.2 row hrow).2
    omega
  have hactive : ∀ row ∈ buildRows now (d.nextID + 1) done, uniqueActive row.state = true := by
    intro row hrow
    obtain ⟨-, -, params, -, heq⟩ := mem_buildRows hrow
    rw [heq]
    exact uniqueActive_jobFromParams _ params now
  unfold Driver.uniqueConflict
  split
  · rfl
  · rw [List.any_nil, Bool.eq_iff_iff]
    simp only [Bool.if_true_left, Bool.or_false, Bool.or_eq_true, decide_eq_true_eq, List.any_eq_true,
      Bool.and_eq_true, hmem]
    constructor
    · rintro ⟨row, hrow | hrow, hkey, hstate⟩
      · exact Or.inl ⟨row, hrow, hkey, hstate⟩
      · exact Or.inr ⟨row, hrow, hkey⟩
    · rintro (⟨row, hrow, hkey, hstate⟩ | ⟨row, hrow, hkey⟩)
      · exact ⟨row, Or.inl hrow, hkey, hstate⟩
      · exact ⟨row, Or.inr hrow, hkey, hactive row hrow⟩

/-! ## The two ways to insert a batch -/

/-- The row of the next item, as the loop of `InsertMany` numbers it. -/
theorem buildRows_snoc (d : Driver) (now : Time) (done : List InsertParams)
    (params : InsertParams) :
    buildRows now (d.nextID + 1) (done ++ [params]) =
      buildRows now (d.nextID + 1) done ++ [jobFromParams (d.nextID + done.length + 1) params now] := by
  rw [buildRows_append, buildRows, buildRows, Int.add_right_comm]

/-- `Insert` after the first items of a batch. -/
theorem insert_filed {d : Driver} (hfresh : d.Fresh) (now : Time) (done : List InsertParams)
    (params : InsertParams) :
    (d.filed now done).insert now params =
      if d.uniqueConflict params.queue params.kind params.uniqueKey
          (buildRows now (d.nextID + 1) done) then
        (d.filed now done, .error .duplicateJob)
      else
        (d.filed now (done ++ [params]),
          .ok (jobFromParams (d.nextID + done.length + 1) params now)) := by
  have hlen : d.nextID + ((done ++ [params]).length : Int) = d.nextID + done.length + 1 := by
    simp only [List.length_append, List.length_singleton]
    omega
  have hfiled : d.filed now (done ++ [params]) =
      ⟨(d.filed now done).nextID + 1,
        (d.filed now done).jobs.put (jobFromParams (d.nextID + done.length + 1) params now)⟩ := by
    simp only [Driver.filed, buildRows_snoc, hlen, Table.putAll_append, Table.putAll_cons,
      Table.putAll_nil]
  rw [Driver.insert, uniqueConflict_filed hfresh, hfiled]
  rfl

/-- From the store with the first items filed, the rest of the batch goes through item by
item exactly when the loop of `InsertMany` finds no conflict. -/
theorem insertEach_filed {d : Driver} (hfresh : d.Fresh) (now : Time)
    (batch done : List InsertParams) :
    match d.pendingRows now batch (buildRows now (d.nextID + 1) done) with
    | some pending => ∃ rows, insertEach now batch (d.filed now done) =
        (d.filed now (done ++ batch), .ok rows) ∧
          pending = buildRows now (d.nextID + 1) done ++ rows
    | none => (insertEach now batch (d.filed now done)).2 = .error .duplicateJob := by
  induction batch generalizing done with
  | nil => exact ⟨[], by rw [List.append_nil]; rfl, (List.append_nil _).symm⟩
  | cons params batch ih =>
      rw [Driver.pendingRows, insertEach, insert_filed hfresh, length_buildRows, ← buildRows_snoc]
      cases hconflict : d.uniqueConflict params.queue params.kind params.uniqueKey
          (buildRows now (d.nextID + 1) done) with
      | true => rfl
      | false =>
          have hrest := ih (done ++ [params])
          simp only [Bool.false_eq_true, if_false]
          cases hpending : d.pendingRows now batch
              (buildRows now (d.nextID + 1) (done ++ [params])) with
          | none =>
              rw [hpending] at hrest
              simp only at hrest ⊢
              rw [hrest]
              rfl
          | some pending =>
              rw [hpending] at hrest
              obtain ⟨rows, heach, hrows⟩ := hrest
              refine ⟨jobFromParams (d.nextID + done.length + 1) params now :: rows, ?_, ?_⟩
              · rw [heach, List.append_assoc]
                rfl
              · rw [hrows, buildRows_snoc, List.append_assoc]
                rfl

/-- What `InsertMany` should be: the items one after another, and nothing at all when
one of them is refused. -/
def Driver.insertAllOrNothing (d : Driver) (now : Time) (batch : List InsertParams) :
    Driver × Except DriverError (List JobRow) :=
  match (insertEach now batch d).2 with
  | .ok rows => ((insertEach now batch d).1, .ok rows)
  | .error _ => (d, .error .duplicateJob)

theorem insertMany_eq_insertAllOrNothing {d : Driver} (hfresh : d.Fresh) (now : Time)
    (batch : List InsertParams) : d.insertMany now batch = d.insertAllOrNothing now batch := by
  have hfiled : d.filed now [] = d := by simp [Driver.filed, buildRows]
  have heach := insertEach_filed hfresh now batch []
  rw [hfiled, List.nil_append, show buildRows now (d.nextID + 1) [] = [] from rfl] at heach
  unfold Driver.insertMany Driver.insertAllOrNothing
  cases batch with
  | nil => rfl
  | cons params batch =>
      rw [if_neg (by simp)]
      cases hpending : d.pendingRows now (params :: batch) [] with
      | none =>
          rw [hpending] at heach
          simp only at heach
          rw [heach]
      | some pending =>
          rw [hpending] at heach
          obtain ⟨rows, heq, hrows⟩ := heach
          have hout := pendingRows_eq hpending
          rw [heq, hrows, List.nil_append]
          simp only [List.nil_append, List.length_nil, Int.natCast_zero, Int.add_zero] at hout hrows
          rw [Driver.filed, ← hout, hrows]

end Drover.Memdriver
