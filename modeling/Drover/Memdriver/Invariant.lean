import Drover.Memdriver.Step

set_option autoImplicit false

/-!
# What every stored row satisfies

Five fields of a row move together: the state, the attempt, the lease, the time it
was finalized and the errors array.  `Sound` is how; it holds of the rows inserts
build and every `Change` keeps it, so it holds of every row of every reachable
store.  What follows is that no job is ever out of reach: at any late enough clock
reading a row that is not finished is matched by one of the two fetches.

The errors array is a second matter.  It is always the text of a JSON array, but
`json.Unmarshal` gives up on texts nested more than 10000 levels deep, while an
error detail is read on its own before it is put one level down.
-/

namespace Drover.Memdriver

open Drover.Foundation
open Drover.Driver
open Drover.Go (Time Duration)

/-- The states a job is finished in. -/
def finished : JobState → Bool
  | .completed | .cancelled | .dead => true
  | _ => false

/-! ## Invariants of rows -/

/-- A property of rows that inserts establish and changes keep holds of every row
of a run.  `C` is what the run's calls are known to satisfy. -/
theorem row_invariant {P : JobRow → Prop} {C : Op → Prop}
    (hcreated : ∀ {op row}, Created op row → P row)
    (hchange : ∀ {op row row'}, C op → Change op row row' → P row → P row')
    {d : Driver} (hfresh : d.Fresh) (hrows : ∀ row ∈ d.jobs.rows, P row) {ops : List Op}
    (hops : ∀ op ∈ ops, C op) : ∀ row ∈ (run next d ops).jobs.rows, P row := by
  refine (run_of_forall_mem (P := fun d : Driver => d.Fresh ∧ ∀ row ∈ d.jobs.rows, P row) ?_
    ⟨hfresh, hrows⟩ hops).2
  rintro d op ⟨hfresh, hrows⟩ hop
  refine ⟨hfresh.next op, fun row' hrow' => ?_⟩
  have hget := Table.get?_of_mem hrow'
  cases hold : d.jobs.get? row'.id with
  | none => exact hcreated (next_new op hold hget).2.2
  | some row =>
      have hrow := hrows row (Table.mem_of_get? hold)
      obtain ⟨row'', hget', hcases⟩ := next_row hfresh op hold
      rw [hget] at hget'
      cases hget'
      rcases hcases with rfl | hstep
      · exact hrow
      · exact hchange hop hstep hrow

/-- A row of a run from the empty store. -/
theorem reachable_row {P : JobRow → Prop} {C : Op → Prop}
    (hcreated : ∀ {op row}, Created op row → P row)
    (hchange : ∀ {op row row'}, C op → Change op row row' → P row → P row')
    {ops : List Op} (hops : ∀ op ∈ ops, C op) : ∀ row ∈ (run next new ops).jobs.rows, P row :=
  row_invariant hcreated hchange fresh_new (by intro row hrow; cases hrow) hops

/-! ## State, attempt, lease and finalization -/

/-- How the state, the attempt, the lease and the time of finalization of a row
depend on one another. -/
structure Sound (row : JobRow) : Prop where
  leased : row.state = .running ↔ row.leasedUntil ≠ none
  finalized : row.finalizedAt ≠ none ↔ finished row.state = true
  attempt_nonneg : 0 ≤ row.attempt
  attempt_pos : row.state = .running → 1 ≤ row.attempt

theorem Sound.finalizedAt_eq_none {row : JobRow} (h : Sound row)
    (hstate : finished row.state = false) : row.finalizedAt = none := by
  by_contra hsome
  have htrue := h.finalized.mp hsome
  rw [hstate] at htrue
  cases htrue

theorem not_finished_of_waiting {state : JobState} (h : waiting state = true) :
    finished state = false := by
  cases state <;> first | rfl | cases h

theorem jobFromParams_state (id : Int) (params : InsertParams) (now : Time) :
    (jobFromParams id params now).state = .scheduled ∨
      (jobFromParams id params now).state = .available := by
  simp only [jobFromParams]
  by_cases hlater : (if params.scheduledAt = 0 then now else params.scheduledAt) > now
  · exact Or.inl (if_pos hlater)
  · exact Or.inr (if_neg hlater)

theorem sound_jobFromParams (id : Int) (params : InsertParams) (now : Time) :
    Sound (jobFromParams id params now) := by
  refine ⟨?_, ?_, Int.le_refl 0, ?_⟩ <;>
    rcases jobFromParams_state id params now with hstate | hstate <;> rw [hstate] <;>
      simp [jobFromParams, finished]

theorem Sound.created {op : Op} {row : JobRow} (h : Created op row) : Sound row := by
  obtain ⟨id, params, now, rfl⟩ := h.eq_jobFromParams
  exact sound_jobFromParams id params now

theorem Sound.of_appendError {row row' : JobRow} {detail : Option Bytes} (h : Sound row)
    (happend : appendError row detail = (row', none)) : Sound row' := by
  rw [(appendError_ok happend).1]
  exact ⟨h.leased, h.finalized, h.attempt_nonneg, h.attempt_pos⟩

/-- What a `Mark` writes on a running row is sound once the lease is cleared. -/
theorem Sound.result {row : JobRow} (h : Sound row) (hrunning : row.state = .running) (m : Mark) :
    Sound (m.result row) := by
  have hfin := h.finalizedAt_eq_none (by rw [hrunning]; rfl)
  have hnonneg := h.attempt_nonneg
  refine ⟨?_, ?_, ?_, ?_⟩
  · cases m <;> simp [Mark.result, Mark.write]
  · cases m <;> simp [Mark.result, Mark.write, finished, hfin]
  · cases m <;> simp only [Mark.result, Mark.write] <;> omega
  · cases m <;> simp [Mark.result, Mark.write]

theorem Sound.change {op : Op} {row row' : JobRow} (hrow : Sound row) (h : Change op row row') :
    Sound row' := by
  have hnonneg := hrow.attempt_nonneg
  cases h with
  | @claim now queue leaseFor limit row hdue =>
      have hwaiting : waiting row.state = true := by
        simp only [due, Bool.and_eq_true] at hdue
        exact hdue.1.1
      have hfin := hrow.finalizedAt_eq_none (not_finished_of_waiting hwaiting)
      refine ⟨by simp [claim], by simp [claim, finished, hfin], ?_, ?_⟩ <;>
        simp only [claim] <;> omega
  | @reclaim now leaseFor limit row hexpired =>
      have hrunning : row.state = .running := by
        simp only [expired, Bool.and_eq_true, beq_iff_eq] at hexpired
        exact hexpired.1
      exact ⟨by simp [reclaim, hrunning], hrow.finalized, hnonneg, hrow.attempt_pos⟩
  | extend hrunning hheld =>
      exact ⟨by simp [reclaim, hrunning], hrow.finalized, hnonneg, hrow.attempt_pos⟩
  | mark hrunning happend =>
      have hstate := (appendError_ok happend).1
      exact (hrow.of_appendError happend).result (by rw [hstate]; exact hrunning) _
  | operatorCancel hcan =>
      exact ⟨by simp [cancelRow], by simp [cancelRow, finished], hnonneg, by simp [cancelRow]⟩
  | redriveDead hdead =>
      exact ⟨by simp [redriveRow], by simp [redriveRow, finished], Int.le_refl 0,
        by simp [redriveRow]⟩

theorem sound_of_mem_run {ops : List Op} {row : JobRow}
    (h : row ∈ (run next new ops).jobs.rows) : Sound row :=
  reachable_row (C := fun _ => True) Sound.created (fun _ hchange hrow => hrow.change hchange)
    (fun _ _ => trivial) row h

/-- A row that is not finished is matched by `FetchAvailable` on its queue or by
`FetchExpired`, whenever the clock is late enough. -/
theorem Sound.fetchable {row : JobRow} (h : Sound row) (hopen : finished row.state = false) :
    ∃ late, ∀ now, late ≤ now → due now row.queue row = true ∨ expired now row = true := by
  by_cases hrunning : row.state = .running
  · obtain ⟨until_, hlease⟩ := Option.ne_none_iff_exists'.mp (h.leased.mp hrunning)
    refine ⟨until_, fun now hnow => Or.inr ?_⟩
    simp only [expired, hrunning, hlease, beq_self_eq_true, Bool.true_and]
    simpa using hnow
  · have hwaiting : waiting row.state = true := by
      cases hstate : row.state <;> simp_all [waiting, finished]
    refine ⟨row.scheduledAt, fun now hnow => Or.inl ?_⟩
    simp only [due, hwaiting, beq_self_eq_true, Bool.true_and]
    simpa using hnow

/-! ## The errors array -/

/-- The errors array as `appendError` leaves it: the text of a list of values that
`Marshal` would write again as they are. -/
def Recorded (row : JobRow) (entries : List Json.Value) : Prop :=
  row.errors = Json.print (.arr entries) ∧ Json.escapeElements entries = entries

theorem recorded_jobFromParams (id : Int) (params : InsertParams) (now : Time) :
    Recorded (jobFromParams id params now) [] :=
  ⟨by simp only [jobFromParams]; decide, by simp [Json.escapeElements]⟩

theorem Recorded.decodeArray {row : JobRow} {entries : List Json.Value} (h : Recorded row entries) :
    Json.decodeArray row.errors = some entries := by
  rw [h.1, Json.decodeArray_print]

/-- An accepted detail lands behind the entries that were there, and they stay. -/
theorem Recorded.append {row row' : JobRow} {entries : List Json.Value} {detail : Option Bytes}
    (h : Recorded row entries) (happend : appendError row detail = (row', none)) :
    (detail = none ∧ Recorded row' entries) ∨ ∃ text entry, detail = some text ∧
      Json.scan text = some entry ∧ Recorded row' (entries ++ [Json.escapeHTML entry]) := by
  cases detail with
  | none =>
      simp only [appendError, Prod.mk.injEq, and_true] at happend
      subst happend
      exact Or.inl ⟨rfl, h⟩
  | some text =>
      simp only [appendError] at happend
      split at happend
      · cases happend
      · rename_i list hlist
        rw [h.1] at hlist
        have hsame := Json.unmarshalList_print_arr_eq_some hlist
        subst hsame
        split at happend
        · cases happend
        · rename_i entry hentry
          simp only [Prod.mk.injEq, and_true] at happend
          subst happend
          refine Or.inr ⟨text, entry, rfl, hentry, ?_, ?_⟩
          · simp only [Json.marshalList]
            rw [Json.escapeElements_append, h.2]
            simp [Json.escapeElements]
          · rw [Json.escapeElements_append, h.2]
            simp [Json.escapeElements, Json.escapeHTML_idem]

/-- The error detail a call carries. -/
def Op.detail : Op → Option Bytes
  | .mark _ m => m.detail
  | _ => none

/-- A change keeps the entries of the errors array and adds at most the detail its
call carried. -/
theorem Recorded.change {op : Op} {row row' : JobRow} {entries : List Json.Value}
    (hrow : Recorded row entries) (h : Change op row row') :
    Recorded row' entries ∨ ∃ text entry, op.detail = some text ∧ Json.scan text = some entry ∧
      Recorded row' (entries ++ [Json.escapeHTML entry]) := by
  cases h with
  | @mark m row appended hrunning happend =>
      have hkeep : ∀ {list}, Recorded appended list → Recorded (m.result appended) list := by
        intro list hlist
        have herrors : (m.result appended).errors = appended.errors := by cases m <;> rfl
        exact ⟨herrors.trans hlist.1, hlist.2⟩
      rcases hrow.append happend with ⟨-, hlist⟩ | ⟨text, entry, hdetail, hscan, hlist⟩
      · exact Or.inl (hkeep hlist)
      · exact Or.inr ⟨text, entry, hdetail, hscan, hkeep hlist⟩
  | claim hdue => exact Or.inl hrow
  | reclaim hexpired => exact Or.inl hrow
  | extend hrunning hheld => exact Or.inl hrow
  | operatorCancel hcan => exact Or.inl hrow
  | redriveDead hdead => exact Or.inl hrow

theorem recorded_created {op : Op} {row : JobRow} (h : Created op row) : Recorded row [] := by
  obtain ⟨id, params, now, rfl⟩ := h.eq_jobFromParams
  exact recorded_jobFromParams id params now

theorem recorded_of_mem_run {ops : List Op} {row : JobRow}
    (h : row ∈ (run next new ops).jobs.rows) : ∃ entries, Recorded row entries := by
  refine reachable_row (P := fun row => ∃ entries, Recorded row entries) (C := fun _ => True)
    (fun hcreated => ⟨[], recorded_created hcreated⟩) ?_ (fun _ _ => trivial) row h
  rintro op row row' - hchange ⟨entries, hrow⟩
  rcases hrow.change hchange with hrow' | ⟨_, _, -, -, hrow'⟩
  · exact ⟨_, hrow'⟩
  · exact ⟨_, hrow'⟩

/-- The detail of the call, if it carries one, still fits one level down. -/
def Op.Shallow (op : Op) : Prop :=
  ∀ text entry, op.detail = some text → Json.scan text = some entry →
    Json.depth entry < Json.maxNestingDepth

/-- `json.Unmarshal` reads the errors array back when every detail was shallow. -/
theorem unmarshalList_of_mem_run {ops : List Op} (hops : ∀ op ∈ ops, op.Shallow) {row : JobRow}
    (h : row ∈ (run next new ops).jobs.rows) :
    ∃ entries, Json.unmarshalList row.errors = some entries := by
  have hbounded : ∃ entries, Recorded row entries ∧
      Json.depthElements entries < Json.maxNestingDepth := by
    refine reachable_row (P := fun row => ∃ entries, Recorded row entries ∧
        Json.depthElements entries < Json.maxNestingDepth)
      (fun hcreated => ⟨[], recorded_created hcreated, by decide⟩) ?_ hops row h
    rintro op row row' hshallow hchange ⟨entries, hrow, hdepth⟩
    rcases hrow.change hchange with hrow' | ⟨text, entry, hdetail, hscan, hrow'⟩
    · exact ⟨_, hrow', hdepth⟩
    · refine ⟨_, hrow', ?_⟩
      have hentry := hshallow text entry hdetail hscan
      rw [Json.depthElements_append, Json.depthElements_singleton, Json.depth_escapeHTML]
      exact max_lt hdepth hentry
  obtain ⟨entries, hrow, hdepth⟩ := hbounded
  refine ⟨entries, ?_⟩
  rw [hrow.1]
  exact Json.unmarshalList_print_arr (by rw [Json.depth]; exact hdepth)

/-! ## Refused calls -/

theorem operatorAction_kept_or_ok (d : Driver) (id : Int) (want : Want)
    (eligible : JobState → Bool) (write : JobRow → JobRow) :
    (d.operatorAction id want eligible write).1 = d ∨
      ∃ row, (d.operatorAction id want eligible write).2 = .ok row := by
  rw [operatorAction_eq]
  cases hrow : d.jobs.get? id with
  | none => exact Or.inl rfl
  | some row =>
      by_cases hcan : eligible row.state = true
      · exact Or.inr ⟨write row, by simp [hcan]⟩
      · exact Or.inl (by simp [hcan])

/-- Every call leaves the store as it was or answers without an error. -/
theorem kept_or_answered (d : Driver) (op : Op) :
    next d op = d ∨ (reply d op).error? = none := by
  cases op with
  | insert now params =>
      rcases insert_cases d now params with heq | ⟨-, heq⟩
      · exact Or.inl (by rw [next, step, heq])
      · exact Or.inr (by rw [reply, step, heq]; rfl)
  | insertMany now batch =>
      rcases insertMany_cases d now batch with heq | ⟨-, heq⟩
      · exact Or.inl heq
      · exact Or.inr (by rw [reply, step, heq]; rfl)
  | mark lease m =>
      rcases mark_cases d lease m with ⟨_, _, -, -, -, -, heq⟩ | ⟨_, heq⟩
      · exact Or.inr (by rw [reply, step, heq]; rfl)
      · exact Or.inl (by rw [next, step, heq])
  | operatorCancel now id =>
      refine (operatorAction_kept_or_ok d id _ _ _).imp_right ?_
      rintro ⟨row, hok⟩
      rw [reply, step, Driver.operatorCancel, hok]
      rfl
  | redriveDead now id =>
      refine (operatorAction_kept_or_ok d id _ _ _).imp_right ?_
      rintro ⟨row, hok⟩
      rw [reply, step, Driver.redriveDead, hok]
      rfl
  | getJob id => exact Or.inl rfl
  | listJobs p => exact Or.inl rfl
  | stats now => exact Or.inl rfl
  | fetchAvailable now queue leaseFor limit => exact Or.inr rfl
  | fetchExpired now leaseFor limit => exact Or.inr rfl
  | extendLeases now leases leaseFor => exact Or.inr rfl

/-- A refused operation changes nothing: whatever call it is, on whatever store, when it
answers with an error the rows and the counter are what they were. -/
theorem next_of_refused (d : Driver) (op : Op) {err : DriverError}
    (h : (reply d op).error? = some err) : next d op = d := by
  rcases kept_or_answered d op with hkept | hanswered
  · exact hkept
  · rw [hanswered] at h
    cases h

/-- A running job is failed with a detail that is no JSON. -/
theorem next_of_emptyDetail :
    next (run next new [.insert 1 ⟨[], [], [], 0, []⟩, .fetchAvailable 2 [] 1 1])
        (.mark ⟨1, 1⟩ (.dead 3 (some []))) =
      run next new [.insert 1 ⟨[], [], [], 0, []⟩, .fetchAvailable 2 [] 1 1] :=
  next_of_refused _ _ (show _ = some (.encodeErrors 1) by decide)

/-! ## Reachable stores -/

/-- No job gets stuck and none carries a stale lease.  In every reachable store a
row is running exactly when it is leased and finalized exactly when it is finished,
its attempt fits its state, its id is positive, unique and below the counter, and
unless it is finished one of the two fetches matches it at every late clock
reading.  Its errors are the text of a JSON array, which `json.Unmarshal` reads as
long as no detail of the run reaches the nesting limit on its own. -/
theorem run_rows_wellFormed (ops : List Op) :
    ((run next new ops).jobs.rows.map JobRow.id).Nodup ∧
      ∀ row ∈ (run next new ops).jobs.rows,
        (row.state = .running ↔ row.leasedUntil ≠ none) ∧
        (row.finalizedAt ≠ none ↔
          row.state = .completed ∨ row.state = .cancelled ∨ row.state = .dead) ∧
        0 ≤ row.attempt ∧ (row.state = .running → 1 ≤ row.attempt) ∧
        0 < row.id ∧ row.id ≤ (run next new ops).nextID ∧
        (∃ entries, Json.decodeArray row.errors = some entries) ∧
        ((∀ op ∈ ops, op.Shallow) → ∃ entries, Json.unmarshalList row.errors = some entries) ∧
        (¬(row.state = .completed ∨ row.state = .cancelled ∨ row.state = .dead) →
          ∃ late, ∀ now, late ≤ now → due now row.queue row = true ∨ expired now row = true) := by
  refine ⟨(run next new ops).jobs.nodup, ?_⟩
  intro row hrow
  have hsound := sound_of_mem_run hrow
  have hid := (fresh_run ops fresh_new).2 row hrow
  obtain ⟨entries, hrecorded⟩ := recorded_of_mem_run hrow
  have hfinished : finished row.state = true ↔
      row.state = .completed ∨ row.state = .cancelled ∨ row.state = .dead := by
    cases row.state <;> simp [finished]
  refine ⟨hsound.leased, hsound.finalized.trans hfinished, hsound.attempt_nonneg,
    hsound.attempt_pos, hid.1, hid.2, ⟨entries, hrecorded.decodeArray⟩,
    fun hops => unmarshalList_of_mem_run hops hrow, fun hopen => hsound.fetchable ?_⟩
  rw [← hfinished] at hopen
  simpa using hopen

/-- The text of `n + 1` arrays, each inside the one before. -/
def nested : Nat → Json.Value
  | 0 => .arr []
  | n + 1 => .arr [nested n]

theorem depth_nested (n : Nat) : Json.depth (nested n) = n + 1 := by
  induction n with
  | zero => simp [nested, Json.depth, Json.depthElements]
  | succ n ih => simp [nested, Json.depth, Json.depthElements, ih]

/-- A job is inserted and claimed. -/
def claimedRun : List Op := [.insert 1 ⟨[], [], [], 0, []⟩, .fetchAvailable 2 [] 1 1]

/-- The claimed row. -/
def claimedRow : JobRow := claim 2 1 (jobFromParams 1 ⟨[], [], [], 0, []⟩ 1)

/-- The claimed job fails with the detail `deep`. -/
def failedRun (deep : Json.Value) : List Op :=
  claimedRun ++ [.mark ⟨1, 1⟩ (.retryable 3 (some (Json.print deep)))]

/-- The row this leaves. -/
def failedRow (deep : Json.Value) : JobRow :=
  (Mark.retryable 3 none).result { claimedRow with errors := Json.marshalList [deep] }

/-- The first detail of a job is appended to the empty list. -/
theorem appendError_first {row : JobRow} (hempty : row.errors = Json.print (.arr []))
    {deep : Json.Value} (hscan : Json.scan (Json.print deep) = some deep) :
    appendError row (some (Json.print deep)) =
      ({ row with errors := Json.marshalList [deep] }, none) := by
  have hlist : Json.unmarshalList row.errors = some [] := by
    rw [hempty]
    exact Json.unmarshalList_print_arr (by decide)
  exact appendError_of_list hlist hscan

theorem run_failedRun {deep : Json.Value} (hscan : Json.scan (Json.print deep) = some deep) :
    run next new (failedRun deep) = ⟨1, ⟨[failedRow deep], by simp⟩⟩ := by
  have happend := appendError_first (show claimedRow.errors = Json.print (.arr []) by decide) hscan
  have hmark := mark_of_running (m := .retryable 3 (some (Json.print deep)))
    (d := run next new claimedRun) rfl rfl happend
  rw [failedRun, run_append, run_cons, run_nil, next, step,
    show (⟨1, 1⟩ : Lease) = claimedRow.lease by decide, hmark]
  rfl

theorem unmarshalList_deep {deep : Json.Value} (hdepth : Json.depth deep = Json.maxNestingDepth) :
    Json.unmarshalList (Json.marshalList [deep]) = none := by
  simp [Json.marshalList, Json.unmarshalList, Json.scan, Json.depth,
    Json.depthElements_escapeElements, Json.depthElements, hdepth]

/-- A detail nested exactly to the limit is accepted, and the array that now holds it
is one level too deep for `json.Unmarshal`. -/
theorem failedRun_undecodable {deep : Json.Value} (hdepth : Json.depth deep = Json.maxNestingDepth) :
    ∃ row ∈ (run next new (failedRun deep)).jobs.rows, Json.unmarshalList row.errors = none := by
  rw [run_failedRun (by simp [Json.scan, hdepth])]
  exact ⟨failedRow deep, List.mem_singleton.mpr rfl, unmarshalList_deep hdepth⟩

/-- A JSON object that holds `n + 1` nested arrays. -/
def deepDetail (n : Nat) : Json.Value := .obj [([], nested n)]

theorem depth_deepDetail (n : Nat) : Json.depth (deepDetail n) = n + 2 := by
  simp [deepDetail, Json.depth, Json.depthMembers, depth_nested]

/-- An object nested 10000 levels is a detail the store accepts and cannot read back. -/
theorem deepDetail_undecodable :
    ∃ row ∈ (run next new (failedRun (deepDetail 9998))).jobs.rows,
      Json.unmarshalList row.errors = none :=
  failedRun_undecodable (depth_deepDetail 9998)

end Drover.Memdriver
