import Drover.Memdriver.Invariant

set_option autoImplicit false

/-!
# The history of a job

What a run of any calls may do to one job, from the state it was inserted in to any
later one: it never disappears, its identity never changes, its errors only grow,
and its state moves along the edges of `Change` alone.  A claimed job comes back
to the queue only through its holder, or through an operator after it died.
-/

namespace Drover.Memdriver

open Drover.Foundation
open Drover.Driver
open Drover.Go (Time Duration)

/-! ## Runs -/

theorem present_run {d : Driver} (hfresh : d.Fresh) (ops : List Op) {id : Int} {row : JobRow}
    (h : d.jobs.get? id = some row) : ∃ row', (run next d ops).jobs.get? id = some row' := by
  refine (run_invariant (P := fun d : Driver => d.Fresh ∧ ∃ row, d.jobs.get? id = some row) ?_
    ⟨hfresh, row, h⟩ ops).2
  rintro d op ⟨hfresh, row, hrow⟩
  obtain ⟨row', hrow', -⟩ := next_row hfresh op hrow
  exact ⟨hfresh.next op, row', hrow'⟩

/-- A stored row is there in every later state, as the same job, with the errors it
had at the front of those it has. -/
theorem run_row {d : Driver} (hfresh : d.Fresh) (ops : List Op) {id : Int} {row : JobRow}
    (h : d.jobs.get? id = some row) {entries : List Json.Value} (hrecorded : Recorded row entries) :
    ∃ row' more, (run next d ops).jobs.get? id = some row' ∧ SameJob row row' ∧
      Recorded row' (entries ++ more) := by
  induction ops generalizing d row entries with
  | nil => exact ⟨row, [], h, SameJob.refl row, by simpa using hrecorded⟩
  | cons op ops ih =>
      rw [run_cons]
      obtain ⟨mid, hmid, rfl | hchange⟩ := next_row hfresh op h
      · exact ih (hfresh.next op) hmid hrecorded
      · have hgrown : ∃ more, Recorded mid (entries ++ more) := by
          rcases hrecorded.change hchange with hsame | ⟨_, entry, -, -, hmore⟩
          · exact ⟨[], by simpa using hsame⟩
          · exact ⟨_, hmore⟩
        obtain ⟨more, hmore⟩ := hgrown
        obtain ⟨row', more', hrow', hsame, hrecorded'⟩ := ih (hfresh.next op) hmid hmore
        exact ⟨row', more ++ more', hrow', (sameJob_of_change hchange).trans hsame,
          by rwa [← List.append_assoc]⟩

/-! ## State changes -/

theorem created_not_running {op : Op} {row : JobRow} (h : Created op row) :
    row.state ≠ .running := by
  obtain ⟨id, params, now, rfl⟩ := h.eq_jobFromParams
  rcases jobFromParams_state id params now with hstate | hstate <;> rw [hstate] <;> decide

/-- The state a `Mark` leaves its job in. -/
def Mark.state : Mark → JobState
  | .completed _ => .completed
  | .retryable _ _ => .retryable
  | .dead _ _ => .dead
  | .cancelled _ _ => .cancelled
  | .snoozed _ => .scheduled

@[simp] theorem Mark.result_state (m : Mark) (row : JobRow) : (m.result row).state = m.state := by
  cases m <;> rfl

/-- A call of `FetchAvailable`. -/
def Op.isClaim : Op → Bool
  | .fetchAvailable _ _ _ _ => true
  | _ => false

/-- The edges of a job's states, and the calls that take them. -/
theorem change_state {op : Op} {row row' : JobRow} (h : Change op row row') :
    (waiting row.state = true ∧ op.isClaim = true ∧ row'.state = .running) ∨
    (row.state = .running ∧ row'.state = .running) ∨
    (row.state = .running ∧ ∃ m, op = .mark row.lease m ∧ row'.state = m.state) ∨
    (cancellable row.state = true ∧ (∃ now, op = .operatorCancel now row.id) ∧
      row'.state = .cancelled) ∨
    (row.state = .dead ∧ (∃ now, op = .redriveDead now row.id) ∧ row'.state = .available) := by
  cases h with
  | claim hdue =>
      simp only [due, Bool.and_eq_true] at hdue
      exact Or.inl ⟨hdue.1.1, rfl, rfl⟩
  | reclaim hexpired =>
      simp only [expired, Bool.and_eq_true, beq_iff_eq] at hexpired
      exact Or.inr (Or.inl ⟨hexpired.1, hexpired.1⟩)
  | extend hrunning hheld => exact Or.inr (Or.inl ⟨hrunning, hrunning⟩)
  | mark hrunning happend =>
      exact Or.inr (Or.inr (Or.inl ⟨hrunning, _, rfl, Mark.result_state _ _⟩))
  | operatorCancel hcan => exact Or.inr (Or.inr (Or.inr (Or.inl ⟨hcan, ⟨_, rfl⟩, rfl⟩)))
  | redriveDead hdead => exact Or.inr (Or.inr (Or.inr (Or.inr ⟨hdead, ⟨_, rfl⟩, rfl⟩)))

/-- A completed or cancelled row is never changed. -/
theorem not_change_of_closed {op : Op} {row row' : JobRow}
    (hclosed : row.state = .completed ∨ row.state = .cancelled) : ¬Change op row row' := by
  intro h
  rcases change_state h with ⟨hstate, -⟩ | ⟨hstate, -⟩ | ⟨hstate, -⟩ | ⟨hstate, -⟩ | ⟨hstate, -⟩ <;>
    rcases hclosed with hclosed | hclosed <;> rw [hclosed] at hstate <;> cases hstate

/-- A row that a claim changes is one it hands out. -/
theorem mem_fetched_of_claim {d : Driver} {op : Op} {id : Int} {row row' : JobRow}
    (hop : op.isClaim = true) (h : d.jobs.get? id = some row)
    (h' : (next d op).jobs.get? id = some row') (hne : row' ≠ row) : row' ∈ fetched d op := by
  cases op with
  | fetchAvailable now queue leaseFor limit =>
      rw [get?_fetchAvailable, h, Option.map_some, Option.some.injEq] at h'
      subst h'
      split at hne
      · rename_i hmem
        rw [if_pos hmem, fetched, fetchAvailable_eq]
        exact List.mem_map_of_mem hmem
      · exact absurd rfl hne
  | _ => cases hop

/-- What a call does to the state of one job. -/
theorem next_state {d : Driver} (hfresh : d.Fresh) (op : Op) {id : Int} {row row' : JobRow}
    (h : d.jobs.get? id = some row) (h' : (next d op).jobs.get? id = some row') :
    (row.state = .completed ∨ row.state = .cancelled → row'.state = row.state) ∧
    (row.state = .dead → row'.state ≠ .dead →
      (∃ now, op = .redriveDead now id ∧ row'.state = .available) ∨
        ∃ now, op = .operatorCancel now id ∧ row'.state = .cancelled) ∧
    (row.state ≠ .running → row'.state = .running →
      op.isClaim = true ∧ row' ∈ fetched d op) ∧
    (row.state = .running → row'.state ≠ .running → ∃ m, op = .mark ⟨id, row.attempt⟩ m) := by
  have hkey : row.id = id := Table.key_of_get? h
  subst hkey
  obtain ⟨row'', hget, hcases⟩ := next_row hfresh op h
  rw [h'] at hget
  cases hget
  rcases hcases with rfl | hchange
  · exact ⟨fun _ => rfl, fun hdead hne => absurd hdead hne, fun hne hrun => absurd hrun hne,
      fun hrun hne => absurd hrun hne⟩
  · refine ⟨fun hclosed => absurd hchange (not_change_of_closed hclosed), ?_, ?_, ?_⟩
    · intro hdead hne
      rcases change_state hchange with ⟨hs, -⟩ | ⟨hs, -⟩ | ⟨hs, -⟩ | ⟨-, ⟨now, hop⟩, hs⟩ |
        ⟨-, ⟨now, hop⟩, hs⟩
      · rw [hdead] at hs; cases hs
      · rw [hdead] at hs; cases hs
      · rw [hdead] at hs; cases hs
      · exact Or.inr ⟨now, hop, hs⟩
      · exact Or.inl ⟨now, hop, hs⟩
    · intro hne hrun
      rcases change_state hchange with ⟨-, hop, -⟩ | ⟨hs, -⟩ | ⟨hs, -⟩ | ⟨-, -, hs⟩ | ⟨-, -, hs⟩
      · exact ⟨hop, mem_fetched_of_claim hop h h' (by rintro rfl; exact hne hrun)⟩
      · exact absurd hs hne
      · exact absurd hs hne
      · rw [hrun] at hs; cases hs
      · rw [hrun] at hs; cases hs
    · intro hrun hne
      rcases change_state hchange with ⟨hs, -⟩ | ⟨-, hs⟩ | ⟨-, m, hop, -⟩ | ⟨hs, -⟩ | ⟨hs, -⟩
      · rw [hrun] at hs; cases hs
      · exact absurd hs hne
      · exact ⟨m, hop⟩
      · rw [hrun] at hs; cases hs
      · rw [hrun] at hs; cases hs

/-! ## Claims and returns -/

/-- The call is an accepted `RedriveDead` of the job. -/
def redrives (id : Int) (d : Driver) : Op → Bool
  | .redriveDead now id' => id' == id && (d.redriveDead now id').2.isOk
  | _ => false

/-- The call is an accepted `Mark` that gives the job back: a retry, a snooze, or a
death that a later accepted `RedriveDead` reverses. -/
def GivesBack (id : Int) (d : Driver) (op : Op) (rest : List Op) : Prop :=
  ∃ lease m, op = .mark lease m ∧ lease.id = id ∧ (d.mark lease m).2 = none ∧
    ((∃ retryAt detail, m = .retryable retryAt detail) ∨ (∃ runAt, m = .snoozed runAt) ∨
      (∃ now detail, m = .dead now detail) ∧
        Sometime next (fun d op _ => redrives id d op = true) (next d op) rest)

/-- A dead job is waiting again only if it was redriven. -/
theorem redriven_of_waiting {d : Driver} (hfresh : d.Fresh) {ops : List Op} {id : Int}
    {row row' : JobRow} (h : d.jobs.get? id = some row)
    (hclosed : row.state = .dead ∨ row.state = .completed ∨ row.state = .cancelled)
    (h' : (run next d ops).jobs.get? id = some row') (hwaiting : waiting row'.state = true) :
    row.state = .dead ∧ Sometime next (fun d op _ => redrives id d op = true) d ops := by
  induction ops generalizing d row with
  | nil =>
      rw [run_nil, h] at h'
      cases h'
      rcases hclosed with hs | hs | hs <;> rw [hs] at hwaiting <;> cases hwaiting
  | cons op ops ih =>
      rw [run_cons] at h'
      obtain ⟨mid, hmid, rfl | hchange⟩ := next_row hfresh op h
      · obtain ⟨hdead, hlater⟩ := ih (hfresh.next op) hmid hclosed h'
        exact ⟨hdead, Or.inr hlater⟩
      · rcases hclosed with hdead | hdone
        · refine ⟨hdead, ?_⟩
          have hkey : row.id = id := Table.key_of_get? h
          subst hkey
          cases hchange with
          | claim hdue => simp [due, waiting, hdead] at hdue
          | reclaim hexpired => simp [expired, hdead] at hexpired
          | extend hrunning hheld => rw [hdead] at hrunning; cases hrunning
          | mark hrunning happend => rw [hdead] at hrunning; cases hrunning
          | operatorCancel hcan => exact Or.inr (ih (hfresh.next _) hmid (Or.inr (Or.inr rfl)) h').2
          | @redriveDead now row hdead =>
              refine Or.inl ?_
              simp [redrives, Driver.redriveDead, operatorAction_eq, h, hdead, Except.isOk,
                Except.toBool]
        · exact absurd hchange (not_change_of_closed hdone)

/-- A running job is waiting again only if it was given back. -/
theorem givenBack_of_waiting {d : Driver} (hfresh : d.Fresh) {ops : List Op} {id : Int}
    {row row' : JobRow} (h : d.jobs.get? id = some row) (hrunning : row.state = .running)
    (h' : (run next d ops).jobs.get? id = some row') (hwaiting : waiting row'.state = true) :
    Sometime next (GivesBack id) d ops := by
  induction ops generalizing d row with
  | nil =>
      rw [run_nil, h] at h'
      cases h'
      rw [hrunning] at hwaiting
      cases hwaiting
  | cons op ops ih =>
      rw [run_cons] at h'
      obtain ⟨mid, hmid, rfl | hchange⟩ := next_row hfresh op h
      · exact Or.inr (ih (hfresh.next op) hmid hrunning h')
      · have hkey : row.id = id := Table.key_of_get? h
        subst hkey
        cases hchange with
        | claim hdue => simp [due, waiting, hrunning] at hdue
        | reclaim hexpired => exact Or.inr (ih (hfresh.next _) hmid hrunning h')
        | extend hrun hheld => exact Or.inr (ih (hfresh.next _) hmid hrunning h')
        | @mark m row appended hrun happend =>
            have haccepted := congrArg Prod.snd (mark_of_running h hrun happend)
            have hdied : m.state = .dead ∨ m.state = .completed ∨ m.state = .cancelled →
                m.state = .dead ∧
                  Sometime next (fun d op _ => redrives row.id d op = true)
                    (next d (.mark row.lease m)) ops := by
              rw [← m.result_state appended]
              exact fun hclosed => redriven_of_waiting (hfresh.next _) hmid hclosed h' hwaiting
            refine Or.inl ⟨row.lease, m, rfl, rfl, haccepted, ?_⟩
            cases m with
            | completed now => cases (hdied (Or.inr (Or.inl rfl))).1
            | retryable retryAt detail => exact Or.inl ⟨_, _, rfl⟩
            | dead now detail =>
                exact Or.inr (Or.inr ⟨⟨_, _, rfl⟩, (hdied (Or.inl rfl)).2⟩)
            | cancelled now detail => cases (hdied (Or.inr (Or.inr rfl))).1
            | snoozed runAt => exact Or.inr (Or.inl ⟨_, rfl⟩)
        | operatorCancel hcan => rw [hrunning] at hcan; cases hcan
        | redriveDead hdead => rw [hrunning] at hdead; cases hdead

/-- A claim takes a waiting job and leaves it running. -/
theorem claimed {d : Driver} {op : Op} (hop : op.isClaim = true) {row : JobRow}
    (h : row ∈ fetched d op) :
    ((next d op).jobs.get? row.id = some row ∧ row.state = .running) ∧
      ∃ old, d.jobs.get? row.id = some old ∧ waiting old.state = true := by
  obtain ⟨hrow, old, hold, hchange⟩ := mem_fetched h
  cases hchange with
  | claim hdue =>
      simp only [due, Bool.and_eq_true] at hdue
      exact ⟨⟨hrow, rfl⟩, old, hold, hdue.1.1⟩
  | _ => cases hop

/-- The history of every job over every run.  A stored row stays, as the same job,
with its errors at the front of its later errors.  A step never leaves `completed`
or `cancelled`, leaves `dead` only by `RedriveDead` or `OperatorCancel`, enters
`running` only by a `FetchAvailable` that hands the row out, and leaves it only by a
`Mark`.  Between two claims of a job its holder gave it back. -/
theorem run_job_history :
    (∀ ops ops' id row, (run next new ops).jobs.get? id = some row →
      ∃ row', (run next new (ops ++ ops')).jobs.get? id = some row' ∧ SameJob row row' ∧
        (∃ entries more, Json.decodeArray row.errors = some entries ∧
          Json.decodeArray row'.errors = some (entries ++ more)) ∧
        ∀ entries entries', Json.unmarshalList row.errors = some entries →
          Json.unmarshalList row'.errors = some entries' → entries <+: entries') ∧
    (∀ ops op id row', (run next new (ops ++ [op])).jobs.get? id = some row' →
      ((∀ row, (run next new ops).jobs.get? id = some row → row.state ≠ .running) →
        row'.state = .running → op.isClaim = true ∧ row' ∈ fetched (run next new ops) op) ∧
      ∀ row, (run next new ops).jobs.get? id = some row →
        (row.state = .completed ∨ row.state = .cancelled → row'.state = row.state) ∧
        (row.state = .dead → row'.state ≠ .dead →
          (∃ now, op = .redriveDead now id ∧ row'.state = .available) ∨
            ∃ now, op = .operatorCancel now id ∧ row'.state = .cancelled) ∧
        (row.state = .running → row'.state ≠ .running → ∃ m, op = .mark ⟨id, row.attempt⟩ m)) ∧
    (∀ ops op mid op' row row', op.isClaim = true → op'.isClaim = true →
      row ∈ fetched (run next new ops) op →
      row' ∈ fetched (run next new (ops ++ op :: mid)) op' → row'.id = row.id →
      Sometime next (GivesBack row.id) (run next new (ops ++ [op])) mid) := by
  refine ⟨?_, ?_, ?_⟩
  · intro ops ops' id row hrow
    obtain ⟨entries, hentries⟩ := recorded_of_mem_run (Table.mem_of_get? hrow)
    obtain ⟨row', more, hrow', hsame, hmore⟩ :=
      run_row (fresh_run ops fresh_new) ops' hrow hentries
    refine ⟨row', by rw [run_append]; exact hrow', hsame,
      ⟨entries, more, hentries.decodeArray, hmore.decodeArray⟩, ?_⟩
    intro xs ys hxs hys
    rw [hentries.1] at hxs
    rw [hmore.1] at hys
    rw [Json.unmarshalList_print_arr_eq_some hxs, Json.unmarshalList_print_arr_eq_some hys]
    exact List.prefix_append entries more
  · intro ops op id row' hrow'
    rw [run_append, run_cons, run_nil] at hrow'
    have hfresh := fresh_run ops fresh_new
    refine ⟨?_, fun row hrow => ?_⟩
    · intro hbefore hrunning
      cases hrow : (run next new ops).jobs.get? id with
      | none =>
          exact absurd hrunning (created_not_running (next_new op hrow hrow').2.2)
      | some row => exact (next_state hfresh op hrow hrow').2.2.1 (hbefore row hrow) hrunning
    · obtain ⟨hclosed, hdead, -, hleft⟩ := next_state hfresh op hrow hrow'
      exact ⟨hclosed, hdead, hleft⟩
  · intro ops op mid op' row row' hop hop' hfirst hsecond hid
    obtain ⟨⟨hrow, hrunning⟩, -⟩ := claimed hop hfirst
    obtain ⟨-, old, hold, hwaiting⟩ := claimed hop' hsecond
    have hstart : run next new (ops ++ [op]) = next (run next new ops) op := by
      rw [run_append, run_cons, run_nil]
    have hend : run next new (ops ++ op :: mid) = run next (next (run next new ops) op) mid := by
      rw [run_append, run_cons]
    rw [hend, hid] at hold
    rw [hstart]
    exact givenBack_of_waiting ((fresh_run ops fresh_new).next op) hrow hrunning hold hwaiting

end Drover.Memdriver
