import Drover.Memdriver.Claims
import Drover.Memdriver.History

set_option autoImplicit false

/-!
# Nobody is passed over for ever

`FetchAvailable` and `FetchExpired` take rows in a fixed order: the earliest due time or
the oldest lease first, and the smaller id among equals.  A job in such a line has a number
of rows ahead of it.  Calls that put no row before it do not raise that number, and a fetch
either takes the job or takes as many of those ahead as its limit allows.  So the job is
reached after a number of fetches that depends on its place alone, whatever calls come
between them.
-/

namespace Drover.Memdriver

open Drover.Foundation
open Drover.Driver
open Drover.Go (Time Duration)

/-! ## A line of rows -/

/-- The rows in a line, and what they are ordered by. -/
structure Line where
  member : JobRow → Bool
  order : JobRow → Time

/-- The row `x` is in the line and before `row`. -/
def Line.ahead (line : Line) (row x : JobRow) : Bool :=
  line.member x &&
    decide (line.order x < line.order row ∨ (line.order x = line.order row ∧ x.id < row.id))

/-- The rows before a row. -/
def Line.before (line : Line) (row : JobRow) (d : Driver) : List JobRow :=
  d.jobs.rows.filter (line.ahead row)

section Line

variable {line : Line} {row : JobRow} {d d' : Driver}

/-- A row that comes later is not before. -/
theorem not_ahead_of_lt {x : JobRow} (h : line.order row < line.order x) :
    line.ahead row x = false := by
  have hnot : ¬(line.order x < line.order row ∨ (line.order x = line.order row ∧ x.id < row.id)) := by
    rintro (hlt | ⟨heq, -⟩)
    · exact absurd hlt (Int.lt_asymm h)
    · exact absurd heq (Int.ne_of_gt h)
  rw [Line.ahead, decide_eq_false hnot, Bool.and_false]

/-- Nor is one that comes no earlier and has a larger id. -/
theorem not_ahead_of_le {x : JobRow} (h : line.order row ≤ line.order x) (hid : row.id ≤ x.id) :
    line.ahead row x = false := by
  have hnot : ¬(line.order x < line.order row ∨ (line.order x = line.order row ∧ x.id < row.id)) := by
    rintro (hlt | ⟨-, hlt⟩)
    · exact absurd hlt (Int.not_lt.mpr h)
    · exact absurd hlt (Int.not_lt.mpr hid)
  rw [Line.ahead, decide_eq_false hnot, Bool.and_false]

theorem nodup_before (line : Line) (row : JobRow) (d : Driver) : (line.before row d).Nodup :=
  d.jobs.nodup.of_map.filter _

/-- Rows that are taken out of the line and replaced by none. -/
theorem length_before_add_le {taken : List JobRow} (hnodup : taken.Nodup)
    (htaken : ∀ x ∈ taken, x ∈ line.before row d ∧ x ∉ d'.jobs.rows)
    (hold : ∀ x ∈ d'.jobs.rows, line.ahead row x = true → x ∈ d.jobs.rows) :
    (line.before row d').length + taken.length ≤ (line.before row d).length := by
  have hdisjoint : (line.before row d').Disjoint taken := fun x hx hmem =>
    (htaken x hmem).2 (List.mem_filter.mp hx).1
  have hsub : line.before row d' ++ taken ⊆ line.before row d := by
    intro x hx
    rcases List.mem_append.mp hx with hx | hx
    · obtain ⟨hmem, hahead⟩ := List.mem_filter.mp hx
      exact List.mem_filter.mpr ⟨hold x hmem hahead, hahead⟩
    · exact (htaken x hx).1
  have hall : (line.before row d' ++ taken).Nodup :=
    List.nodup_append'.mpr ⟨nodup_before line row d', hnodup, hdisjoint⟩
  rw [← List.length_append]
  exact (List.subperm_of_subset hall hsub).length_le

/-- Whoever is selected before a row that is not is before it in the line. -/
theorem take_before {keep : JobRow → Bool} (hkeep : ∀ x, keep x = true → line.member x = true)
    {n : Nat} (hselected : row ∈ d.selectRows line.order keep)
    (hnot : row ∉ (d.selectRows line.order keep).take n) :
    ((d.selectRows line.order keep).take n).length = n ∧
      ∀ x ∈ (d.selectRows line.order keep).take n, x ∈ line.before row d := by
  constructor
  · rw [List.length_take]
    refine Nat.min_eq_left (Nat.le_of_lt (Nat.lt_of_not_le fun hle => hnot ?_))
    rw [List.take_of_length_le hle]
    exact hselected
  · intro x hx
    obtain ⟨hmem, hkept⟩ := mem_selectRows.mp (List.mem_of_mem_take hx)
    refine List.mem_filter.mpr ⟨hmem, ?_⟩
    simp only [Line.ahead, hkeep x hkept, Bool.true_and, decide_eq_true_eq]
    exact selected_first hx hselected hnot

/-- A row is not where it was after as many fetches as its place in the line asks for, when
each of them takes `n` rows from before it or the row itself. -/
theorem exists_moved {C : Op → Prop} {fetches : Op → Bool} {n : Nat}
    (hstep : ∀ (d : Driver) (op : Op), d.Fresh → C op → d.jobs.get? row.id = some row →
      (next d op).jobs.get? row.id = some row →
      (line.before row (next d op)).length + (if fetches op then n else 0) ≤
        (line.before row d).length)
    (hfresh : d.Fresh) (hrow : d.jobs.get? row.id = some row) {ops : List Op}
    (hC : ∀ op ∈ ops, C op) (hlt : (line.before row d).length < n * ops.countP fetches) :
    ∃ pre op post, ops = pre ++ op :: post ∧
      (run next d pre).jobs.get? row.id = some row ∧
      (next (run next d pre) op).jobs.get? row.id ≠ some row := by
  induction ops generalizing d with
  | nil => simp at hlt
  | cons op ops ih =>
      obtain ⟨hop, hops⟩ := List.forall_mem_cons.mp hC
      by_cases hkept : (next d op).jobs.get? row.id = some row
      · have hless := hstep d op hfresh hop hrow hkept
        have hrest : (line.before row (next d op)).length < n * ops.countP fetches := by
          rw [List.countP_cons] at hlt
          cases hfetch : fetches op
          · simp only [hfetch, Bool.false_eq_true, if_false, Nat.add_zero] at hless hlt
            omega
          · simp only [hfetch, if_true, Nat.mul_succ] at hless hlt
            omega
        obtain ⟨pre, op', post, rfl, hstored, hmoved⟩ := ih (hfresh.next op) hkept hops hrest
        exact ⟨op :: pre, op', post, rfl, hstored, hmoved⟩
      · exact ⟨[], op, ops, rfl, hrow, hkept⟩

/-- A call after which no row is before `row` that was not there. -/
def Line.Behind (line : Line) (row : JobRow) (d d' : Driver) : Prop :=
  ∀ x ∈ d'.jobs.rows, line.ahead row x = true → x ∈ d.jobs.rows

theorem Line.Behind.length_le (h : line.Behind row d d') :
    (line.before row d').length ≤ (line.before row d).length :=
  length_before_add_le List.nodup_nil (fun _ hx => absurd hx List.not_mem_nil) h

/-- A row that was not there has been built by an insert or has gone through a `Change`. -/
theorem behind_of_change (hfresh : d.Fresh) (op : Op)
    (hcreated : ∀ x, Created op x → d.nextID < x.id → line.ahead row x = false)
    (hchange : ∀ x x', Change op x x' → line.ahead row x' = false) :
    line.Behind row d (next d op) := by
  intro x hx hahead
  have hget := Table.get?_of_mem hx
  cases hold : d.jobs.get? x.id with
  | none =>
      obtain ⟨hid, -, hnew⟩ := next_new op hold hget
      rw [hcreated x hnew hid] at hahead
      cases hahead
  | some old =>
      obtain ⟨x', hx', hsame | hmoved⟩ := next_row hfresh op hold
      · rw [hget, hsame, Option.some.injEq] at hx'
        rw [hx']
        exact Table.mem_of_get? hold
      · rw [hget, Option.some.injEq] at hx'
        rw [hx', hchange old x' hmoved] at hahead
        cases hahead

/-- A fetch of at least `n` rows that passes a row over takes `n` rows from before it. -/
theorem length_before_fetch {keep : JobRow → Bool} (touch : JobRow → JobRow) {limit : Int} {n : Nat}
    {op : Op} (hn : n ≤ limit) (hkeep : ∀ x, keep x = true → line.member x = true)
    (hget : ∀ id, (next d op).jobs.get? id = (d.jobs.get? id).map fun x =>
      if x ∈ upTo limit (d.selectRows line.order keep) then touch x else x)
    (htouch : ∀ x, line.ahead row x = true ∨ x = row → touch x ≠ x)
    (hbehind : line.Behind row d (next d op)) (hselected : row ∈ d.selectRows line.order keep)
    (hkept : (next d op).jobs.get? row.id = some row) :
    (line.before row (next d op)).length + n ≤ (line.before row d).length := by
  have hpre : (d.selectRows line.order keep).take n ⊆ upTo limit (d.selectRows line.order keep) := by
    have hle : n ≤ limit.toNat := by omega
    rw [upTo, if_neg (by omega)]
    exact (List.take_prefix_take_left hle).subset
  -- what is taken is not stored any more
  have hgone : ∀ x ∈ upTo limit (d.selectRows line.order keep), touch x ≠ x →
      (next d op).jobs.get? x.id ≠ some x := by
    intro x hx hne hsame
    have hmem := (mem_selectRows.mp ((upTo_sublist limit _).subset hx)).1
    rw [hget, Table.get?_of_mem hmem, Option.map_some, if_pos hx, Option.some.injEq] at hsame
    exact hne hsame
  have hnot : row ∉ (d.selectRows line.order keep).take n := fun hmem =>
    hgone row (hpre hmem) (htouch row (Or.inr rfl)) hkept
  obtain ⟨hlength, hbefore⟩ := take_before hkeep hselected hnot
  have hnodup : ((d.selectRows line.order keep).take n).Nodup :=
    (nodup_selectRows d line.order keep).of_map.sublist (List.take_sublist n _)
  have hle := length_before_add_le hnodup (fun x hx => ⟨hbefore x hx, fun hmem => ?_⟩) hbehind
  · rw [hlength] at hle
    exact hle
  · have hahead := (List.mem_filter.mp (hbefore x hx)).2
    exact hgone x (hpre hx) (htouch x (Or.inl hahead)) (Table.get?_of_mem hmem)

end Line

/-! ## Leases that have passed -/

/-- The leased rows, the oldest lease first. -/
def leaseLine : Line where
  member row := row.state == .running && row.leasedUntil.isSome
  order := byLeasedUntil

/-- Whatever the call leases, it leases past a time. -/
def Op.LeasesAfter (t : Time) : Op → Prop
  | .fetchAvailable now _ leaseFor _ => t < now + leaseFor
  | .fetchExpired now leaseFor _ => t < now + leaseFor
  | .extendLeases now _ leaseFor => t < now + leaseFor
  | _ => True

/-- A round of the rescuer, at or past a time, of at least `n` rows. -/
def Op.sweeps (t : Time) (n : Nat) : Op → Bool
  | .fetchExpired now _ limit => decide (t ≤ now ∧ n ≤ limit)
  | _ => false

section Lease

variable {row : JobRow} {d : Driver} {op : Op}

theorem not_ahead_of_lease {x : JobRow} {until_ : Time} (hlease : x.leasedUntil = some until_)
    (hlt : byLeasedUntil row < until_) : leaseLine.ahead row x = false := by
  refine not_ahead_of_lt ?_
  change byLeasedUntil row < byLeasedUntil x
  rw [byLeasedUntil.eq_def x, hlease]
  exact hlt

theorem behind_of_leasesAfter (hfresh : d.Fresh) (h : op.LeasesAfter (byLeasedUntil row)) :
    leaseLine.Behind row d (next d op) := by
  refine behind_of_change hfresh op (fun x hx _ => ?_) fun x x' hchange => ?_
  · simp [Line.ahead, leaseLine, created_not_running hx]
  · cases hchange with
    | claim hdue => exact not_ahead_of_lease rfl h
    | reclaim hexpired => exact not_ahead_of_lease rfl h
    | extend hrunning hheld => exact not_ahead_of_lease rfl h
    | mark hrunning happend => simp [Line.ahead, leaseLine, Mark.result]
    | operatorCancel hcan => simp [Line.ahead, leaseLine, cancelRow]
    | redriveDead hdead => simp [Line.ahead, leaseLine, redriveRow]

/-- A call that passes over a job whose lease has passed by the time `t`. -/
theorem length_before_sweep {n : Nat} (hrunning : row.state = .running)
    (hlease : row.leasedUntil = some (byLeasedUntil row)) (hfresh : d.Fresh)
    (hafter : op.LeasesAfter (byLeasedUntil row)) (hrow : d.jobs.get? row.id = some row)
    (hkept : (next d op).jobs.get? row.id = some row) :
    (leaseLine.before row (next d op)).length +
        (if op.sweeps (byLeasedUntil row) n then n else 0) ≤
      (leaseLine.before row d).length := by
  have hbehind := behind_of_leasesAfter hfresh hafter
  cases hsweep : op.sweeps (byLeasedUntil row) n with
  | false => exact hbehind.length_le
  | true =>
      cases op with
      | fetchExpired now leaseFor limit =>
          obtain ⟨hnow, hn⟩ := of_decide_eq_true hsweep
          have hexpired : expired now row = true := by
            simp only [expired, hrunning, hlease, beq_self_eq_true, Bool.true_and, Bool.not_eq_true',
              decide_eq_false_iff_not]
            exact Int.not_lt.mpr hnow
          refine length_before_fetch (reclaim now leaseFor) hn ?_
            (get?_fetchExpired d now leaseFor limit) ?_ hbehind
            (mem_selectRows.mpr ⟨Table.mem_of_get? hrow, hexpired⟩) hkept
          · intro x hx
            simp only [expired, Bool.and_eq_true] at hx
            cases hleased : x.leasedUntil with
            | none =>
                rw [hleased] at hx
                cases hx.2
            | some t => simp [leaseLine, hleased, hx.1]
          · -- a renewed lease is past that of the row, so it is a new one
            intro x hx hsame
            have horder : byLeasedUntil x = now + leaseFor := by
              rw [← hsame]
              rfl
            have hafter' : byLeasedUntil row < now + leaseFor := hafter
            rcases hx with hx | rfl
            · simp only [Line.ahead, Bool.and_eq_true, decide_eq_true_eq] at hx
              change _ ∧ (byLeasedUntil x < byLeasedUntil row ∨ byLeasedUntil x = byLeasedUntil row ∧ _) at hx
              rw [horder] at hx
              rcases hx.2 with hlt | ⟨heq, -⟩
              · exact absurd hlt (Int.lt_asymm hafter')
              · exact absurd heq (Int.ne_of_gt hafter')
            · rw [horder] at hafter'
              exact absurd hafter' (Int.lt_irrefl _)
      | _ => cases hsweep

/-- A running row that a call does not leave alone has been handed out by a sweep, renewed
or ended. -/
theorem touched_of_running (hrunning : row.state = .running) (hfresh : d.Fresh)
    (hrow : d.jobs.get? row.id = some row) (hmoved : (next d op).jobs.get? row.id ≠ some row) :
    (∃ now leaseFor limit, op = .fetchExpired now leaseFor limit ∧
        reclaim now leaseFor row ∈ fetched d op) ∨
      (∃ now leases leaseFor, op = .extendLeases now leases leaseFor ∧ row.lease ∈ leases) ∨
      ∃ m, op = .mark row.lease m := by
  obtain ⟨row', hrow', hsame | hchange⟩ := next_row hfresh op hrow
  · rw [hsame] at hrow'
    exact absurd hrow' hmoved
  · cases hchange with
    | claim hdue =>
        rw [not_due_of_running hrunning] at hdue
        cases hdue
    | @reclaim now leaseFor limit _ hexpired =>
        refine Or.inl ⟨now, leaseFor, limit, rfl, ?_⟩
        rw [get?_fetchExpired, hrow, Option.map_some] at hmoved
        by_cases hmem : row ∈ d.reclaimable now limit
        · rw [fetched, fetchExpired_eq]
          exact List.mem_map_of_mem hmem
        · rw [if_neg hmem] at hmoved
          exact absurd rfl hmoved
    | extend hrun hheld => exact Or.inr (Or.inl ⟨_, _, _, rfl, hheld⟩)
    | mark hrun happend => exact Or.inr (Or.inr ⟨_, rfl⟩)
    | operatorCancel hcan =>
        rw [hrunning] at hcan
        cases hcan
    | redriveDead hdead =>
        rw [hrunning] at hdead
        cases hdead

end Lease

/-- Two jobs are claimed, and their worker is not heard of again. -/
def abandonedRun : List Op :=
  [.insert 1 ⟨[], [], [], 0, []⟩, .insert 1 ⟨[], [], [], 0, []⟩, .fetchAvailable 2 [] 5 2]

/-- The second of them. -/
def abandonedRow : JobRow := claim 2 5 (jobFromParams 2 ⟨[], [], [], 0, []⟩ 1)

/-- The rescuer takes one job at a time, and a third job is inserted and claimed meanwhile. -/
def rescueRun : List Op :=
  [.fetchExpired 7 5 1, .insert 8 ⟨[], [], [], 0, []⟩, .fetchAvailable 8 [] 5 1, .fetchExpired 9 5 1]

/-- The waiting rows of a queue, the earliest due time first. -/
def dueLine (queue : Bytes) : Line where
  member row := waiting row.state && row.queue == queue
  order := byScheduledAt

/-- When an insert makes a job due. -/
def dueAt (now : Time) (params : InsertParams) : Time :=
  if params.scheduledAt = 0 then now else params.scheduledAt

/-- Whatever the call makes wait, it makes wait behind a job that is due at `t`: new jobs
are not due earlier, and jobs that come back are due later. -/
def Op.EntersAfter (t : Time) : Op → Prop
  | .insert now params => t ≤ dueAt now params
  | .insertMany now batch => ∀ params ∈ batch, t ≤ dueAt now params
  | .mark _ (.retryable retryAt _) => t < retryAt
  | .mark _ (.snoozed runAt) => t < runAt
  | .redriveDead now _ => t < now
  | _ => True

/-- A claim on a queue, at or past a time, of at least `n` rows. -/
def Op.asks (queue : Bytes) (t : Time) (n : Nat) : Op → Bool
  | .fetchAvailable now queue' _ limit => decide (queue' = queue ∧ t ≤ now ∧ n ≤ limit)
  | _ => false

section Due

variable {row : JobRow} {d : Driver} {op : Op}

theorem not_ahead_of_not_waiting {queue : Bytes} {x : JobRow} (h : waiting x.state = false) :
    (dueLine queue).ahead row x = false := by
  simp only [Line.ahead, dueLine, h, Bool.false_and]

theorem dueAt_of_created {t : Time} (h : op.EntersAfter t) {x : JobRow} (hx : Created op x) :
    t ≤ x.scheduledAt := by
  cases hx with
  | insert => exact h
  | insertMany hmem => exact h _ hmem

theorem behind_of_entersAfter (queue : Bytes) (hfresh : d.Fresh)
    (hrow : d.jobs.get? row.id = some row) (h : op.EntersAfter row.scheduledAt) :
    (dueLine queue).Behind row d (next d op) := by
  refine behind_of_change hfresh op (fun x hx hid => ?_) fun x x' hchange => ?_
  · -- a new job has a larger id
    have hle := (hfresh.le hrow).2
    exact not_ahead_of_le (dueAt_of_created h hx) (by omega)
  · cases hchange with
    | claim hdue => exact not_ahead_of_not_waiting rfl
    | reclaim hexpired =>
        simp only [expired, Bool.and_eq_true, beq_iff_eq] at hexpired
        exact not_ahead_of_not_waiting (by rw [show (reclaim _ _ x).state = x.state from rfl, hexpired.1]; rfl)
    | extend hrunning hheld =>
        exact not_ahead_of_not_waiting (by rw [show (reclaim _ _ x).state = x.state from rfl, hrunning]; rfl)
    | @mark m _ appended hrunning happend =>
        cases m with
        | retryable retryAt detail => exact not_ahead_of_lt h
        | snoozed runAt => exact not_ahead_of_lt h
        | _ => exact not_ahead_of_not_waiting rfl
    | operatorCancel hcan => exact not_ahead_of_not_waiting rfl
    | redriveDead hdead => exact not_ahead_of_lt h

/-- A call that passes over a waiting job. -/
theorem length_before_ask {n : Nat} (hwaiting : waiting row.state = true) (hfresh : d.Fresh)
    (henters : op.EntersAfter row.scheduledAt) (hrow : d.jobs.get? row.id = some row)
    (hkept : (next d op).jobs.get? row.id = some row) :
    ((dueLine row.queue).before row (next d op)).length +
        (if op.asks row.queue row.scheduledAt n then n else 0) ≤
      ((dueLine row.queue).before row d).length := by
  have hbehind := behind_of_entersAfter row.queue hfresh hrow henters
  cases hask : op.asks row.queue row.scheduledAt n with
  | false => exact hbehind.length_le
  | true =>
      cases op with
      | fetchAvailable now queue leaseFor limit =>
          obtain ⟨rfl, hnow, hn⟩ := of_decide_eq_true hask
          have hdue : due now row.queue row = true := by
            simp only [due, hwaiting, beq_self_eq_true, Bool.true_and, Bool.not_eq_true',
              decide_eq_false_iff_not]
            exact Int.not_lt.mpr hnow
          refine length_before_fetch (claim now leaseFor) hn ?_
            (get?_fetchAvailable d now row.queue leaseFor limit) ?_ hbehind
            (mem_selectRows.mpr ⟨Table.mem_of_get? hrow, hdue⟩) hkept
          · intro x hx
            simp only [due, Bool.and_eq_true] at hx
            simp only [dueLine, hx.1.1, hx.1.2, Bool.and_self]
          · -- a claimed row does not wait
            intro x hx hsame
            have hwait : waiting x.state = true := by
              rcases hx with hx | rfl
              · simp only [Line.ahead, dueLine, Bool.and_eq_true] at hx
                exact hx.1.1
              · exact hwaiting
            rw [← hsame] at hwait
            cases hwait
      | _ => cases hask

/-- A waiting row that a call does not leave alone has been claimed or cancelled. -/
theorem touched_of_waiting (hwaiting : waiting row.state = true) (hfresh : d.Fresh)
    (hrow : d.jobs.get? row.id = some row) (hmoved : (next d op).jobs.get? row.id ≠ some row) :
    (∃ now leaseFor limit, op = .fetchAvailable now row.queue leaseFor limit ∧
        claim now leaseFor row ∈ fetched d op) ∨
      ∃ now, op = .operatorCancel now row.id := by
  obtain ⟨row', hrow', hsame | hchange⟩ := next_row hfresh op hrow
  · rw [hsame] at hrow'
    exact absurd hrow' hmoved
  · have hnot : ∀ state : JobState, waiting state = false → row.state ≠ state := by
      rintro state hstate rfl
      rw [hwaiting] at hstate
      cases hstate
    cases hchange with
    | @claim now queue leaseFor limit _ hdue =>
        simp only [due, Bool.and_eq_true, beq_iff_eq] at hdue
        obtain rfl : row.queue = queue := hdue.1.2
        refine Or.inl ⟨now, leaseFor, limit, rfl, ?_⟩
        rw [get?_fetchAvailable, hrow, Option.map_some] at hmoved
        by_cases hmem : row ∈ d.claimable now row.queue limit
        · rw [fetched, fetchAvailable_eq]
          exact List.mem_map_of_mem hmem
        · rw [if_neg hmem] at hmoved
          exact absurd rfl hmoved
    | reclaim hexpired =>
        simp only [expired, Bool.and_eq_true, beq_iff_eq] at hexpired
        exact absurd hexpired.1 (hnot _ rfl)
    | extend hrunning hheld => exact absurd hrunning (hnot _ rfl)
    | mark hrunning happend => exact absurd hrunning (hnot _ rfl)
    | operatorCancel hcan => exact Or.inr ⟨_, rfl⟩
    | redriveDead hdead => exact absurd hdead (hnot _ rfl)

end Due

/-- No job waits for ever.  In every run of calls by anybody that put nothing before a
waiting job: when the claims on its queue past its due time, of at least `n` rows each, are
more than the jobs before it take, the job has been handed to a worker, unless an operator
has cancelled it first. -/
theorem due_job_reached {pre ops : List Op} {row : JobRow} {n : Nat}
    (hrow : (run next new pre).jobs.get? row.id = some row) (hwaiting : waiting row.state = true)
    (henters : ∀ op ∈ ops, op.EntersAfter row.scheduledAt)
    (hasks : ((dueLine row.queue).before row (run next new pre)).length <
      n * ops.countP (Op.asks row.queue row.scheduledAt n)) :
    ∃ before op after, ops = before ++ op :: after ∧
      (run next new (pre ++ before)).jobs.get? row.id = some row ∧
      ((∃ now leaseFor limit, op = .fetchAvailable now row.queue leaseFor limit ∧
          claim now leaseFor row ∈ fetched (run next new (pre ++ before)) op) ∨
        ∃ now, op = .operatorCancel now row.id) := by
  have hfresh : (run next new pre).Fresh := fresh_run pre fresh_new
  obtain ⟨before, op, after, hops, hstored, hmoved⟩ :=
    exists_moved (fun d op hfresh hop hrow hkept =>
      length_before_ask hwaiting hfresh hop hrow hkept) hfresh hrow henters hasks
  refine ⟨before, op, after, hops, ?_, ?_⟩
  · rw [run_append]
    exact hstored
  · rw [run_append]
    exact touched_of_waiting hwaiting (fresh_run before hfresh) hstored hmoved

/-- Two jobs are inserted. -/
def waitingRun : List Op := [.insert 1 ⟨[], [], [], 0, []⟩, .insert 1 ⟨[], [], [], 0, []⟩]

/-- The second of them. -/
def waitingRow : JobRow := jobFromParams 2 ⟨[], [], [], 0, []⟩ 1

/-- The jobs are claimed one at a time, while a third one is inserted and the first one comes
back. -/
def claimRun : List Op :=
  [.fetchAvailable 2 [] 5 1, .insert 2 ⟨[], [], [], 0, []⟩, .mark ⟨1, 1⟩ (.retryable 3 none),
    .fetchAvailable 4 [] 5 1]

theorem waitingRun_reached :
    ((dueLine waitingRow.queue).before waitingRow (run next new waitingRun)).length = 1 ∧
      ∃ before op after, claimRun = before ++ op :: after ∧
        (run next new (waitingRun ++ before)).jobs.get? waitingRow.id = some waitingRow ∧
        ((∃ now leaseFor limit, op = .fetchAvailable now waitingRow.queue leaseFor limit ∧
            claim now leaseFor waitingRow ∈ fetched (run next new (waitingRun ++ before)) op) ∨
          ∃ now, op = .operatorCancel now waitingRow.id) := by
  have henters : ∀ op ∈ claimRun, op.EntersAfter waitingRow.scheduledAt := by
    simp [claimRun, Op.EntersAfter, dueAt, waitingRow, jobFromParams]
  exact ⟨by decide, due_job_reached (n := 1) (by decide) rfl henters (by decide)⟩

end Drover.Memdriver
