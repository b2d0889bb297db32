import Drover.Client.Fate
import Drover.Memdriver.Claims

set_option autoImplicit false

/-!
# The rescue sweep (`rescue.go`)

`rescueOnce` over the in-memory store at one reading of the clock.  A round re-claims a batch
of jobs whose lease has passed and disposes of each of them through `dispose`; it is followed
by another one when the batch was full.

A row of which `dispose` can write nothing stays running, under the lease the round gave it.
The number of fetches is counted along; nothing reads it.
-/

namespace Drover.Client

open Drover.Foundation
open Drover.Driver
open Drover.Go (Time Duration Result Fuelled)
open Drover.Memdriver (expired reclaim byLeasedUntil)

/-! ## The code -/

/-- `rescueBatch`. -/
def rescueBatch : Nat := 100

/-- `rescueRounds`. -/
def rescueRounds : Nat := 10

/-- The text of `errLeaseExpired`. -/
def errLeaseExpired : Bytes :=
  Bytes.ofChars "drover: lease expired, worker presumed dead".toList

/-- A client, as far as the rescuer needs it: its retry policy, and `errLeaseExpired` as the only
error that is not drover's own. -/
def rescuer (retryPolicy : JobRow → Result Time) : Config Unit where
  methods _ := ⟨.returned errLeaseExpired, none, none, .none⟩
  workers _ := none
  middlewares := []
  retryPolicy := retryPolicy

/-- What a sweep runs with: the retry policy, what `ExponentialRetryPolicy` would answer, the
clock, the lease duration, and whether its context is done after a round. -/
structure SweepConfig where
  fmt : Fmt
  retryPolicy : JobRow → Result Time
  fallback : JobRow → Time
  now : Time
  leaseFor : Duration
  done : Nat → Bool

/-- The surroundings of `dispose`. -/
def SweepConfig.env (cfg : SweepConfig) (row : JobRow) : Surroundings :=
  ⟨fun _ => [], cfg.now, cfg.now, cfg.fallback row, cfg.fmt.marshal⟩

/-- The loop over the rows of a round. -/
def disposeAll (cfg : SweepConfig) : List JobRow → Memdriver.Driver → Fuelled Memdriver.Driver
  | [], d => pure d
  | row :: rows, d => do
      let fate ← dispose (rescuer cfg.retryPolicy) (cfg.env row) row (.own ())
      disposeAll cfg rows (settle d row cfg.now fate)

/-- Where a sweep is: the store, how many jobs it rescued and how many fetches it made. -/
structure Sweep where
  store : Memdriver.Driver
  rescued : Nat
  fetches : Nat

/-- The loop of `rescueOnce`, with the rounds that are left. -/
def sweepRounds (cfg : SweepConfig) : Nat → Sweep → Fuelled Sweep
  | 0, s => pure s
  | n + 1, s => do
      let fetched := s.store.fetchExpired cfg.now cfg.leaseFor rescueBatch
      let store ← disposeAll cfg fetched.2 fetched.1
      let s : Sweep := ⟨store, s.rescued + fetched.2.length, s.fetches + 1⟩
      if fetched.2.length < rescueBatch ∨ cfg.done s.fetches then return s
      else sweepRounds cfg n s

/-- `rescueOnce`. -/
def rescueOnce (cfg : SweepConfig) (d : Memdriver.Driver) : Fuelled Sweep :=
  sweepRounds cfg rescueRounds ⟨d, 0, 0⟩

/-! ## One row -/

section Row

variable (cfg : SweepConfig)

/-- When a row is to be tried again. -/
def SweepConfig.retryAt (row : JobRow) : Time :=
  Client.retryAt (rescuer cfg.retryPolicy) (cfg.env row) row

/-- What is left of a row whose errors are `entries`: dead or retryable, with one more error. -/
def SweepConfig.failed (row : JobRow) (entries : List Json.Value) : JobRow :=
  endedRow row (Json.marshalList (entries ++ [recordJson row.attempt cfg.now errLeaseExpired []]))
    cfg.now (cfg.retryAt (reclaim cfg.now cfg.leaseFor row))
    (decide (row.maxAttempts ≤ row.attempt)) .failed

/-- What is left of a row that the sweep takes.  When the record or the errors before it cannot
be had, this is the row with its new lease. -/
def SweepConfig.left (row : JobRow) : JobRow :=
  if marshalsTime cfg.now = true then
    ((Json.unmarshalList row.errors).map (cfg.failed row)).getD (reclaim cfg.now cfg.leaseFor row)
  else reclaim cfg.now cfg.leaseFor row

variable {cfg}

theorem left_of_readable {row : JobRow} {entries : List Json.Value}
    (hyear : marshalsTime cfg.now = true) (hentries : Json.unmarshalList row.errors = some entries) :
    cfg.left row = cfg.failed row entries := by
  rw [SweepConfig.left, if_pos hyear, hentries]
  rfl

theorem left_of_unreadable {row : JobRow}
    (h : marshalsTime cfg.now = false ∨ Json.unmarshalList row.errors = none) :
    cfg.left row = reclaim cfg.now cfg.leaseFor row := by
  rw [SweepConfig.left]
  rcases h with hyear | hentries
  · rw [hyear]
    exact if_neg Bool.false_ne_true
  · rw [hentries]
    exact ite_self _

/-- A row that has been taken is not taken again: it has moved, or its lease is a new one. -/
theorem not_expired_left (hlease : 0 < cfg.leaseFor) (row : JobRow) :
    expired cfg.now (cfg.left row) = false := by
  have hreclaim : expired cfg.now (reclaim cfg.now cfg.leaseFor row) = false := by
    have hlt : cfg.now < cfg.now + cfg.leaseFor := Int.lt_add_of_pos_right _ hlease
    simp [expired, reclaim, hlt]
  have hfailed : ∀ entries, expired cfg.now (cfg.failed row entries) = false := by
    intro entries
    rw [SweepConfig.failed, endedRow]
    split <;> rfl
  unfold SweepConfig.left
  split
  · cases Json.unmarshalList row.errors with
    | none => exact hreclaim
    | some entries => exact hfailed entries
  · exact hreclaim

/-- `errLeaseExpired` wraps nothing. -/
theorem tree_errLeaseExpired (retryPolicy : JobRow → Result Time) :
    (Error.own () : Error Unit).Tree (rescuer retryPolicy).methods [.own ()] where
  unfolds := .node rfl .nil .nil
  error := ⟨.own errLeaseExpired, rfl⟩
  is e he target := by
    rw [List.mem_singleton.mp he]
    trivial
  asSnooze e he := by
    rw [List.mem_singleton.mp he]
    trivial
  asPanic e he := by
    rw [List.mem_singleton.mp he]
    exact ⟨trivial, by simp [Error.asPanic, rescuer, Result.found]⟩

/-- What `dispose` decides of a row. -/
def SweepConfig.fate (cfg : SweepConfig) (row : JobRow) : Option Pool.Fate :=
  if marshalsTime cfg.now = true then
    some (.failed (cfg.retryAt row)
      (Json.print (recordJson row.attempt cfg.now errLeaseExpired [])))
  else none

theorem returns_dispose_rescued (row : JobRow) :
    (dispose (rescuer cfg.retryPolicy) (cfg.env row) row (.own ())).Returns (cfg.fate row) := by
  have houtcome : outcomeOf (rescuer cfg.retryPolicy).methods [.own ()] = .failed := rfl
  have hfate : disposed (rescuer cfg.retryPolicy) (cfg.env row) row (.own errLeaseExpired) [.own ()] =
      cfg.fate row := by
    rw [disposed, houtcome, SweepConfig.fate]
    change Option.map _ (if marshalsTime cfg.now = true then _ else none) = _
    split <;> rfl
  rw [← hfate]
  exact (tree_errLeaseExpired cfg.retryPolicy).returns_dispose rfl

theorem detail_mark_failed (retryAt : Time) (detail : Bytes) (row : JobRow) (now : Time) :
    (Pool.Fate.mark row now (.failed retryAt detail)).detail = some detail := by
  rw [Pool.Fate.mark]
  split <;> rfl

theorem appendError_of_unreadable {row : JobRow} (h : Json.unmarshalList row.errors = none)
    (now : Time) (leaseFor : Duration) (detail : Bytes) :
    Memdriver.appendError (reclaim now leaseFor row) (some detail) =
      (reclaim now leaseFor row, some (.decodeErrors row.id)) := by
  have hsame : Json.unmarshalList (reclaim now leaseFor row).errors = none := h
  rw [Memdriver.appendError, hsame]
  rfl

/-- A row of the round ends as it should, whatever the store around it. -/
theorem get?_settle_self {d : Memdriver.Driver} {row : JobRow} (hrunning : row.state = .running)
    (hstored : d.jobs.get? row.id = some (reclaim cfg.now cfg.leaseFor row)) :
    (settle d (reclaim cfg.now cfg.leaseFor row) cfg.now
      (cfg.fate (reclaim cfg.now cfg.leaseFor row))).jobs.get? row.id = some (cfg.left row) := by
  cases hyear : marshalsTime cfg.now with
  | false =>
      rw [SweepConfig.fate, hyear, if_neg Bool.false_ne_true, left_of_unreadable (.inl hyear)]
      exact hstored
  | true =>
      rw [SweepConfig.fate, if_pos hyear]
      cases hentries : Json.unmarshalList row.errors with
      | none =>
          rw [left_of_unreadable (.inr hentries), settle]
          rcases Memdriver.mark_cases d (reclaim cfg.now cfg.leaseFor row).lease _ with
            ⟨stored, appended, hget, -, -, happend, -⟩ | ⟨err, heq⟩
          · rw [Option.some.inj (hget.symm.trans hstored), detail_mark_failed,
              appendError_of_unreadable hentries] at happend
            cases happend
          · rw [heq]
            exact hstored
      | some entries =>
          rw [left_of_readable hyear hentries]
          have hscan := scan_record row.attempt cfg.now errLeaseExpired []
          have hended := @settle_failed d (reclaim cfg.now cfg.leaseFor row)
            (reclaim cfg.now cfg.leaseFor row) cfg.now
            (cfg.retryAt (reclaim cfg.now cfg.leaseFor row)) _ _ hstored hrunning rfl
            (Memdriver.appendError_of_list hentries hscan)
          exact hended

theorem get?_settle_of_ne {d : Memdriver.Driver} {row : JobRow} {id : Int} (hne : id ≠ row.id)
    (fate : Option Pool.Fate) : (settle d row cfg.now fate).jobs.get? id = d.jobs.get? id := by
  cases fate with
  | none => rfl
  | some fate => exact Memdriver.get?_mark_of_ne d (fate.mark row cfg.now) hne

end Row

/-! ## A round and a sweep -/

section Sweep

variable {cfg : SweepConfig}

/-- The running rows whose lease has passed, in the order they are taken. -/
def SweepConfig.backlog (cfg : SweepConfig) (d : Memdriver.Driver) : List JobRow :=
  d.selectRows byLeasedUntil (expired cfg.now)

/-- The rows `taken` have been disposed of, and the other rows are as they were. -/
structure SweepConfig.Drained (cfg : SweepConfig) (taken : List JobRow) (d d' : Memdriver.Driver) :
    Prop where
  moved : ∀ row ∈ taken, d'.jobs.get? row.id = some (cfg.left row)
  rest : ∀ id ∉ taken.map JobRow.id, d'.jobs.get? id = d.jobs.get? id

theorem returns_disposeAll {rows : List JobRow} (hnodup : (rows.map JobRow.id).Nodup)
    {d : Memdriver.Driver}
    (hrows : ∀ row ∈ rows, row.state = .running ∧
      d.jobs.get? row.id = some (reclaim cfg.now cfg.leaseFor row)) :
    ∃ d', (disposeAll cfg (rows.map (reclaim cfg.now cfg.leaseFor)) d).Returns d' ∧
      cfg.Drained rows d d' := by
  induction rows generalizing d with
  | nil => exact ⟨d, Fuelled.returns_pure.mpr rfl, by simp, fun id _ => rfl⟩
  | cons row rows ih =>
      rw [List.map_cons, List.nodup_cons] at hnodup
      obtain ⟨hrunning, hstored⟩ := hrows row List.mem_cons_self
      have hne : ∀ other ∈ rows, other.id ≠ row.id := fun other hother hid =>
        hnodup.1 (hid ▸ List.mem_map_of_mem hother)
      have hkept : ∀ other ∈ rows, other.state = .running ∧
          (settle d (reclaim cfg.now cfg.leaseFor row) cfg.now
            (cfg.fate (reclaim cfg.now cfg.leaseFor row))).jobs.get? other.id =
              some (reclaim cfg.now cfg.leaseFor other) := by
        intro other hother
        obtain ⟨hrun, hget⟩ := hrows other (List.mem_cons_of_mem _ hother)
        exact ⟨hrun, (get?_settle_of_ne (hne other hother) _).trans hget⟩
      obtain ⟨d', hd', hdrained⟩ := ih hnodup.2 hkept
      refine ⟨d', Fuelled.returns_bind.mpr ⟨_, returns_dispose_rescued _, hd'⟩, ?_, ?_⟩
      · intro other hother
        rcases List.mem_cons.mp hother with heq | hmem
        · rw [heq, hdrained.rest row.id hnodup.1]
          exact get?_settle_self hrunning hstored
        · exact hdrained.moved other hmem
      · intro id hid
        rw [List.map_cons, List.mem_cons, not_or] at hid
        rw [hdrained.rest id hid.2]
        exact get?_settle_of_ne hid.1 _

theorem SweepConfig.Drained.trans {taken taken' : List JobRow} {d d' d'' : Memdriver.Driver}
    (h : cfg.Drained taken d d') (h' : cfg.Drained taken' d' d'')
    (hnodup : ((taken ++ taken').map JobRow.id).Nodup) : cfg.Drained (taken ++ taken') d d'' where
  moved row hrow := by
    rw [List.map_append, List.nodup_append'] at hnodup
    rcases List.mem_append.mp hrow with hrow | hrow
    · rw [h'.rest row.id (List.disjoint_left.mp hnodup.2.2 (List.mem_map_of_mem hrow))]
      exact h.moved row hrow
    · exact h'.moved row hrow
  rest id hid := by
    rw [List.map_append, List.mem_append, not_or] at hid
    rw [h'.rest id hid.2, h.rest id hid.1]

theorem nodup_backlog (d : Memdriver.Driver) : ((cfg.backlog d).map JobRow.id).Nodup :=
  Memdriver.nodup_selectRows d byLeasedUntil (expired cfg.now)

theorem nodup_take_backlog (d : Memdriver.Driver) (n : Nat) :
    (((cfg.backlog d).take n).map JobRow.id).Nodup :=
  (nodup_backlog d).sublist ((List.take_sublist n _).map JobRow.id)

/-- What is left of the backlog when its first rows have been disposed of. -/
theorem mem_backlog_of_drained (hlease : 0 < cfg.leaseFor) {d d' : Memdriver.Driver} {n : Nat}
    (h : cfg.Drained ((cfg.backlog d).take n) d d') (row : JobRow) :
    row ∈ cfg.backlog d' ↔ row ∈ (cfg.backlog d).drop n := by
  have hsplit : row ∈ cfg.backlog d ↔ row ∈ (cfg.backlog d).take n ∨ row ∈ (cfg.backlog d).drop n := by
    rw [← List.mem_append, List.take_append_drop]
  have hkeys : ((cfg.backlog d).map JobRow.id).Nodup := nodup_backlog d
  rw [← List.take_append_drop n (cfg.backlog d), List.map_append, List.nodup_append'] at hkeys
  have hbacklog : ∀ e : Memdriver.Driver, row ∈ cfg.backlog e ↔
      e.jobs.get? row.id = some row ∧ expired cfg.now row = true := fun e =>
    Memdriver.mem_selectRows.trans
      (and_congr_left fun _ => ⟨Table.get?_of_mem, Table.mem_of_get?⟩)
  constructor
  · intro hrow
    obtain ⟨hget, hexpired⟩ := (hbacklog d').mp hrow
    by_cases hid : row.id ∈ ((cfg.backlog d).take n).map JobRow.id
    · obtain ⟨other, hother, hkey⟩ := List.mem_map.mp hid
      have hleft := h.moved other hother
      rw [hkey, hget] at hleft
      rw [Option.some.inj hleft, not_expired_left hlease] at hexpired
      cases hexpired
    · rw [h.rest row.id hid] at hget
      refine (hsplit.mp ((hbacklog d).mpr ⟨hget, hexpired⟩)).resolve_left fun htake => ?_
      exact hid (List.mem_map_of_mem htake)
  · intro hrow
    obtain ⟨hget, hexpired⟩ := (hbacklog d).mp (hsplit.mpr (.inr hrow))
    refine (hbacklog d').mpr ⟨?_, hexpired⟩
    rw [h.rest row.id (List.disjoint_right.mp hkeys.2.2 (List.mem_map_of_mem hrow))]
    exact hget

theorem backlog_of_drained (hlease : 0 < cfg.leaseFor) {d d' : Memdriver.Driver} {n : Nat}
    (h : cfg.Drained ((cfg.backlog d).take n) d d') :
    cfg.backlog d' = (cfg.backlog d).drop n := by
  have hdrop := List.drop_sublist n (cfg.backlog d)
  have hperm : (cfg.backlog d').Perm ((cfg.backlog d).drop n) :=
    (List.perm_ext_iff_of_nodup (nodup_backlog d').of_map
      ((nodup_backlog d).of_map.sublist hdrop)).mpr (mem_backlog_of_drained hlease h)
  refine List.Perm.eq_of_pairwise ?_
    (Memdriver.pairwise_selectRows d' byLeasedUntil (expired cfg.now))
    ((Memdriver.pairwise_selectRows d byLeasedUntil (expired cfg.now)).sublist hdrop) hperm
  intro a b ha hb hab hba
  refine List.inj_on_of_nodup_map (nodup_backlog d') ha (hperm.mem_iff.mpr hb) ?_
  unfold orderedBy at hab hba
  omega

theorem fetchExpired_batch (cfg : SweepConfig) (d : Memdriver.Driver) :
    (d.fetchExpired cfg.now cfg.leaseFor rescueBatch).2 =
      ((cfg.backlog d).take rescueBatch).map (reclaim cfg.now cfg.leaseFor) := by
  rw [Memdriver.fetchExpired_eq]
  rfl

/-- A round disposes of the first rows of the backlog. -/
theorem returns_round (cfg : SweepConfig) (d : Memdriver.Driver) :
    ∃ d', (disposeAll cfg (d.fetchExpired cfg.now cfg.leaseFor rescueBatch).2
        (d.fetchExpired cfg.now cfg.leaseFor rescueBatch).1).Returns d' ∧
      cfg.Drained ((cfg.backlog d).take rescueBatch) d d' := by
  have hget : ∀ id, (d.fetchExpired cfg.now cfg.leaseFor rescueBatch).1.jobs.get? id =
      (d.jobs.get? id).map fun row =>
        if row ∈ (cfg.backlog d).take rescueBatch then reclaim cfg.now cfg.leaseFor row else row :=
    Memdriver.get?_fetchExpired d cfg.now cfg.leaseFor rescueBatch
  have hrows : ∀ row ∈ (cfg.backlog d).take rescueBatch, row.state = .running ∧
      (d.fetchExpired cfg.now cfg.leaseFor rescueBatch).1.jobs.get? row.id =
        some (reclaim cfg.now cfg.leaseFor row) := by
    intro row hrow
    obtain ⟨hmem, hexpired⟩ := Memdriver.mem_selectRows.mp (List.mem_of_mem_take hrow)
    rw [expired, Bool.and_eq_true] at hexpired
    rw [hget, Table.get?_of_mem hmem, Option.map_some, if_pos hrow]
    exact ⟨by simpa using hexpired.1, rfl⟩
  obtain ⟨d', hd', hdrained⟩ := returns_disposeAll (nodup_take_backlog d rescueBatch) hrows
  rw [fetchExpired_batch]
  refine ⟨d', hd', hdrained.moved, fun id hid => ?_⟩
  rw [hdrained.rest id hid, hget]
  cases hrow : d.jobs.get? id with
  | none => rfl
  | some row =>
      have hkey : row.id = id := Table.key_of_get? hrow
      have hnot : row ∉ (cfg.backlog d).take rescueBatch := fun hmem =>
        hid (hkey ▸ List.mem_map_of_mem hmem)
      rw [Option.map_some, if_neg hnot]

theorem length_fetchExpired_batch (cfg : SweepConfig) (d : Memdriver.Driver) :
    (d.fetchExpired cfg.now cfg.leaseFor rescueBatch).2.length =
      min rescueBatch (cfg.backlog d).length := by
  rw [fetchExpired_batch, List.length_map, List.length_take]

section Round

variable {s : Sweep} {d' : Memdriver.Driver}

/-- A batch that is not full is the last one. -/
theorem returns_short (n : Nat) (hshort : (cfg.backlog s.store).length < rescueBatch)
    (hd' : (disposeAll cfg (s.store.fetchExpired cfg.now cfg.leaseFor rescueBatch).2
      (s.store.fetchExpired cfg.now cfg.leaseFor rescueBatch).1).Returns d') :
    (sweepRounds cfg (n + 1) s).Returns
      ⟨d', s.rescued + (cfg.backlog s.store).length, s.fetches + 1⟩ := by
  unfold sweepRounds
  refine Fuelled.returns_bind.mpr ⟨d', hd', ?_⟩
  rw [length_fetchExpired_batch, Nat.min_eq_right hshort.le, if_pos (.inl hshort)]
  exact Fuelled.returns_pure.mpr rfl

/-- A full batch is followed by another round. -/
theorem returns_full (hdone : ∀ n, cfg.done n = false) {n : Nat} {s' : Sweep}
    (hfull : rescueBatch ≤ (cfg.backlog s.store).length)
    (hd' : (disposeAll cfg (s.store.fetchExpired cfg.now cfg.leaseFor rescueBatch).2
      (s.store.fetchExpired cfg.now cfg.leaseFor rescueBatch).1).Returns d')
    (hs' : (sweepRounds cfg n ⟨d', s.rescued + rescueBatch, s.fetches + 1⟩).Returns s') :
    (sweepRounds cfg (n + 1) s).Returns s' := by
  have hmore : ¬(rescueBatch < rescueBatch ∨ cfg.done (s.fetches + 1) = true) := by simp [hdone]
  unfold sweepRounds
  refine Fuelled.returns_bind.mpr ⟨d', hd', ?_⟩
  dsimp only
  rw [length_fetchExpired_batch, Nat.min_eq_left hfull, if_neg hmore]
  exact hs'

end Round

/-- The rounds of a sweep.  A round after a full batch starts from the backlog that is left. -/
theorem returns_sweepRounds (hlease : 0 < cfg.leaseFor) (hdone : ∀ n, cfg.done n = false) (n : Nat)
    (s : Sweep) :
    ∃ s', (sweepRounds cfg n s).Returns s' ∧
      cfg.Drained ((cfg.backlog s.store).take (rescueBatch * n)) s.store s'.store ∧
      s'.rescued = s.rescued + min (cfg.backlog s.store).length (rescueBatch * n) ∧
      s'.fetches ≤ s.fetches + n := by
  induction n generalizing s with
  | zero => exact ⟨s, Fuelled.returns_pure.mpr rfl, ⟨by simp, fun id _ => rfl⟩, by simp, le_refl _⟩
  | succ n ih =>
      obtain ⟨d', hd', hdrained⟩ := returns_round cfg s.store
      rcases lt_or_ge (cfg.backlog s.store).length rescueBatch with hshort | hfull
      · have hall : rescueBatch ≤ rescueBatch * (n + 1) := Nat.le_mul_of_pos_right _ n.succ_pos
        refine ⟨_, returns_short n hshort hd', ?_, ?_, ?_⟩
        · rw [List.take_of_length_le hshort.le] at hdrained
          rw [List.take_of_length_le (hshort.le.trans hall)]
          exact hdrained
        · rw [Nat.min_eq_left (hshort.le.trans hall)]
        · exact Nat.add_le_add_left (Nat.le_add_left 1 n) _
      · obtain ⟨s', hs', hrest, hrescued, hfetches⟩ := ih ⟨d', s.rescued + rescueBatch, s.fetches + 1⟩
        rw [backlog_of_drained hlease hdrained] at hrest hrescued
        refine ⟨s', returns_full hdone hfull hd' hs', ?_, ?_, ?_⟩
        · have htake : (cfg.backlog s.store).take (rescueBatch * (n + 1)) =
              (cfg.backlog s.store).take rescueBatch ++
                ((cfg.backlog s.store).drop rescueBatch).take (rescueBatch * n) := by
            rw [← List.take_add, Nat.mul_succ, Nat.add_comm]
          rw [htake]
          refine hdrained.trans hrest ?_
          rw [← htake]
          exact nodup_take_backlog _ _
        · rw [List.length_drop] at hrescued
          rw [hrescued, Nat.mul_succ]
          change s.rescued + rescueBatch + _ = _
          omega
        · change s'.fetches ≤ s.fetches + 1 + n at hfetches
          omega

theorem reaches_disposeAll {rows : List JobRow} {d d' : Memdriver.Driver}
    (h : (disposeAll cfg rows d).Returns d') : Reaches Memdriver.next d d' := by
  induction rows generalizing d with
  | nil =>
      rw [Fuelled.returns_pure.mp h]
      exact .refl _
  | cons row rows ih =>
      obtain ⟨fate, -, hrest⟩ := Fuelled.returns_bind.mp h
      refine Reaches.trans ?_ (ih hrest)
      cases fate with
      | none => exact .refl d
      | some fate => exact .step (.mark row.lease (fate.mark row cfg.now)) rfl

/-- A sweep is a run of calls of the driver, so whatever holds in every reachable store holds
after it. -/
theorem reaches_sweepRounds {n : Nat} {s s' : Sweep} (h : (sweepRounds cfg n s).Returns s') :
    Reaches Memdriver.next s.store s'.store := by
  induction n generalizing s with
  | zero =>
      rw [Fuelled.returns_pure.mp h]
      exact .refl _
  | succ n ih =>
      obtain ⟨store, hstore, hrest⟩ := Fuelled.returns_bind.mp h
      have hround : Reaches Memdriver.next s.store store :=
        (Reaches.step (.fetchExpired cfg.now cfg.leaseFor rescueBatch) rfl).trans
          (reaches_disposeAll hstore)
      dsimp only at hrest
      split at hrest
      · rw [← Fuelled.returns_pure.mp hrest]
        exact hround
      · exact hround.trans (ih hrest)

theorem length_backlog (cfg : SweepConfig) (d : Memdriver.Driver) :
    (cfg.backlog d).length = d.jobs.rows.countP (expired cfg.now) := by
  rw [SweepConfig.backlog, Memdriver.selectRows_eq, List.length_insertionSort,
    List.countP_eq_length_filter]

theorem failed_eq (row : JobRow) (entries : List Json.Value) :
    cfg.failed row entries =
      let errors := Json.marshalList (entries ++ [recordJson row.attempt cfg.now errLeaseExpired []])
      if row.attempt ≥ row.maxAttempts then
        { row with
          state := .dead, errors := errors, finalizedAt := some cfg.now, leasedUntil := none }
      else
        { row with
          state := .retryable, errors := errors, leasedUntil := none
          scheduledAt := cfg.retryAt (reclaim cfg.now cfg.leaseFor row) } := by
  simp only [SweepConfig.failed, endedRow, decide_eq_true_eq, ge_iff_le]

/-- A sweep disposes of each abandoned job once.  It counts the running rows whose lease has
passed, up to ten batches, with no more than ten fetches.  The rows it takes are the first ones
by the end of their lease and then by id.  Each of them that can be given its record is dead
when its attempts are spent and otherwise retryable, not before now, with its attempt as it was,
one more error and no lease; one that cannot be given its record keeps running with the lease of
the sweep.  No other row changes. -/
theorem rescueOnce_disposes_once (cfg : SweepConfig) (d : Memdriver.Driver)
    (hlease : 0 < cfg.leaseFor) (hdone : ∀ n, cfg.done n = false) :
    let taken := (cfg.backlog d).take (rescueBatch * rescueRounds)
    ∃ s, (rescueOnce cfg d).Returns s ∧
      s.rescued = min (d.jobs.rows.countP (expired cfg.now)) (rescueBatch * rescueRounds) ∧
      s.fetches ≤ rescueRounds ∧
      taken.length = s.rescued ∧ (taken.map JobRow.id).Nodup ∧
      (∀ row ∈ taken, row ∈ d.jobs.rows ∧ expired cfg.now row = true ∧
        ∀ other ∈ d.jobs.rows, expired cfg.now other = true → other ∉ taken →
          byLeasedUntil row < byLeasedUntil other ∨
            (byLeasedUntil row = byLeasedUntil other ∧ row.id < other.id)) ∧
      (∀ row ∈ taken, ∀ entries, marshalsTime cfg.now = true →
        Json.unmarshalList row.errors = some entries →
          let errors :=
            Json.marshalList (entries ++ [recordJson row.attempt cfg.now errLeaseExpired []])
          ∃ at_, cfg.now ≤ at_ ∧ s.store.jobs.get? row.id = some
            (if row.attempt ≥ row.maxAttempts then
              { row with
                state := .dead, errors := errors, finalizedAt := some cfg.now, leasedUntil := none }
            else
              { row with
                state := .retryable, errors := errors, leasedUntil := none, scheduledAt := at_ })) ∧
      (∀ row ∈ taken, marshalsTime cfg.now = false ∨ Json.unmarshalList row.errors = none →
        s.store.jobs.get? row.id = some (reclaim cfg.now cfg.leaseFor row)) ∧
      (∀ id ∉ taken.map JobRow.id, s.store.jobs.get? id = d.jobs.get? id) := by
  intro taken
  obtain ⟨s, hs, hdrained, hrescued, hfetches⟩ :=
    returns_sweepRounds hlease hdone rescueRounds ⟨d, 0, 0⟩
  rw [Nat.zero_add] at hrescued hfetches
  refine ⟨s, hs, ?_, hfetches, ?_, nodup_take_backlog d _, ?_, ?_, ?_, hdrained.rest⟩
  · rw [hrescued, length_backlog]
  · rw [hrescued, List.length_take, Nat.min_comm]
  · intro row hrow
    obtain ⟨hmem, hexpired⟩ := Memdriver.mem_selectRows.mp (List.mem_of_mem_take hrow)
    refine ⟨hmem, hexpired, fun other hother hlapsed hnot => ?_⟩
    exact Memdriver.selected_first hrow (Memdriver.mem_selectRows.mpr ⟨hother, hlapsed⟩) hnot
  · intro row hrow entries hyear hentries errors
    refine ⟨cfg.retryAt (reclaim cfg.now cfg.leaseFor row), now_le_retryAt, ?_⟩
    rw [hdrained.moved row hrow, left_of_readable hyear hentries, failed_eq]
  · intro row hrow hunreadable
    rw [hdrained.moved row hrow, left_of_unreadable hunreadable]

/-- A sweep with a policy that panics. -/
def sampleSweep (now : Time) : SweepConfig :=
  ⟨sampleFmt, fun _ => .panicked nilDereference, fun _ => 6, now, 1, fun _ => false⟩

/-- The lease of this job has passed too, and its attempts are spent. -/
def spentRow : JobRow := { Memdriver.claimedRow with id := 2, attempt := 25, leasedUntil := some 2 }

/-- Two abandoned jobs, one that is held and one that waits. -/
def fourJobs : Memdriver.Driver :=
  ⟨4, ⟨[Memdriver.claimedRow, spentRow, { Memdriver.claimedRow with id := 3, leasedUntil := some 9 },
    Memdriver.jobFromParams 4 ⟨[], [], [], 0, []⟩ 1], by decide⟩⟩

theorem fourJobs_disposed_once :
    ∃ s, (rescueOnce (sampleSweep 5) fourJobs).Returns s ∧ s.rescued = 2 ∧
      (s.store.jobs.get? 1).map JobRow.state = some .retryable ∧
      (s.store.jobs.get? 2).map JobRow.state = some .dead ∧
      s.store.jobs.get? 3 = fourJobs.jobs.get? 3 ∧ s.store.jobs.get? 4 = fourJobs.jobs.get? 4 := by
  obtain ⟨s, hs, hrescued, -, -, -, -, hended, -, hrest⟩ :=
    rescueOnce_disposes_once (sampleSweep 5) fourJobs (by decide) fun _ => rfl
  obtain ⟨at_, -, hclaimed⟩ := hended Memdriver.claimedRow (by decide) [] (by decide) rfl
  obtain ⟨at', -, hspent⟩ := hended spentRow (by decide) [] (by decide) rfl
  refine ⟨s, hs, hrescued.trans (by decide), ?_, ?_, hrest 3 (by decide), hrest 4 (by decide)⟩
  · rw [show (1 : Int) = Memdriver.claimedRow.id from rfl, hclaimed]
    rfl
  · rw [show (2 : Int) = spentRow.id from rfl, hspent]
    rfl

/-- A job that cannot be given its record is counted and left running. -/
theorem left_running_of_unreadable (cfg : SweepConfig) (d : Memdriver.Driver) (row : JobRow)
    (hlease : 0 < cfg.leaseFor) (hdone : ∀ n, cfg.done n = false)
    (hbacklog : cfg.backlog d = [row])
    (h : marshalsTime cfg.now = false ∨ Json.unmarshalList row.errors = none) :
    ∃ s, (rescueOnce cfg d).Returns s ∧ s.rescued = 1 ∧
      (s.store.jobs.get? row.id).map JobRow.state = some .running := by
  obtain ⟨s, hs, hdrained, hrescued, -⟩ :=
    returns_sweepRounds hlease hdone rescueRounds ⟨d, 0, 0⟩
  rw [hbacklog] at hdrained hrescued
  have hexpired : expired cfg.now row = true :=
    (Memdriver.mem_selectRows.mp (hbacklog ▸ List.mem_singleton_self row)).2
  rw [expired, Bool.and_eq_true, beq_iff_eq] at hexpired
  refine ⟨s, hs, hrescued, ?_⟩
  rw [hdrained.moved row (by simp [rescueBatch, rescueRounds]), left_of_unreadable h]
  exact congrArg some hexpired.1

/-- A job whose errors are nested too deeply is not moved. -/
theorem deep_left_running {deep : Json.Value} (hdepth : Json.depth deep = Json.maxNestingDepth) :
    ∃ s, (rescueOnce (sampleSweep 7) (run Memdriver.next Memdriver.new (reclaimedRun deep))).Returns s ∧
      s.rescued = 1 ∧ (s.store.jobs.get? 1).map JobRow.state = some .running := by
  rw [run_reclaimedRun (by simp [Json.scan, hdepth])]
  exact left_running_of_unreadable (sampleSweep 7) _ (reclaimedRow deep) (by decide) (fun _ => rfl) rfl
    (.inr (Memdriver.unmarshalList_deep hdepth))

/-- A sweep counts a job that it leaves running when the clock shows a year of five digits, and
when the errors of the job can no longer be read. -/
theorem rescued_left_running :
    (∃ s, (rescueOnce (sampleSweep (Go.ofUnix 253402300800))
        (run Memdriver.next Memdriver.new Memdriver.claimedRun)).Returns s ∧
      s.rescued = 1 ∧ (s.store.jobs.get? 1).map JobRow.state = some .running) ∧
    (∃ s, (rescueOnce (sampleSweep 7)
        (run Memdriver.next Memdriver.new (reclaimedRun (Memdriver.deepDetail 9998)))).Returns s ∧
      s.rescued = 1 ∧ (s.store.jobs.get? 1).map JobRow.state = some .running) :=
  ⟨left_running_of_unreadable _ _ Memdriver.claimedRow (by decide) (fun _ => rfl) (by decide)
      (.inl (by decide)),
    deep_left_running (Memdriver.depth_deepDetail 9998)⟩

end Sweep

end Drover.Client
