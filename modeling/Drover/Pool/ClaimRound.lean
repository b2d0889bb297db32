import Drover.Memdriver.Claims
import Drover.Pool.Holding

set_option autoImplicit false

/-!
# A round of claims (`claimRound`)

`claimRound` as a function, over any store: it visits the queues in the order it drew,
claims from each what capacity is left, and hands back what a driver returns beyond that.
Over the in-memory store a round leaves a due job behind only when it has used its whole
capacity.  The steps of `fetchStep` take a pool through the same round.

What each call was asked for and returned, and the leases that were requeued, are history:
the round does not read them.
-/

namespace Drover.Pool

open Drover.Foundation
open Drover.Driver
open Drover.Go (Time Duration)
open Drover.Memdriver (claim due waiting Takes)

/-! ## The code -/

/-- What a round needs of its surroundings. -/
structure Backend (σ : Type) where
  /-- `FetchAvailable` of a queue with a limit; no rows are an error -/
  fetchAvailable : σ → Bytes → Nat → σ × Option (List JobRow)
  /-- `requeueOne`, whatever came of it -/
  requeueOne : σ → Lease → σ
  /-- `stopping` -/
  stopping : σ → Bool

/-- Where a round is. -/
structure RoundState (σ : Type) where
  store : σ
  inflight : Inflight
  claimed : List JobRow
  answers : List (Nat × List JobRow)
  requeued : List Lease

section Code

variable {σ : Type} (b : Backend σ)

/-- `requeueAll` of the surplus, and its removal from the inflight set. -/
def RoundState.handBack (s : RoundState σ) (surplus : List Lease) : RoundState σ :=
  { s with
    store := surplus.foldl b.requeueOne s.store
    inflight := surplus.foldl Inflight.remove s.inflight
    requeued := s.requeued ++ surplus }

/-- What a visit does with the rows it was given. -/
def RoundState.receive (s : RoundState σ) (remaining : Nat) (rows : List JobRow) : RoundState σ :=
  let tracked : RoundState σ :=
    { s with
      inflight := rows.foldl (fun set row => set.add row.lease) s.inflight
      answers := s.answers ++ [(remaining, rows)] }
  if rows.length > remaining then
    { tracked.handBack b ((rows.drop remaining).map JobRow.lease) with
      claimed := s.claimed ++ rows.take remaining }
  else { tracked with claimed := s.claimed ++ rows }

/-- The loop of `claimRound`, over the queues that are left. -/
def visitQueues : List Bytes → Nat → RoundState σ → RoundState σ
  | [], _, s => s
  | queue :: queues, remaining, s =>
      match b.fetchAvailable s.store queue remaining with
      | (store, none) => { s with store := store }
      | (store, some rows) =>
          let s := { s with store := store }.receive b remaining rows
          let remaining := remaining - min rows.length remaining
          if remaining = 0 ∨ b.stopping s.store then s else visitQueues queues remaining s

/-- `claimRound`, with the order that `weightedOrder` drew. -/
def claimRound (order : List Bytes) (capacity : Nat) (store : σ) (inflight : Inflight) :
    RoundState σ :=
  visitQueues b order capacity ⟨store, inflight, [], [], []⟩

end Code

/-! ## Any driver -/

section Any

variable {σ : Type} {b : Backend σ}

theorem claimed_receive (s : RoundState σ) (remaining : Nat) (rows : List JobRow) :
    (s.receive b remaining rows).claimed = s.claimed ++ rows.take remaining := by
  unfold RoundState.receive
  dsimp only
  split
  · rfl
  · rename_i hle
    rw [List.take_of_length_le (Nat.not_lt.mp hle)]

theorem answers_receive (s : RoundState σ) (remaining : Nat) (rows : List JobRow) :
    (s.receive b remaining rows).answers = s.answers ++ [(remaining, rows)] := by
  unfold RoundState.receive
  dsimp only
  split <;> rfl

/-- A round keeps no more than it has capacity for. -/
theorem length_claimed_le : ∀ (queues : List Bytes) (remaining : Nat) (s : RoundState σ),
    (visitQueues b queues remaining s).claimed.length ≤ s.claimed.length + remaining := by
  intro queues
  induction queues with
  | nil => exact fun remaining s => Nat.le_add_right _ _
  | cons queue queues ih =>
      intro remaining s
      rw [visitQueues]
      split
      · exact Nat.le_add_right _ _
      · rename_i store rows _
        dsimp only
        have hkept : ({ s with store := store }.receive b remaining rows).claimed.length =
            s.claimed.length + min remaining rows.length := by
          rw [claimed_receive, List.length_append, List.length_take]
        split
        · omega
        · refine (ih _ _).trans ?_
          omega

theorem length_claimRound_le (b : Backend σ) (order : List Bytes) (capacity : Nat) (store : σ)
    (inflight : Inflight) : (claimRound b order capacity store inflight).claimed.length ≤ capacity := by
  have hbound := length_claimed_le (b := b) order capacity ⟨store, inflight, [], [], []⟩
  rwa [List.length_nil, Nat.zero_add] at hbound

/-! ### The inflight set -/

/-- What the set has for a job that was added: one of the leases added. -/
theorem get?_foldl_add {leases : List Lease} : ∀ (set : Inflight) {id : Int},
    id ∈ leases.map Lease.id →
      ∃ lease ∈ leases, (leases.foldl Inflight.add set).get? id = some lease := by
  induction leases with
  | nil => exact fun _ _ hid => absurd hid List.not_mem_nil
  | cons lease leases ih =>
      intro set id hid
      by_cases hlater : id ∈ leases.map Lease.id
      · obtain ⟨held, hmem, hget⟩ := ih (set.add lease) hlater
        exact ⟨held, List.mem_cons_of_mem lease hmem, hget⟩
      · obtain rfl : id = lease.id := (List.mem_cons.mp hid).resolve_right hlater
        refine ⟨lease, List.mem_cons_self, ?_⟩
        exact (Table.get?_putAll_of_notMem hlater).trans (Table.get?_put_self set lease)

/-- Removing the leases that were added last leaves none of their jobs. -/
theorem get?_foldl_remove {id : Int} : ∀ {leases : List Lease} {set : Inflight},
    (∀ held, set.get? id = some held → held ∈ leases) →
      (leases.foldl Inflight.remove set).get? id = none := by
  intro leases
  induction leases with
  | nil =>
      intro set hset
      exact Option.eq_none_iff_forall_not_mem.mpr fun held hheld =>
        absurd (hset held hheld) List.not_mem_nil
  | cons lease leases ih =>
      intro set hset
      refine ih fun held hheld => ?_
      rw [Inflight.get?_remove] at hheld
      split at hheld
      · cases hheld
      · rename_i hne
        refine (List.mem_cons.mp (hset held hheld)).resolve_left ?_
        rintro rfl
        exact hne hheld

/-- Every lease beyond a limit has been requeued, and its job is not in the inflight set. -/
def RoundState.Settled (s : RoundState σ) : Prop :=
  ∀ answer ∈ s.answers, ∀ row ∈ answer.2.drop answer.1,
    row.lease ∈ s.requeued ∧ s.inflight.get? row.id = none

theorem foldl_add_lease (rows : List JobRow) (set : Inflight) :
    rows.foldl (fun set row => set.add row.lease) set =
      (rows.map JobRow.lease).foldl Inflight.add set := by
  rw [List.foldl_map]

theorem settled_receive {s : RoundState σ} (hs : ∀ answer ∈ s.answers, answer.2.length ≤ answer.1)
    (remaining : Nat) (rows : List JobRow) : (s.receive b remaining rows).Settled := by
  intro answer hanswer row hrow
  rw [answers_receive, List.mem_append, List.mem_singleton] at hanswer
  rcases hanswer with hold | rfl
  · rw [List.drop_of_length_le (hs answer hold)] at hrow
    exact absurd hrow List.not_mem_nil
  · have hlong : rows.length > remaining := by
      by_contra hle
      rw [List.drop_of_length_le (Nat.not_lt.mp hle)] at hrow
      exact absurd hrow List.not_mem_nil
    have hsplit : rows.map JobRow.lease =
        (rows.take remaining).map JobRow.lease ++ (rows.drop remaining).map JobRow.lease := by
      rw [← List.map_append, List.take_append_drop]
    unfold RoundState.receive
    rw [if_pos hlong]
    refine ⟨List.mem_append_right _ (List.mem_map_of_mem hrow), get?_foldl_remove ?_⟩
    intro held hheld
    rw [foldl_add_lease, hsplit, List.foldl_append] at hheld
    have hid : row.id ∈ ((rows.drop remaining).map JobRow.lease).map Lease.id := by
      rw [List.map_map]
      exact List.mem_map_of_mem hrow
    obtain ⟨lease, hlease, hget⟩ := get?_foldl_add
      (((rows.take remaining).map JobRow.lease).foldl Inflight.add s.inflight) hid
    rw [hget] at hheld
    exact Option.some.inj hheld ▸ hlease

/-- A driver that returns too much ends the round, with the surplus handed back. -/
theorem visitQueues_settled : ∀ (queues : List Bytes) (remaining : Nat) {s : RoundState σ},
    (∀ answer ∈ s.answers, answer.2.length ≤ answer.1) →
      (visitQueues b queues remaining s).Settled := by
  intro queues
  induction queues with
  | nil =>
      intro remaining s hs answer hanswer row hrow
      rw [List.drop_of_length_le (hs answer hanswer)] at hrow
      exact absurd hrow List.not_mem_nil
  | cons queue queues ih =>
      intro remaining s hs
      rw [visitQueues]
      split
      · intro answer hanswer row hrow
        rw [List.drop_of_length_le (hs answer hanswer)] at hrow
        exact absurd hrow List.not_mem_nil
      · rename_i store rows _
        dsimp only
        split
        · exact settled_receive (s := { s with store := store }) hs remaining rows
        · rename_i hmore
          refine ih _ fun answer hanswer => ?_
          rw [answers_receive, List.mem_append, List.mem_singleton] at hanswer
          rcases hanswer with hold | rfl
          · exact hs answer hold
          · have hleft := (not_or.mp hmore).1
            show rows.length ≤ remaining
            omega

end Any

/-! ## The in-memory store -/

/-- The in-memory store at one clock reading, without a stop, behind a driver that heeds other
limits than it is given.  `detail` is the record of a requeue. -/
def heedBackend (heed : Nat → Int) (now : Time) (leaseFor : Duration) (detail : Bytes) :
    Backend Memdriver.Driver where
  fetchAvailable d queue limit :=
    let answer := d.fetchAvailable now queue leaseFor (heed limit)
    (answer.1, some answer.2)
  requeueOne d lease := (d.mark lease (.retryable now (some detail))).1
  stopping _ := false

/-- The in-memory store itself. -/
def memBackend (now : Time) (leaseFor : Duration) (detail : Bytes) : Backend Memdriver.Driver :=
  heedBackend (fun limit => limit) now leaseFor detail

/-- What a round that began at the store `d₀` has done after visiting some queues. -/
structure Served (d₀ : Memdriver.Driver) (visited : List Bytes) (s : RoundState Memdriver.Driver) :
    Prop where
  distinct : (s.claimed.map JobRow.id).Nodup
  running : ∀ row ∈ s.claimed, row.state = .running
  stored : ∀ row ∈ s.claimed, s.store.jobs.get? row.id = some row
  registered : ∀ row ∈ s.claimed, s.inflight.get? row.id = some row.lease
  /-- jobs of other queues, and jobs that do not exist, are as they were -/
  others : ∀ id, (∀ row, d₀.jobs.get? id = some row → row.queue ∉ visited) →
    s.store.jobs.get? id = d₀.jobs.get? id

section Memory

variable {now : Time} {leaseFor : Duration} {detail queue : Bytes} {d : Memdriver.Driver}
  {n : Nat} {taken : List JobRow}

theorem running_of_claim (row : JobRow) : (claim now leaseFor row).state = .running := rfl

/-- A claim makes no row due. -/
theorem dueRows_fetchAvailable (h : Takes d now queue leaseFor n taken) {other : Bytes}
    {row : JobRow}
    (hrow : row ∈ (d.fetchAvailable now queue leaseFor n).1.dueRows now other) :
    row ∈ d.dueRows now other ∧ row ∉ taken := by
  obtain ⟨hmem, hdue⟩ := List.mem_filter.mp hrow
  have hget := Table.get?_of_mem hmem
  rw [h.stored] at hget
  obtain ⟨old, hold, hnew⟩ := Option.map_eq_some_iff.mp hget
  split at hnew
  · rw [← hnew, Memdriver.not_due_of_running (running_of_claim old)] at hdue
    cases hdue
  · rename_i hnot
    subst hnew
    exact ⟨List.mem_filter.mpr ⟨Table.mem_of_get? hold, hdue⟩, hnot⟩

/-- A claim that stays below its limit has taken all that was due. -/
theorem dueRows_eq_nil_of_lt (h : Takes d now queue leaseFor n taken) (hlt : taken.length < n) :
    (d.fetchAvailable now queue leaseFor n).1.dueRows now queue = [] := by
  refine List.eq_nil_iff_forall_not_mem.mpr fun row hrow => ?_
  obtain ⟨hdue, hnot⟩ := dueRows_fetchAvailable h hrow
  have hcount : (d.dueRows now queue).length = taken.length := by
    have := h.count
    omega
  have hnodup : taken.Nodup := h.distinct.of_map
  have hsub : taken.Subperm (d.dueRows now queue) := List.subperm_of_subset hnodup h.due
  exact hnot ((hsub.perm_of_length_le hcount.le).mem_iff.mpr hdue)

theorem receive_of_le {σ : Type} {b : Backend σ} (s : RoundState σ) {remaining : Nat}
    {rows : List JobRow} (hle : rows.length ≤ remaining) :
    s.receive b remaining rows =
      { s with
        inflight := (rows.map JobRow.lease).foldl Inflight.add s.inflight
        claimed := s.claimed ++ rows
        answers := s.answers ++ [(remaining, rows)] } := by
  unfold RoundState.receive
  rw [if_neg (Nat.not_lt.mpr hle), foldl_add_lease]

/-- What a round is after it has visited a queue of the in-memory store and taken some rows. -/
def RoundState.visit (now : Time) (leaseFor : Duration) (detail queue : Bytes) (n : Nat)
    (taken : List JobRow) (s : RoundState Memdriver.Driver) : RoundState Memdriver.Driver :=
  { s with store := (s.store.fetchAvailable now queue leaseFor n).1 }.receive
    (memBackend now leaseFor detail) n (taken.map (claim now leaseFor))

section Visit

variable {s : RoundState Memdriver.Driver}

theorem visit_eq (htakes : Takes s.store now queue leaseFor n taken) :
    s.visit now leaseFor detail queue n taken =
      { s with
        store := (s.store.fetchAvailable now queue leaseFor n).1
        inflight := ((taken.map (claim now leaseFor)).map JobRow.lease).foldl Inflight.add s.inflight
        claimed := s.claimed ++ taken.map (claim now leaseFor)
        answers := s.answers ++ [(n, taken.map (claim now leaseFor))] } := by
  have hle : (taken.map (claim now leaseFor)).length ≤ n := by
    rw [List.length_map]
    exact htakes.length_le
  exact receive_of_le _ hle

/-- The loop goes on after a visit when there is capacity left. -/
theorem visitQueues_cons (queues : List Bytes) (htakes : Takes s.store now queue leaseFor n taken) :
    visitQueues (memBackend now leaseFor detail) (queue :: queues) n s =
      if n - taken.length = 0 then s.visit now leaseFor detail queue n taken
      else visitQueues (memBackend now leaseFor detail) queues (n - taken.length)
        (s.visit now leaseFor detail queue n taken) := by
  have hanswer : (memBackend now leaseFor detail).fetchAvailable s.store queue n =
      ((s.store.fetchAvailable now queue leaseFor n).1, some (taken.map (claim now leaseFor))) := by
    rw [← htakes.answer]
    rfl
  rw [visitQueues, hanswer]
  dsimp only
  rw [List.length_map, Nat.min_eq_left htakes.length_le]
  exact if_congr (or_iff_left Bool.false_ne_true) rfl rfl

variable {d₀ : Memdriver.Driver} {visited : List Bytes} {row row' : JobRow}

/-- What a visit takes has not been claimed in the round. -/
theorem Served.fresh (h : Served d₀ visited s) (htakes : Takes s.store now queue leaseFor n taken)
    (hrow : row ∈ s.claimed) (hrow' : row' ∈ taken) : row.id ≠ row'.id := by
  intro hid
  have hsame := (h.stored row hrow).symm.trans (hid ▸ htakes.get?_of_mem hrow')
  obtain rfl := Option.some.inj hsame
  exact htakes.not_running hrow' (h.running row hrow)

theorem Served.distinct_visit (h : Served d₀ visited s)
    (htakes : Takes s.store now queue leaseFor n taken) :
    ((s.claimed ++ taken.map (claim now leaseFor)).map JobRow.id).Nodup := by
  have hclaimed : (taken.map (claim now leaseFor)).map JobRow.id = taken.map JobRow.id := by
    rw [List.map_map]
    rfl
  rw [List.map_append, hclaimed]
  refine List.nodup_append.mpr ⟨h.distinct, htakes.distinct, ?_⟩
  rintro _ hold _ hmem rfl
  obtain ⟨row, hrow, hid⟩ := List.mem_map.mp hold
  obtain ⟨row', hrow', hid'⟩ := List.mem_map.mp hmem
  exact h.fresh htakes hrow hrow' (hid.trans hid'.symm)

theorem Served.registered_visit (h : Served d₀ visited s)
    (htakes : Takes s.store now queue leaseFor n taken)
    (hrow : row ∈ s.claimed ++ taken.map (claim now leaseFor)) :
    (((taken.map (claim now leaseFor)).map JobRow.lease).foldl Inflight.add s.inflight).get? row.id =
      some row.lease := by
  have hids : ((taken.map (claim now leaseFor)).map JobRow.lease).map Lease.id =
      taken.map JobRow.id := by
    rw [List.map_map, List.map_map]
    rfl
  rcases List.mem_append.mp hrow with hrow | hrow
  · refine (Table.get?_putAll_of_notMem ?_).trans (h.registered row hrow)
    rw [hids]
    intro hmem
    obtain ⟨row', hrow', hid⟩ := List.mem_map.mp hmem
    exact h.fresh htakes hrow hrow' hid.symm
  · have hnodup : (((taken.map (claim now leaseFor)).map JobRow.lease).map Lease.id).Nodup := by
      rw [hids]
      exact htakes.distinct
    exact Table.get?_putAll_of_mem hnodup (List.mem_map_of_mem hrow)

/-- A visit serves its queue and keeps what the earlier ones did. -/
theorem Served.visit (h : Served d₀ visited s)
    (htakes : Takes s.store now queue leaseFor n taken) :
    Served d₀ (visited ++ [queue]) (s.visit now leaseFor detail queue n taken) := by
  rw [visit_eq htakes]
  refine ⟨h.distinct_visit htakes, fun row hrow => ?_, fun row hrow => ?_,
    fun row hrow => h.registered_visit htakes hrow, fun id hid => ?_⟩
  · rcases List.mem_append.mp hrow with hrow | hrow
    · exact h.running row hrow
    · obtain ⟨old, -, rfl⟩ := List.mem_map.mp hrow
      exact running_of_claim old
  · rcases List.mem_append.mp hrow with hrow | hrow
    · refine (htakes.stored_of_notMem fun row' hget hmem => ?_).trans (h.stored row hrow)
      exact h.fresh htakes hrow hmem (Table.key_of_get? hget).symm
    · obtain ⟨old, hold, rfl⟩ := List.mem_map.mp hrow
      exact htakes.stored_of_mem hold
  · have hold := h.others id fun row hrow hin => hid row hrow (List.mem_append_left _ hin)
    refine (htakes.stored_of_notMem fun row hget hmem => ?_).trans hold
    refine hid row (hold ▸ hget) (List.mem_append_right _ ?_)
    exact List.mem_singleton.mpr (htakes.queue_eq hmem)

theorem Served.mono {visited' : List Bytes} (h : Served d₀ visited s) (hsub : visited ⊆ visited') :
    Served d₀ visited' s :=
  { h with others := fun id hid => h.others id fun row hrow hin => hid row hrow (hsub hin) }

/-- A visit that leaves capacity leaves nothing due in the queues visited so far. -/
theorem dueRows_visit (htakes : Takes s.store now queue leaseFor n taken) (hlt : taken.length < n)
    (hdue : ∀ q ∈ visited, s.store.dueRows now q = []) :
    ∀ q ∈ visited ++ [queue], (s.visit now leaseFor detail queue n taken).store.dueRows now q = [] := by
  rw [visit_eq htakes]
  intro q hq
  rcases List.mem_append.mp hq with hq | hq
  · refine List.eq_nil_iff_forall_not_mem.mpr fun row hrow => ?_
    have hold := (dueRows_fetchAvailable htakes hrow).1
    rw [hdue q hq] at hold
    exact absurd hold List.not_mem_nil
  · obtain rfl := List.mem_singleton.mp hq
    exact dueRows_eq_nil_of_lt htakes hlt

end Visit

/-- The loop serves the queues it visits, and stops early only without capacity. -/
theorem visitQueues_served {d₀ : Memdriver.Driver} : ∀ {queues visited : List Bytes}
    {remaining : Nat} {s : RoundState Memdriver.Driver}, 0 < remaining → Served d₀ visited s →
    (∀ queue ∈ visited, s.store.dueRows now queue = []) →
    Served d₀ (visited ++ queues) (visitQueues (memBackend now leaseFor detail) queues remaining s) ∧
      ((visitQueues (memBackend now leaseFor detail) queues remaining s).claimed.length =
          s.claimed.length + remaining ∨
        ∀ queue ∈ visited ++ queues,
          (visitQueues (memBackend now leaseFor detail) queues remaining s).store.dueRows now queue =
            []) := by
  intro queues
  induction queues with
  | nil =>
      intro visited remaining s _ h hdue
      rw [List.append_nil]
      exact ⟨h, .inr hdue⟩
  | cons queue queues ih =>
      intro visited remaining s hpos h hdue
      have htakes := Memdriver.takes_claimable s.store now queue leaseFor remaining
      generalize s.store.claimable now queue remaining = taken at htakes
      have hle := htakes.length_le
      have hserved : Served d₀ (visited ++ [queue])
          (s.visit now leaseFor detail queue remaining taken) := h.visit htakes
      have hcount : (s.visit now leaseFor detail queue remaining taken).claimed.length =
          s.claimed.length + taken.length := by
        rw [visit_eq htakes, List.length_append, List.length_map]
      rw [visitQueues_cons queues htakes]
      split
      · refine ⟨hserved.mono fun q hq => ?_, .inl (by omega)⟩
        rcases List.mem_append.mp hq with hq | hq
        · exact List.mem_append_left _ hq
        · exact List.mem_append_right _ (List.mem_singleton.mp hq ▸ List.mem_cons_self)
      · rename_i hmore
        obtain ⟨hrest, hend⟩ := ih (Nat.pos_of_ne_zero hmore) hserved
          (dueRows_visit htakes (by omega) hdue)
        rw [List.append_assoc, List.singleton_append] at hrest hend
        refine ⟨hrest, hend.imp_left fun hsum => ?_⟩
        omega

end Memory

/-! ## A round starves no queue -/

/-- What a round with a capacity has done for the configured queues of the store `d₀`. -/
structure Fed (now : Time) (d₀ : Memdriver.Driver) (configured : List Bytes) (capacity : Nat)
    (s : RoundState Memdriver.Driver) : Prop where
  bound : s.claimed.length ≤ capacity
  served : Served d₀ configured s
  /-- the capacity is used up, or nothing is due any more -/
  exhausted : s.claimed.length = capacity ∨
    ∀ row ∈ s.store.jobs.rows, row.queue ∈ configured →
      ¬(waiting row.state = true ∧ row.scheduledAt ≤ now)

theorem served_start (d : Memdriver.Driver) (inflight : Inflight) :
    Served d [] ⟨d, inflight, [], [], []⟩ :=
  ⟨List.nodup_nil, fun _ hrow => absurd hrow List.not_mem_nil,
    fun _ hrow => absurd hrow List.not_mem_nil, fun _ hrow => absurd hrow List.not_mem_nil,
    fun _ _ => rfl⟩

/-- Over the in-memory store, for every order of the configured queues and every capacity, a
round claims as many jobs as it may or leaves none that is due; and whatever a driver returns, a
round keeps no more than its capacity and hands the surplus back. -/
theorem claimRound_starves_none :
    (∀ (now : Time) (leaseFor : Duration) (detail : Bytes) (d : Memdriver.Driver)
      (inflight : Inflight) (configured order : List Bytes) (capacity : Nat),
      order.Perm configured → 1 ≤ capacity →
        Fed now d configured capacity
          (claimRound (memBackend now leaseFor detail) order capacity d inflight)) ∧
      ∀ (σ : Type) (b : Backend σ) (order : List Bytes) (capacity : Nat) (store : σ)
        (inflight : Inflight),
        (claimRound b order capacity store inflight).claimed.length ≤ capacity ∧
          (claimRound b order capacity store inflight).Settled := by
  constructor
  · intro now leaseFor detail d inflight configured order capacity hperm hcapacity
    have hloop : Served d ([] ++ order)
          (claimRound (memBackend now leaseFor detail) order capacity d inflight) ∧
        ((claimRound (memBackend now leaseFor detail) order capacity d inflight).claimed.length =
            0 + capacity ∨
          ∀ queue ∈ [] ++ order, (claimRound (memBackend now leaseFor detail) order capacity d
            inflight).store.dueRows now queue = []) :=
      visitQueues_served hcapacity (served_start d inflight)
        fun queue hqueue => absurd hqueue List.not_mem_nil
    rw [List.nil_append, Nat.zero_add] at hloop
    refine ⟨length_claimRound_le _ order capacity d inflight, hloop.1.mono hperm.subset, ?_⟩
    refine hloop.2.imp_right fun hnone row hrow hqueue hdue => ?_
    have hmem : row ∈ (claimRound (memBackend now leaseFor detail) order capacity d
        inflight).store.dueRows now row.queue :=
      List.mem_filter.mpr ⟨hrow, by simp [due, hdue.1, hdue.2]⟩
    rw [hnone row.queue (hperm.mem_iff.mpr hqueue)] at hmem
    exact absurd hmem List.not_mem_nil
  · intro σ b order capacity store inflight
    exact ⟨length_claimRound_le b order capacity store inflight,
      visitQueues_settled order capacity fun answer hanswer => absurd hanswer List.not_mem_nil⟩

/-- A store with a job due in queue `a` and one in queue `b`. -/
def twoJobs : Memdriver.Driver :=
  run Memdriver.next Memdriver.new
    [.insert 1 ⟨[107], [97], [49], 0, []⟩, .insert 1 ⟨[107], [98], [49], 0, []⟩]

theorem twoJobs_fed :
    Fed 5 twoJobs [[97], [98]] 1
      (claimRound (memBackend 5 3 []) [[98], [97]] 1 twoJobs Table.empty) :=
  claimRound_starves_none.1 5 3 [] twoJobs Table.empty [[97], [98]] [[98], [97]] 1
    (List.Perm.swap [97] [98] []) le_rfl

/-! ## The steps of a round -/

section Steps

variable {cfg : Config} {s : State}

theorem reaches_track (r : Round) : ∀ {todo added : List Claim} {s : State},
    s.fetch = .track r added todo →
    Reaches (next cfg) s
      { s with
        inflight := (todo.map Claim.lease).foldl Inflight.add s.inflight
        fetch := .track r (added ++ todo) [] } := by
  intro todo
  induction todo with
  | nil =>
      intro added s h
      rw [List.append_nil, ← h]
      exact .refl s
  | cons c todo ih =>
      intro added s h
      have hstep : next cfg s (.fetch .go) =
          { s with
            inflight := s.inflight.add c.lease
            fetch := .track r (added ++ [c]) todo } := by
        unfold next step fetchStep
        rw [h]
        rfl
      rw [← List.singleton_append, ← List.append_assoc]
      exact (Reaches.step _ hstep).trans (ih rfl)

theorem reaches_handBack (r : Round) (kept : List Claim) (now : Time) (detail : Bytes) :
    ∀ {todo back : List Claim} {s : State}, s.fetch = .handBack r kept back todo →
    ∃ ended, Reaches (next cfg) s
      { s with
        db := (todo.map Claim.lease).foldl
          (fun d lease => (d.mark lease (.retryable now (some detail))).1) s.db
        fetch := .handBack r kept (back ++ todo) []
        ended := ended } := by
  intro todo
  induction todo with
  | nil =>
      intro back s h
      refine ⟨s.ended, ?_⟩
      rw [List.append_nil, ← h]
      exact .refl s
  | cons c todo ih =>
      intro back s h
      have hstep : next cfg s (.fetch (.requeue now detail true)) =
          { s with
            db := (s.db.mark c.lease (.retryable now (some detail))).1
            fetch := .handBack r kept (back ++ [c]) todo
            ended := c.ref :: s.ended } := by
        unfold next step fetchStep
        rw [h]
        rfl
      rw [← List.singleton_append, ← List.append_assoc]
      obtain ⟨ended, hrest⟩ := ih (congrArg State.fetch hstep)
      rw [hstep] at hrest
      exact ⟨ended, (Reaches.step _ hstep).trans hrest⟩

theorem reaches_untrack (r : Round) (kept : List Claim) : ∀ {todo : List Claim} {s : State},
    s.fetch = .untrack r kept todo →
    Reaches (next cfg) s
      { s with
        inflight := (todo.map Claim.lease).foldl Inflight.remove s.inflight
        fetch := .untrack r kept [] } := by
  intro todo
  induction todo with
  | nil =>
      intro s h
      rw [← h]
      exact .refl s
  | cons c todo ih =>
      intro s h
      have hstep : next cfg s (.fetch .go) =
          { s with inflight := s.inflight.remove c.lease, fetch := .untrack r kept todo } := by
        unfold next step fetchStep
        rw [h]
        rfl
      exact (Reaches.step _ hstep).trans (ih rfl)

/-- The rows fit: they are kept. -/
theorem reaches_kept (r : Round) {cs : List Claim} (h : s.fetch = .track r [] cs)
    (hle : cs.length ≤ r.remaining) :
    Reaches (next cfg) s
      { s with
        inflight := (cs.map Claim.lease).foldl Inflight.add s.inflight
        fetch := .visited (r.keep cs) } := by
  refine (reaches_track r h).trans (.step (.fetch .go) ?_)
  unfold next step fetchStep
  dsimp only
  rw [List.nil_append, if_neg (Nat.not_lt.mpr hle)]
  rfl

/-- There are too many rows: the surplus is requeued and removed from the inflight set. -/
theorem reaches_surplus (r : Round) (now : Time) (detail : Bytes) {cs : List Claim}
    (h : s.fetch = .track r [] cs) (hlong : r.remaining < cs.length) :
    ∃ ended, Reaches (next cfg) s
      { s with
        db := ((cs.drop r.remaining).map Claim.lease).foldl
          (fun d lease => (d.mark lease (.retryable now (some detail))).1) s.db
        inflight := ((cs.drop r.remaining).map Claim.lease).foldl Inflight.remove
          ((cs.map Claim.lease).foldl Inflight.add s.inflight)
        fetch := .visited (r.keep (cs.take r.remaining))
        ended := ended } := by
  have hover : Reaches (next cfg) s
      { s with
        inflight := (cs.map Claim.lease).foldl Inflight.add s.inflight
        fetch := .handBack r (cs.take r.remaining) [] (cs.drop r.remaining) } := by
    refine (reaches_track r h).trans (.step (.fetch .go) ?_)
    unfold next step fetchStep
    dsimp only
    rw [List.nil_append, if_pos hlong]
    rfl
  obtain ⟨ended, hback⟩ := @reaches_handBack cfg r (cs.take r.remaining) now detail
    (cs.drop r.remaining) [] { s with
      inflight := (cs.map Claim.lease).foldl Inflight.add s.inflight
      fetch := .handBack r (cs.take r.remaining) [] (cs.drop r.remaining) } rfl
  have hforget := @reaches_untrack cfg r (cs.take r.remaining) (cs.drop r.remaining)
  exact ⟨ended, hover.trans (hback.trans ((Reaches.step (.fetch .go) rfl).trans
    ((hforget rfl).trans (.step (.fetch .go) rfl))))⟩

/-- The pool's store and inflight set are those of the round, and it has claimed the same. -/
structure Mirrors (s : State) (claimed : List Claim) (t : RoundState Memdriver.Driver) : Prop where
  db : s.db = t.store
  inflight : s.inflight = t.inflight
  claimed : claimed.map Claim.row = t.claimed
  going : s.stopFetch = false

variable {heed : Nat → Int} {now : Time} {detail queue : Bytes} {n remaining : Nat}
  {queues : List Bytes} {claimed : List Claim} {t : RoundState Memdriver.Driver}

/-- The steps of a visit do what the visit does. -/
theorem reaches_visit (detail : Bytes)
    (hfetch : s.fetch = .ask ⟨n, remaining, queue :: queues, claimed⟩)
    (h : Mirrors s claimed t) {d : Memdriver.Driver} {rows : List JobRow}
    (hanswer : s.db.fetchAvailable now queue cfg.leaseDuration (heed remaining) = (d, rows)) :
    ∃ s' kept, Reaches (next cfg) s s' ∧
      s'.fetch = .visited ⟨n, remaining - min rows.length remaining, queues, kept⟩ ∧
      Mirrors s' kept ({ t with store := d }.receive
        (heedBackend heed now cfg.leaseDuration detail) remaining rows) := by
  have hclaims : s.answer cfg queue now (heed remaining) = numbered s.claims.length rows := by
    rw [State.answer, hanswer]
  generalize hcs : numbered s.claims.length rows = cs at hclaims
  have hrow : cs.map Claim.row = rows := hcs ▸ row_numbered _ rows
  have hlease : cs.map Claim.lease = rows.map JobRow.lease := by
    rw [← hrow, List.map_map]
    rfl
  have hlength : cs.length = rows.length := by rw [← hrow, List.length_map]
  have hkept : ∀ m, (claimed ++ cs.take m).map Claim.row = t.claimed ++ rows.take m := by
    intro m
    rw [List.map_append, List.map_take, hrow, h.claimed]
  obtain ⟨asked, hasked, hpc, hdb, hinflight, hgoing⟩ : ∃ asked,
      Reaches (next cfg) s asked ∧ asked.fetch = .track ⟨n, remaining, queues, claimed⟩ [] cs ∧
        asked.db = d ∧ asked.inflight = t.inflight ∧ asked.stopFetch = false := by
    refine ⟨_, .step (.fetch (.rows now (heed remaining))) rfl, ?_⟩
    unfold next step fetchStep
    rw [hfetch, ← h.inflight, ← h.going, ← hclaims]
    exact ⟨rfl, congrArg Prod.fst hanswer, rfl, rfl⟩
  by_cases hlong : remaining < rows.length
  · obtain ⟨ended, hsurplus⟩ := @reaches_surplus cfg asked ⟨n, remaining, queues, claimed⟩ now
      detail cs hpc (hlength ▸ hlong)
    refine ⟨_, claimed ++ cs.take remaining, hasked.trans hsurplus, ?_, ?_⟩
    · have hleft : (cs.take remaining).length = min rows.length remaining := by
        rw [List.length_take, hlength, Nat.min_comm]
      show Fetch.visited _ = _
      rw [Round.keep, hleft]
    · unfold RoundState.receive
      rw [if_pos hlong]
      refine ⟨?_, ?_, hkept remaining, hgoing⟩
      · rw [hdb, List.map_drop, hlease, ← List.map_drop]
        rfl
      · rw [hinflight, List.map_drop, hlease, ← List.map_drop, foldl_add_lease]
        rfl
  · have hle : cs.length ≤ remaining := hlength ▸ Nat.not_lt.mp hlong
    refine ⟨_, claimed ++ cs, hasked.trans (reaches_kept _ hpc hle), ?_, ?_⟩
    · show Fetch.visited _ = _
      rw [Round.keep, Nat.min_eq_left (hlength ▸ hle), hlength]
    · rw [receive_of_le _ (hlength ▸ hle)]
      refine ⟨hdb, ?_, ?_, hgoing⟩
      · rw [hinflight, hlease]
      · rw [List.map_append, hrow, h.claimed]

/-- A pool that has drawn an order gets, step by step, to what `claimRound` returns. -/
theorem reaches_claimRound : ∀ {queues : List Bytes} {remaining : Nat} {s : State}
    {claimed : List Claim} {t : RoundState Memdriver.Driver},
    s.fetch = .ask ⟨n, remaining, queues, claimed⟩ → Mirrors s claimed t →
    ∃ s' rows, Reaches (next cfg) s s' ∧ s'.fetch = .claimed n rows ∧
      Mirrors s' rows
        (visitQueues (heedBackend heed now cfg.leaseDuration detail) queues remaining t) := by
  intro queues
  induction queues with
  | nil =>
      intro remaining s claimed t hfetch h
      refine ⟨{ s with fetch := .claimed n claimed }, claimed, .step (.fetch .go) ?_, rfl,
        ⟨h.db, h.inflight, h.claimed, h.going⟩⟩
      unfold next step fetchStep
      rw [hfetch]
      rfl
  | cons queue queues ih =>
      intro remaining s claimed t hfetch h
      obtain ⟨d, rows, hanswer⟩ : ∃ d rows,
          s.db.fetchAvailable now queue cfg.leaseDuration (heed remaining) = (d, rows) := ⟨_, _, rfl⟩
      obtain ⟨s', kept, hreach, hpc, hmirrors⟩ := reaches_visit detail hfetch h hanswer
      have hcall : (heedBackend heed now cfg.leaseDuration detail).fetchAvailable t.store queue
          remaining = (d, some rows) := by
        rw [← h.db, heedBackend]
        dsimp only
        rw [hanswer]
      rw [visitQueues, hcall]
      dsimp only
      split
      · rename_i hstop
        have hdone := hstop.resolve_right Bool.false_ne_true
        refine ⟨{ s' with fetch := .claimed n kept }, kept, hreach.trans (.step (.fetch .go) ?_), rfl,
          ⟨hmirrors.db, hmirrors.inflight, hmirrors.claimed, hmirrors.going⟩⟩
        unfold next step fetchStep
        rw [hpc]
        dsimp only
        rw [if_pos (.inl hdone)]
        rfl
      · rename_i hmore
        have hgo : next cfg s' (.fetch .go) =
            { s' with fetch := .ask ⟨n, remaining - min rows.length remaining, queues, kept⟩ } := by
          unfold next step fetchStep
          rw [hpc]
          dsimp only
          rw [if_neg]
          · rfl
          · rintro (hzero | hstop)
            · exact hmore (.inl hzero)
            · rw [hmirrors.going] at hstop
              cases hstop
        obtain ⟨s'', rows', hreach', hpc', hmirrors'⟩ := ih (congrArg State.fetch hgo)
          (t := { t with store := d }.receive (heedBackend heed now cfg.leaseDuration detail)
            remaining rows) (hgo ▸ ⟨hmirrors.db, hmirrors.inflight, hmirrors.claimed, hmirrors.going⟩)
        exact ⟨s'', rows', hreach.trans ((Reaches.step _ rfl).trans hreach'), hpc', hmirrors'⟩

end Steps

end Drover.Pool
