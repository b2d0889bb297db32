import Drover.Pgdriver.Simulation

set_option autoImplicit false

/-!
# The order of a claimed batch

Both drivers take the same rows, the first ones by due time (or by the end of the lease)
and then by id.  The in-memory driver hands them back in that order.  The Postgres driver
sorts what its statement returns by id, so the two lists are the same exactly when the
rows they take are due in the order of their ids.
-/

namespace Drover.Pgdriver

open Drover.Foundation
open Drover.Driver
open Drover.Go (Time Duration)
open Drover.Memdriver (Op next)

variable {pg : Postgres} {d : Memdriver.Driver} {db : Database pg}

/-- The order of a selection: by `order`, then by id. -/
def before (order : JobRow → Time) (a b : JobRow) : Bool :=
  decide (order a < order b ∨ (order a = order b ∧ a.id < b.id))

/-- The first `limit` matching rows have ascending ids: a row with fewer than `limit`
matching rows before it has a greater id than every matching row that `order` puts
strictly before it. -/
def IdsFollow (d : Memdriver.Driver) (order : JobRow → Time) (keep : JobRow → Bool)
    (limit : Int) : Prop :=
  ∀ a ∈ d.jobs.rows, ∀ b ∈ d.jobs.rows, keep a = true → keep b = true →
    ((d.jobs.rows.countP fun row => keep row && before order row b : Nat) : Int) < limit →
      order a < order b → a.id < b.id

/-! ## The order of the selection -/

theorem before_iff {order : JobRow → Time} {a b : JobRow} :
    before order a b = true ↔ order a < order b ∨ (order a = order b ∧ a.id < b.id) :=
  decide_eq_true_iff

theorem before_asymm {order : JobRow → Time} (a b : JobRow) (h : before order a b = true) :
    before order b a = false := by
  refine Bool.eq_false_iff.mpr fun h' => ?_
  rcases before_iff.mp h with hlt | ⟨heq, hid⟩
  · rcases before_iff.mp h' with hlt' | ⟨heq', -⟩
    · exact lt_asymm hlt hlt'
    · exact absurd heq' hlt.ne'
  · rcases before_iff.mp h' with hlt' | ⟨-, hid'⟩
    · exact absurd heq hlt'.ne'
    · exact lt_asymm hid hid'

theorem pairwise_before (d : Memdriver.Driver) (order : JobRow → Time) (keep : JobRow → Bool) :
    (d.selectRows order keep).Pairwise fun a b => before order a b = true := by
  have hsorted : (d.selectRows order keep).Pairwise (orderedBy order JobRow.id) :=
    List.pairwise_insertionSort _ _
  have hids := List.pairwise_map.mp (Memdriver.nodup_selectRows d order keep)
  refine (hsorted.and hids).imp fun {a b} hab => before_iff.mpr ?_
  rcases hab.1 with hlt | ⟨heq, hle⟩
  · exact Or.inl hlt
  · exact Or.inr ⟨heq, lt_of_le_of_ne hle hab.2⟩

/-- A row is among the first `limit` when fewer than `limit` come before it. -/
theorem mem_upTo_iff {order : JobRow → Time} {keep : JobRow → Bool} {limit : Int}
    (hlimit : 0 ≤ limit) {row : JobRow} :
    row ∈ Memdriver.upTo limit (d.selectRows order keep) ↔
      (row ∈ d.jobs.rows ∧ keep row = true) ∧
        ((d.jobs.rows.countP fun other => keep other && before order other row : Nat) : Int) <
          limit := by
  have hcount : (d.selectRows order keep).countP (before order · row) =
      d.jobs.rows.countP fun other => keep other && before order other row := by
    have hperm : (d.selectRows order keep).Perm (d.jobs.rows.filter keep) :=
      List.perm_insertionSort _ _
    rw [hperm.countP_eq, List.countP_filter]
    exact congrArg (fun p => d.jobs.rows.countP p) (funext fun _ => Bool.and_comm _ _)
  rw [Memdriver.upTo, if_neg (not_lt.mpr hlimit),
    mem_take_iff before_asymm (pairwise_before d order keep), hcount, Memdriver.mem_selectRows]
  exact and_congr_right fun _ => by omega

/-- The condition on the store says that the ids of what a claim takes ascend. -/
theorem idsFollow_iff {order : JobRow → Time} {keep : JobRow → Bool} {limit : Int}
    (hlimit : 0 ≤ limit) :
    IdsFollow d order keep limit ↔
      ((Memdriver.upTo limit (d.selectRows order keep)).map JobRow.id).Pairwise (· ≤ ·) := by
  have hsub := Memdriver.upTo_sublist limit (d.selectRows order keep)
  have hordered := (pairwise_before d order keep).sublist hsub
  rw [List.pairwise_map]
  constructor
  · intro hfollow
    refine hordered.imp_of_mem fun {a b} ha hb hbefore => ?_
    obtain ⟨⟨hrowA, hkeepA⟩, -⟩ := (mem_upTo_iff hlimit).mp ha
    obtain ⟨⟨hrowB, hkeepB⟩, hfew⟩ := (mem_upTo_iff hlimit).mp hb
    rcases before_iff.mp hbefore with hlt | ⟨-, hid⟩
    · exact le_of_lt (hfollow a hrowA b hrowB hkeepA hkeepB hfew hlt)
    · exact le_of_lt hid
  · intro hascend a ha b hb hkeepA hkeepB hfew hlt
    have hbefore : before order a b = true := before_iff.mpr (Or.inl hlt)
    have hne : a.id ≠ b.id := by
      intro hid
      rw [List.inj_on_of_nodup_map d.jobs.nodup ha hb hid] at hlt
      exact lt_irrefl _ hlt
    have hfewer : (d.jobs.rows.countP fun row => keep row && before order row a) ≤
        d.jobs.rows.countP fun row => keep row && before order row b := by
      refine List.countP_mono_left fun row _ hrow => ?_
      rw [Bool.and_eq_true] at hrow ⊢
      refine ⟨hrow.1, before_iff.mpr (Or.inl ?_)⟩
      rcases before_iff.mp hrow.2 with hlt' | ⟨heq, -⟩
      · exact lt_trans hlt' hlt
      · exact heq ▸ hlt
    have htakenA := (mem_upTo_iff hlimit).mpr ⟨⟨ha, hkeepA⟩,
      lt_of_le_of_lt (Int.ofNat_le.mpr hfewer) hfew⟩
    have htakenB := (mem_upTo_iff hlimit).mpr ⟨⟨hb, hkeepB⟩, hfew⟩
    -- both directions of a pair, so that the two rows may be taken in either order
    have hpairs : (Memdriver.upTo limit (d.selectRows order keep)).Pairwise fun x y =>
        (before order x y = true → x.id ≤ y.id) ∧ (before order y x = true → y.id ≤ x.id) :=
      (hordered.and hascend).imp fun {x y} hxy =>
        ⟨fun _ => hxy.2, fun hyx => by rw [before_asymm x y hxy.1] at hyx; cases hyx⟩
    have : Std.Symm fun x y : JobRow =>
        (before order x y = true → x.id ≤ y.id) ∧ (before order y x = true → y.id ≤ x.id) :=
      ⟨fun _ _ hxy => ⟨hxy.2, hxy.1⟩⟩
    exact lt_of_le_of_ne ((hpairs.forall htakenA htakenB fun hab => hne (hab ▸ rfl)).1 hbefore) hne

/-! ## What the Postgres driver hands back -/

/-- The driver sorts the ids its statement selected. -/
theorem map_id_sortedRows {keep : DroverJob pg → Bool} {order : DroverJob pg → Time} {limit : Int}
    {set : DroverJob pg → DroverJob pg} (hset : ∀ job, (set job).id = job.id)
    (hnodup : (db.selectIds keep order limit).Nodup) :
    (sortedRows ((db.jobs.rows.filter fun job =>
        (db.selectIds keep order limit).contains job.id).map set)).map JobRow.id =
      (db.selectIds keep order limit).insertionSort (· ≤ ·) := by
  have hsorted : ((db.selected keep order limit).map (rowFromDB ∘ set)).Perm _ :=
    perm_sortedRows hnodup
  have hperm := hsorted.map JobRow.id
  have hids : ((db.selected keep order limit).map (rowFromDB ∘ set)).map JobRow.id =
      db.selectIds keep order limit := by
    rw [List.map_map]
    exact List.map_congr_left fun job _ => hset job
  rw [hids] at hperm
  refine List.Perm.eq_of_pairwise (fun a b _ _ => le_antisymm) ?_ (List.pairwise_insertionSort _ _)
    (hperm.symm.trans (List.perm_insertionSort _ _).symm)
  exact List.pairwise_map.mpr (List.pairwise_insertionSort (fun a b : JobRow => a.id ≤ b.id) _)

/-- A list is what sorting makes of it when it is in order. -/
theorem eq_insertionSort_iff {ids : List Int} :
    ids = ids.insertionSort (· ≤ ·) ↔ ids.Pairwise (· ≤ ·) := by
  constructor
  · intro heq
    rw [heq]
    exact List.pairwise_insertionSort _ _
  · exact fun hsorted => (List.Pairwise.insertionSort_eq hsorted).symm

/-- The two answers to a fetch list the same ids when the store's ids follow its order. -/
theorem same_ids_iff {keepA : JobRow → Bool} {keepB : DroverJob pg → Bool}
    {orderA : JobRow → Time} {orderB : DroverJob pg → Time} {limit : Int}
    {set : DroverJob pg → DroverJob pg} (h : Same pg d db)
    (hkeep : ∀ row job, Represents pg row job → keepA row = keepB job)
    (horder : ∀ row job, Represents pg row job → keepA row = true → orderA row = orderB job)
    (hset : ∀ job, (set job).id = job.id) (hlimit : 0 ≤ limit) {db' : Database pg}
    {jobs : List (DroverJob pg)}
    (hok : db.updateIds (db.selectIds keepB orderB limit) set hset = .ok (db', jobs)) :
    (Memdriver.upTo limit (d.selectRows orderA keepA)).map JobRow.id =
        (sortedRows jobs).map JobRow.id ↔
      IdsFollow d orderA keepA limit := by
  have hids : (Memdriver.upTo limit (d.selectRows orderA keepA)).map JobRow.id =
      db.selectIds keepB orderB limit := selected_ids h hkeep horder hlimit
  have hjobs : jobs = (db.jobs.rows.filter fun job =>
      (db.selectIds keepB orderB limit).contains job.id).map set := by
    rw [Database.updateIds] at hok
    generalize commit _ = result at hok
    cases result with
    | error err => cases hok
    | ok stored => exact (congrArg Prod.snd (Except.ok.inj hok)).symm
  rw [hjobs, map_id_sortedRows hset (hids ▸ Memdriver.nodup_upTo d orderA keepA limit), hids,
    eq_insertionSort_iff, idsFollow_iff hlimit, hids]

/-- A fetch that answers with rows ran its statement. -/
theorem fetch_eq_ok {limit : Int} {statement : Except DbError (Database pg × List (DroverJob pg))}
    {db' : Database pg} {rows : List JobRow} (h : db.fetch limit statement = (db', .ok rows)) :
    0 ≤ limit ∧ ∃ jobs, rows = sortedRows jobs ∧ statement = .ok (db', jobs) := by
  unfold Database.fetch at h
  split at h
  · cases h
  · rename_i hlimit
    refine ⟨by omega, ?_⟩
    split at h
    · cases h
    · cases h
      exact ⟨_, rfl, rfl⟩

theorem fetchAvailable_eq_ok {now : Time} {queue : Bytes} {leaseFor : Duration} {limit : Int}
    {db' : Database pg} {jobs : List (DroverJob pg)} (hqueue : pg.text queue = some queue)
    (h : db.fetchAvailable now leaseFor queue limit = .ok (db', jobs)) :
    ∃ until_, db.updateIds (db.selectIds (dueWhere now queue) DroverJob.scheduledAt limit)
      (claimSet until_) (fun _ => rfl) = .ok (db', jobs) := by
  rw [Database.fetchAvailable, hqueue] at h
  cases hlease : pg.leaseEnd now leaseFor with
  | none =>
      rw [hlease] at h
      cases h
  | some until_ =>
      simp only [hlease] at h
      split at h
      · cases h
      · exact ⟨until_, h⟩

theorem fetchExpired_eq_ok {now : Time} {leaseFor : Duration} {limit : Int} {db' : Database pg}
    {jobs : List (DroverJob pg)} (h : db.fetchExpired now leaseFor limit = .ok (db', jobs)) :
    ∃ until_, db.updateIds
      (db.selectIds (expiredWhere now) (fun job => job.leasedUntil.getD 0) limit)
      (leaseSet until_) (fun _ => rfl) = .ok (db', jobs) := by
  rw [Database.fetchExpired] at h
  cases hlease : pg.leaseEnd now leaseFor with
  | none =>
      rw [hlease] at h
      cases h
  | some until_ =>
      simp only [hlease] at h
      exact ⟨until_, h⟩

/-- Fetches with a limit and a lease the database takes are answered, as long as no attempt
is at the end of its column. -/
theorem fetches_answer (h : Same pg d db) (hattempts : ∀ row ∈ d.jobs.rows, row.attempt < maxInt32)
    {now until_ : Time} {queue : Bytes} (hqueue : pg.text queue = some queue)
    {leaseFor : Duration} (hlease : pg.leaseEnd now leaseFor = some until_) {limit : Int}
    (hlow : 0 ≤ limit) (hhigh : limit ≤ maxInt32) :
    (∃ db' rows, db.fetchAvailableRows now queue leaseFor limit = (db', .ok rows)) ∧
      ∃ db' rows, db.fetchExpiredRows now leaseFor limit = (db', .ok rows) := by
  have hclaim : ∀ job : DroverJob pg, (claimSet until_ job).id = job.id := fun _ => rfl
  have hextend : ∀ job : DroverJob pg, (leaseSet until_ job).id = job.id := fun _ => rfl
  obtain ⟨db₁, hok₁, -⟩ := updateIds_spec db
    (db.selectIds (dueWhere now queue) DroverJob.scheduledAt limit) hclaim
    fun _ => shrinks_of_selected fun _ hdue => shrinks_claimSet until_ hdue
  obtain ⟨db₂, hok₂, -⟩ := updateIds_spec db
    (db.selectIds (expiredWhere now) (fun job => job.leasedUntil.getD 0) limit) hextend
    fun _ _ _ => shrinks_of_state rfl rfl rfl id
  constructor
  · have hstatement : db.fetchAvailable now leaseFor queue limit = db.updateIds
        (db.selectIds (dueWhere now queue) DroverJob.scheduledAt limit) (claimSet until_) hclaim := by
      rw [Database.fetchAvailable, hqueue, hlease]
      simp only [any_attempt_eq_false h hattempts]
      rfl
    exact ⟨_, _, by rw [Database.fetchAvailableRows, hstatement, hok₁, fetch_of_ok hlow hhigh]⟩
  · have hstatement : db.fetchExpired now leaseFor limit = db.updateIds
        (db.selectIds (expiredWhere now) (fun job => job.leasedUntil.getD 0) limit)
        (leaseSet until_) hextend := by
      rw [Database.fetchExpired, hlease]
    exact ⟨_, _, by rw [Database.fetchExpiredRows, hstatement, hok₂, fetch_of_ok hlow hhigh]⟩

/-! ## Both drivers -/

/-- When both drivers hand back a claim in the same order.  On any reachable store and a
database that holds the same jobs, a claim the database answers lists the ids the in-memory
driver lists exactly when the ids of the rows it takes follow their due times; and a
re-claim, exactly when they follow the ends of the leases.  With a limit and a lease the
database takes, and every attempt below the end of its column, both are answered. -/
theorem claim_order_iff {ops : List Op} (h : Same pg (run next Memdriver.new ops) db) (now : Time)
    {queue : Bytes} (hqueue : pg.text queue = some queue) (leaseFor : Duration) (limit : Int) :
    (∀ db' rows, db.fetchAvailableRows now queue leaseFor limit = (db', .ok rows) →
      (((run next Memdriver.new ops).fetchAvailable now queue leaseFor limit).2.map JobRow.id =
          rows.map JobRow.id ↔
        IdsFollow (run next Memdriver.new ops) Memdriver.byScheduledAt (Memdriver.due now queue)
          limit)) ∧
    (∀ db' rows, db.fetchExpiredRows now leaseFor limit = (db', .ok rows) →
      (((run next Memdriver.new ops).fetchExpired now leaseFor limit).2.map JobRow.id =
          rows.map JobRow.id ↔
        IdsFollow (run next Memdriver.new ops) Memdriver.byLeasedUntil (Memdriver.expired now)
          limit)) ∧
    ((∀ row ∈ (run next Memdriver.new ops).jobs.rows, row.attempt < maxInt32) →
      pg.leaseEnd now leaseFor ≠ none → 0 ≤ limit → limit ≤ maxInt32 →
      (∃ db' rows, db.fetchAvailableRows now queue leaseFor limit = (db', .ok rows)) ∧
        ∃ db' rows, db.fetchExpiredRows now leaseFor limit = (db', .ok rows)) := by
  refine ⟨?_, ?_, ?_⟩
  · intro db' rows hfetch
    obtain ⟨hlimit, jobs, rfl, hstatement⟩ := fetch_eq_ok hfetch
    obtain ⟨until_, hok⟩ := fetchAvailable_eq_ok hqueue hstatement
    have hset : ∀ job : DroverJob pg, (claimSet until_ job).id = job.id := fun _ => rfl
    rw [Memdriver.fetchAvailable_eq, List.map_map]
    exact same_ids_iff h (fun _ _ hrep => due_eq now queue hrep)
      (fun _ _ hrep _ => hrep.scheduledAt.symm) hset hlimit hok
  · intro db' rows hfetch
    obtain ⟨hlimit, jobs, rfl, hstatement⟩ := fetch_eq_ok hfetch
    obtain ⟨until_, hok⟩ := fetchExpired_eq_ok hstatement
    have hset : ∀ job : DroverJob pg, (leaseSet until_ job).id = job.id := fun _ => rfl
    rw [Memdriver.fetchExpired_eq, List.map_map]
    refine same_ids_iff h (fun _ _ hrep => expired_eq now hrep) (fun row job hrep _ => ?_)
      hset hlimit hok
    rw [Memdriver.byLeasedUntil, hrep.leasedUntil]
  · intro hattempts hlease hlow hhigh
    obtain ⟨until_, hlease⟩ := Option.ne_none_iff_exists'.mp hlease
    exact fetches_answer h hattempts hqueue hlease hlow hhigh

/-- A job that is due at `t`. -/
def dueAt (t : Time) : InsertParams := { sample with scheduledAt := t }

/-- Two jobs in one queue, the second due before the first. -/
def lateThenEarly : List Op := [.insert 1000 (dueAt 3000), .insert 1000 (dueAt 2000)]

@[inherit_doc lateThenEarly] def lateThenEarlyJobs : Database micros :=
  (((Database.empty micros).insert 1000 1 (dueAt 3000)).1.insert 1000 2 (dueAt 2000)).1

theorem same_lateThenEarly : Same micros (run next Memdriver.new lateThenEarly) lateThenEarlyJobs := by
  have hempty : Same micros Memdriver.new (Database.empty micros) := fun _ => .none
  have hlate : ExactInsert micros (dueAt 3000) := { exactInsert_sample with scheduledAt := Or.inr rfl }
  have hearly : ExactInsert micros (dueAt 2000) := { exactInsert_sample with scheduledAt := Or.inr rfl }
  exact (hempty.insert Memdriver.fresh_new 1000 hlate).insert
    (Memdriver.fresh_new.next (.insert 1000 (dueAt 3000))) 1000 hearly

theorem claim_order_lateThenEarly :
    ∃ db' rows, lateThenEarlyJobs.fetchAvailableRows 5000 (Bytes.ofChars ['q']) 1000 1 =
        (db', .ok rows) ∧
      (((run next Memdriver.new lateThenEarly).fetchAvailable 5000 (Bytes.ofChars ['q']) 1000 1).2.map
          JobRow.id = rows.map JobRow.id ↔
        IdsFollow (run next Memdriver.new lateThenEarly) Memdriver.byScheduledAt
          (Memdriver.due 5000 (Bytes.ofChars ['q'])) 1) :=
  ⟨_, _, rfl, (claim_order_iff same_lateThenEarly 5000 (by decide) 1000 1).1 _ _ rfl⟩

/-- Claimed in one batch, the two jobs come back in opposite orders. -/
theorem lateThenEarly_order_differs :
    Same micros (run next Memdriver.new lateThenEarly) lateThenEarlyJobs ∧
      ((run next Memdriver.new lateThenEarly).fetchAvailable 5000 (Bytes.ofChars ['q']) 1000 2).2.map
        JobRow.id = [2, 1] ∧
      ∃ db' rows, lateThenEarlyJobs.fetchAvailableRows 5000 (Bytes.ofChars ['q']) 1000 2 =
        (db', .ok rows) ∧ rows.map JobRow.id = [1, 2] :=
  ⟨same_lateThenEarly, by decide, _, _, rfl, by decide⟩

end Drover.Pgdriver
