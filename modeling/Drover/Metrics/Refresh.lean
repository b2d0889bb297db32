import Drover.Driver.Types
import Drover.Go.Utf8
import Drover.Metrics.Gauge

set_option autoImplicit false

/-!
# The queue gauges (`stats.go`, `metrics.go`)

`statsRefresher` turns one reading of the store at a time into the depth and age gauges.
It overwrites what the reading has, deletes what it remembers from the last success and
the reading does not have, and remembers the new keys.  A reading is arbitrary: any
strings as queues and states, any order, any repetitions.

The numbers of a gauge are of any type with a zero; `float64` is the conversion of a
count to it.  A loop over a map visits its rows in any order.
-/

namespace Drover.Metrics

open Drover.Foundation
open Drover.Foundation.Map (lookup lookup_put lookup_foldl_put isSome_lookup_iff)
open Drover.Driver (JobState)
open Drover.Go (Time)

/-! ## The metric set -/

/-- `depthKey`. -/
structure DepthKey where
  queue : Bytes
  state : Bytes
  deriving DecidableEq, Repr

/-- Whether the depth vector takes these label values. -/
def DepthKey.accepted (key : DepthKey) : Bool := Go.Utf8.valid key.queue && Go.Utf8.valid key.state

/-- The two vectors `refresh` writes. -/
structure MetricSet (F : Type) where
  depth : Map DepthKey F
  oldestAge : Map Bytes F

/-- An operation on one of them. -/
inductive Mutation (F : Type) where
  | depth (op : Op DepthKey F)
  | oldestAge (op : Op Bytes F)

variable {F : Type}

/-- The operation on the depth vector, if it is one. -/
def Mutation.depth? : Mutation F → Option (Op DepthKey F)
  | .depth op => some op
  | .oldestAge _ => none

/-- The operation on the age vector, if it is one. -/
def Mutation.oldestAge? : Mutation F → Option (Op Bytes F)
  | .depth _ => none
  | .oldestAge op => some op

variable [Zero F]

/-- The vectors after an operation. -/
def Mutation.apply (m : MetricSet F) : Mutation F → MetricSet F
  | .depth op => { m with depth := op.apply m.depth }
  | .oldestAge op => { m with oldestAge := op.apply m.oldestAge }

/-- `setDepth`. -/
def setDepth (queue state : Bytes) (n : F) : List (Mutation F) :=
  (assign DepthKey.accepted ⟨queue, state⟩ n).map .depth

/-- `setOldestAge`. -/
def setOldestAge (queue : Bytes) (seconds : F) : List (Mutation F) :=
  (assign Go.Utf8.valid queue seconds).map .oldestAge

/-- `deleteDepth`. -/
def deleteDepth (queue state : Bytes) : List (Mutation F) :=
  (remove DepthKey.accepted ⟨queue, state⟩).map .depth

/-- `deleteOldestAge`. -/
def deleteOldestAge (queue : Bytes) : List (Mutation F) :=
  (remove Go.Utf8.valid queue).map .oldestAge

/-! ## Readings -/

/-- `driver.QueueDepth`. -/
structure QueueDepth where
  queue : Bytes
  state : Bytes
  count : Int
  deriving DecidableEq, Repr

/-- `driver.QueueAge`. -/
structure QueueAge (F : Type) where
  queue : Bytes
  ageSeconds : F

/-- `driver.Stats`. -/
structure Stats (F : Type) where
  depths : List QueueDepth
  oldest : List (QueueAge F)

/-- `publishedDepthStates`. -/
def publishedDepthStates : List Bytes :=
  [JobState.available, .scheduled, .retryable, .running, .dead].map JobState.text

/-- The maps `depths` and `ages` of `refresh`. -/
structure Wanted (F : Type) where
  depths : Map DepthKey F
  ages : Map Bytes F

/-- A turn of the loop over the configured queues. -/
def Wanted.seed (w : Wanted F) (queue : Bytes) : Wanted F :=
  { depths := publishedDepthStates.foldl (fun depths state => depths.put (⟨queue, state⟩, 0)) w.depths
    ages := w.ages.put (queue, 0) }

/-- A turn of the loop over `stats.Depths`. -/
def Wanted.addDepth (float64 : Int → F) (w : Wanted F) (d : QueueDepth) : Wanted F :=
  { depths := w.depths.put (⟨d.queue, d.state⟩, float64 d.count)
    ages := if (lookup w.ages d.queue).isSome then w.ages else w.ages.put (d.queue, 0) }

/-- A turn of the loop over `stats.Oldest`. -/
def Wanted.addOldest (w : Wanted F) (a : QueueAge F) : Wanted F :=
  { w with ages := w.ages.put (a.queue, a.ageSeconds) }

/-- What `refresh` makes of a reading. -/
def Stats.wanted (float64 : Int → F) (queues : List Bytes) (stats : Stats F) : Wanted F :=
  let w := queues.foldl Wanted.seed ⟨Table.empty, Table.empty⟩
  let w := stats.depths.foldl (Wanted.addDepth float64) w
  stats.oldest.foldl Wanted.addOldest w

/-! ## The refresher -/

/-- `statsRefresher`, with the vectors it writes. -/
structure Refresher (F : Type) where
  metrics : MetricSet F
  depthKeys : Map DepthKey Unit
  ageKeys : Map Bytes Unit
  lastSuccess : Time

/-- A turn of the inner loop of `seedConfiguredZeros`. -/
def Refresher.seedState (queue : Bytes) (r : Refresher F) (state : Bytes) : Refresher F :=
  { r with
    metrics := run Mutation.apply r.metrics (setDepth queue state 0)
    depthKeys := r.depthKeys.put (⟨queue, state⟩, ()) }

/-- A turn of the outer loop. -/
def Refresher.seedQueue (r : Refresher F) (queue : Bytes) : Refresher F :=
  let r := publishedDepthStates.foldl (Refresher.seedState queue) r
  { r with
    metrics := run Mutation.apply r.metrics (setOldestAge queue 0)
    ageKeys := r.ageKeys.put (queue, ()) }

/-- `seedConfiguredZeros`. -/
def Refresher.seedConfiguredZeros (queues : List Bytes) (r : Refresher F) : Refresher F :=
  queues.foldl Refresher.seedQueue r

/-- `newStatsRefresher`, over vectors that publish nothing. -/
def newStatsRefresher (queues : List Bytes) : Refresher F :=
  Refresher.seedConfiguredZeros queues
    { metrics := ⟨Table.empty, Table.empty⟩
      depthKeys := Table.empty
      ageKeys := Table.empty
      lastSuccess := 0 }

/-- A call of `refresh`: what `Stats` returns, what `time.Now` says at the end, and how the
loops over the maps go. -/
structure Call (F : Type) where
  /-- `none` when `Stats` fails -/
  stats : Option (Stats F)
  now : Time
  visitDepths : Visit (DepthKey × F)
  visitAges : Visit (Bytes × F)
  visitDepthKeys : Visit (DepthKey × Unit)
  visitAgeKeys : Visit (Bytes × Unit)

/-- What the loops of `refresh` do to the vectors, in order. -/
def Refresher.publish (r : Refresher F) (call : Call F) (w : Wanted F) : List (Mutation F) :=
  (call.visitDepths.order w.depths.rows).flatMap
      (fun row => setDepth row.1.queue row.1.state row.2) ++
    (call.visitAges.order w.ages.rows).flatMap (fun row => setOldestAge row.1 row.2) ++
    (call.visitDepthKeys.order r.depthKeys.rows).flatMap
      (fun row => if (lookup w.depths row.1).isSome then []
        else deleteDepth row.1.queue row.1.state) ++
    (call.visitAgeKeys.order r.ageKeys.rows).flatMap
      (fun row => if (lookup w.ages row.1).isSome then [] else deleteOldestAge row.1)

/-- What a call does to the vectors, in order. -/
def Refresher.mutations (float64 : Int → F) (queues : List Bytes) (r : Refresher F)
    (call : Call F) : List (Mutation F) :=
  call.stats.elim [] fun stats => r.publish call (stats.wanted float64 queues)

/-- `refresh`. -/
def Refresher.refresh (float64 : Int → F) (queues : List Bytes) (r : Refresher F)
    (call : Call F) : Refresher F :=
  match call.stats with
  | none => r
  | some stats =>
      { metrics := run Mutation.apply r.metrics (r.mutations float64 queues call)
        depthKeys := Map.keySet (stats.wanted float64 queues).depths
        ageKeys := Map.keySet (stats.wanted float64 queues).ages
        lastSuccess := call.now }

/-! ## What a reading asks for -/

/-- The count a reading has for a depth series; of several, the last. -/
def Stats.count? (stats : Stats F) (key : DepthKey) : Option Int :=
  (stats.depths.reverse.find? fun d => DepthKey.mk d.queue d.state = key).map QueueDepth.count

/-- The age a reading has for a queue; of several, the last. -/
def Stats.age? (stats : Stats F) (queue : Bytes) : Option F :=
  (stats.oldest.reverse.find? fun a => a.queue = queue).map QueueAge.ageSeconds

/-- The number of a depth series after a reading, `none` if it is not published: the count of
the reading, or zero for a configured queue and a published state. -/
def Stats.depthSeries (float64 : Int → F) (queues : List Bytes) (stats : Stats F)
    (key : DepthKey) : Option F :=
  if key.accepted then
    ((stats.count? key).map float64).or
      (if key.queue ∈ queues ∧ key.state ∈ publishedDepthStates then some 0 else none)
  else none

/-- The number of an age series after a reading: the age of the reading, or zero for a queue
that is configured or has a depth. -/
def Stats.ageSeries (queues : List Bytes) (stats : Stats F) (queue : Bytes) : Option F :=
  if Go.Utf8.valid queue then
    (stats.age? queue).or
      (if queue ∈ queues ∨ queue ∈ stats.depths.map QueueDepth.queue then some 0 else none)
  else none

theorem lookup_seedStates (queue : Bytes) (states : List Bytes) (depths : Map DepthKey F)
    (key : DepthKey) :
    lookup (states.foldl (fun depths state => depths.put (⟨queue, state⟩, 0)) depths) key =
      if key.queue = queue ∧ key.state ∈ states then some 0 else lookup depths key := by
  induction states generalizing depths with
  | nil => simp
  | cons state states ih =>
      rw [List.foldl_cons, ih, lookup_put]
      rcases key with ⟨q, s⟩
      simp only [DepthKey.mk.injEq, List.mem_cons]
      by_cases hq : q = queue
      · by_cases hs : s = state
        · simp [hq, hs]
        · simp [hq, hs, Ne.symm hs]
      · simp [hq, Ne.symm hq]

theorem lookup_seed_depths (queues : List Bytes) (w : Wanted F) (key : DepthKey) :
    lookup (queues.foldl Wanted.seed w).depths key =
      if key.queue ∈ queues ∧ key.state ∈ publishedDepthStates then some 0
      else lookup w.depths key := by
  induction queues generalizing w with
  | nil => simp
  | cons queue queues ih =>
      rw [List.foldl_cons, ih, Wanted.seed, lookup_seedStates]
      by_cases hq : key.queue = queue
      · by_cases hs : key.state ∈ publishedDepthStates
        · simp [hq, hs]
        · simp [hs]
      · simp [hq]

theorem lookup_seed_ages (queues : List Bytes) (w : Wanted F) (queue : Bytes) :
    lookup (queues.foldl Wanted.seed w).ages queue =
      if queue ∈ queues then some 0 else lookup w.ages queue := by
  induction queues generalizing w with
  | nil => simp
  | cons first queues ih =>
      rw [List.foldl_cons, ih, Wanted.seed, lookup_put]
      by_cases hq : queue = first
      · simp [hq]
      · simp [hq, Ne.symm hq]

theorem depths_foldl_addDepth (float64 : Int → F) (ds : List QueueDepth) (w : Wanted F) :
    (ds.foldl (Wanted.addDepth float64) w).depths =
      ds.foldl (fun depths d => depths.put (⟨d.queue, d.state⟩, float64 d.count)) w.depths := by
  induction ds generalizing w with
  | nil => rfl
  | cons d ds ih => exact ih (w.addDepth float64 d)

theorem lookup_addDepth_ages (float64 : Int → F) (ds : List QueueDepth) (w : Wanted F)
    (queue : Bytes) :
    lookup (ds.foldl (Wanted.addDepth float64) w).ages queue =
      (lookup w.ages queue).or (if queue ∈ ds.map QueueDepth.queue then some 0 else none) := by
  induction ds generalizing w with
  | nil => simp
  | cons d ds ih =>
      rw [List.foldl_cons, ih, Wanted.addDepth]
      by_cases hq : queue = d.queue
      · subst hq
        cases hages : lookup w.ages d.queue with
        | none => simp [lookup_put]
        | some x => simp [hages]
      · have hsame : lookup (if (lookup w.ages d.queue).isSome then w.ages
            else w.ages.put (d.queue, 0)) queue = lookup w.ages queue := by
          split
          · rfl
          · rw [lookup_put, if_neg (Ne.symm hq)]
        rw [hsame]
        simp [hq]

omit [Zero F] in
theorem depths_foldl_addOldest (as : List (QueueAge F)) (w : Wanted F) :
    (as.foldl Wanted.addOldest w).depths = w.depths := by
  induction as generalizing w with
  | nil => rfl
  | cons a as ih => exact ih (w.addOldest a)

omit [Zero F] in
theorem ages_foldl_addOldest (as : List (QueueAge F)) (w : Wanted F) :
    (as.foldl Wanted.addOldest w).ages =
      as.foldl (fun ages a => ages.put (a.queue, a.ageSeconds)) w.ages := by
  induction as generalizing w with
  | nil => rfl
  | cons a as ih => exact ih (w.addOldest a)

/-- The map `depths` has the series a reading asks for. -/
theorem lookup_wanted_depths (float64 : Int → F) (queues : List Bytes) (stats : Stats F)
    (key : DepthKey) :
    (if key.accepted then lookup (stats.wanted float64 queues).depths key else none) =
      stats.depthSeries float64 queues key := by
  unfold Stats.wanted Stats.depthSeries Stats.count?
  dsimp only
  rw [depths_foldl_addOldest, depths_foldl_addDepth, lookup_foldl_put, lookup_seed_depths,
    Map.lookup_empty, Option.map_map]
  rfl

/-- The map `ages` has the series a reading asks for. -/
theorem lookup_wanted_ages (float64 : Int → F) (queues : List Bytes) (stats : Stats F)
    (queue : Bytes) :
    (if Go.Utf8.valid queue then lookup (stats.wanted float64 queues).ages queue else none) =
      stats.ageSeries queues queue := by
  unfold Stats.wanted Stats.ageSeries Stats.age?
  dsimp only
  rw [ages_foldl_addOldest, lookup_foldl_put, lookup_addDepth_ages, lookup_seed_ages,
    Map.lookup_empty]
  by_cases hq : queue ∈ queues
  · simp [hq]
  · simp [hq]

/-! ## The two vectors apart -/

theorem depth_run (m : MetricSet F) (ms : List (Mutation F)) :
    (run Mutation.apply m ms).depth = run Op.apply m.depth (ms.filterMap Mutation.depth?) := by
  induction ms generalizing m with
  | nil => rfl
  | cons mutation ms ih =>
      cases mutation with
      | depth op => exact ih _
      | oldestAge op => exact ih _

theorem oldestAge_run (m : MetricSet F) (ms : List (Mutation F)) :
    (run Mutation.apply m ms).oldestAge =
      run Op.apply m.oldestAge (ms.filterMap Mutation.oldestAge?) := by
  induction ms generalizing m with
  | nil => rfl
  | cons mutation ms ih =>
      cases mutation with
      | depth op => exact ih _
      | oldestAge op => exact ih _

section Apart

omit [Zero F]

theorem filterMap_depth_depth (ops : List (Op DepthKey F)) :
    (ops.map Mutation.depth).filterMap Mutation.depth? = ops := by
  rw [List.filterMap_map]
  exact List.filterMap_some

theorem filterMap_depth_oldestAge (ops : List (Op Bytes F)) :
    (ops.map Mutation.oldestAge).filterMap Mutation.depth? = [] := by
  rw [List.filterMap_map]
  exact List.filterMap_eq_nil_iff.mpr fun _ _ => rfl

theorem filterMap_oldestAge_oldestAge (ops : List (Op Bytes F)) :
    (ops.map Mutation.oldestAge).filterMap Mutation.oldestAge? = ops := by
  rw [List.filterMap_map]
  exact List.filterMap_some

theorem filterMap_oldestAge_depth (ops : List (Op DepthKey F)) :
    (ops.map Mutation.depth).filterMap Mutation.oldestAge? = [] := by
  rw [List.filterMap_map]
  exact List.filterMap_eq_nil_iff.mpr fun _ _ => rfl

/-- The loops of `refresh`, as operations on one vector each. -/
theorem publish_eq (r : Refresher F) (call : Call F) (w : Wanted F) :
    r.publish call w =
      (overwrite DepthKey.accepted (call.visitDepths.order w.depths.rows)).map .depth ++
      (overwrite Go.Utf8.valid (call.visitAges.order w.ages.rows)).map .oldestAge ++
      (prune DepthKey.accepted (fun key => (lookup w.depths key).isSome)
        ((call.visitDepthKeys.order r.depthKeys.rows).map Prod.fst)).map .depth ++
      (prune Go.Utf8.valid (fun queue => (lookup w.ages queue).isSome)
        ((call.visitAgeKeys.order r.ageKeys.rows).map Prod.fst)).map .oldestAge := by
  unfold Refresher.publish overwrite prune
  simp only [List.map_flatMap, List.flatMap_map, apply_ite (List.map _), List.map_nil]
  rfl

theorem filterMap_depth_publish (r : Refresher F) (call : Call F) (w : Wanted F) :
    (r.publish call w).filterMap Mutation.depth? =
      plan DepthKey.accepted w.depths (call.visitDepths.order w.depths.rows)
        ((call.visitDepthKeys.order r.depthKeys.rows).map Prod.fst) := by
  rw [publish_eq]
  simp only [List.filterMap_append, filterMap_depth_depth, filterMap_depth_oldestAge,
    List.append_nil]
  rfl

theorem filterMap_oldestAge_publish (r : Refresher F) (call : Call F) (w : Wanted F) :
    (r.publish call w).filterMap Mutation.oldestAge? =
      plan Go.Utf8.valid w.ages (call.visitAges.order w.ages.rows)
        ((call.visitAgeKeys.order r.ageKeys.rows).map Prod.fst) := by
  rw [publish_eq]
  simp only [List.filterMap_append, filterMap_oldestAge_depth, filterMap_oldestAge_oldestAge,
    List.append_nil, List.nil_append]
  rfl

/-- A loop over the remembered keys visits all of them. -/
theorem mem_visited_iff {κ : Type} [DecidableEq κ] (visit : Visit (κ × Unit)) (keys : Map κ Unit)
    (k : κ) : k ∈ (visit.order keys.rows).map Prod.fst ↔ (lookup keys k).isSome := by
  rw [((visit.perm keys.rows).map Prod.fst).mem_iff, isSome_lookup_iff, List.mem_map]

end Apart

/-! ## What a refresher keeps -/

omit [Zero F] in
/-- Every published series is accepted and remembered. -/
structure Inv (r : Refresher F) : Prop where
  depth : Tracked DepthKey.accepted r.metrics.depth r.depthKeys
  oldestAge : Tracked Go.Utf8.valid r.metrics.oldestAge r.ageKeys

theorem Inv.seedState {r : Refresher F} (h : Inv r) (queue state : Bytes) :
    Inv (r.seedState queue state) := by
  refine ⟨?_, ?_⟩
  · unfold Refresher.seedState setDepth
    rw [depth_run, filterMap_depth_depth]
    exact h.depth.assign ⟨queue, state⟩ 0
  · unfold Refresher.seedState setDepth
    rw [oldestAge_run, filterMap_oldestAge_depth]
    exact h.oldestAge

theorem Inv.seedQueue {r : Refresher F} (h : Inv r) (queue : Bytes) : Inv (r.seedQueue queue) := by
  have hstates : Inv (run (Refresher.seedState queue) r publishedDepthStates) :=
    run_invariant (fun _ state hr => hr.seedState queue state) h _
  refine ⟨?_, ?_⟩
  · unfold Refresher.seedQueue setOldestAge
    dsimp only
    rw [depth_run, filterMap_depth_oldestAge]
    exact hstates.depth
  · unfold Refresher.seedQueue setOldestAge
    dsimp only
    rw [oldestAge_run, filterMap_oldestAge_oldestAge]
    exact hstates.oldestAge.assign queue 0

theorem inv_new (queues : List Bytes) : Inv (newStatsRefresher queues : Refresher F) :=
  run_invariant (fun _ queue hr => hr.seedQueue queue) ⟨Tracked.empty, Tracked.empty⟩ queues

variable {float64 : Int → F} {queues : List Bytes}

theorem mutations_of_stats {r : Refresher F} {call : Call F} {stats : Stats F}
    (h : call.stats = some stats) :
    r.mutations float64 queues call = r.publish call (stats.wanted float64 queues) := by
  rw [Refresher.mutations, h, Option.elim_some]

theorem refresh_of_error {r : Refresher F} {call : Call F} (h : call.stats = none) :
    r.refresh float64 queues call = r := by
  rw [Refresher.refresh, h]

/-- What a refresh that reads the store leaves. -/
theorem refresh_of_stats {r : Refresher F} {call : Call F} {stats : Stats F}
    (h : call.stats = some stats) :
    r.refresh float64 queues call =
      { metrics := run Mutation.apply r.metrics (r.publish call (stats.wanted float64 queues))
        depthKeys := Map.keySet (stats.wanted float64 queues).depths
        ageKeys := Map.keySet (stats.wanted float64 queues).ages
        lastSuccess := call.now } := by
  rw [← mutations_of_stats h, Refresher.refresh, h]

theorem Inv.refresh {r : Refresher F} (hr : Inv r) (call : Call F) :
    Inv (r.refresh float64 queues call) := by
  cases hstats : call.stats with
  | none =>
      rw [refresh_of_error hstats]
      exact hr
  | some stats =>
      rw [refresh_of_stats hstats]
      refine ⟨?_, ?_⟩
      · rw [depth_run, filterMap_depth_publish]
        exact hr.depth.plan (call.visitDepths.perm _) (mem_visited_iff _ _)
      · rw [oldestAge_run, filterMap_oldestAge_publish]
        exact hr.oldestAge.plan (call.visitAges.perm _) (mem_visited_iff _ _)

/-! ## Gauges after a reading, and on the way to it -/

theorem lookup_depth_refresh {r : Refresher F} (hr : Inv r) {call : Call F} {stats : Stats F}
    (h : call.stats = some stats) (key : DepthKey) :
    lookup (r.refresh float64 queues call).metrics.depth key =
      stats.depthSeries float64 queues key := by
  rw [refresh_of_stats h, depth_run, filterMap_depth_publish,
    lookup_plan hr.depth (call.visitDepths.perm _) (mem_visited_iff _ _), lookup_wanted_depths]

theorem lookup_oldestAge_refresh {r : Refresher F} (hr : Inv r) {call : Call F} {stats : Stats F}
    (h : call.stats = some stats) (queue : Bytes) :
    lookup (r.refresh float64 queues call).metrics.oldestAge queue =
      stats.ageSeries queues queue := by
  rw [refresh_of_stats h, oldestAge_run, filterMap_oldestAge_publish,
    lookup_plan hr.oldestAge (call.visitAges.perm _) (mem_visited_iff _ _), lookup_wanted_ages]

/-- A call that fails does nothing to the vectors. -/
theorem done_of_error {r : Refresher F} {call : Call F} (h : call.stats = none)
    {done rest : List (Mutation F)} (hsplit : r.mutations float64 queues call = done ++ rest) :
    done = [] := by
  rw [Refresher.mutations, h, Option.elim_none] at hsplit
  exact (List.nil_eq_append_iff.mp hsplit).1

theorem depth_without_gap {r : Refresher F} (hr : Inv r) {call : Call F}
    {done rest : List (Mutation F)} (hsplit : r.mutations float64 queues call = done ++ rest)
    {key : DepthKey} (hbefore : (lookup r.metrics.depth key).isSome)
    (hafter : (lookup (r.refresh float64 queues call).metrics.depth key).isSome) :
    (lookup (run Mutation.apply r.metrics done).depth key).isSome := by
  cases hstats : call.stats with
  | none =>
      rw [done_of_error hstats hsplit]
      exact hbefore
  | some stats =>
      rw [refresh_of_stats hstats, depth_run, filterMap_depth_publish] at hafter
      rw [mutations_of_stats hstats] at hsplit
      have hplan := congrArg (List.filterMap Mutation.depth?) hsplit
      rw [filterMap_depth_publish, List.filterMap_append] at hplan
      rw [depth_run]
      exact plan_without_gap hr.depth (call.visitDepths.perm _) (mem_visited_iff _ _) hbefore hafter
        hplan

theorem oldestAge_without_gap {r : Refresher F} (hr : Inv r) {call : Call F}
    {done rest : List (Mutation F)} (hsplit : r.mutations float64 queues call = done ++ rest)
    {queue : Bytes} (hbefore : (lookup r.metrics.oldestAge queue).isSome)
    (hafter : (lookup (r.refresh float64 queues call).metrics.oldestAge queue).isSome) :
    (lookup (run Mutation.apply r.metrics done).oldestAge queue).isSome := by
  cases hstats : call.stats with
  | none =>
      rw [done_of_error hstats hsplit]
      exact hbefore
  | some stats =>
      rw [refresh_of_stats hstats, oldestAge_run, filterMap_oldestAge_publish] at hafter
      rw [mutations_of_stats hstats] at hsplit
      have hplan := congrArg (List.filterMap Mutation.oldestAge?) hsplit
      rw [filterMap_oldestAge_publish, List.filterMap_append] at hplan
      rw [oldestAge_run]
      exact plan_without_gap hr.oldestAge (call.visitAges.perm _) (mem_visited_iff _ _) hbefore hafter
        hplan

/-- Published gauges track the last reading without gaps.  After any calls of `refresh`, one
more that fails changes nothing; one that succeeds leaves exactly the series its reading asks
for, with their numbers; and at every point of it, whichever operations on the vectors have
been done, each series published both before and after is published. -/
theorem refresh_tracks_reading (float64 : Int → F) (queues : List Bytes) (calls : List (Call F))
    (call : Call F) :
    let r := run (Refresher.refresh float64 queues) (newStatsRefresher queues) calls
    let r' := r.refresh float64 queues call
    (call.stats = none → r' = r) ∧
      (∀ stats, call.stats = some stats →
        (∀ key, lookup r'.metrics.depth key = stats.depthSeries float64 queues key) ∧
        (∀ queue, lookup r'.metrics.oldestAge queue = stats.ageSeries queues queue) ∧
        r'.lastSuccess = call.now) ∧
      ∀ done rest, r.mutations float64 queues call = done ++ rest →
        (∀ key, (lookup r.metrics.depth key).isSome → (lookup r'.metrics.depth key).isSome →
          (lookup (run Mutation.apply r.metrics done).depth key).isSome) ∧
        ∀ queue, (lookup r.metrics.oldestAge queue).isSome →
          (lookup r'.metrics.oldestAge queue).isSome →
          (lookup (run Mutation.apply r.metrics done).oldestAge queue).isSome := by
  intro r r'
  have hr : Inv r := run_invariant (fun _ call hr => hr.refresh call) (inv_new queues) calls
  refine ⟨refresh_of_error, ?_, ?_⟩
  · intro stats hstats
    refine ⟨lookup_depth_refresh hr hstats, lookup_oldestAge_refresh hr hstats, ?_⟩
    exact congrArg Refresher.lastSuccess (refresh_of_stats hstats)
  · intro done rest hsplit
    exact ⟨fun _ => depth_without_gap hr hsplit, fun _ => oldestAge_without_gap hr hsplit⟩

end Drover.Metrics
