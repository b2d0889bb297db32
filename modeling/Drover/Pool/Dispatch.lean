import Drover.Pool.Slots

set_option autoImplicit false

/-!
# What becomes of a claimed row

A row `FetchAvailable` returned waits in the fetch loop until the loop gets rid of it, in
one of three ways: it sends the row to a worker, it hands the row back as surplus of the
round, or it abandons the row to a shutdown.  The rows the loop still has and those it
has disposed of are together the rows it was ever given, each of them once.
-/

namespace Drover.Pool

open Drover.Foundation
open Drover.Driver

/-- How the fetch loop disposes of a row. -/
inductive Disposal where
  /-- handed to a worker -/
  | sent (w : Nat)
  /-- requeued by `claimRound` -/
  | surplus
  /-- requeued by `abandon` -/
  | abandoned
  deriving DecidableEq, Repr

/-- The rows an event disposes of, by their numbers. -/
def State.disposal (s : State) : Event → List (Nat × Disposal)
  | .step (.fetch (.requeue _ _ _)) =>
      match s.fetch with
      | .handBack _ _ _ (c :: _) => [(c.ref, .surplus)]
      | .abandon _ (c :: _) => [(c.ref, .abandoned)]
      | _ => []
  | .step (.handOff w) =>
      match s.fetch, s.workers[w]? with
      | .offer c _, some .idle => [(c.ref, .sent w)]
      | _, _ => []
  | _ => []

/-- The rows the fetch loop has been given and has not disposed of. -/
def Fetch.pending : Fetch → List Claim
  | .ask r | .visited r => r.claimed
  | .track r added todo => r.claimed ++ (added ++ todo)
  | .handBack r kept _ todo => r.claimed ++ (kept ++ todo)
  | .untrack r kept _ => r.claimed ++ kept
  | .claimed _ rows => rows
  | .release _ rows => rows.getD []
  | .dispatch rows => rows
  | .offer c rows => c :: rows
  | .abandon _ todo => todo
  | _ => []

/-- The rows an event gives the fetch loop. -/
def State.given (cfg : Config) (s : State) : Event → List Claim
  | .step label => s.returned cfg label
  | .reply rows =>
      match s.fetch with
      | .ask ⟨_, _, _ :: _, _⟩ => numbered s.claims.length rows
      | _ => []

/-- The rows are given to the loop at the number the next one has. -/
theorem ref_given (cfg : Config) (s : State) (e : Event) :
    (s.given cfg e).map Claim.ref =
      List.range' s.claims.length (s.given cfg e).length := by
  cases e with
  | reply rows =>
      simp only [State.given]
      split
      · rw [ref_numbered, length_numbered]
      · rfl
  | step label =>
      simp only [State.given, State.returned]
      split
      · split
        · rw [State.answer, ref_numbered, length_numbered]
        · rfl
      · rfl

/-- What an event gives the loop, the loop has or disposes of, and it keeps or disposes of
what it had. -/
structure Passes (cfg : Config) (s : State) (e : Event) (s' : State) : Prop where
  claims : s'.claims = s.claims ++ s.given cfg e
  rows : ((s.disposal e).map Prod.fst ++ s'.fetch.pending.map Claim.ref).Perm
    (s.fetch.pending.map Claim.ref ++ (s.given cfg e).map Claim.ref)

theorem fetchStep_passes {cfg : Config} {s s' : State} {how : FetchStep}
    (h : fetchStep cfg s how = some s') : Passes cfg s (.step (.fetch how)) s' := by
  cases FetchTurn.of_step h with
  | @rows n remaining queue queues claimed now limit hpc =>
      refine ⟨by simp [State.given, State.returned, hpc], List.Perm.of_eq ?_⟩
      simp [State.disposal, State.given, State.returned, hpc, Fetch.pending]
  | @handBack r kept back c todo now detail lands hpc =>
      refine ⟨by simp [State.given, State.returned], ?_⟩
      -- the row leaves the middle of the list
      simpa [State.disposal, State.given, State.returned, hpc, Fetch.pending] using
        (@List.perm_middle _ _ ((r.claimed ++ kept).map Claim.ref) (todo.map Claim.ref)).symm
  | _ =>
      -- every other step leaves the rows in the loop, in order
      rename_i hpc
      refine ⟨by simp [State.given, State.returned], List.Perm.of_eq ?_⟩
      simp_all [State.disposal, State.given, State.returned, Fetch.pending, Round.keep]

/-- An event that is no turn of the loop passes nothing. -/
theorem passes_of_same {cfg : Config} {s s' : State} {e : Event} (hclaims : s'.claims = s.claims)
    (hfetch : s'.fetch = s.fetch) (hgiven : s.given cfg e = []) (hdisposal : s.disposal e = []) :
    Passes cfg s e s' := by
  refine ⟨by rw [hgiven, List.append_nil, hclaims], List.Perm.of_eq ?_⟩
  rw [hdisposal, hgiven, hfetch, List.map_nil, List.map_nil, List.nil_append, List.append_nil]

theorem passes_of_not_taken {cfg : Config} {s : State} {label : Label}
    (h : step cfg s label = none) :
    s.given cfg (.step label) = [] ∧ s.disposal (.step label) = [] := by
  cases label with
  | fetch how =>
      cases how with
      | rows now limit =>
          refine ⟨?_, rfl⟩
          simp only [State.given, State.returned]
          split
          · rename_i hpc
            simp [step, fetchStep, hpc] at h
          · rfl
      | requeue now detail lands =>
          refine ⟨rfl, ?_⟩
          simp only [State.disposal]
          split
          · rename_i hpc
            simp [step, fetchStep, hpc] at h
          · rename_i hpc
            simp [step, fetchStep, hpc] at h
          · rfl
      | _ => exact ⟨rfl, rfl⟩
  | handOff w =>
      refine ⟨rfl, ?_⟩
      simp only [State.disposal]
      split
      · rename_i hfetch hworker
        simp [step, handOff, hfetch, hworker] at h
      · rfl
  | _ => exact ⟨rfl, rfl⟩

theorem handOff_passes {cfg : Config} {s s' : State} {w : Nat} (h : handOff s w = some s') :
    Passes cfg s (.step (.handOff w)) s' := by
  obtain ⟨c, rows, hfetch, hworker, rfl⟩ := handOff_eq_some h
  refine ⟨by simp [State.given, State.returned], List.Perm.of_eq ?_⟩
  simp [State.disposal, State.given, State.returned, hfetch, hworker, Fetch.pending]

theorem receive_passes {cfg : Config} (s : State) (rows : List JobRow) :
    Passes cfg s (.reply rows) (s.receive rows) := by
  unfold State.receive
  split
  · rename_i n remaining queue queues claimed hpc
    refine ⟨by simp [State.given, hpc], List.Perm.of_eq ?_⟩
    simp [State.disposal, State.given, hpc, Fetch.pending]
  · rename_i hpc
    have hgiven : s.given cfg (.reply rows) = [] := by simp only [State.given]
    exact passes_of_same rfl rfl hgiven rfl

theorem after_passes (cfg : Config) (s : State) (e : Event) : Passes cfg s e (after cfg s e) := by
  cases after_turn cfg s e with
  | other hsame hother =>
      rcases hother with ⟨op, rfl⟩ | ⟨how, rfl⟩ | ⟨how, rfl⟩ | hnone
      · exact passes_of_same hsame.claims hsame.fetch rfl rfl
      · exact passes_of_same hsame.claims hsame.fetch rfl rfl
      · exact passes_of_same hsame.claims hsame.fetch rfl rfl
      · obtain ⟨hgiven, hdisposal⟩ := passes_of_not_taken hnone
        exact passes_of_same hsame.claims hsame.fetch hgiven hdisposal
  | nudge => exact passes_of_same rfl rfl rfl rfl
  | fetch hstep => exact fetchStep_passes hstep
  | handOff hstep => exact handOff_passes hstep
  | worker hstep =>
      have hframe := workerStep_frame hstep
      exact passes_of_same hframe.claims hframe.fetch rfl rfl
  | reply => exact receive_passes s _

/-- The disposals of a run. -/
def disposals (cfg : Config) (s : State) (events : List Event) : List (Nat × Disposal) :=
  emitted (after cfg) State.disposal s events

/-- The numbers of the rows disposed of and of those the loop still has are the numbers of
the rows it was given. -/
theorem perm_range_claims (cfg : Config) (db : Memdriver.Driver) (events : List Event) :
    ((disposals cfg (cfg.start db) events).map Prod.fst ++
        (run (after cfg) (cfg.start db) events).fetch.pending.map Claim.ref).Perm
      (List.range (run (after cfg) (cfg.start db) events).claims.length) := by
  have hstep : ∀ s e, ∃ fresh,
      List.range (after cfg s e).claims.length = List.range s.claims.length ++ fresh ∧
        ((s.disposal e).map Prod.fst ++ (after cfg s e).fetch.pending.map Claim.ref).Perm
          (s.fetch.pending.map Claim.ref ++ fresh) := by
    intro s e
    obtain ⟨hclaims, hrows⟩ := after_passes cfg s e
    refine ⟨(s.given cfg e).map Claim.ref, ?_, hrows⟩
    simp only [hclaims, List.length_append]
    rw [ref_given, List.range_add, List.range'_eq_map_range]
  have hstart : ([] ++ (cfg.start db).fetch.pending.map Claim.ref).Perm
      (List.range (cfg.start db).claims.length) := List.Perm.refl _
  have hconserved := run_conserves (fun (s : State) e => (s.disposal e).map Prod.fst)
    (fun s => s.fetch.pending.map Claim.ref) (fun s => List.range s.claims.length) hstep hstart events
  rwa [List.nil_append, ← map_emitted] at hconserved

theorem ref_claims (cfg : Config) (db : Memdriver.Driver) (events : List Event) :
    (run (after cfg) (cfg.start db) events).claims.map Claim.ref =
      List.range (run (after cfg) (cfg.start db) events).claims.length := by
  refine run_invariant (P := fun s : State => s.claims.map Claim.ref = List.range s.claims.length)
    ?_ rfl events
  intro s e hs
  rw [(after_passes cfg s e).claims, List.map_append, hs, ref_given, List.length_append,
    List.range_add, List.range'_eq_map_range]

/-- In every state of every run, whatever the driver answers and whenever the shutdown
comes, every row `FetchAvailable` returned is pending in the fetch loop or has been disposed
of, and only one of the two and only once; and when `fetch` has returned, it has disposed
of every row in exactly one way. -/
theorem run_rows_disposed_once (cfg : Config) (db : Memdriver.Driver) (events : List Event) :
    let s := run (after cfg) (cfg.start db) events
    let log := disposals cfg (cfg.start db) events
    (∀ c ∈ s.claims, (log.countP fun entry => entry.1 = c.ref) +
        (s.fetch.pending.countP fun other => other.ref = c.ref) = 1) ∧
      (s.fetch = .exited → ∀ c ∈ s.claims, ∃ how,
        log.filter (fun entry => entry.1 = c.ref) = [(c.ref, how)]) := by
  intro s log
  have hcount : ∀ c ∈ s.claims, (log.countP fun entry => entry.1 = c.ref) +
      (s.fetch.pending.countP fun other => other.ref = c.ref) = 1 := by
    intro c hc
    have hmem : c.ref ∈ List.range s.claims.length := by
      rw [← ref_claims cfg db events]
      exact List.mem_map_of_mem hc
    have hone := (perm_range_claims cfg db events).count_eq c.ref
    rw [List.count_eq_one_of_mem List.nodup_range hmem, List.count_append] at hone
    simp only [List.count, List.countP_map] at hone
    exact hone
  refine ⟨hcount, ?_⟩
  intro hexited c hc
  have hone := hcount c hc
  rw [hexited, List.countP_eq_length_filter] at hone
  obtain ⟨entry, hentry⟩ := List.length_eq_one_iff.mp hone
  have hmem : entry ∈ log.filter fun entry => entry.1 = c.ref := by
    rw [hentry]
    exact List.mem_singleton_self entry
  have href : entry.1 = c.ref := by simpa using (List.mem_filter.mp hmem).2
  exact ⟨entry.2, by rw [hentry, ← href]⟩

end Drover.Pool
