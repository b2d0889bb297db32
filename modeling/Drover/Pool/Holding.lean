import Drover.Pool.Ledger
import Drover.Pool.Turns

set_option autoImplicit false

/-!
# The goroutines keep the ledger

Each goroutine holds the claims its program counter names.  `next_move` shows that
every step of the pool makes a move of the ledger, so that the invariants proved there
hold of the pool.
-/

namespace Drover.Pool

open Drover.Foundation
open Drover.Driver
open Drover.Go (Time Duration)

/-- The claims of a list, all at one stage. -/
def at_ (st : Stage) (claims : List Claim) : List (Claim × Stage) := claims.map (·, st)

@[simp] theorem at_nil (st : Stage) : at_ st [] = [] := rfl

@[simp] theorem at_cons (st : Stage) (c : Claim) (claims : List Claim) :
    at_ st (c :: claims) = (c, st) :: at_ st claims := rfl

@[simp] theorem at_append (st : Stage) (claims claims' : List Claim) :
    at_ st (claims ++ claims') = at_ st claims ++ at_ st claims' := List.map_append

/-- The claims the fetch loop holds. -/
def Fetch.held : Fetch → List (Claim × Stage)
  | .ask r => at_ .tracked r.claimed
  | .track r added todo => at_ .claimed todo ++ (at_ .tracked r.claimed ++ at_ .tracked added)
  | .handBack r kept back todo =>
      at_ .tracked todo ++ (at_ .tracked r.claimed ++ (at_ .tracked kept ++ at_ .past back))
  | .untrack r kept todo => at_ .past todo ++ (at_ .tracked r.claimed ++ at_ .tracked kept)
  | .visited r => at_ .tracked r.claimed
  | .claimed _ rows => at_ .tracked rows
  | .release _ rows => at_ .tracked (rows.getD [])
  | .dispatch rows => at_ .tracked rows
  | .offer c rows => at_ .tracked (c :: rows)
  | .abandon back todo => at_ .tracked todo ++ at_ .past back
  | .forget _ todo => at_ .past todo
  | _ => []

/-- The claim a worker holds. -/
def Worker.held : Worker → List (Claim × Stage)
  | .received c => [(c, .tracked)]
  | .handling c => [(c, .running)]
  | .finalizing c _ => [(c, .running)]
  | .finished c => [(c, .past)]
  | _ => []

/-- The claims somebody in the pool holds. -/
def State.held (s : State) : List (Claim × Stage) :=
  s.fetch.held ++ s.workers.flatMap Worker.held

/-- The ledger of a pool. -/
def State.ledger (s : State) : Ledger := ⟨s.claims, s.latest, s.held, s.inflight, s.ended⟩

/-- The claims a step returns to this client. -/
def State.returned (cfg : Config) (s : State) : Label → List Claim
  | .fetch (.rows now limit) =>
      match s.fetch with
      | .ask ⟨_, _, queue :: _, _⟩ => s.answer cfg queue now limit
      | _ => []
  | _ => []

/-! ## Answers -/

theorem length_numbered (first : Nat) (rows : List JobRow) :
    (numbered first rows).length = rows.length := by
  induction rows generalizing first with
  | nil => rfl
  | cons row rows ih => rw [numbered, List.length_cons, List.length_cons, ih]

theorem row_numbered (first : Nat) (rows : List JobRow) :
    (numbered first rows).map Claim.row = rows := by
  induction rows generalizing first with
  | nil => rfl
  | cons row rows ih => rw [numbered, List.map_cons, ih]

theorem ref_numbered (first : Nat) (rows : List JobRow) :
    (numbered first rows).map Claim.ref = List.range' first rows.length := by
  induction rows generalizing first with
  | nil => rfl
  | cons row rows ih => rw [numbered, List.map_cons, ih, List.length_cons, List.range'_succ]

/-- Rows of different jobs, numbered, are an answer. -/
theorem answer_numbered (first : Nat) {rows : List JobRow} (h : (rows.map JobRow.id).Nodup) :
    Answer first (numbered first rows) := by
  have hrefs : ∀ c ∈ numbered first rows, first ≤ c.ref ∧ c.ref < first + rows.length := by
    intro c hc
    have hmem : c.ref ∈ (numbered first rows).map Claim.ref := List.mem_map_of_mem hc
    rw [ref_numbered, List.mem_range'_1] at hmem
    exact hmem
  refine ⟨fun c hc => (hrefs c hc).1, fun c hc => ?_, ?_, ?_⟩
  · rw [length_numbered]
    exact (hrefs c hc).2
  · rw [ref_numbered]
    exact List.nodup_range'
  · rw [← row_numbered first rows, List.map_map] at h
    exact h

/-! ## Steps are moves -/

/-- The most recent claim of a job, after an answer. -/
theorem latest_cases {answer : List Claim} {latest : Int → Option Nat} {id : Int} {ref : Nat}
    (h : (match answer.find? fun c => c.row.id = id with
      | some c => some c.ref
      | none => latest id) = some ref) :
    (∃ c ∈ answer, c.row.id = id ∧ c.ref = ref) ∨
      (latest id = some ref ∧ ∀ c ∈ answer, c.row.id ≠ id) := by
  cases hfind : answer.find? fun c => c.row.id = id with
  | some c =>
      rw [hfind] at h
      have hid : c.row.id = id := by simpa using List.find?_some hfind
      exact Or.inl ⟨c, List.mem_of_find?_eq_some hfind, hid, Option.some.inj h⟩
  | none =>
      rw [hfind] at h
      exact Or.inr ⟨h, fun c hc => by simpa using List.find?_eq_none.mp hfind c hc⟩

/-- Moving one claim through the fetch loop. -/
theorem held_of_fetch {s : State} {x : Claim × Stage} {rest : List (Claim × Stage)}
    (h : s.fetch.held.Perm (x :: rest)) :
    s.held.Perm (x :: (rest ++ s.workers.flatMap Worker.held)) :=
  h.append_right _

theorem fetchStep_move {cfg : Config} {s s' : State} {how : FetchStep}
    (h : fetchStep cfg s how = some s') :
    Move (s.returned cfg (.fetch how)) s.ledger s'.ledger := by
  cases FetchTurn.of_step h with
  | @rows n remaining queue queues claimed now limit hpc =>
      have hanswer : s.returned cfg (.fetch (.rows now limit)) = s.answer cfg queue now limit := by
        simp only [State.returned, hpc]
      rw [hanswer]
      refine .claim (answer_numbered _ (Memdriver.fetchAvailable_nodup ..)) rfl ?_ ?_ rfl rfl
      · intro id ref href
        exact latest_cases href
      · simp [State.ledger, State.held, hpc, Fetch.held, at_]
  | @track r added c todo hpc =>
      have hrest := List.perm_append_singleton (c, Stage.tracked)
        (at_ .claimed todo ++ (at_ .tracked r.claimed ++ at_ .tracked added))
      refine .add c .claimed .tracked _ (Or.inl rfl) (Or.inl rfl) rfl rfl
        (held_of_fetch (by rw [hpc]; exact List.Perm.refl _)) (held_of_fetch ?_) rfl rfl
      exact (List.Perm.of_eq (by simp [Fetch.held])).trans hrest
  | @surplus r added hmore hpc =>
      have hkept : at_ Stage.tracked added =
          at_ .tracked (added.take r.remaining) ++ at_ .tracked (added.drop r.remaining) := by
        rw [← at_append, List.take_append_drop]
      refine .stay rfl (fun _ _ => id) (List.Perm.append_right _ ?_) rfl (List.Subset.refl _)
      rw [hpc]
      simp only [Fetch.held, at_nil, List.nil_append, List.append_nil]
      rw [hkept, ← List.append_assoc (at_ .tracked r.claimed) (at_ .tracked (added.take _))]
      exact List.perm_append_comm
  | @handBack r kept back c todo now detail lands hpc =>
      have hrest := List.perm_append_singleton (c, Stage.past)
        (at_ .tracked todo ++ (at_ .tracked r.claimed ++ (at_ .tracked kept ++ at_ .past back)))
      refine .finish c .tracked _ (Or.inl rfl) rfl rfl
        (held_of_fetch (by rw [hpc]; exact List.Perm.refl _)) (held_of_fetch ?_) rfl rfl
      exact (List.Perm.of_eq (by simp [Fetch.held])).trans hrest
  | @handedBack r kept back hpc =>
      refine .stay rfl (fun _ _ => id) (List.Perm.append_right _ ?_) rfl (List.Subset.refl _)
      rw [hpc]
      simp only [Fetch.held, at_nil, List.nil_append]
      rw [← List.append_assoc (at_ .tracked r.claimed)]
      exact List.perm_append_comm
  | @untrack r kept c todo hpc =>
      exact .remove c _ rfl rfl (held_of_fetch (by rw [hpc]; exact List.Perm.refl _))
        (List.Perm.refl _) rfl rfl
  | @dispatch c rows hpc =>
      exact .add c .tracked .tracked _ (Or.inr rfl) (Or.inl rfl) rfl rfl
        (held_of_fetch (by rw [hpc]; exact List.Perm.refl _)) (List.Perm.refl _) rfl rfl
  | @abandon back c todo now detail lands hpc =>
      have hrest := List.perm_append_singleton (c, Stage.past) (at_ .tracked todo ++ at_ .past back)
      refine .finish c .tracked _ (Or.inl rfl) rfl rfl
        (held_of_fetch (by rw [hpc]; exact List.Perm.refl _)) (held_of_fetch ?_) rfl rfl
      exact (List.Perm.of_eq (by simp [Fetch.held])).trans hrest
  | @forget n c todo hpc =>
      exact .remove c _ rfl rfl (held_of_fetch (by rw [hpc]; exact List.Perm.refl _))
        (List.Perm.refl _) rfl rfl
  | _ =>
      -- every other step leaves the claims with their holders
      rename_i hpc
      refine .stay rfl (fun _ _ => id) (List.Perm.append_right _ ?_) rfl (List.Subset.refl _)
      rw [hpc]
      simp_all [Fetch.held, Round.keep]

/-- Changing one worker changes what that worker holds. -/
theorem perm_flatMap_set {α β : Type} {f : α → List β} {xs : List α} {i : Nat} {x : α}
    (h : xs[i]? = some x) (y : α) :
    ∃ rest, (xs.flatMap f).Perm (f x ++ rest) ∧ ((xs.set i y).flatMap f).Perm (f y ++ rest) := by
  induction xs generalizing i with
  | nil => simp at h
  | cons first xs ih =>
      cases i with
      | zero =>
          simp only [List.getElem?_cons_zero, Option.some.injEq] at h
          subst h
          exact ⟨xs.flatMap f, List.Perm.refl _, List.Perm.refl _⟩
      | succ i =>
          rw [List.getElem?_cons_succ] at h
          obtain ⟨rest, hfrom, hto⟩ := ih h
          refine ⟨f first ++ rest, ?_, ?_⟩
          · exact (hfrom.append_left _).trans (List.perm_append_comm_assoc ..)
          · exact (hto.append_left _).trans (List.perm_append_comm_assoc ..)

/-- Moving one worker from `old` to `new`, with the fetch loop where it is. -/
theorem held_of_worker {s : State} {w : Nat} {old : Worker} (h : s.workers[w]? = some old)
    (new : Worker) :
    ∃ rest, s.held.Perm (old.held ++ rest) ∧
      (s.fetch.held ++ (s.workers.set w new).flatMap Worker.held).Perm (new.held ++ rest) := by
  obtain ⟨rest, hfrom, hto⟩ := perm_flatMap_set (f := Worker.held) h new
  refine ⟨s.fetch.held ++ rest, ?_, ?_⟩
  · exact (hfrom.append_left _).trans (List.perm_append_comm_assoc ..)
  · exact (hto.append_left _).trans (List.perm_append_comm_assoc ..)

theorem workerStep_move {cfg : Config} {s s' : State} {w : Nat} {how : WorkerStep}
    (h : workerStep cfg s w how = some s') : Move [] s.ledger s'.ledger := by
  cases WorkerTurn.of_step h with
  | @add c hpc =>
      obtain ⟨rest, hfrom, hto⟩ := held_of_worker hpc (.handling c)
      exact .add c .tracked .running rest (Or.inr rfl) (Or.inr rfl) rfl rfl hfrom hto rfl rfl
  | @write c fate now lands hpc =>
      obtain ⟨rest, hfrom, hto⟩ := held_of_worker hpc (.finished c)
      exact .finish c .running rest (Or.inr rfl) rfl rfl hfrom hto rfl rfl
  | @remove c hpc =>
      obtain ⟨rest, hfrom, hto⟩ := held_of_worker hpc .returning
      exact .remove c rest rfl rfl hfrom hto rfl rfl
  | _ =>
      -- the worker holds what it held
      rename_i hpc
      obtain ⟨rest, hfrom, hto⟩ := held_of_worker hpc _
      exact .stay rfl (fun _ _ => id) (hto.trans hfrom.symm) rfl (List.Subset.refl _)

theorem handOff_move {s s' : State} {w : Nat} (h : handOff s w = some s') :
    Move [] s.ledger s'.ledger := by
  obtain ⟨c, rows, hfetch, hworker, rfl⟩ := handOff_eq_some h
  obtain ⟨rest, hfrom, hto⟩ := perm_flatMap_set (f := Worker.held) hworker (.received c)
  refine .stay rfl (fun _ _ => id) ?_ rfl (List.Subset.refl _)
  -- the claim leaves the head of the fetch loop's list and becomes the worker's
  show ((Fetch.dispatch rows).held ++ _).Perm (s.fetch.held ++ s.workers.flatMap Worker.held)
  rw [hfetch]
  exact ((hto.append_left _).trans List.perm_middle).trans
    ((hfrom.symm.append_left _).cons (c, Stage.tracked))

/-- A step that touches neither the claims nor the inflight set. -/
theorem Move.of_eq {s s' : State} (hclaims : s'.claims = s.claims)
    (hlatest : ∀ id ref, s'.latest id = some ref → s.latest id = some ref) (hfetch : s'.fetch = s.fetch)
    (hworkers : s'.workers = s.workers) (hinflight : s'.inflight = s.inflight)
    (hended : s.ended ⊆ s'.ended) : Move [] s.ledger s'.ledger := by
  refine .stay hclaims hlatest ?_ hinflight hended
  show s'.held.Perm s.held
  unfold State.held
  rw [hfetch, hworkers]

theorem heartStep_move {cfg : Config} {s s' : State} {how : HeartStep}
    (h : heartStep cfg s how = some s') : Move [] s.ledger s'.ledger := by
  cases HeartTurn.of_step h <;> exact Move.of_eq rfl (fun _ _ => id) rfl rfl rfl (List.Subset.refl _)

theorem drainStep_move {cfg : Config} {s s' : State} {how : DrainStep}
    (h : drainStep cfg s how = some s') : Move [] s.ledger s'.ledger := by
  cases DrainTurn.of_step h with
  | requeue hpc => exact Move.of_eq rfl (fun _ _ => id) rfl rfl rfl (List.subset_append_right _ _)
  | _ => exact Move.of_eq rfl (fun _ _ => id) rfl rfl rfl (List.Subset.refl _)

/-- Every step of the pool is a move of its ledger. -/
theorem next_move (cfg : Config) (s : State) (label : Label) :
    Move (s.returned cfg label) s.ledger (next cfg s label).ledger := by
  unfold next
  cases hstep : step cfg s label with
  | none => exact .stay rfl (fun _ _ => id) (List.Perm.refl _) rfl (List.Subset.refl _)
  | some s' =>
      rw [Option.getD_some]
      cases label with
      | outside op =>
          cases hstep
          refine Move.of_eq rfl ?_ rfl rfl rfl (List.Subset.refl _)
          intro id ref href
          simp only at href
          split at href
          · cases href
          · exact href
      | nudge =>
          cases hstep
          exact Move.of_eq rfl (fun _ _ => id) rfl rfl rfl (List.Subset.refl _)
      | fetch how => exact fetchStep_move hstep
      | handOff w => exact handOff_move hstep
      | worker w how => exact workerStep_move hstep
      | heart how => exact heartStep_move hstep
      | drain how => exact drainStep_move hstep

end Drover.Pool
