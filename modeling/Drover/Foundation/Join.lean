import Drover.Foundation.Progress

set_option autoImplicit false

/-!
# Waiting for others to leave

A machine that starts others beside itself and waits for them at one of its steps.  The
others move in between, they are told to go at some point, and the step that waits cannot
be taken before they have gone.  Beyond that the two do not see each other.

Two facts make up for the wait.  What is true of the machine in every run of its own is
true of it with the others beside it, whether they go or not.  And where it can get to by
itself it can get to with them, if those who have been told to go can.

Nothing in this file names a particular program.
-/

namespace Drover.Foundation

variable {σ ι τ κ : Type}

/-- A machine and the others it waits for. -/
structure Joint (σ ι τ κ : Type) where
  next : σ → ι → σ
  /-- the others are there -/
  started : σ → Bool
  /-- they have been told to go -/
  told : σ → Bool
  /-- the step waits for them -/
  waits : σ → ι → Bool
  /-- a step of theirs, told to go or not; `none` when it cannot be taken -/
  step : Bool → τ → κ → Option τ
  /-- they have gone -/
  gone : τ → Bool

namespace Joint

variable (J : Joint σ ι τ κ)

/-- The state after a step of the machine or of the others; a step that cannot be taken does
nothing. -/
def after (x : σ × τ) : ι ⊕ κ → σ × τ
  | .inl op => if J.waits x.1 op && !J.gone x.2 then x else (J.next x.1 op, x.2)
  | .inr how =>
      if J.started x.1 then (x.1, (J.step (J.told x.1) x.2 how).getD x.2) else x

/-- Beside the others the machine goes through states of its own runs only. -/
theorem run_main (labels : List (ι ⊕ κ)) (x : σ × τ) :
    ∃ ops : List ι, (run J.after x labels).1 = run J.next x.1 ops := by
  induction labels generalizing x with
  | nil => exact ⟨[], rfl⟩
  | cons label labels ih =>
      obtain ⟨ops, hops⟩ := ih (J.after x label)
      rw [run_cons, hops]
      cases label with
      | inl op =>
          by_cases hwait : (J.waits x.1 op && !J.gone x.2) = true
          · exact ⟨ops, by rw [after, if_pos hwait]⟩
          · exact ⟨op :: ops, by rw [after, if_neg hwait, run_cons]⟩
      | inr how =>
          refine ⟨ops, ?_⟩
          rw [after]
          split <;> rfl

variable {J} {C : ι → Prop} {D : κ → Prop} {Q : σ → Prop} {s : σ} {t : τ} {rank : τ → Nat}

/-- Those who have been told to go can, and `rank` says in how many steps. -/
def Leaves (J : Joint σ ι τ κ) (D : κ → Prop) (rank : τ → Nat) : Prop :=
  ∀ t, J.gone t = false → ∃ how t', D how ∧ J.step true t how = some t' ∧ rank t' < rank t

/-- Told to go, they go, and the machine stays where it is. -/
theorem within_gone (hleaves : J.Leaves D rank) (hstarted : J.started s = true)
    (htold : J.told s = true) :
    Within J.after (Sum.elim C D) (rank t) (fun x => x.1 = s ∧ J.gone x.2 = true) (s, t) := by
  refine within_of_rank (s := (s, t)) (P := fun x : σ × τ => x.1 = s) (fun x => rank x.2) ?_ rfl
  rintro ⟨_, t⟩ rfl
  cases hgone : J.gone t with
  | true => exact Or.inl rfl
  | false =>
      obtain ⟨how, t', hhow, hstep, hlt⟩ := hleaves t hgone
      refine Or.inr ⟨.inr how, hhow, ?_⟩
      simp only [after, hstarted, if_true, htold, hstep, Option.getD_some, true_and]
      exact hlt

/-- With the others gone the machine is as by itself. -/
theorem run_of_gone (hgone : J.gone t = true) (ops : List ι) (s : σ) :
    run J.after (s, t) (ops.map .inl) = (run J.next s ops, t) := by
  induction ops generalizing s with
  | nil => rfl
  | cons op ops ih =>
      rw [List.map_cons, run_cons, run_cons, after, if_neg (by simp [hgone])]
      exact ih (J.next s op)

/-- Once the others have been told to go, their steps come on top of those of the machine. -/
theorem within_of_told (hleaves : J.Leaves D rank) (hstarted : J.started s = true)
    (htold : J.told s = true) {n : Nat} (h : Within J.next C n Q s) :
    Within J.after (Sum.elim C D) (rank t + n) (fun x => Q x.1) (s, t) := by
  refine (within_gone hleaves hstarted htold).bind ?_
  rintro ⟨_, t'⟩ ⟨rfl, hgone⟩
  obtain ⟨ops, hlength, hC, hQ⟩ := h
  refine ⟨ops.map .inl, by rw [List.length_map]; exact hlength, ?_, ?_⟩
  · intro label hlabel
    obtain ⟨op, hop, rfl⟩ := List.mem_map.mp hlabel
    exact hC op hop
  · rw [run_of_gone hgone]
    exact hQ

/-- Where the machine can get to by itself, it can get to beside the others, when nothing
waits for them before they have been told to go. -/
theorem can_beside {P : σ → Prop} (hleaves : J.Leaves D rank)
    (hnext : ∀ s op, P s → P (J.next s op))
    (hwaits : ∀ s op, P s → J.waits s op = true → J.started s = true ∧ J.told s = true)
    (hP : P s) (h : Can J.next C Q s) :
    Can J.after (Sum.elim C D) (fun x => Q x.1) (s, t) := by
  obtain ⟨n, ops, -, hC, hQ⟩ := h
  induction ops generalizing s t with
  | nil => exact .now hQ
  | cons op ops ih =>
      obtain ⟨hop, hops⟩ := List.forall_mem_cons.mp hC
      cases hwait : J.waits s op with
      | true =>
          -- the others go first
          obtain ⟨hstarted, htold⟩ := hwaits s op hP hwait
          exact (within_of_told hleaves hstarted htold
            ⟨op :: ops, Nat.le_refl _, hC, hQ⟩).can
      | false =>
          refine .step (.inl op) hop ?_
          rw [after, if_neg (by simp [hwait])]
          exact ih (hnext s op hP) hops hQ

end Joint

end Drover.Foundation
