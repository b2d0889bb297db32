import Drover.Foundation.Run

set_option autoImplicit false

/-!
# Getting somewhere

An invariant says where a machine cannot go.  `Within next C n Q s` says where it can: from
`s`, at most `n` steps whose labels are all in `C` lead to a state with `Q`.  The labels
stand for the parties that have to act, and the others need not.

The rules chain such facts, and `within_of_rank` is the rule of the variant: while the
goal is not reached there is a step that lowers a rank, so it takes no more steps than
the rank is high.  `rank_add_tally_le` is its counterpart for the steps a run does take.

Nothing in this file names a particular program.
-/

namespace Drover.Foundation

variable {σ ι : Type}

/-- At most `n` steps with labels in `C` lead from `s` to a state with `Q`. -/
def Within (next : σ → ι → σ) (C : ι → Prop) (n : Nat) (Q : σ → Prop) (s : σ) : Prop :=
  ∃ ops : List ι, ops.length ≤ n ∧ (∀ op ∈ ops, C op) ∧ Q (run next s ops)

variable {next : σ → ι → σ} {C : ι → Prop} {Q R : σ → Prop} {s : σ}

theorem Within.now {n : Nat} (h : Q s) : Within next C n Q s :=
  ⟨[], Nat.zero_le n, by simp, h⟩

theorem Within.step {n : Nat} (op : ι) (hop : C op) (h : Within next C n Q (next s op)) :
    Within next C (n + 1) Q s := by
  obtain ⟨ops, hlength, hC, hQ⟩ := h
  exact ⟨op :: ops, Nat.succ_le_succ hlength, List.forall_mem_cons.mpr ⟨hop, hC⟩, hQ⟩

/-- First to `Q`, and from there to `R`. -/
theorem Within.bind {n m : Nat} (h : Within next C n Q s)
    (hR : ∀ s', Q s' → Within next C m R s') : Within next C (n + m) R s := by
  obtain ⟨ops, hlength, hC, hQ⟩ := h
  obtain ⟨ops', hlength', hC', hR'⟩ := hR _ hQ
  refine ⟨ops ++ ops', ?_, ?_, ?_⟩
  · rw [List.length_append]
    exact Nat.add_le_add hlength hlength'
  · intro op hop
    rcases List.mem_append.mp hop with hop | hop
    · exact hC op hop
    · exact hC' op hop
  · rw [run_append]
    exact hR'

theorem Within.mono {n m : Nat} {D : ι → Prop} (h : Within next C n Q s) (hle : n ≤ m)
    (hC : ∀ op, C op → D op) (hQ : ∀ s', Q s' → R s') : Within next D m R s := by
  obtain ⟨ops, hlength, hops, hgoal⟩ := h
  exact ⟨ops, Nat.le_trans hlength hle, fun op hop => hC op (hops op hop), hQ _ hgoal⟩

/-- Steps with labels in `C` lead from `s` to a state with `Q`. -/
def Can (next : σ → ι → σ) (C : ι → Prop) (Q : σ → Prop) (s : σ) : Prop :=
  ∃ n, Within next C n Q s

theorem Within.can {n : Nat} (h : Within next C n Q s) : Can next C Q s := ⟨n, h⟩

theorem Can.now (h : Q s) : Can next C Q s := ⟨0, .now h⟩

theorem Can.step (op : ι) (hop : C op) (h : Can next C Q (next s op)) : Can next C Q s := by
  obtain ⟨n, hn⟩ := h
  exact ⟨n + 1, hn.step op hop⟩

theorem Can.bind (h : Can next C Q s) (hR : ∀ s', Q s' → Can next C R s') : Can next C R s := by
  obtain ⟨n, ops, -, hC, hQ⟩ := h
  obtain ⟨m, hm⟩ := hR _ hQ
  have hfirst : Within next C ops.length (fun s' => s' = run next s ops) s :=
    ⟨ops, Nat.le_refl _, hC, rfl⟩
  exact ⟨ops.length + m, hfirst.bind (by rintro s' rfl; exact hm)⟩

theorem Can.mono {D : ι → Prop} (h : Can next C Q s) (hC : ∀ op, C op → D op)
    (hQ : ∀ s', Q s' → R s') : Can next D R s := by
  obtain ⟨n, hn⟩ := h
  exact ⟨n, hn.mono (Nat.le_refl n) hC hQ⟩

/-- What a machine can do, one that follows it step by step can do. -/
theorem Can.simulate {τ κ : Type} {next' : τ → κ → τ} {D : κ → Prop} {R : τ → σ → Prop}
    (hsim : ∀ t s op, R t s → C op → ∃ op', D op' ∧ R (next' t op') (next s op)) {t : τ}
    (h : Can next C Q s) (hR : R t s) : Can next' D (fun t' => ∃ s', R t' s' ∧ Q s') t := by
  obtain ⟨n, ops, -, hC, hQ⟩ := h
  induction ops generalizing s t with
  | nil => exact .now ⟨s, hR, hQ⟩
  | cons op ops ih =>
      obtain ⟨hop, hops⟩ := List.forall_mem_cons.mp hC
      obtain ⟨op', hop', hR'⟩ := hsim t s op hR hop
      exact .step op' hop' (ih hR' hops hQ)

/-- The rule of the variant. -/
theorem within_of_rank {P : σ → Prop} (rank : σ → Nat)
    (hgo : ∀ s, P s → Q s ∨ ∃ op, C op ∧ P (next s op) ∧ rank (next s op) < rank s)
    (h : P s) : Within next C (rank s) (fun s' => P s' ∧ Q s') s := by
  generalize hn : rank s = n
  induction n using Nat.strongRecOn generalizing s with
  | ind n ih =>
      rcases hgo s h with hQ | ⟨op, hop, hP, hlt⟩
      · exact .now ⟨h, hQ⟩
      · rw [hn] at hlt
        exact (Within.step op hop (ih _ hlt hP rfl)).mono hlt (fun _ => id) (fun _ => id)

/-- The variant over every run: steps that satisfy `p` lower the rank, steps that satisfy `q`
may raise it by `c`, and the others leave it alone. -/
theorem rank_add_tally_le {P : σ → Prop} {p q : σ → ι → Bool} {c : Nat} (rank : σ → Nat)
    (hP : ∀ s op, P s → P (next s op))
    (hrank : ∀ s op, P s → rank (next s op) + (p s op).toNat ≤ rank s + c * (q s op).toNat)
    (h : P s) (ops : List ι) :
    rank (run next s ops) + tally next p s ops ≤ rank s + c * tally next q s ops := by
  induction ops generalizing s with
  | nil => simp
  | cons op ops ih =>
      have hfirst := hrank s op h
      have hrest := ih (hP s op h)
      rw [run_cons, tally_cons, tally_cons, Nat.mul_add]
      omega

end Drover.Foundation
