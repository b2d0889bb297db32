import Mathlib.Data.List.Infix
import Mathlib.Data.List.Perm.Basic
import Mathlib.Tactic.Common

set_option autoImplicit false

/-!
# Runs of a labelled machine

A machine is a function `next` from a state and a label to the next state.  A
run is a list of labels, in any order its author likes: an interleaving of
several clients of one store is one list.  This file has the rules that lift
facts about one step to facts about runs:

* `run_invariant`, `run_of_forall_mem` and `along_of_steps` for what every state satisfies;
* `steps_iff` and `along_iff` to read either at one point of the run;
* `tally`, `tallySince`, `run_measure` and `run_measure_since` for what a run adds
  up to, and `tally_le_one` for what it does at most once;
* `emitted` and `run_conserves` for what it hands out.

Nothing in this file names a particular program.
-/

namespace Drover.Foundation

variable {σ ι : Type}

/-- The state a run ends in. -/
def run (next : σ → ι → σ) (s : σ) (ops : List ι) : σ := ops.foldl next s

section Run

variable {next : σ → ι → σ}

@[simp] theorem run_nil (s : σ) : run next s [] = s := rfl

@[simp] theorem run_cons (s : σ) (op : ι) (ops : List ι) :
    run next s (op :: ops) = run next (next s op) ops := rfl

theorem run_append (s : σ) (ops ops' : List ι) :
    run next s (ops ++ ops') = run next (run next s ops) ops' := by
  simp [run, List.foldl_append]

/-- What one step keeps, every run keeps. -/
theorem run_invariant {P : σ → Prop} (hstep : ∀ s op, P s → P (next s op)) {s : σ} (h : P s)
    (ops : List ι) : P (run next s ops) := by
  induction ops generalizing s with
  | nil => exact h
  | cons op ops ih => exact ih (hstep s op h)

/-- What a step keeps whose label meets `C`, a run of such labels keeps. -/
theorem run_of_forall_mem {P : σ → Prop} {C : ι → Prop}
    (hstep : ∀ s op, P s → C op → P (next s op)) {s : σ} {ops : List ι} (h : P s)
    (hC : ∀ op ∈ ops, C op) : P (run next s ops) := by
  induction ops generalizing s with
  | nil => exact h
  | cons op ops ih =>
      obtain ⟨hop, hops⟩ := List.forall_mem_cons.mp hC
      exact ih (hstep s op h hop) hops

/-- A machine that carries more state than another runs along with it. -/
theorem run_map {τ : Type} {next' : τ → ι → τ} {f : τ → σ}
    (hf : ∀ t op, f (next' t op) = next (f t) op) (t : τ) (ops : List ι) :
    f (run next' t ops) = run next (f t) ops := by
  induction ops generalizing t with
  | nil => rfl
  | cons op ops ih => rw [run_cons, run_cons, ih, hf]

/-- Some run leads from one state to the other. -/
def Reaches (next : σ → ι → σ) (s s' : σ) : Prop := ∃ ops, run next s ops = s'

theorem Reaches.refl (s : σ) : Reaches next s s := ⟨[], rfl⟩

theorem Reaches.step {s s' : σ} (op : ι) (h : next s op = s') : Reaches next s s' := ⟨[op], h⟩

theorem Reaches.trans {s s' s'' : σ} (h : Reaches next s s') (h' : Reaches next s' s'') :
    Reaches next s s'' := by
  obtain ⟨ops, rfl⟩ := h
  obtain ⟨ops', rfl⟩ := h'
  exact ⟨ops ++ ops', run_append s ops ops'⟩

/-! ## Every state and every step of a run -/

/-- `P` holds in every state of the run, the first and the last included. -/
def Along (next : σ → ι → σ) (P : σ → Prop) : σ → List ι → Prop
  | s, [] => P s
  | s, op :: ops => P s ∧ Along next P (next s op) ops

/-- `C` holds of every step of the run: of the state before it and its label. -/
def Steps (next : σ → ι → σ) (C : σ → ι → Prop) : σ → List ι → Prop
  | _, [] => True
  | s, op :: ops => C s op ∧ Steps next C (next s op) ops

instance Steps.decidable {C : σ → ι → Prop} [∀ s op, Decidable (C s op)] :
    (s : σ) → (ops : List ι) → Decidable (Steps next C s ops)
  | _, [] => .isTrue trivial
  | s, op :: ops =>
      have := Steps.decidable (C := C) (next s op) ops
      inferInstanceAs (Decidable (C s op ∧ Steps next C (next s op) ops))

theorem Along.head {P : σ → Prop} {s : σ} {ops : List ι} (h : Along next P s ops) : P s := by
  cases ops with
  | nil => exact h
  | cons op ops => exact h.1

/-- A step that keeps `P` under `C`, in a run whose steps all meet `C`. -/
theorem along_of_steps {P : σ → Prop} {C : σ → ι → Prop}
    (hstep : ∀ s op, P s → C s op → P (next s op)) {s : σ} {ops : List ι} (h : P s)
    (hC : Steps next C s ops) : Along next P s ops := by
  induction ops generalizing s with
  | nil => exact h
  | cons op ops ih => exact ⟨h, ih (hstep s op h hC.1) hC.2⟩

/-- And so the run ends in `P`. -/
theorem run_of_steps {P : σ → Prop} {C : σ → ι → Prop}
    (hstep : ∀ s op, P s → C s op → P (next s op)) {s : σ} {ops : List ι} (h : P s)
    (hC : Steps next C s ops) : P (run next s ops) := by
  induction ops generalizing s with
  | nil => exact h
  | cons op ops ih => exact ih (hstep s op h hC.1) hC.2

/-- What such a step meets besides, every step of the run meets. -/
theorem steps_of_steps {P : σ → Prop} {C D : σ → ι → Prop}
    (hstep : ∀ s op, P s → C s op → P (next s op)) (hD : ∀ s op, P s → C s op → D s op) {s : σ}
    {ops : List ι} (h : P s) (hC : Steps next C s ops) : Steps next D s ops := by
  induction ops generalizing s with
  | nil => trivial
  | cons op ops ih => exact ⟨hD s op h hC.1, ih (hstep s op h hC.1) hC.2⟩

theorem steps_append {C : σ → ι → Prop} {s : σ} {ops ops' : List ι} :
    Steps next C s (ops ++ ops') ↔ Steps next C s ops ∧ Steps next C (run next s ops) ops' := by
  induction ops generalizing s with
  | nil => exact ⟨fun h => ⟨trivial, h⟩, fun h => h.2⟩
  | cons op ops ih =>
      rw [List.cons_append, Steps, Steps, run_cons, ih, and_assoc]

/-- Steps of a machine that carries more state are steps of the other. -/
theorem steps_map {τ : Type} {next' : τ → ι → τ} {f : τ → σ}
    (hf : ∀ t op, f (next' t op) = next (f t) op) {C : σ → ι → Prop} {t : τ} {ops : List ι}
    (h : Steps next' (fun t op => C (f t) op) t ops) : Steps next C (f t) ops := by
  induction ops generalizing t with
  | nil => trivial
  | cons op ops ih => exact ⟨h.1, hf t op ▸ ih h.2⟩

/-- Conversely, when a step that breaks `C` breaks `P`, a run along `P` has only
steps that meet `C`. -/
theorem steps_of_along {P : σ → Prop} {C : σ → ι → Prop}
    (hstep : ∀ s op, P s → P (next s op) → C s op) {s : σ} {ops : List ι}
    (h : Along next P s ops) : Steps next C s ops := by
  induction ops generalizing s with
  | nil => trivial
  | cons op ops ih => exact ⟨hstep s op h.1 h.2.head, ih h.2⟩

/-- `Along` is about every state the run passes through. -/
theorem along_iff {P : σ → Prop} {s : σ} {ops : List ι} :
    Along next P s ops ↔ ∀ pre post, ops = pre ++ post → P (run next s pre) := by
  induction ops generalizing s with
  | nil =>
      constructor
      · intro h pre post hsplit
        obtain ⟨rfl, rfl⟩ := List.nil_eq_append_iff.mp hsplit
        exact h
      · intro h
        exact h [] [] rfl
  | cons op ops ih =>
      constructor
      · intro h pre post hsplit
        cases pre with
        | nil => exact h.1
        | cons op' pre =>
            simp only [List.cons_append, List.cons.injEq] at hsplit
            obtain ⟨rfl, rfl⟩ := hsplit
            exact ih.mp h.2 pre post rfl
      · intro h
        refine ⟨h [] (op :: ops) rfl, ih.mpr ?_⟩
        intro pre post hsplit
        exact h (op :: pre) post (by rw [hsplit, List.cons_append])

/-- `Steps` is about every step of the run. -/
theorem steps_iff {C : σ → ι → Prop} {s : σ} {ops : List ι} :
    Steps next C s ops ↔ ∀ pre op post, ops = pre ++ op :: post → C (run next s pre) op := by
  induction ops generalizing s with
  | nil => simp [Steps]
  | cons op ops ih =>
      constructor
      · intro h pre op' post hsplit
        cases pre with
        | nil =>
            simp only [List.nil_append, List.cons.injEq] at hsplit
            obtain ⟨rfl, rfl⟩ := hsplit
            exact h.1
        | cons first pre =>
            simp only [List.cons_append, List.cons.injEq] at hsplit
            obtain ⟨rfl, rfl⟩ := hsplit
            exact ih.mp h.2 pre op' post rfl
      · intro h
        refine ⟨h [] op ops rfl, ih.mpr ?_⟩
        intro pre op' post hsplit
        exact h (op :: pre) op' post (by rw [hsplit, List.cons_append])

/-- Some step of the run meets `C`, given the state before it, its label and the
rest of the run. -/
def Sometime (next : σ → ι → σ) (C : σ → ι → List ι → Prop) : σ → List ι → Prop
  | _, [] => False
  | s, op :: ops => C s op ops ∨ Sometime next C (next s op) ops

/-! ## Counting along a run -/

/-- How many steps of the run satisfy `p`. -/
def tally (next : σ → ι → σ) (p : σ → ι → Bool) : σ → List ι → Nat
  | _, [] => 0
  | s, op :: ops => (p s op).toNat + tally next p (next s op) ops

@[simp] theorem tally_nil (p : σ → ι → Bool) (s : σ) : tally next p s [] = 0 := rfl

@[simp] theorem tally_cons (p : σ → ι → Bool) (s : σ) (op : ι) (ops : List ι) :
    tally next p s (op :: ops) = (p s op).toNat + tally next p (next s op) ops := rfl

/-- What only looks at the labels is counted in the labels. -/
theorem tally_label (p : ι → Bool) (s : σ) (ops : List ι) :
    tally next (fun _ op => p op) s ops = ops.countP p := by
  induction ops generalizing s with
  | nil => rfl
  | cons op ops ih =>
      rw [tally_cons, ih, List.countP_cons, Nat.add_comm]
      cases p op <;> rfl

/-- A quantity that each step raises by one when `p` and lowers by one when `q`
moves, over a run, by the difference of the two tallies.  `P` is what the steps
may use of the states they start from. -/
theorem run_measure {P : σ → Prop} {C : σ → ι → Prop} {p q : σ → ι → Bool} {f : σ → Int}
    (hP : ∀ s op, P s → P (next s op))
    (hf : ∀ s op, P s → C s op → f (next s op) = f s + (p s op).toNat - (q s op).toNat)
    {s : σ} {ops : List ι} (h : P s) (hC : Steps next C s ops) :
    f (run next s ops) = f s + tally next p s ops - tally next q s ops := by
  induction ops generalizing s with
  | nil => simp
  | cons op ops ih =>
      have hrest := ih (hP s op h) hC.2
      have hfirst := hf s op h hC.1
      simp only [run_cons, tally_cons, hrest, hfirst]
      omega

section Rank

variable {P : σ → Prop} {p : σ → ι → Bool} (rank : σ → Nat) {n : Nat}
  (hP : ∀ s op, P s → P (next s op)) (hmono : ∀ s op, P s → rank s ≤ rank (next s op))
  (hp : ∀ s op, P s → p s op = true → rank s = n ∧ rank (next s op) = n + 1)

include hP hmono hp

theorem tally_eq_zero_of_lt {s : σ} (h : P s) (hlt : n < rank s) (ops : List ι) :
    tally next p s ops = 0 := by
  induction ops generalizing s with
  | nil => rfl
  | cons op ops ih =>
      have hfirst : p s op = false := by
        by_contra htrue
        have hrank := (hp s op h (by simpa using htrue)).1
        omega
      rw [tally_cons, hfirst, ih (hP s op h) (Nat.lt_of_lt_of_le hlt (hmono s op h))]
      rfl

/-- When the steps that satisfy `p` take a rank from `n` to `n + 1`, and no step lowers it,
a run has at most one of them. -/
theorem tally_le_one {s : σ} (h : P s) (ops : List ι) : tally next p s ops ≤ 1 := by
  induction ops generalizing s with
  | nil => exact Nat.zero_le 1
  | cons op ops ih =>
      rw [tally_cons]
      cases hfirst : p s op with
      | false => simpa using ih (hP s op h)
      | true =>
          have hrank := (hp s op h hfirst).2
          rw [tally_eq_zero_of_lt rank hP hmono hp (hP s op h) (by omega)]
          exact Nat.le_refl 1

end Rank

/-- How many steps of the run satisfy `p`, from `n` on and from zero again after each
step that satisfies `reset`. -/
def tallySince (next : σ → ι → σ) (reset p : σ → ι → Bool) : σ → Nat → List ι → Nat
  | _, n, [] => n
  | s, n, op :: ops =>
      tallySince next reset p (next s op) (if reset s op then 0 else n + (p s op).toNat) ops

/-- A quantity that `reset` steps set to zero and other steps raise when `p` and lower
when `q` is, over a run, the difference of what the two count up to since the last
reset. -/
theorem run_measure_since {P : σ → Prop} {reset p q : σ → ι → Bool} {f : σ → Int}
    (hP : ∀ s op, P s → P (next s op))
    (hf : ∀ s op, P s →
      f (next s op) = if reset s op then 0 else f s + (p s op).toNat - (q s op).toNat)
    {s : σ} (h : P s) {n m : Nat} (hstart : f s = n - m) (ops : List ι) :
    f (run next s ops) = tallySince next reset p s n ops - tallySince next reset q s m ops := by
  induction ops generalizing s n m with
  | nil => exact hstart
  | cons op ops ih =>
      refine ih (hP s op h) ?_
      rw [hf s op h]
      by_cases hreset : reset s op = true
      · simp only [if_pos hreset]
        rfl
      · simp only [if_neg hreset]
        omega

/-! ## What a run hands out -/

/-- Everything the steps of the run put out, in order. -/
def emitted {β : Type} (next : σ → ι → σ) (out : σ → ι → List β) : σ → List ι → List β
  | _, [] => []
  | s, op :: ops => out s op ++ emitted next out (next s op) ops

theorem map_emitted {β γ : Type} (f : β → γ) (out : σ → ι → List β) (s : σ) (ops : List ι) :
    (emitted next out s ops).map f = emitted next (fun s op => (out s op).map f) s ops := by
  induction ops generalizing s with
  | nil => rfl
  | cons op ops ih => rw [emitted, List.map_append, ih, emitted]

/-- A machine whose steps put out runs of another: it leaves what the other leaves, and every
step of the other meets `C`.  `P` is what the steps may use of the states they start from. -/
theorem run_refines {τ κ : Type} {next' : τ → κ → τ} {out : σ → ι → List κ} {f : σ → τ}
    {P : σ → Prop} {C : τ → κ → Prop} (hP : ∀ s op, P s → P (next s op))
    (hstep : ∀ s op, P s →
      run next' (f s) (out s op) = f (next s op) ∧ Steps next' C (f s) (out s op))
    {s : σ} (h : P s) (ops : List ι) :
    run next' (f s) (emitted next out s ops) = f (run next s ops) ∧
      Steps next' C (f s) (emitted next out s ops) := by
  induction ops generalizing s with
  | nil => exact ⟨rfl, trivial⟩
  | cons op ops ih =>
      obtain ⟨hrun, hsteps⟩ := hstep s op h
      obtain ⟨hrun', hsteps'⟩ := ih (hP s op h)
      rw [emitted, run_append, hrun]
      exact ⟨hrun', steps_append.mpr ⟨hsteps, hrun ▸ hsteps'⟩⟩

/-- When every step puts out or keeps what was pending and what is fresh, a run has put
out or keeps everything there was. -/
theorem run_conserves {β : Type} (out : σ → ι → List β) (pending known : σ → List β)
    (hstep : ∀ s op, ∃ fresh, known (next s op) = known s ++ fresh ∧
      (out s op ++ pending (next s op)).Perm (pending s ++ fresh))
    {s : σ} {done : List β} (h : (done ++ pending s).Perm (known s)) (ops : List ι) :
    (done ++ emitted next out s ops ++ pending (run next s ops)).Perm (known (run next s ops)) := by
  induction ops generalizing s done with
  | nil => simpa [emitted] using h
  | cons op ops ih =>
      obtain ⟨fresh, hknown, hout⟩ := hstep s op
      have hnext : ((done ++ out s op) ++ pending (next s op)).Perm (known (next s op)) := by
        rw [List.append_assoc, hknown]
        refine (hout.append_left done).trans ?_
        rw [← List.append_assoc]
        exact h.append_right fresh
      have hrest := ih hnext
      rwa [List.append_assoc done] at hrest

end Run

end Drover.Foundation
