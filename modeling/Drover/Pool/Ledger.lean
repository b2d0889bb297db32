import Mathlib.Data.List.Perm.Basic
import Drover.Pool.Runner

set_option autoImplicit false

/-!
# Who holds which claim

An abstract view of the pool that forgets which goroutine does what.  The ledger
lists the claims somebody holds, each at the stage it has reached, next to the
inflight set that is meant to mirror them.  `Move` says once what a step of the pool
can do to it; the invariants of the ledger are proved from `Move` alone, and the
goroutines only have to be shown to make such moves.

Two claims of one job may be held at a time: a worker can be slow to leave a job that
somebody else has put back.  The inflight set has room for one of them, so what it
says about a job depends on the order in which the two are added and removed.
-/

namespace Drover.Pool

open Drover.Foundation
open Drover.Driver

/-- How far a held claim has come. -/
inductive Stage where
  /-- returned by `FetchAvailable`, not yet added to the inflight set -/
  | claimed
  /-- added by `claimRound`, not yet taken up by `runJob` -/
  | tracked
  /-- added again by `runJob` -/
  | running
  /-- its outcome or its hand-back has been written, its entry not yet removed -/
  | past
  deriving DecidableEq, Repr

/-- The claims of a pool, and the inflight set that mirrors them. -/
structure Ledger where
  claims : List Claim
  latest : Int → Option Nat
  held : List (Claim × Stage)
  inflight : Inflight
  ended : List Nat

/-- An answer of `FetchAvailable`: claims numbered from `first` on, of different jobs. -/
structure Answer (first : Nat) (answer : List Claim) : Prop where
  low : ∀ c ∈ answer, first ≤ c.ref
  high : ∀ c ∈ answer, c.ref < first + answer.length
  refs : (answer.map Claim.ref).Nodup
  jobs : (answer.map fun c => c.row.id).Nodup

/-- What one step of the pool can do to the ledger. -/
inductive Move (answer : List Claim) (l l' : Ledger) : Prop
  /-- nothing, except that somebody else may have claimed a job, or a shutdown handed a
  lease back -/
  | stay (hclaims : l'.claims = l.claims)
      (hlatest : ∀ id ref, l'.latest id = some ref → l.latest id = some ref)
      (hheld : l'.held.Perm l.held)
      (hinflight : l'.inflight = l.inflight) (hended : l.ended ⊆ l'.ended)
  /-- `FetchAvailable` returns -/
  | claim (hanswer : Answer l.claims.length answer) (hclaims : l'.claims = l.claims ++ answer)
      (hlatest : ∀ id ref, l'.latest id = some ref →
        (∃ c ∈ answer, c.row.id = id ∧ c.ref = ref) ∨
          (l.latest id = some ref ∧ ∀ c ∈ answer, c.row.id ≠ id))
      (hheld : l'.held.Perm (answer.map (·, Stage.claimed) ++ l.held))
      (hinflight : l'.inflight = l.inflight) (hended : l'.ended = l.ended)
  /-- `inflight.add` -/
  | add (c : Claim) (old new : Stage) (rest : List (Claim × Stage))
      (hold : old = .claimed ∨ old = .tracked) (hnew : new = .tracked ∨ new = .running)
      (hclaims : l'.claims = l.claims) (hlatest : l'.latest = l.latest)
      (hheld : l.held.Perm ((c, old) :: rest)) (hheld' : l'.held.Perm ((c, new) :: rest))
      (hinflight : l'.inflight = l.inflight.add c.lease) (hended : l'.ended = l.ended)
  /-- the write that ends the attempt or hands it back -/
  | finish (c : Claim) (old : Stage) (rest : List (Claim × Stage))
      (hold : old = .tracked ∨ old = .running) (hclaims : l'.claims = l.claims)
      (hlatest : l'.latest = l.latest) (hheld : l.held.Perm ((c, old) :: rest))
      (hheld' : l'.held.Perm ((c, .past) :: rest)) (hinflight : l'.inflight = l.inflight)
      (hended : l'.ended = c.ref :: l.ended)
  /-- `inflight.remove` -/
  | remove (c : Claim) (rest : List (Claim × Stage)) (hclaims : l'.claims = l.claims)
      (hlatest : l'.latest = l.latest) (hheld : l.held.Perm ((c, .past) :: rest))
      (hheld' : l'.held.Perm rest)
      (hinflight : l'.inflight = l.inflight.remove c.lease) (hended : l'.ended = l.ended)

/-! ## Accounting -/

/-- Every claim ever returned is held once or has ended. -/
structure Ledger.Accounted (l : Ledger) : Prop where
  numbered : ∀ c ∈ l.claims, c.ref < l.claims.length
  last : ∀ id ref, l.latest id = some ref → ∀ b ∈ l.claims, b.row.id = id → b.ref ≤ ref
  refs : (l.held.map fun x => x.1.ref).Nodup
  known : ∀ x ∈ l.held, x.1 ∈ l.claims
  settled : ∀ c ∈ l.claims, c.ref ∈ l.ended ∨ ∃ st, (c, st) ∈ l.held ∧ st ≠ .past

theorem Ledger.Accounted.unique {l : Ledger} (h : l.Accounted) {x y : Claim × Stage}
    (hx : x ∈ l.held) (hy : y ∈ l.held) (href : x.1.ref = y.1.ref) : x = y :=
  List.inj_on_of_nodup_map h.refs hx hy href

/-- A step that replaces one entry by another of the same claim keeps the numbers apart. -/
theorem refs_replace {held held' rest : List (Claim × Stage)} {c : Claim} {old new : Stage}
    (h : (held.map fun x => x.1.ref).Nodup) (hheld : held.Perm ((c, old) :: rest))
    (hheld' : held'.Perm ((c, new) :: rest)) : (held'.map fun x => x.1.ref).Nodup := by
  have hold := (hheld.map fun x => x.1.ref).nodup_iff.mp h
  exact (hheld'.map fun x => x.1.ref).nodup_iff.mpr hold

theorem Ledger.Accounted.replace {l l' : Ledger} (h : l.Accounted) {c : Claim} {old new : Stage}
    {rest : List (Claim × Stage)} (hclaims : l'.claims = l.claims)
    (hlatest : l'.latest = l.latest) (hheld : l.held.Perm ((c, old) :: rest))
    (hheld' : l'.held.Perm ((c, new) :: rest)) (hended : l.ended ⊆ l'.ended)
    (hnew : new ≠ .past ∨ c.ref ∈ l'.ended) : l'.Accounted := by
  refine ⟨by rw [hclaims]; exact h.numbered, by rw [hclaims, hlatest]; exact h.last,
    refs_replace h.refs hheld hheld', ?_, ?_⟩
  · intro x hx
    rw [hclaims]
    rcases List.mem_cons.mp (hheld'.mem_iff.mp hx) with rfl | hrest
    · exact h.known (c, old) (hheld.mem_iff.mpr List.mem_cons_self)
    · exact h.known x (hheld.mem_iff.mpr (List.mem_cons_of_mem _ hrest))
  · intro b hb
    rw [hclaims] at hb
    rcases h.settled b hb with hb | ⟨st, hst, hne⟩
    · exact Or.inl (hended hb)
    rcases List.mem_cons.mp (hheld.mem_iff.mp hst) with heq | hrest
    · have hbc : b = c := congrArg Prod.fst heq
      subst hbc
      rcases hnew with hnew | hnew
      · exact Or.inr ⟨new, hheld'.mem_iff.mpr List.mem_cons_self, hnew⟩
      · exact Or.inl hnew
    · exact Or.inr ⟨st, hheld'.mem_iff.mpr (List.mem_cons_of_mem _ hrest), hne⟩

/-- New claims are numbered above all old ones, and are held. -/
theorem Ledger.Accounted.claim {answer : List Claim} {l l' : Ledger} (h : l.Accounted)
    (hanswer : Answer l.claims.length answer) (hclaims : l'.claims = l.claims ++ answer)
    (hlatest : ∀ id ref, l'.latest id = some ref →
      (∃ c ∈ answer, c.row.id = id ∧ c.ref = ref) ∨
        (l.latest id = some ref ∧ ∀ c ∈ answer, c.row.id ≠ id))
    (hheld : l'.held.Perm (answer.map (·, Stage.claimed) ++ l.held))
    (hended : l'.ended = l.ended) : l'.Accounted := by
  constructor
  case numbered =>
    intro c hc
    rw [hclaims] at hc ⊢
    rw [List.length_append]
    rcases List.mem_append.mp hc with hc | hc
    · have hlt := h.numbered c hc
      omega
    · exact hanswer.high c hc
  case last =>
    intro id ref href b hb hid
    rw [hclaims] at hb
    rcases hlatest id ref href with ⟨c, hc, hcid, rfl⟩ | ⟨hold, hnone⟩
    · rcases List.mem_append.mp hb with hb | hb
      · have hnumber := h.numbered b hb
        have hlow := hanswer.low c hc
        omega
      · have hsame : b = c :=
          List.inj_on_of_nodup_map hanswer.jobs hb hc (hid.trans hcid.symm)
        rw [hsame]
    · rcases List.mem_append.mp hb with hb | hb
      · exact h.last id ref hold b hb hid
      · exact absurd hid (hnone b hb)
  case refs =>
    rw [(hheld.map _).nodup_iff, List.map_append, List.map_map, List.nodup_append]
    refine ⟨hanswer.refs, h.refs, ?_⟩
    intro a ha b hb hab
    obtain ⟨c, hc, rfl⟩ := List.mem_map.mp ha
    obtain ⟨x, hx, rfl⟩ := List.mem_map.mp hb
    have hlow := hanswer.low c hc
    have hold := h.numbered x.1 (h.known x hx)
    simp only [Function.comp_apply] at hab
    omega
  case known =>
    intro x hx
    rw [hclaims]
    rcases List.mem_append.mp (hheld.mem_iff.mp hx) with hx | hx
    · obtain ⟨c, hc, rfl⟩ := List.mem_map.mp hx
      exact List.mem_append_right _ hc
    · exact List.mem_append_left _ (h.known x hx)
  case settled =>
    intro c hc
    rw [hclaims] at hc
    rw [hended]
    rcases List.mem_append.mp hc with hc | hc
    · rcases h.settled c hc with hc | ⟨st, hst, hne⟩
      · exact Or.inl hc
      · exact Or.inr ⟨st, hheld.mem_iff.mpr (List.mem_append_right _ hst), hne⟩
    · exact Or.inr ⟨.claimed, hheld.mem_iff.mpr (List.mem_append_left _
        (List.mem_map.mpr ⟨c, hc, rfl⟩)), by decide⟩

/-- An entry that has ended may be dropped. -/
theorem Ledger.Accounted.remove {l l' : Ledger} (h : l.Accounted) {c : Claim}
    {rest : List (Claim × Stage)} (hclaims : l'.claims = l.claims)
    (hlatest : l'.latest = l.latest) (hheld : l.held.Perm ((c, .past) :: rest))
    (hheld' : l'.held.Perm rest) (hended : l'.ended = l.ended) : l'.Accounted := by
  refine ⟨by rw [hclaims]; exact h.numbered, by rw [hclaims, hlatest]; exact h.last, ?_, ?_, ?_⟩
  · have hrefs := (hheld.map fun x => x.1.ref).nodup_iff.mp h.refs
    rw [(hheld'.map _).nodup_iff]
    exact (List.nodup_cons.mp hrefs).2
  · intro x hx
    rw [hclaims]
    exact h.known x (hheld.mem_iff.mpr (List.mem_cons_of_mem _ (hheld'.mem_iff.mp hx)))
  · intro b hb
    rw [hclaims] at hb
    rw [hended]
    rcases h.settled b hb with hb | ⟨st, hst, hne⟩
    · exact Or.inl hb
    rcases List.mem_cons.mp (hheld.mem_iff.mp hst) with heq | hrest
    · exact absurd (congrArg Prod.snd heq) hne
    · exact Or.inr ⟨st, hheld'.mem_iff.mpr hrest, hne⟩

/-- Every move keeps the accounts. -/
theorem Ledger.Accounted.move {answer : List Claim} {l l' : Ledger} (h : l.Accounted)
    (hmove : Move answer l l') : l'.Accounted := by
  cases hmove with
  | stay hclaims hlatest hheld hinflight hended =>
      refine ⟨by rw [hclaims]; exact h.numbered, ?_, (hheld.map _).nodup_iff.mpr h.refs, ?_, ?_⟩
      · intro id ref href
        rw [hclaims]
        exact h.last id ref (hlatest id ref href)
      · intro x hx
        rw [hclaims]
        exact h.known x (hheld.mem_iff.mp hx)
      · intro c hc
        rw [hclaims] at hc
        rcases h.settled c hc with hc | ⟨st, hst, hne⟩
        · exact Or.inl (hended hc)
        · exact Or.inr ⟨st, hheld.mem_iff.mpr hst, hne⟩
  | claim hanswer hclaims hlatest hheld hinflight hended =>
      exact h.claim hanswer hclaims hlatest hheld hended
  | add c old new rest hold hnew hclaims hlatest hheld hheld' hinflight hended =>
      refine h.replace hclaims hlatest hheld hheld' (by rw [hended]; exact List.Subset.refl _)
        (Or.inl ?_)
      rcases hnew with rfl | rfl <;> decide
  | finish c old rest hold hclaims hlatest hheld hheld' hinflight hended =>
      refine h.replace hclaims hlatest hheld hheld' ?_ (Or.inr ?_)
      · rw [hended]
        exact List.subset_cons_self _ _
      · rw [hended]
        exact List.mem_cons_self
  | remove c rest hclaims hlatest hheld hheld' hinflight hended =>
      exact h.remove hclaims hlatest hheld hheld' hended

/-! ## The inflight set as a mirror -/

theorem Inflight.get?_add (s : Inflight) (lease : Lease) (id : Int) :
    (s.add lease).get? id = if lease.id = id then some lease else s.get? id :=
  Table.get?_put s lease id

theorem Inflight.get?_remove (s : Inflight) (lease : Lease) (id : Int) :
    (s.remove lease).get? id = if s.get? id = some lease then none else s.get? id := by
  unfold Inflight.remove
  by_cases hid : id = lease.id
  · subst hid
    cases hget : s.get? lease.id with
    | none => simp [hget]
    | some held =>
        have hkey : held.id = lease.id := Table.key_of_get? hget
        simp only
        by_cases hattempt : held.attempt = lease.attempt
        · have hsame : held = lease := by
            cases held
            cases lease
            simp_all
          rw [if_pos hattempt, hsame, if_pos rfl, Table.get?_erase, if_pos rfl]
        · have hother : some held ≠ some lease := by
            intro heq
            cases heq
            exact hattempt rfl
          rw [if_neg hattempt, if_neg hother, hget]
  · have hother : s.get? id ≠ some lease := fun heq => hid (Table.key_of_get? heq).symm
    rw [if_neg hother]
    split
    · split
      · rw [Table.get?_erase, if_neg hid]
      · rfl
    · rfl

theorem Inflight.mem_snapshot {s : Inflight} {lease : Lease} :
    lease ∈ s.snapshot ↔ s.get? lease.id = some lease := by
  rw [Inflight.snapshot, List.mem_insertionSort, Table.get?_eq_some_iff]
  simp

/-- No later claim of the job has been returned to this client. -/
def Ledger.Newest (l : Ledger) (c : Claim) : Prop :=
  ∀ b ∈ l.claims, b.row.id = c.row.id → b.ref ≤ c.ref

theorem newest_of_claims {l l' : Ledger} (hclaims : l'.claims = l.claims) {c : Claim}
    (h : l.Newest c) : l'.Newest c := by
  unfold Ledger.Newest
  rw [hclaims]
  exact h

/-- Every earlier claim of the job that is still held has been taken up by `runJob`, so
it will not be added again, and is on another attempt, so its removal does not touch
this one. -/
def Ledger.Clear (l : Ledger) (row : JobRow) : Prop :=
  ∀ x ∈ l.held, x.1.row.id = row.id →
    (x.2 = .running ∨ x.2 = .past) ∧ x.1.row.attempt ≠ row.attempt

/-- The inflight set shows the newest claim of each job. -/
structure Ledger.Mirrored (l : Ledger) : Prop where
  ordered : ∀ x ∈ l.held, ∀ y ∈ l.held, x.1.row.id = y.1.row.id → x.1.ref < y.1.ref →
    (x.2 = .running ∨ x.2 = .past) ∧ x.1.row.attempt ≠ y.1.row.attempt
  shown : ∀ x ∈ l.held, x.2 = .tracked ∨ x.2 = .running → l.Newest x.1 →
    l.inflight.get? x.1.row.id = some x.1.lease

/-- Every entry of `l'` was one of `l` for the same claim, and no stage went back. -/
def Advances (l l' : Ledger) : Prop :=
  ∀ y ∈ l'.held, ∃ x ∈ l.held, x.1 = y.1 ∧
    (x.2 = .running ∨ x.2 = .past → y.2 = .running ∨ y.2 = .past)

theorem Advances.ordered {l l' : Ledger} (h : Advances l l') (hm : l.Mirrored) :
    ∀ x ∈ l'.held, ∀ y ∈ l'.held, x.1.row.id = y.1.row.id → x.1.ref < y.1.ref →
      (x.2 = .running ∨ x.2 = .past) ∧ x.1.row.attempt ≠ y.1.row.attempt := by
  intro x hx y hy hid hlt
  obtain ⟨x', hx', hxeq, hstage⟩ := h x hx
  obtain ⟨y', hy', hyeq, -⟩ := h y hy
  rw [← hxeq, ← hyeq] at hid hlt ⊢
  obtain ⟨hstarted, hattempt⟩ := hm.ordered x' hx' y' hy' hid hlt
  exact ⟨hstage hstarted, hattempt⟩

theorem advances_replace {l l' : Ledger} {c : Claim} {old new : Stage}
    {rest : List (Claim × Stage)} (hheld : l.held.Perm ((c, old) :: rest))
    (hheld' : l'.held.Perm ((c, new) :: rest))
    (hstage : old = .running ∨ old = .past → new = .running ∨ new = .past) : Advances l l' := by
  intro y hy
  rcases List.mem_cons.mp (hheld'.mem_iff.mp hy) with rfl | hrest
  · exact ⟨(c, old), hheld.mem_iff.mpr List.mem_cons_self, rfl, hstage⟩
  · exact ⟨y, hheld.mem_iff.mpr (List.mem_cons_of_mem _ hrest), rfl, id⟩

/-- Among the entries next to `c`, one that is newest and of the same job is younger. -/
theorem ref_lt_of_newest {l : Ledger} (h : l.Accounted) {c : Claim} {old : Stage}
    {rest : List (Claim × Stage)} (hheld : l.held.Perm ((c, old) :: rest)) {y : Claim × Stage}
    (hy : y ∈ rest) (hid : c.row.id = y.1.row.id) (hnewest : l.Newest y.1) : c.ref < y.1.ref := by
  have hc : c ∈ l.claims := h.known (c, old) (hheld.mem_iff.mpr List.mem_cons_self)
  have hle := hnewest c hc hid
  have hrefs := (hheld.map fun x => x.1.ref).nodup_iff.mp h.refs
  have hne : c.ref ≠ y.1.ref := by
    intro heq
    exact (List.nodup_cons.mp hrefs).1 (List.mem_map.mpr ⟨y, hy, heq.symm⟩)
  omega

/-- New claims are not shown yet; those they will replace have been taken up. -/
theorem Ledger.Mirrored.claim {answer : List Claim} {l l' : Ledger} (h : l.Accounted)
    (hm : l.Mirrored) (hanswer : Answer l.claims.length answer)
    (hclear : ∀ c ∈ answer, l.Clear c.row) (hclaims : l'.claims = l.claims ++ answer)
    (hheld : l'.held.Perm (answer.map (·, Stage.claimed) ++ l.held))
    (hinflight : l'.inflight = l.inflight) : l'.Mirrored := by
  constructor
  case ordered =>
    intro x hx y hy hid hlt
    rcases List.mem_append.mp (hheld.mem_iff.mp hx) with hx | hx
    · -- nothing is younger than a new claim but another new claim, of another job
      obtain ⟨c, hc, rfl⟩ := List.mem_map.mp hx
      have hlow := hanswer.low c hc
      rcases List.mem_append.mp (hheld.mem_iff.mp hy) with hy | hy
      · obtain ⟨b, hb, rfl⟩ := List.mem_map.mp hy
        have hsame : c = b := List.inj_on_of_nodup_map hanswer.jobs hc hb hid
        subst hsame
        exact absurd hlt (lt_irrefl _)
      · have hknown := h.numbered y.1 (h.known y hy)
        simp only at hlt
        omega
    · rcases List.mem_append.mp (hheld.mem_iff.mp hy) with hy | hy
      · obtain ⟨b, hb, rfl⟩ := List.mem_map.mp hy
        exact hclear b hb x hx hid
      · exact hm.ordered x hx y hy hid hlt
  case shown =>
    intro x hx hstage hnewest
    rw [hinflight]
    rcases List.mem_append.mp (hheld.mem_iff.mp hx) with hx | hx
    · obtain ⟨c, hc, rfl⟩ := List.mem_map.mp hx
      rcases hstage with hstage | hstage <;> cases hstage
    · refine hm.shown x hx hstage fun b hb hid => hnewest b ?_ hid
      rw [hclaims]
      exact List.mem_append_left _ hb

/-- `inflight.add` shows its claim and hides no other. -/
theorem Ledger.Mirrored.add {l l' : Ledger} (h : l.Accounted) (hm : l.Mirrored) {c : Claim}
    {old new : Stage} {rest : List (Claim × Stage)} (hold : old = .claimed ∨ old = .tracked)
    (hclaims : l'.claims = l.claims) (hheld : l.held.Perm ((c, old) :: rest))
    (hheld' : l'.held.Perm ((c, new) :: rest)) (hinflight : l'.inflight = l.inflight.add c.lease) :
    l'.Mirrored := by
  have hfresh : ¬(old = .running ∨ old = .past) := by
    rcases hold with rfl | rfl <;> decide
  refine ⟨Advances.ordered (advances_replace hheld hheld' fun hs => absurd hs hfresh) hm, ?_⟩
  intro y hy hstage hnewest
  rw [hinflight, Inflight.get?_add]
  rcases List.mem_cons.mp (hheld'.mem_iff.mp hy) with rfl | hrest
  · exact if_pos rfl
  · have hnewest' := newest_of_claims hclaims.symm hnewest
    have hy' : y ∈ l.held := hheld.mem_iff.mpr (List.mem_cons_of_mem _ hrest)
    have hc' : (c, old) ∈ l.held := hheld.mem_iff.mpr List.mem_cons_self
    -- an entry that is still to be added has nothing younger beside it
    have hother : c.lease.id ≠ y.1.row.id := fun hid =>
      hfresh (hm.ordered _ hc' y hy' hid (ref_lt_of_newest h hheld hrest hid hnewest')).1
    rw [if_neg hother]
    exact hm.shown y hy' hstage hnewest'

/-- The guard of `inflight.remove` spares a younger claim, whose attempt is another one. -/
theorem Ledger.Mirrored.remove {l l' : Ledger} (h : l.Accounted) (hm : l.Mirrored) {c : Claim}
    {rest : List (Claim × Stage)} (hclaims : l'.claims = l.claims)
    (hheld : l.held.Perm ((c, .past) :: rest)) (hheld' : l'.held.Perm rest)
    (hinflight : l'.inflight = l.inflight.remove c.lease) : l'.Mirrored := by
  have hmem : ∀ y ∈ l'.held, y ∈ l.held := fun y hy =>
    hheld.mem_iff.mpr (List.mem_cons_of_mem _ (hheld'.mem_iff.mp hy))
  refine ⟨Advances.ordered (fun y hy => ⟨y, hmem y hy, rfl, id⟩) hm, ?_⟩
  intro y hy hstage hnewest
  have hnewest' := newest_of_claims hclaims.symm hnewest
  have hshown := hm.shown y (hmem y hy) hstage hnewest'
  have hc' : (c, .past) ∈ l.held := hheld.mem_iff.mpr List.mem_cons_self
  have hother : l.inflight.get? y.1.row.id ≠ some c.lease := by
    intro heq
    rw [hshown] at heq
    have hlease : y.1.lease = c.lease := Option.some.inj heq
    have hid : c.row.id = y.1.row.id := (congrArg Lease.id hlease).symm
    have hlt := ref_lt_of_newest h hheld (hheld'.mem_iff.mp hy) hid hnewest'
    exact (hm.ordered _ hc' y (hmem y hy) hid hlt).2 (congrArg Lease.attempt hlease).symm
  rw [hinflight, Inflight.get?_remove, if_neg hother]
  exact hshown

/-- A move whose answer is clear of what is held keeps the mirror. -/
theorem Ledger.Mirrored.move {answer : List Claim} {l l' : Ledger} (h : l.Accounted)
    (hm : l.Mirrored) (hmove : Move answer l l') (hclear : ∀ c ∈ answer, l.Clear c.row) :
    l'.Mirrored := by
  cases hmove with
  | stay hclaims hlatest hheld hinflight hended =>
      refine ⟨Advances.ordered (fun y hy => ⟨y, hheld.mem_iff.mp hy, rfl, id⟩) hm, ?_⟩
      intro x hx hstage hnewest
      rw [hinflight]
      exact hm.shown x (hheld.mem_iff.mp hx) hstage (newest_of_claims hclaims.symm hnewest)
  | claim hanswer hclaims hlatest hheld hinflight hended =>
      exact hm.claim h hanswer hclear hclaims hheld hinflight
  | add c old new rest hold hnew hclaims hlatest hheld hheld' hinflight hended =>
      exact hm.add h hold hclaims hheld hheld' hinflight
  | finish c old rest hold hclaims hlatest hheld hheld' hinflight hended =>
      refine ⟨Advances.ordered (advances_replace hheld hheld' fun _ => Or.inr rfl) hm, ?_⟩
      intro y hy hstage hnewest
      rw [hinflight]
      rcases List.mem_cons.mp (hheld'.mem_iff.mp hy) with rfl | hrest
      · rcases hstage with hstage | hstage <;> cases hstage
      · exact hm.shown y (hheld.mem_iff.mpr (List.mem_cons_of_mem _ hrest)) hstage
          (newest_of_claims hclaims.symm hnewest)
  | remove c rest hclaims hlatest hheld hheld' hinflight hended =>
      exact hm.remove h hclaims hheld hheld' hinflight

/-! ## Nothing left -/

/-- Every earlier claim of the job that is still held has ended and is on another
attempt. -/
def Ledger.Lone (l : Ledger) (row : JobRow) : Prop :=
  ∀ x ∈ l.held, x.1.row.id = row.id → x.2 = .past ∧ x.1.row.attempt ≠ row.attempt

theorem Ledger.Lone.clear {l : Ledger} {row : JobRow} (h : l.Lone row) : l.Clear row :=
  fun x hx hid => ⟨Or.inr (h x hx hid).1, (h x hx hid).2⟩

/-- Every held claim that has not ended is the newest of its job. -/
def Ledger.Current (l : Ledger) : Prop := ∀ x ∈ l.held, x.2 ≠ .past → l.Newest x.1

theorem Ledger.Current.replace {l l' : Ledger} (h : l.Current) {c : Claim} {old new : Stage}
    {rest : List (Claim × Stage)} (hclaims : l'.claims = l.claims)
    (hheld : l.held.Perm ((c, old) :: rest)) (hheld' : l'.held.Perm ((c, new) :: rest))
    (hold : old ≠ .past) : l'.Current := by
  intro y hy hpast
  apply newest_of_claims hclaims
  rcases List.mem_cons.mp (hheld'.mem_iff.mp hy) with rfl | hrest
  · exact h (c, old) (hheld.mem_iff.mpr List.mem_cons_self) hold
  · exact h y (hheld.mem_iff.mpr (List.mem_cons_of_mem _ hrest)) hpast

/-- A move whose answer stands alone keeps the held claims current. -/
theorem Ledger.Current.move {answer : List Claim} {l l' : Ledger} (h : l.Accounted)
    (hc : l.Current) (hmove : Move answer l l') (hlone : ∀ c ∈ answer, l.Lone c.row) :
    l'.Current := by
  cases hmove with
  | stay hclaims hlatest hheld hinflight hended =>
      exact fun x hx hpast => newest_of_claims hclaims (hc x (hheld.mem_iff.mp hx) hpast)
  | claim hanswer hclaims hlatest hheld hinflight hended =>
      intro x hx hpast b hb hid
      rw [hclaims] at hb
      rcases List.mem_append.mp (hheld.mem_iff.mp hx) with hx | hx
      · obtain ⟨c, hmem, rfl⟩ := List.mem_map.mp hx
        rcases List.mem_append.mp hb with hb | hb
        · have hnumber := h.numbered b hb
          have hlow := hanswer.low c hmem
          simp only
          omega
        · have hsame : b = c := List.inj_on_of_nodup_map hanswer.jobs hb hmem hid
          rw [hsame]
      · rcases List.mem_append.mp hb with hb | hb
        · exact hc x hx hpast b hb hid
        · exact absurd (hlone b hb x hx hid.symm).1 hpast
  | add c old new rest hold hnew hclaims hlatest hheld hheld' hinflight hended =>
      exact hc.replace hclaims hheld hheld' (by rcases hold with rfl | rfl <;> decide)
  | finish c old rest hold hclaims hlatest hheld hheld' hinflight hended =>
      exact hc.replace hclaims hheld hheld' (by rcases hold with rfl | rfl <;> decide)
  | remove c rest hclaims hlatest hheld hheld' hinflight hended =>
      intro x hx hpast
      have hmem := hheld.mem_iff.mpr (List.mem_cons_of_mem _ (hheld'.mem_iff.mp hx))
      exact newest_of_claims hclaims (hc x hmem hpast)

/-- Whatever is still held has ended. -/
def Ledger.Settled (l : Ledger) : Prop := ∀ x ∈ l.held, x.2 = .past

theorem Ledger.Settled.ended {l : Ledger} (h : l.Accounted) (hs : l.Settled) :
    ∀ c ∈ l.claims, c.ref ∈ l.ended := by
  intro c hc
  rcases h.settled c hc with hended | ⟨st, hst, hpast⟩
  · exact hended
  · exact absurd (hs (c, st) hst) hpast

/-- Without a new claim, what has ended stays so. -/
theorem Ledger.Settled.move {l l' : Ledger} (hs : l.Settled) (hmove : Move [] l l') :
    l'.Settled := by
  cases hmove with
  | stay hclaims hlatest hheld hinflight hended => exact fun x hx => hs x (hheld.mem_iff.mp hx)
  | claim hanswer hclaims hlatest hheld hinflight hended =>
      exact fun x hx => hs x (hheld.mem_iff.mp hx)
  | add c old new rest hold hnew hclaims hlatest hheld hheld' hinflight hended =>
      have hpast : old = .past := hs (c, old) (hheld.mem_iff.mpr List.mem_cons_self)
      rcases hold with rfl | rfl <;> cases hpast
  | finish c old rest hold hclaims hlatest hheld hheld' hinflight hended =>
      have hpast : old = .past := hs (c, old) (hheld.mem_iff.mpr List.mem_cons_self)
      rcases hold with rfl | rfl <;> cases hpast
  | remove c rest hclaims hlatest hheld hheld' hinflight hended =>
      exact fun x hx => hs x (hheld.mem_iff.mpr (List.mem_cons_of_mem _ (hheld'.mem_iff.mp hx)))

/-- An empty inflight set means that everything has ended, when every held claim is
registered. -/
theorem settled_of_empty {l : Ledger} (hm : l.Mirrored) (hc : l.Current)
    (hempty : l.inflight.snapshot = []) (hregistered : ∀ x ∈ l.held, x.2 ≠ .claimed) :
    l.Settled := by
  intro x hx
  by_contra hpast
  have hstage : x.2 = .tracked ∨ x.2 = .running := by
    cases hst : x.2 with
    | claimed => exact absurd hst (hregistered x hx)
    | tracked => exact Or.inl rfl
    | running => exact Or.inr rfl
    | past => exact absurd hst hpast
  have hmem : x.1.lease ∈ l.inflight.snapshot :=
    Inflight.mem_snapshot.mpr (hm.shown x hx hstage (hc x hx hpast))
  rw [hempty] at hmem
  exact absurd hmem List.not_mem_nil

end Drover.Pool
