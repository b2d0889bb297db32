import Drover.Foundation.Run
import Drover.Foundation.Table

set_option autoImplicit false

/-!
# `FOR UPDATE SKIP LOCKED`

A statement that claims rows reads a snapshot of the table in order and takes the rows one
by one.  A row that another transaction has locked it passes over; a row it locks it reads
again, since the snapshot may be old, and passes over if the row does not match any more.
When it has enough it updates what it has and commits, and only then do the locks go.

The machine has a lock table, and for each transaction what it is doing.  Besides claims
there are transactions that lock rows, write them and insert others.  The step that counts
is the commit: seen from there the table changes in one piece (`run_claims`), although
many statements are under way at any time.

Nothing in this file names a particular program.
-/

namespace Drover.Foundation

variable {α κ : Type} [DecidableEq κ] {key : α → κ}

/-- `UPDATE ... SET set WHERE id IN (SELECT id WHERE keep ORDER BY order LIMIT limit FOR UPDATE
SKIP LOCKED)`. -/
structure Claim (key : α → κ) where
  keep : α → Bool
  order : List α → List α
  limit : Nat
  set : α → α
  perm : ∀ rows, (order rows).Perm rows
  key_set : ∀ row, key (set row) = key row

/-- The rows of a table a claim finds, in its order. -/
def Claim.found (c : Claim key) (t : Table key) : List α := c.order (t.rows.filter c.keep)

/-- The table after a claim of the given rows. -/
def Claim.apply (c : Claim key) (t : Table key) (keys : List κ) : Table key :=
  t.updateWhere (fun row => key row ∈ keys) c.set c.key_set

theorem Claim.get?_apply (c : Claim key) (t : Table key) (keys : List κ) (k : κ) :
    (c.apply t keys).get? k = (t.get? k).map fun row => if k ∈ keys then c.set row else row := by
  rw [Claim.apply, Table.get?_updateWhere]
  cases hrow : t.get? k with
  | none => rfl
  | some row => simp [show key row = k from Table.key_of_get? hrow]

namespace SkipLocked

variable {γ : Type}

/-- What a transaction is doing. -/
inductive Tx (key : α → κ) (γ : Type) where
  | idle
  /-- a claim has these rows of its snapshot left to look at, and holds those -/
  | scanning (claim : γ) (todo : List α) (got : List κ)
  /-- anything else that writes -/
  | writing

/-- The table, the owner of each lock, and the transactions. -/
structure World (key : α → κ) (γ : Type) where
  table : Table key
  owner : κ → Option Nat
  tx : Nat → Tx key γ

/-- A table that nobody is using. -/
def World.quiet (t : Table key) : World key γ := ⟨t, fun _ => none, fun _ => .idle⟩

/-- What can happen next to transaction `n`. -/
inductive Label (α κ γ : Type) where
  /-- the claim takes its snapshot -/
  | begin (n : Nat) (claim : γ)
  /-- the claim looks at the next row -/
  | look (n : Nat)
  /-- the claim has enough, updates its rows and commits -/
  | finish (n : Nat)
  /-- another transaction begins -/
  | open_ (n : Nat)
  /-- and locks a row -/
  | lock (n : Nat) (k : κ)
  /-- writes rows it has locked, inserts others, and commits -/
  | close (n : Nat) (rows : List α)
  /-- the transaction fails or is given up -/
  | abort (n : Nat)

def World.set (w : World key γ) (n : Nat) (tx : Tx key γ) : World key γ :=
  { w with tx := fun m => if m = n then tx else w.tx m }

omit [DecidableEq κ] in
@[simp] theorem World.tx_set_self (w : World key γ) (n : Nat) (tx : Tx key γ) :
    (w.set n tx).tx n = tx := if_pos rfl

omit [DecidableEq κ] in
theorem World.tx_set_of_ne {w : World key γ} {m n : Nat} {tx : Tx key γ} (h : m ≠ n) :
    (w.set n tx).tx m = w.tx m := if_neg h

/-- The end of a transaction gives its locks back. -/
def World.release (w : World key γ) (n : Nat) : World key γ :=
  { w.set n .idle with owner := fun k => if w.owner k = some n then none else w.owner k }

def World.acquire (w : World key γ) (n : Nat) (k : κ) : World key γ :=
  { w with owner := fun k' => if k' = k then some n else w.owner k' }

omit [DecidableEq κ] in
/-- The locks of the others stay. -/
theorem World.owner_release_of_ne {w : World key γ} {m n : Nat} {k : κ} (hn : n ≠ m)
    (h : w.owner k = some n) : (w.release m).owner k = some n := by
  show (if w.owner k = some m then none else w.owner k) = some n
  rw [h, if_neg fun heq => hn (Option.some.inj heq)]

/-- A lock that is taken was free. -/
theorem World.owner_acquire {w : World key γ} {m n : Nat} {k k' : κ} (hfree : w.owner k = none)
    (h : w.owner k' = some n) : (w.acquire m k).owner k' = some n := by
  have hne : k' ≠ k := by
    rintro rfl
    rw [hfree] at h
    cases h
  exact (if_neg hne).trans h

/-- One step; `none` when it cannot be taken. -/
def World.step (q : γ → Claim key) (w : World key γ) : Label α κ γ → Option (World key γ)
  | .begin n g =>
      match w.tx n with
      | .idle => some (w.set n (.scanning g ((q g).found w.table) []))
      | _ => none
  | .look n =>
      match w.tx n with
      | .scanning g (row :: todo) got =>
          if got.length < (q g).limit then
            match w.owner (key row) with
            | some _ => some (w.set n (.scanning g todo got))
            | none =>
                -- the row is locked first and then read again
                let got' :=
                  match w.table.get? (key row) with
                  | some row' => if (q g).keep row' then got ++ [key row] else got
                  | none => got
                some ((w.acquire n (key row)).set n (.scanning g todo got'))
          else none
      | _ => none
  | .finish n =>
      match w.tx n with
      | .scanning g todo got =>
          if todo = [] ∨ (q g).limit ≤ got.length then
            some { w.release n with table := (q g).apply w.table got }
          else none
      | _ => none
  | .open_ n =>
      match w.tx n with
      | .idle => some (w.set n .writing)
      | _ => none
  | .lock n k =>
      match w.tx n with
      | .writing => if w.owner k = none then some (w.acquire n k) else none
      | _ => none
  | .close n rows =>
      match w.tx n with
      | .writing =>
          if rows.all fun row => w.owner (key row) = some n ∨ (w.table.get? (key row)).isNone then
            some { w.release n with table := w.table.putAll rows }
          else none
      | _ => none
  | .abort n => some (w.release n)

/-- The state after a step; a step that cannot be taken does nothing. -/
def World.next (q : γ → Claim key) (w : World key γ) (l : Label α κ γ) : World key γ :=
  (w.step q l).getD w

/-! ## What the commits do -/

/-- What a commit does to the table. -/
inductive Commit (α κ γ : Type) where
  | claim (g : γ) (keys : List κ)
  | write (rows : List α)

/-- The table after a commit. -/
def Commit.next (q : γ → Claim key) (t : Table key) : Commit α κ γ → Table key
  | .claim g keys => (q g).apply t keys
  | .write rows => t.putAll rows

/-- A claim takes rows that match it at that moment, each once, and no more than its limit. -/
def Commit.Proper (q : γ → Claim key) (t : Table key) : Commit α κ γ → Prop
  | .claim g keys => keys.Nodup ∧ keys.length ≤ (q g).limit ∧
      ∀ k ∈ keys, ∃ row, t.get? k = some row ∧ (q g).keep row = true
  | .write _ => True

/-- The commit of a step. -/
def World.commits (q : γ → Claim key) (w : World key γ) : Label α κ γ → List (Commit α κ γ)
  | .finish n =>
      match w.tx n with
      | .scanning g todo got =>
          if todo = [] ∨ (q g).limit ≤ got.length then [.claim g got] else []
      | _ => []
  | .close n rows =>
      match w.tx n with
      | .writing =>
          if rows.all fun row => w.owner (key row) = some n ∨ (w.table.get? (key row)).isNone then
            [.write rows]
          else []
      | _ => []
  | _ => []

/-- What a step can do, and what it commits. -/
inductive World.Move (q : γ → Claim key) (w : World key γ) :
    Label α κ γ → World key γ → List (Commit α κ γ) → Prop where
  | stuck {l : Label α κ γ} : Move q w l w []
  | begin {n : Nat} {g : γ} (htx : w.tx n = .idle) :
      Move q w (.begin n g) (w.set n (.scanning g ((q g).found w.table) [])) []
  | skip {n : Nat} {g : γ} {row : α} {todo : List α} {got : List κ}
      (htx : w.tx n = .scanning g (row :: todo) got) :
      Move q w (.look n) (w.set n (.scanning g todo got)) []
  | drop {n : Nat} {g : γ} {row : α} {todo : List α} {got : List κ}
      (htx : w.tx n = .scanning g (row :: todo) got) (hfree : w.owner (key row) = none) :
      Move q w (.look n) ((w.acquire n (key row)).set n (.scanning g todo got)) []
  | take {n : Nat} {g : γ} {row row' : α} {todo : List α} {got : List κ}
      (htx : w.tx n = .scanning g (row :: todo) got) (hfree : w.owner (key row) = none)
      (hroom : got.length < (q g).limit) (hrow : w.table.get? (key row) = some row')
      (hkeep : (q g).keep row' = true) :
      Move q w (.look n)
        ((w.acquire n (key row)).set n (.scanning g todo (got ++ [key row]))) []
  | finish {n : Nat} {g : γ} {todo : List α} {got : List κ}
      (htx : w.tx n = .scanning g todo got) :
      Move q w (.finish n) { w.release n with table := (q g).apply w.table got } [.claim g got]
  | open_ {n : Nat} (htx : w.tx n = .idle) : Move q w (.open_ n) (w.set n .writing) []
  | lock {n : Nat} {k : κ} (htx : w.tx n = .writing) (hfree : w.owner k = none) :
      Move q w (.lock n k) (w.acquire n k) []
  | close {n : Nat} {rows : List α} (htx : w.tx n = .writing)
      (hrows : ∀ row ∈ rows, w.owner (key row) = some n ∨ w.table.get? (key row) = none) :
      Move q w (.close n rows) { w.release n with table := w.table.putAll rows } [.write rows]
  | abort {n : Nat} : Move q w (.abort n) (w.release n) []

theorem move_next (q : γ → Claim key) (w : World key γ) (l : Label α κ γ) :
    w.Move q l (w.next q l) (w.commits q l) := by
  cases l with
  | begin n g =>
      cases htx : w.tx n <;> simp only [World.next, World.step, World.commits, htx] <;>
        first | exact .begin htx | exact .stuck
  | look n =>
      simp only [World.next, World.step, World.commits]
      split
      · rename_i g row todo got htx
        split
        · rename_i hroom
          split
          · exact .skip htx
          · rename_i hfree
            simp only [Option.getD_some]
            split
            · rename_i row' hrow
              split
              · rename_i hkeep
                exact .take htx hfree hroom hrow hkeep
              · exact .drop htx hfree
            · exact .drop htx hfree
        · exact .stuck
      · exact .stuck
  | finish n =>
      simp only [World.next, World.step, World.commits]
      cases htx : w.tx n with
      | scanning g todo got =>
          dsimp only
          split
          · exact .finish htx
          · exact .stuck
      | idle => exact .stuck
      | writing => exact .stuck
  | open_ n =>
      cases htx : w.tx n <;> simp only [World.next, World.step, World.commits, htx] <;>
        first | exact .open_ htx | exact .stuck
  | lock n k =>
      simp only [World.next, World.step, World.commits]
      split
      · rename_i htx
        split
        · rename_i hfree
          exact .lock htx hfree
        · exact .stuck
      · exact .stuck
  | close n rows =>
      simp only [World.next, World.step, World.commits]
      cases htx : w.tx n with
      | writing =>
          dsimp only
          split
          · rename_i hrows
            refine .close htx fun row hrow => ?_
            simpa using List.all_eq_true.mp hrows row hrow
          · exact .stuck
      | idle => exact .stuck
      | scanning g todo got => exact .stuck
  | abort n => exact .abort

/-- A claim holds the lock of every row it has got, each once, and the row matches. -/
def World.Sound (q : γ → Claim key) (w : World key γ) : Prop :=
  ∀ n g todo got, w.tx n = .scanning g todo got → got.Nodup ∧ got.length ≤ (q g).limit ∧
    ∀ k ∈ got, w.owner k = some n ∧ ∃ row, w.table.get? k = some row ∧ (q g).keep row = true

theorem sound_quiet (q : γ → Claim key) (t : Table key) : (World.quiet t : World key γ).Sound q := by
  intro n g todo got h
  cases h

/-- A transaction that goes on as before, on rows that are as they were. -/
theorem World.Sound.of_same {q : γ → Claim key} {w w' : World key γ} {n : Nat}
    (hsame : ∀ k row, w.owner k = some n → w.table.get? k = some row →
      w'.owner k = some n ∧ w'.table.get? k = some row)
    (hw : w.Sound q) {g : γ} {todo : List α} {got : List κ} (h : w.tx n = .scanning g todo got) :
    got.Nodup ∧ got.length ≤ (q g).limit ∧
      ∀ k ∈ got, w'.owner k = some n ∧ ∃ row, w'.table.get? k = some row ∧ (q g).keep row = true := by
  obtain ⟨hnodup, hlength, hgot⟩ := hw n g todo got h
  refine ⟨hnodup, hlength, fun k hk => ?_⟩
  obtain ⟨howner, row, hrow, hkeep⟩ := hgot k hk
  obtain ⟨howner', hrow'⟩ := hsame k row howner hrow
  exact ⟨howner', row, hrow', hkeep⟩

/-- A change that leaves the transactions other than `m` alone, with their locks and rows. -/
theorem World.Sound.change {q : γ → Claim key} {w w' : World key γ} {m : Nat} (hw : w.Sound q)
    (htx : ∀ n, n ≠ m → w'.tx n = w.tx n)
    (hsame : ∀ n, n ≠ m → ∀ k row, w.owner k = some n → w.table.get? k = some row →
      w'.owner k = some n ∧ w'.table.get? k = some row)
    (hm : ∀ g todo got, w'.tx m = .scanning g todo got → got.Nodup ∧ got.length ≤ (q g).limit ∧
      ∀ k ∈ got, w'.owner k = some m ∧ ∃ row, w'.table.get? k = some row ∧ (q g).keep row = true) :
    w'.Sound q := by
  intro n g todo got h
  by_cases hn : n = m
  · subst hn
    exact hm g todo got h
  · rw [htx n hn] at h
    exact hw.of_same (hsame n hn) h

/-- A transaction that ends may change the rows that nobody else has locked. -/
theorem World.Sound.ended {q : γ → Claim key} {w : World key γ} (hw : w.Sound q) (n : Nat)
    {t : Table key} (ht : ∀ m, m ≠ n → ∀ k row, w.owner k = some m → w.table.get? k = some row →
      t.get? k = some row) : { w.release n with table := t : World key γ }.Sound q := by
  refine hw.change (m := n) (fun m hm => World.tx_set_of_ne hm)
    (fun m hm k row h h' => ⟨World.owner_release_of_ne hm h, ht m hm k row h h'⟩) ?_
  intro g todo got h
  rw [show { w.release n with table := t : World key γ }.tx n = .idle from
    World.tx_set_self w n .idle] at h
  cases h

theorem World.Sound.next {q : γ → Claim key} {w : World key γ} (hw : w.Sound q) (l : Label α κ γ) :
    (w.next q l).Sound q := by
  have hmove := move_next q w l
  generalize w.next q l = w' at hmove ⊢
  generalize w.commits q l = commits at hmove
  cases hmove with
  | stuck => exact hw
  | @begin n g htx =>
      refine hw.change (fun m hm => World.tx_set_of_ne hm) (fun _ _ k row h h' => ⟨h, h'⟩) ?_
      intro g' todo got h
      rw [World.tx_set_self] at h
      cases h
      exact ⟨List.nodup_nil, Nat.zero_le _, by simp⟩
  | @skip n g row todo got htx =>
      refine hw.change (fun m hm => World.tx_set_of_ne hm) (fun _ _ k row h h' => ⟨h, h'⟩) ?_
      intro g' todo' got' h
      rw [World.tx_set_self] at h
      cases h
      exact hw n g (row :: todo) got htx
  | @drop n g row todo got htx hfree =>
      refine hw.change (fun m hm => World.tx_set_of_ne hm)
        (fun _ _ k row h h' => ⟨World.owner_acquire hfree h, h'⟩) ?_
      intro g' todo' got' h
      rw [World.tx_set_self] at h
      cases h
      exact hw.of_same (fun k row h h' => ⟨World.owner_acquire hfree h, h'⟩) htx
  | @take n g row row' todo got htx hfree hroom hrow hkeep =>
      refine hw.change (fun m hm => World.tx_set_of_ne hm)
        (fun _ _ k row h h' => ⟨World.owner_acquire hfree h, h'⟩) ?_
      intro g' todo' got' h
      rw [World.tx_set_self] at h
      cases h
      obtain ⟨hnodup, -, hgot⟩ := hw.of_same (fun k row h h' => ⟨World.owner_acquire hfree h, h'⟩) htx
      have hnew : key row ∉ got := by
        intro hmem
        have howner := (hw n g (row :: todo) got htx).2.2 (key row) hmem
        rw [hfree] at howner
        cases howner.1
      refine ⟨List.nodup_append.mpr ⟨hnodup, List.nodup_singleton _, ?_⟩, ?_, ?_⟩
      · intro k hk k' hk' heq
        rw [List.mem_singleton] at hk'
        exact hnew (hk' ▸ heq ▸ hk)
      · rw [List.length_append, List.length_singleton]
        exact hroom
      · intro k hk
        rcases List.mem_append.mp hk with hk | hk
        · exact hgot k hk
        · rw [List.mem_singleton] at hk
          subst hk
          exact ⟨if_pos rfl, row', hrow, hkeep⟩
  | @finish n g todo got htx =>
      refine hw.ended n fun m hm k row h h' => ?_
      have hnot : k ∉ got := by
        intro hmem
        have howner := ((hw n g todo got htx).2.2 k hmem).1
        rw [h] at howner
        exact hm (Option.some.inj howner)
      rw [Claim.get?_apply, h', Option.map_some, if_neg hnot]
  | @open_ n htx =>
      refine hw.change (fun m hm => World.tx_set_of_ne hm) (fun _ _ k row h h' => ⟨h, h'⟩) ?_
      intro g todo got h
      rw [World.tx_set_self] at h
      cases h
  | @lock n k htx hfree =>
      intro m g todo got h
      exact hw.of_same (fun k row h h' => ⟨World.owner_acquire hfree h, h'⟩) h
  | @close n rows htx hrows =>
      refine hw.ended n fun m hm k row h h' => ?_
      rw [Table.get?_putAll_of_notMem, h']
      intro hmem
      obtain ⟨row', hrow', rfl⟩ := List.mem_map.mp hmem
      rcases hrows row' hrow' with howner | hnone
      · rw [h] at howner
        exact hm (Option.some.inj howner)
      · rw [hnone] at h'
        cases h'
  | @abort n => exact hw.ended n fun _ _ _ _ _ h => h

/-- Every commit of a run is proper in the table it finds, and the commits alone make the
table. -/
theorem run_commits (q : γ → Claim key) (t : Table key) (labels : List (Label α κ γ)) :
    run (Commit.next q) t (emitted (World.next q) (World.commits q) (World.quiet t) labels) =
        (run (World.next q) (World.quiet t) labels).table ∧
      Steps (Commit.next q) (Commit.Proper q) t
        (emitted (World.next q) (World.commits q) (World.quiet t) labels) := by
  refine run_refines (f := World.table) (P := World.Sound q) (fun w l hw => hw.next l) ?_
    (sound_quiet q t) labels
  intro w l hw
  have hmove := move_next q w l
  generalize w.next q l = w' at hmove ⊢
  generalize w.commits q l = commits at hmove ⊢
  cases hmove with
  | @finish n g todo got htx =>
      obtain ⟨hnodup, hlength, hgot⟩ := hw n g todo got htx
      exact ⟨rfl, ⟨hnodup, hlength, fun k hk => (hgot k hk).2⟩, trivial⟩
  | close htx hrows => exact ⟨rfl, trivial, trivial⟩
  | _ => exact ⟨rfl, trivial⟩

/-! ## No row is claimed twice -/

section Twice

variable {q : γ → Claim key} {J : α → Prop}

/-- What a commit must be to leave the row in `J`. -/
def Commit.Keeps (q : γ → Claim key) (J : α → Prop) (k : κ) : Commit α κ γ → Prop
  | .claim g _ => ∀ row, J row → J ((q g).set row)
  | .write rows => k ∉ rows.map key

theorem commit_keeps {t : Table key} {k : κ} {c : Commit α κ γ} (hc : c.Keeps q J k)
    (h : ∃ row, t.get? k = some row ∧ J row) :
    ∃ row, (c.next q t).get? k = some row ∧ J row := by
  obtain ⟨row, hrow, hJ⟩ := h
  cases c with
  | claim g keys =>
      rw [Commit.next, Claim.get?_apply, hrow, Option.map_some]
      refine ⟨_, rfl, ?_⟩
      split
      · exact hc row hJ
      · exact hJ
  | write rows => exact ⟨row, (Table.get?_putAll_of_notMem hc).trans hrow, hJ⟩

/-- When one claim leaves its rows in `J`, those between keep them there, and another claim does
not match rows in `J`, that one takes a row from the first only after somebody has written it. -/
theorem write_between {g g' : γ} (hfirst : ∀ row, (q g).keep row = true → J ((q g).set row))
    (hsecond : ∀ row, J row → (q g').keep row = false) {t : Table key}
    {pre mid post : List (Commit α κ γ)} {keys keys' : List κ} {k : κ}
    (hset : ∀ g'' keys'', .claim g'' keys'' ∈ mid → ∀ row, J row → J ((q g'').set row))
    (h : Steps (Commit.next q) (Commit.Proper q) t
      (pre ++ .claim g keys :: (mid ++ .claim g' keys' :: post)))
    (hk : k ∈ keys) (hk' : k ∈ keys') : ∃ rows, .write rows ∈ mid ∧ k ∈ rows.map key := by
  by_contra hnone
  obtain ⟨-, hclaim, hrest⟩ := steps_append.mp h
  obtain ⟨-, hclaim', -⟩ := steps_append.mp hrest
  generalize run (Commit.next q) t pre = t₁ at hclaim hclaim'
  obtain ⟨row, hrow, hkept⟩ := hclaim.2.2 k hk
  have hstart : ∃ row, (Commit.next q t₁ (.claim g keys)).get? k = some row ∧ J row := by
    refine ⟨(q g).set row, ?_, hfirst row hkept⟩
    rw [Commit.next, Claim.get?_apply, hrow, Option.map_some, if_pos hk]
  have hmid : ∀ c ∈ mid, c.Keeps q J k := by
    intro c hc
    cases c with
    | claim g'' keys'' => exact hset g'' keys'' hc
    | write rows => exact fun hmem => hnone ⟨rows, hc, hmem⟩
  obtain ⟨row', hrow', hJ⟩ := run_of_forall_mem
    (P := fun t : Table key => ∃ row, t.get? k = some row ∧ J row) (C := Commit.Keeps q J k)
    (fun _ _ hP hC => commit_keeps hC hP) hstart hmid
  obtain ⟨row'', hrow'', hkeep⟩ := hclaim'.2.2 k hk'
  rw [hrow', Option.some.injEq] at hrow''
  rw [← hrow'', hsecond row' hJ] at hkeep
  cases hkeep

end Twice

/-! ## A claim by itself -/

section Alone

variable {q : γ → Claim key} {w : World key γ} {n : Nat} {g : γ}

/-- A claim that nobody disturbs, after its first `j` rows. -/
structure Undisturbed (q : γ → Claim key) (w : World key γ) (n : Nat) (g : γ) (j : Nat)
    (w' : World key γ) : Prop where
  table : w'.table = w.table
  tx : w'.tx n = .scanning g (((q g).found w.table).drop j)
    ((((q g).found w.table).take j).map key)
  free : ∀ k, k ∉ (((q g).found w.table).take j).map key → w'.owner k = none

omit [DecidableEq κ] in
theorem mem_found {c : Claim key} {t : Table key} {row : α} (h : row ∈ c.found t) :
    row ∈ t.rows ∧ c.keep row = true := List.mem_filter.mp ((c.perm _).mem_iff.mp h)

omit [DecidableEq κ] in
theorem nodup_found (c : Claim key) (t : Table key) : ((c.found t).map key).Nodup := by
  refine ((c.perm _).map key).nodup_iff.mpr ?_
  exact t.nodup.sublist (List.filter_sublist.map key)

theorem Undisturbed.look {j : Nat} {w' : World key γ} (h : Undisturbed q w n g j w')
    (hlimit : j < (q g).limit) (hlength : j < ((q g).found w.table).length) :
    Undisturbed q w n g (j + 1) (w'.next q (.look n)) := by
  obtain ⟨htable, htx, hfree⟩ := h
  have hnodup := nodup_found (q g) w.table
  have hfound : ∀ row ∈ (q g).found w.table, w.table.get? (key row) = some row ∧
      (q g).keep row = true :=
    fun row hrow => ⟨Table.get?_of_mem (mem_found hrow).1, (mem_found hrow).2⟩
  generalize hrows : (q g).found w.table = rows at *
  have hdrop : rows.drop j = rows[j] :: rows.drop (j + 1) := List.drop_eq_getElem_cons hlength
  have htake : (rows.take (j + 1)).map key = (rows.take j).map key ++ [key rows[j]] := by
    rw [List.take_succ_eq_append_getElem hlength, List.map_append, List.map_singleton]
  have hnew : key rows[j] ∉ (rows.take j).map key := by
    have hprefix : ((rows.take j).map key ++ [key rows[j]]).Nodup := by
      rw [← htake]
      exact hnodup.sublist ((List.take_sublist _ _).map key)
    intro hmem
    exact (List.nodup_append.mp hprefix).2.2 _ hmem _ (List.mem_singleton_self _) rfl
  obtain ⟨hrow, hkeep⟩ := hfound rows[j] (List.getElem_mem hlength)
  have hroom : ((rows.take j).map key).length < (q g).limit := by
    rw [List.length_map, List.length_take]
    omega
  have hnext : w'.next q (.look n) = (w'.acquire n (key rows[j])).set n
      (.scanning g (rows.drop (j + 1)) ((rows.take (j + 1)).map key)) := by
    simp only [World.next, World.step, htx, hdrop, if_pos hroom, hfree _ hnew, htable, hrow, hkeep,
      if_true, Option.getD_some, htake]
  rw [hnext]
  refine ⟨htable, (World.tx_set_self _ _ _).trans (by rw [hrows]), fun k hk => ?_⟩
  rw [hrows, htake, List.mem_append, not_or, List.mem_singleton] at hk
  exact (if_neg hk.2).trans (hfree k hk.1)

/-- The rows of a claim that nobody disturbs are the first of those it finds. -/
theorem run_alone (hidle : w.tx n = .idle) (hfree : ∀ k, w.owner k = none) :
    (run (World.next q) w (.begin n g ::
        (List.replicate (min (q g).limit ((q g).found w.table).length) (.look n) ++ [.finish n]))).table =
      (q g).apply w.table ((((q g).found w.table).take (q g).limit).map key) := by
  have hbegin : Undisturbed q w n g 0 (w.next q (.begin n g)) := by
    have hnext : w.next q (.begin n g) = w.set n (.scanning g ((q g).found w.table) []) := by
      simp only [World.next, World.step, hidle, Option.getD_some]
    rw [hnext]
    exact ⟨rfl, World.tx_set_self _ _ _, fun k _ => hfree k⟩
  have hlooks : ∀ j, j ≤ min (q g).limit ((q g).found w.table).length → Undisturbed q w n g j
      (run (World.next q) (w.next q (.begin n g)) (List.replicate j (.look n))) := by
    intro j
    induction j with
    | zero => exact fun _ => hbegin
    | succ j ih =>
        intro hj
        rw [List.replicate_succ', run_append]
        exact (ih (by omega)).look (by omega) (by omega)
  obtain ⟨htable, htx, -⟩ := hlooks _ (Nat.le_refl _)
  rw [run_cons, run_append]
  generalize run (World.next q) (w.next q (.begin n g)) _ = w' at htable htx ⊢
  have hgot : ((q g).found w.table).take (min (q g).limit ((q g).found w.table).length) =
      ((q g).found w.table).take (q g).limit := List.take_eq_take_min.symm
  rw [hgot] at htx
  have hdone : ((q g).found w.table).drop (min (q g).limit ((q g).found w.table).length) = [] ∨
      (q g).limit ≤ ((((q g).found w.table).take (q g).limit).map key).length := by
    rw [List.drop_eq_nil_iff, List.length_map, List.length_take]
    omega
  rw [run_cons, run_nil, World.next, World.step, htx]
  dsimp only
  rw [if_pos hdone, Option.getD_some, htable]

end Alone

end SkipLocked

end Drover.Foundation
