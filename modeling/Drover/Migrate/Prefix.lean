import Drover.Migrate.Calls

set_option autoImplicit false

/-!
# Migrations apply once, in order

No call holds a lock while it works through its list, and the version it started from may
be old by then.  What keeps the calls together is that a call gets past a migration only
when its version is recorded, by itself or before it looked, and that a version can be
inserted once.  So the first migration that is not recorded is the only one anybody can
record next.
-/

namespace Drover.Migrate

open Drover.Foundation

/-- Embedded files that load, with distinct positive versions. -/
structure Embedded where
  files : List (Bytes × Bytes)
  all : List Migration
  loaded : load files = .ok all
  distinct : (all.map Migration.version).Nodup
  positive : ∀ m ∈ all, 0 < m.version

theorem Embedded.sorted (e : Embedded) : e.all.Pairwise fun a b => a.version < b.version := by
  obtain ⟨listed, -, hall⟩ : ∃ listed, loadFiles e.files = .ok listed ∧
      listed.insertionSort (fun a b => a.version ≤ b.version) = e.all := by
    have hload := e.loaded
    unfold load at hload
    cases hfiles : loadFiles e.files with
    | error err =>
        rw [hfiles] at hload
        cases hload
    | ok listed =>
        rw [hfiles] at hload
        exact ⟨listed, rfl, Except.ok.inj hload⟩
  have hle : e.all.Pairwise fun a b => a.version ≤ b.version := by
    rw [← hall]
    exact List.pairwise_insertionSort _ _
  exact (hle.and (List.pairwise_map.mp e.distinct)).imp fun hab => lt_of_le_of_ne hab.1 hab.2

variable {e : Embedded} {db db' : Db}

/-! ## What holds of the database and of a call -/

/-- The first migrations of the list have been executed and recorded, in order. -/
def Committed (e : Embedded) (db : Db) : Prop :=
  ∃ k, db.versions = (e.all.take k).map Migration.version ∧ db.executed = e.all.take k

/-- A call that has `rest` before it started from a recorded version, and everything it
got past is recorded. -/
structure Reached (e : Embedded) (db : Db) (current : Int) (rest : List Migration) : Prop where
  past : ∃ pre, e.all = pre ++ rest ∧ ∀ m ∈ pre, m.version ∈ db.versions
  from_ : current = 0 ∨ current ∈ db.versions

/-- A transaction that is about to record `m`. -/
structure Underway (e : Embedded) (db : Db) (m : Migration) (tx : Tx) : Prop where
  wrote : tx = ⟨[m], [m.version]⟩
  fresh : m.version ∉ db.versions
  reached : ∃ current rest, Reached e db current (m :: rest)

/-- What is known of a call, by where it is. -/
def Holds (e : Embedded) (db : Db) (c : Call) : Prop :=
  match c.pc with
  | .idle | .create | .read => c.tx = none
  | .loop current rest => c.tx = none ∧ Reached e db current rest
  | .exec current m rest => c.tx = some ⟨[], []⟩ ∧ Reached e db current (m :: rest)
  | .record current m rest => c.tx = some ⟨[m], []⟩ ∧ Reached e db current (m :: rest)
  | .commit current m rest =>
      Reached e db current (m :: rest) ∧ ∃ tx, c.tx = some tx ∧ Underway e db m tx
  | .returned none => c.tx = none ∧ ∀ m ∈ e.all, m.version ∈ db.versions
  | .returned (some _) | .crashed => ∀ tx, c.tx = some tx → ∃ m, Underway e db m tx

/-- The versions a call has inserted and not committed. -/
def Call.inserted (c : Call) : List Int := c.tx.elim [] Tx.inserted

/-- What holds in every state. -/
structure Inv (e : Embedded) (s : State) : Prop where
  committed : Committed e s.db
  calls : ∀ n, Holds e s.db (s.calls n)
  entered : ∀ n, ∀ v ∈ (s.calls n).inserted, v ∈ s.db.pending
  apart : ∀ n n', n ≠ n' → ∀ v ∈ (s.calls n).inserted, v ∉ (s.calls n').inserted

theorem Reached.mono {current : Int} {rest : List Migration} (h : Reached e db current rest)
    (hmore : ∀ v ∈ db.versions, v ∈ db'.versions) : Reached e db' current rest := by
  obtain ⟨pre, hall, hpast⟩ := h.past
  exact ⟨⟨pre, hall, fun m hm => hmore _ (hpast m hm)⟩, h.from_.imp_right (hmore current)⟩

/-- A call past the last migration has seen all of them recorded. -/
theorem Reached.all_recorded {current : Int} (h : Reached e db current []) :
    ∀ m ∈ e.all, m.version ∈ db.versions := by
  obtain ⟨pre, hall, hpast⟩ := h.past
  rwa [hall, List.append_nil]

theorem Reached.mem {current : Int} {m : Migration} {rest : List Migration}
    (h : Reached e db current (m :: rest)) : m ∈ e.all := by
  obtain ⟨pre, hall, -⟩ := h.past
  rw [hall]
  exact List.mem_append_right _ List.mem_cons_self

/-- A call gets past a migration that is recorded. -/
theorem Reached.advance {current : Int} {m : Migration} {rest : List Migration}
    (h : Reached e db current (m :: rest)) (hm : m.version ∈ db.versions) :
    Reached e db current rest := by
  obtain ⟨pre, hall, hpast⟩ := h.past
  refine ⟨⟨pre ++ [m], by rw [hall, List.append_assoc]; rfl, fun x hx => ?_⟩, h.from_⟩
  rcases List.mem_append.mp hx with hx | hx
  · exact hpast x hx
  · rw [List.mem_singleton.mp hx]
    exact hm

theorem Underway.mono {m : Migration} {tx : Tx} (h : Underway e db m tx)
    (hmore : ∀ v ∈ db.versions, v ∈ db'.versions)
    (hfresh : ∀ v ∈ tx.inserted, v ∉ db'.versions) : Underway e db' m tx := by
  obtain ⟨current, rest, hreached⟩ := h.reached
  refine ⟨h.wrote, hfresh _ ?_, current, rest, hreached.mono hmore⟩
  rw [h.wrote]
  exact List.mem_singleton_self _

/-- More recorded versions, none of them one the call has inserted, leave what is known. -/
theorem Holds.mono {c : Call} (h : Holds e db c) (hmore : ∀ v ∈ db.versions, v ∈ db'.versions)
    (hfresh : ∀ v ∈ c.inserted, v ∉ db'.versions) : Holds e db' c := by
  obtain ⟨pc, tx⟩ := c
  have hleft : ∀ tx', tx = some tx' → ∀ v ∈ tx'.inserted, v ∉ db'.versions := by
    rintro tx' rfl
    exact hfresh
  cases pc with
  | idle => exact h
  | create => exact h
  | read => exact h
  | loop current rest => exact ⟨h.1, h.2.mono hmore⟩
  | exec current m rest => exact ⟨h.1, h.2.mono hmore⟩
  | record current m rest => exact ⟨h.1, h.2.mono hmore⟩
  | commit current m rest =>
      obtain ⟨hreached, tx', htx, hunder⟩ := h
      exact ⟨hreached.mono hmore, tx', htx, hunder.mono hmore (hleft tx' htx)⟩
  | returned err =>
      cases err with
      | none => exact ⟨h.1, fun m hm => hmore _ (h.2 m hm)⟩
      | some err =>
          intro tx' htx
          obtain ⟨m, hunder⟩ := h tx' htx
          exact ⟨m, hunder.mono hmore (hleft tx' htx)⟩
  | crashed =>
      intro tx' htx
      obtain ⟨m, hunder⟩ := h tx' htx
      exact ⟨m, hunder.mono hmore (hleft tx' htx)⟩

/-! ## Committing the next migration -/

/-- Of the list, exactly what is before the first migration that is not recorded is
recorded. -/
theorem take_eq_of_reached {k : Nat} (hversions : db.versions = (e.all.take k).map Migration.version)
    {pre rest : List Migration} {m : Migration} (hall : e.all = pre ++ m :: rest)
    (hpast : ∀ m ∈ pre, m.version ∈ db.versions) (hfresh : m.version ∉ db.versions) :
    e.all.take k = pre := by
  have hpre : pre <+: e.all := ⟨m :: rest, hall.symm⟩
  rcases List.prefix_or_prefix_of_prefix (List.take_prefix k e.all) hpre with ⟨more, hmore⟩ | ⟨more, hmore⟩
  · cases more with
    | nil => rw [← hmore, List.append_nil]
    | cons x more =>
        -- `x` is before `m`, so it is recorded, though it comes behind all that is
        have hrecorded : x.version ∈ (e.all.take k).map Migration.version := by
          rw [← hversions]
          exact hpast x (by rw [← hmore]; exact List.mem_append_right _ List.mem_cons_self)
        have hdistinct : (pre.map Migration.version).Nodup :=
          e.distinct.sublist (hpre.sublist.map _)
        rw [← hmore, List.map_append, List.nodup_append] at hdistinct
        exact absurd rfl (hdistinct.2.2 _ hrecorded x.version (List.mem_map_of_mem List.mem_cons_self))
  · cases more with
    | nil => rw [← hmore, List.append_nil]
    | cons x more =>
        -- the list goes on with `m`, which would be recorded
        have hnext : x = m := by
          have hgo : pre ++ x :: more <+: pre ++ m :: rest := by
            rw [hmore, ← hall]
            exact List.take_prefix k e.all
          exact (List.cons_prefix_cons.mp ((List.prefix_append_right_inj pre).mp hgo)).1
        refine absurd ?_ hfresh
        rw [hversions, ← hmore, ← hnext]
        exact List.mem_map_of_mem (List.mem_append_right _ List.mem_cons_self)

/-- A migration that is not recorded, all those before it being recorded, is the next. -/
theorem Committed.next (hdb : Committed e db) {m : Migration} {tx : Tx} (h : Underway e db m tx) :
    Committed e (db.commit tx) := by
  obtain ⟨k, hversions, hexecuted⟩ := hdb
  obtain ⟨current, rest, hreached⟩ := h.reached
  obtain ⟨pre, hall, hpast⟩ := hreached.past
  have hk := take_eq_of_reached hversions hall hpast h.fresh
  have hnext : e.all.take (pre.length + 1) = pre ++ [m] := by
    rw [hall, List.take_append, List.take_of_length_le (Nat.le_succ _), Nat.add_sub_cancel_left]
    rfl
  refine ⟨pre.length + 1, ?_, ?_⟩
  · rw [hnext, Db.commit, hversions, hk, h.wrote, List.map_append]
    rfl
  · rw [hnext, Db.commit, hexecuted, hk, h.wrote]

theorem Underway.commits {m : Migration} {tx : Tx} (h : Underway e db m tx) {current : Int}
    {rest : List Migration} (hreached : Reached e db current (m :: rest)) :
    Reached e (db.commit tx) current rest := by
  refine (hreached.mono fun v hv => List.mem_append_left _ hv).advance ?_
  rw [Db.commit, h.wrote]
  exact List.mem_append_right _ (List.mem_singleton_self _)

/-! ## Changing one call -/

/-- A step changes one call and the database around it. -/
theorem Inv.set {s : State} (h : Inv e s) {n : Nat} {db' : Db} {c : Call}
    (hcommitted : Committed e db') (hothers : ∀ n', n' ≠ n → Holds e db' (s.calls n'))
    (hcall : Holds e db' c) (hentered : ∀ v ∈ c.inserted, v ∈ db'.pending)
    (hkept : ∀ v ∈ s.db.pending, v ∉ (s.calls n).inserted → v ∈ db'.pending)
    (hapart : ∀ n', n' ≠ n → ∀ v ∈ c.inserted, v ∉ (s.calls n').inserted) :
    Inv e (s.set n db' c) := by
  have hself : (s.set n db' c).calls n = c := Function.update_self ..
  have hother : ∀ n', n' ≠ n → (s.set n db' c).calls n' = s.calls n' :=
    fun n' hn' => Function.update_of_ne hn' ..
  refine ⟨hcommitted, fun n' => ?_, fun n' => ?_, fun a b hab => ?_⟩
  · by_cases hn : n' = n
    · rw [hn, hself]
      exact hcall
    · rw [hother n' hn]
      exact hothers n' hn
  · by_cases hn : n' = n
    · rw [hn, hself]
      exact hentered
    · rw [hother n' hn]
      exact fun v hv => hkept v (h.entered n' v hv) (h.apart n' n hn v hv)
  · by_cases ha : a = n
    · rw [ha, hself, hother b (fun hb => hab (ha.trans hb.symm))]
      exact hapart b fun hb => hab (ha.trans hb.symm)
    · by_cases hb : b = n
      · rw [hb, hself, hother a ha]
        exact fun v hv hv' => hapart a ha v hv' hv
      · rw [hother a ha, hother b hb]
        exact h.apart a b hab

theorem Underway.inserted_eq {m : Migration} {tx : Tx} (h : Underway e db m tx) :
    tx.inserted = [m.version] := by
  rw [h.wrote]

/-- What a call has inserted is not recorded. -/
theorem Holds.fresh {c : Call} (h : Holds e db c) : ∀ v ∈ c.inserted, v ∉ db.versions := by
  obtain ⟨pc, tx⟩ := c
  have hunder : ∀ {m tx'}, tx = some tx' → Underway e db m tx' →
      ∀ v ∈ (Call.mk pc tx).inserted, v ∉ db.versions := by
    rintro m tx' rfl hunder v hv
    rw [Call.inserted, Option.elim_some, hunder.inserted_eq] at hv
    rw [List.mem_singleton.mp hv]
    exact hunder.fresh
  have hleft : (∀ tx', tx = some tx' → ∃ m, Underway e db m tx') →
      ∀ v ∈ (Call.mk pc tx).inserted, v ∉ db.versions := by
    intro hall
    cases tx with
    | none => simp [Call.inserted]
    | some tx' =>
        obtain ⟨m, hm⟩ := hall tx' rfl
        exact hunder rfl hm
  cases pc with
  | idle => simp [Call.inserted, show tx = none from h]
  | create => simp [Call.inserted, show tx = none from h]
  | read => simp [Call.inserted, show tx = none from h]
  | loop current rest => simp [Call.inserted, show tx = none from h.1]
  | exec current m rest => simp [Call.inserted, show tx = some ⟨[], []⟩ from h.1]
  | record current m rest => simp [Call.inserted, show tx = some ⟨[m], []⟩ from h.1]
  | commit current m rest =>
      obtain ⟨-, tx', htx, hm⟩ := h
      exact hunder htx hm
  | returned err =>
      cases err with
      | none => simp [Call.inserted, show tx = none from h.1]
      | some err => exact hleft h
  | crashed => exact hleft h

/-- A step that records nothing. -/
theorem Inv.set_quiet {s : State} (h : Inv e s) {n : Nat} {db' : Db} {c : Call}
    (hversions : db'.versions = s.db.versions) (hexecuted : db'.executed = s.db.executed)
    (hcall : Holds e s.db c) (hentered : ∀ v ∈ c.inserted, v ∈ db'.pending)
    (hkept : ∀ v ∈ s.db.pending, v ∉ (s.calls n).inserted → v ∈ db'.pending)
    (hapart : ∀ n', n' ≠ n → ∀ v ∈ c.inserted, v ∉ (s.calls n').inserted) :
    Inv e (s.set n db' c) := by
  have hkeeps : ∀ {c}, Holds e s.db c → Holds e db' c := by
    intro c hc
    refine hc.mono (fun v hv => by rw [hversions]; exact hv) ?_
    rw [hversions]
    exact hc.fresh
  have hcommitted : Committed e db' := by
    obtain ⟨k, hv, hx⟩ := h.committed
    exact ⟨k, hversions.trans hv, hexecuted.trans hx⟩
  exact h.set hcommitted (fun n' _ => hkeeps (h.calls n')) (hkeeps hcall) hentered hkept hapart

/-- A step that leaves the database and the call with nothing inserted. -/
theorem Inv.set_idle {s : State} (h : Inv e s) {n : Nat} {c : Call} (hcall : Holds e s.db c)
    (hnone : c.inserted = []) : Inv e (s.set n s.db c) := by
  refine h.set_quiet rfl rfl hcall ?_ (fun v hv _ => hv) ?_
  · simp [hnone]
  · simp [hnone]

/-- A call inserts a version that is neither recorded nor entered. -/
theorem Inv.record {s : State} (h : Inv e s) {n : Nat} {current : Int} {m : Migration}
    {rest : List Migration} (hreached : Reached e s.db current (m :: rest))
    (hfree : ¬(m.version ∈ s.db.versions ∨ m.version ∈ s.db.pending)) :
    Inv e (s.set n { s.db with pending := m.version :: s.db.pending }
      ⟨.commit current m rest, some ⟨[m], [m.version]⟩⟩) := by
  rw [not_or] at hfree
  have hinserted : ∀ v ∈ (Call.mk (.commit current m rest)
      (some ⟨[m], [m.version]⟩)).inserted, v = m.version :=
    fun v hv => List.mem_singleton.mp hv
  refine h.set_quiet rfl rfl ⟨hreached, _, rfl, rfl, hfree.1, current, rest, hreached⟩
    (fun v hv => ?_) (fun v hv _ => List.mem_cons_of_mem _ hv) (fun n' _ v hv hother => ?_)
  · rw [hinserted v hv]
    exact List.mem_cons_self
  · rw [hinserted v hv] at hother
    exact hfree.2 (h.entered n' _ hother)

theorem mem_release {v : Int} {tx : Tx} (hv : v ∈ db.pending) (hnot : v ∉ tx.inserted) :
    v ∈ db.release tx :=
  List.mem_filter.mpr ⟨hv, decide_eq_true hnot⟩

/-- A transaction is rolled back. -/
theorem Inv.rollback {s : State} (h : Inv e s) {n : Nat} {tx : Tx}
    (htx : (s.calls n).tx = some tx) {pc : Pc} (hcall : Holds e s.db ⟨pc, none⟩) :
    Inv e (s.set n (s.db.rollback tx) ⟨pc, none⟩) := by
  refine h.set_quiet rfl rfl hcall (by simp [Call.inserted]) (fun v hv hnot => ?_)
    (by simp [Call.inserted])
  rw [Call.inserted, htx] at hnot
  exact mem_release hv hnot

theorem Inv.abort {s : State} (h : Inv e s) {n : Nat} {pc : Pc} (hcall : Holds e s.db ⟨pc, none⟩) :
    Inv e (s.abort n pc) := by
  unfold State.abort
  cases htx : (s.calls n).tx with
  | none => exact h.set_idle hcall rfl
  | some tx => exact h.rollback htx hcall

/-- A transaction lands. -/
theorem Inv.land {s : State} (h : Inv e s) {n : Nat} {m : Migration} {tx : Tx}
    (htx : (s.calls n).tx = some tx) (hunder : Underway e s.db m tx) {pc : Pc}
    (hcall : Holds e (s.db.commit tx) ⟨pc, none⟩) :
    Inv e (s.set n (s.db.commit tx) ⟨pc, none⟩) := by
  have hinserted : (s.calls n).inserted = tx.inserted := by rw [Call.inserted, htx, Option.elim_some]
  refine h.set (h.committed.next hunder) (fun n' hn' => ?_) hcall (by simp [Call.inserted])
    (fun v hv hnot => mem_release hv (hinserted ▸ hnot)) (by simp [Call.inserted])
  refine (h.calls n').mono (fun v hv => List.mem_append_left _ hv) fun v hv hmem => ?_
  rcases List.mem_append.mp hmem with hold | hnew
  · exact (h.calls n').fresh v hv hold
  · exact h.apart n' n hn' v hv (hinserted ▸ hnew)

/-! ## Steps and runs -/

theorem currentVersion_cases (db : Db) : db.currentVersion = 0 ∨ db.currentVersion ∈ db.versions := by
  unfold Db.currentVersion
  cases hmax : db.versions.max? with
  | none => exact Or.inl rfl
  | some v => exact Or.inr (List.max?_mem hmax)

/-- A version up to a recorded one is recorded. -/
theorem Committed.below (h : Committed e db) {current : Int} (hcurrent : current = 0 ∨ current ∈ db.versions)
    {m : Migration} (hm : m ∈ e.all) (hle : m.version ≤ current) : m.version ∈ db.versions := by
  obtain ⟨k, hversions, -⟩ := h
  have hpos := e.positive m hm
  have hrecorded := hcurrent.resolve_left (by omega)
  rw [hversions] at hrecorded ⊢
  obtain ⟨x, hx, hversion⟩ := List.mem_map.mp hrecorded
  have hsorted := e.sorted
  rw [← List.take_append_drop k e.all] at hm hsorted
  rcases List.mem_append.mp hm with hm | hm
  · exact List.mem_map_of_mem hm
  · have hlt := (List.pairwise_append.mp hsorted).2.2 x hx m hm
    omega

/-- Nothing is asked of a call that failed or died and left no transaction. -/
theorem holds_failed (err : MigrateError) : Holds e db ⟨.returned (some err), none⟩ := by
  intro tx htx
  cases htx

@[inherit_doc holds_failed] theorem holds_crashed : Holds e db ⟨.crashed, none⟩ := by
  intro tx htx
  cases htx

theorem callStep_inv {s s' : State} (h : Inv e s) {n : Nat} {ok : Bool}
    (hstep : callStep e.files s n ok = some s') : Inv e s' := by
  have hholds := h.calls n
  have hkeep : ∀ {err s'}, some (s.abort n (.returned (some err))) = some s' → Inv e s' := by
    rintro err s' heq
    cases heq
    exact h.abort (holds_failed err)
  unfold callStep at hstep
  generalize hc : s.calls n = c at hstep hholds
  obtain ⟨pc, tx⟩ := c
  cases pc with
  | idle =>
      cases hstep
      exact h.set_idle (show Holds e s.db ⟨.create, none⟩ from rfl) rfl
  | create =>
      cases ok with
      | false => exact hkeep hstep
      | true =>
          cases hstep
          exact h.set_idle (show Holds e s.db ⟨.read, none⟩ from rfl) rfl
  | read =>
      cases ok with
      | false => exact hkeep hstep
      | true =>
          rw [e.loaded] at hstep
          cases hstep
          refine h.set_idle (c := ⟨.loop s.db.currentVersion e.all, none⟩)
            ⟨rfl, ⟨[], rfl, by simp⟩, currentVersion_cases s.db⟩ rfl
  | loop current rest =>
      obtain ⟨-, hreached⟩ := hholds
      cases rest with
      | nil =>
          cases hstep
          exact h.set_idle (c := ⟨.returned none, none⟩) ⟨rfl, hreached.all_recorded⟩ rfl
      | cons m rest =>
          simp only at hstep
          split at hstep
          · rename_i hle
            cases hstep
            have hrecorded := h.committed.below hreached.from_ hreached.mem hle
            exact h.set_idle (c := ⟨.loop current rest, none⟩) ⟨rfl, hreached.advance hrecorded⟩ rfl
          · cases ok with
            | false => exact hkeep hstep
            | true =>
                cases hstep
                exact h.set_idle (c := ⟨.exec current m rest, some ⟨[], []⟩⟩) ⟨rfl, hreached⟩ rfl
  | exec current m rest =>
      obtain ⟨rfl, hreached⟩ := hholds
      cases ok with
      | false => exact hkeep hstep
      | true =>
          cases hstep
          exact h.set_idle (c := ⟨.record current m rest, some ⟨[m], []⟩⟩) ⟨rfl, hreached⟩ rfl
  | record current m rest =>
      obtain ⟨rfl, hreached⟩ := hholds
      cases ok with
      | false => exact hkeep hstep
      | true =>
          simp only [if_true] at hstep
          split at hstep
          · cases hstep
          · rename_i hfree
            cases hstep
            exact h.record hreached hfree
  | commit current m rest =>
      obtain ⟨hreached, tx', htx, hunder⟩ := hholds
      cases htx
      cases ok with
      | false => exact hkeep hstep
      | true =>
          cases hstep
          exact h.land (by rw [hc]) hunder ⟨rfl, hunder.commits hreached⟩
  | returned err => cases hstep
  | crashed => cases hstep

/-- A call whose `COMMIT` is not answered leaves its transaction as it is. -/
theorem Inv.leave {s : State} (h : Inv e s) {n : Nat} {pc : Pc}
    (hcall : Holds e s.db ⟨pc, (s.calls n).tx⟩) : Inv e (s.set n s.db ⟨pc, (s.calls n).tx⟩) :=
  h.set_quiet rfl rfl hcall (h.entered n) (fun _ hv _ => hv)
    fun n' hn' => h.apart n n' (Ne.symm hn')

/-- A call that waits for its `COMMIT` has a transaction that is about to record something. -/
theorem Holds.underway {c : Call} (h : Holds e db c) {current : Int} {m : Migration}
    {rest : List Migration} (hpc : c.pc = .commit current m rest) :
    ∀ tx, c.tx = some tx → ∃ m, Underway e db m tx := by
  unfold Holds at h
  rw [hpc] at h
  obtain ⟨-, tx, htx, hunder⟩ := h
  intro tx' htx'
  rw [htx] at htx'
  cases htx'
  exact ⟨m, hunder⟩

/-- The server decides a transaction that a call left behind. -/
theorem Inv.settle {s : State} (h : Inv e s) {n : Nat} {tx : Tx} (htx : (s.calls n).tx = some tx)
    (hunder : ∃ m, Underway e s.db m tx) {pc : Pc} (hcall : ∀ db, Holds e db ⟨pc, none⟩)
    (landed : Bool) :
    Inv e (s.set n (if landed then s.db.commit tx else s.db.rollback tx) ⟨pc, none⟩) := by
  obtain ⟨m, hunder⟩ := hunder
  cases landed with
  | true => exact h.land htx hunder (hcall _)
  | false => exact h.rollback htx (hcall _)

theorem step_inv {s s' : State} (h : Inv e s) {label : Label}
    (hstep : step e.files s label = some s') : Inv e s' := by
  cases label with
  | go n ok => exact callStep_inv h hstep
  | lose n =>
      simp only [step] at hstep
      split at hstep
      · rename_i hpc
        cases hstep
        exact h.leave ((h.calls n).underway hpc)
      · cases hstep
  | crash n =>
      simp only [step] at hstep
      split at hstep
      · rename_i hpc
        cases hstep
        exact h.leave ((h.calls n).underway hpc)
      · cases hstep
      · cases hstep
      · cases hstep
        exact h.abort holds_crashed
  | settle n landed =>
      have hholds := h.calls n
      unfold Holds at hholds
      simp only [step] at hstep
      split at hstep
      · rename_i err tx hpc htx
        cases hstep
        rw [hpc] at hholds ⊢
        cases err with
        | none =>
            rw [hholds.1] at htx
            cases htx
        | some err => exact h.settle htx (hholds tx htx) (fun _ => holds_failed err) landed
      · rename_i tx hpc htx
        cases hstep
        rw [hpc] at hholds ⊢
        exact h.settle htx (hholds tx htx) (fun _ => holds_crashed) landed
      · cases hstep

theorem inv_start : Inv e start where
  committed := ⟨0, rfl, rfl⟩
  calls := fun _ => rfl
  entered := fun _ _ hv => by cases hv
  apart := fun _ _ _ _ hv => by cases hv

theorem inv_run (labels : List Label) : Inv e (run (next e.files) start labels) := by
  refine run_invariant (fun s label h => ?_) inv_start labels
  unfold next
  cases hstep : step e.files s label with
  | none => exact h
  | some s' => exact step_inv h hstep

/-- Migrations apply as an exactly-once prefix.  Whatever calls are made, however their
statements interleave and whichever of them fail or are lost: the recorded versions are
those of the first migrations of the list; the SQL of a migration has been committed once
if its version is recorded and never otherwise, and no other SQL has been; and once a call
has returned nil every version is recorded. -/
theorem run_migrations_prefix (e : Embedded) (labels : List Label) :
    let s := run (next e.files) start labels
    (∃ k, s.db.versions = (e.all.take k).map Migration.version) ∧
      (∀ m ∈ e.all, s.db.executed.count m = if m.version ∈ s.db.versions then 1 else 0) ∧
      (∀ m ∈ s.db.executed, m ∈ e.all) ∧
      ∀ n, (s.calls n).pc = .returned none → s.db.versions = e.all.map Migration.version := by
  intro s
  have h : Inv e s := inv_run labels
  obtain ⟨k, hversions, hexecuted⟩ := h.committed
  have hnodup : e.all.Nodup := e.distinct.of_map
  have hmem : ∀ m ∈ e.all, m.version ∈ s.db.versions ↔ m ∈ e.all.take k := by
    intro m hm
    rw [hversions]
    constructor
    · intro hv
      obtain ⟨x, hx, heq⟩ := List.mem_map.mp hv
      rwa [← List.inj_on_of_nodup_map e.distinct (List.mem_of_mem_take hx) hm heq]
    · exact List.mem_map_of_mem
  refine ⟨⟨k, hversions⟩, fun m hm => ?_, fun m hm => ?_, fun n hn => ?_⟩
  · rw [hexecuted, (hnodup.sublist (List.take_sublist k e.all)).count]
    simp only [hmem m hm]
  · rw [hexecuted] at hm
    exact List.mem_of_mem_take hm
  · have hholds := h.calls n
    unfold Holds at hholds
    rw [hn] at hholds
    have hsub : e.all ⊆ e.all.take k := fun m hm => (hmem m hm).mp (hholds.2 m hm)
    have hall : e.all.take k = e.all :=
      (List.take_sublist k e.all).eq_of_length_le (List.subperm_of_subset hnodup hsub).length_le
    rw [hversions, hall]

/-- The files `002_b.sql` and `001_a.sql`. -/
def twoFiles : List (Bytes × Bytes) :=
  [(Bytes.ofChars ['0', '0', '2', '_', 'b', '.', 's', 'q', 'l'], [2]),
    (Bytes.ofChars ['0', '0', '1', '_', 'a', '.', 's', 'q', 'l'], [1])]

/-- They load, in the order of their versions. -/
def twoMigrations : Embedded where
  files := twoFiles
  all := [⟨1, Bytes.ofChars ['0', '0', '1', '_', 'a', '.', 's', 'q', 'l'], [1]⟩,
    ⟨2, Bytes.ofChars ['0', '0', '2', '_', 'b', '.', 's', 'q', 'l'], [2]⟩]
  loaded := rfl
  distinct := by decide
  positive := by decide

/-- Two calls at once: both start from version 0, the second waits for the first to record
version 1, is refused and fails, and the first goes on to the end. -/
def racingCalls : List Label :=
  List.flatten [List.replicate 6 (.go 0 true), List.replicate 5 (.go 1 true),
    [.go 0 true, .go 1 true, .go 1 false], List.replicate 5 (.go 0 true)]

theorem racingCalls_migrations_prefix :
    let s := run (next twoMigrations.files) start racingCalls
    (s.calls 0).pc = .returned none ∧ (s.calls 1).pc = .returned (some (.record 1)) ∧
      s.db.versions = twoMigrations.all.map Migration.version ∧
      ∀ m ∈ twoMigrations.all,
        s.db.executed.count m = if m.version ∈ s.db.versions then 1 else 0 := by
  obtain ⟨-, hexecuted, -, hversions⟩ := run_migrations_prefix twoMigrations racingCalls
  exact ⟨by decide, by decide, hversions 0 (by decide), hexecuted⟩

end Drover.Migrate
