import Drover.Pgdriver.Batch

set_option autoImplicit false

/-!
# Inserts inside the caller's transaction (`InsertTx`, `InsertManyTx`, `NotifyTx`)

Any number of transactions, with the calls of everybody else between their statements.
What a transaction inserts is not in the table before it commits.  The unique index sees
it all the same: a statement that would take an entry of a transaction under way waits for
that transaction, and one that would take an entry of the table or of its own transaction
fails.  A statement that fails ends the transaction for every statement but a rollback,
except that a savepoint can be gone back to.  `NotifyTx` sets one of its own, and so may the
caller: what is inserted after it can then be undone in a transaction that commits.

The file compares such a run with one in which every transaction is its inserts, made one
after another at the moment it commits.
-/

namespace Drover.Pgdriver

open Drover.Foundation
open Drover.Driver
open Drover.Go (Time Duration)
open Drover.Memdriver (Op)

variable {pg : Postgres}

/-! ## One transaction -/

inductive TxStatus where
  | live
  /-- a statement has failed -/
  | failed
  | committed
  | rolledBack
  deriving DecidableEq, Repr

/-- The rows a transaction has inserted, with what each was built from. -/
abbrev Inserted (pg : Postgres) := List (InsertJobParams × DroverJob pg)

/-- A transaction.  `ids` is history: no step reads it. -/
structure Tx (pg : Postgres) where
  status : TxStatus
  /-- `now()`, the same for all its statements -/
  now : Time
  inserted : Inserted pg
  /-- `pg_notify` has been called -/
  notified : Bool
  /-- what there was at each savepoint, the last one first -/
  savepoints : List (Inserted pg × Bool)
  /-- every id it was handed -/
  ids : List Int

/-- `BEGIN`. -/
def Tx.begin (now : Time) : Tx pg := ⟨.live, now, [], false, [], []⟩

/-- The transaction is under way. -/
def Tx.isOpen (tx : Tx pg) : Bool := tx.status == .live || tx.status == .failed

/-- The rows nobody else sees yet. -/
def Tx.jobs (tx : Tx pg) : List (DroverJob pg) :=
  if tx.isOpen then tx.inserted.map Prod.snd else []

/-- A statement fails: what was done since the last savepoint is undone. -/
def Tx.fail (tx : Tx pg) : Tx pg :=
  match tx.savepoints with
  | [] => { tx with status := .failed, inserted := [], notified := false }
  | (inserted, notified) :: _ =>
      { tx with status := .failed, inserted := inserted, notified := notified }

/-- `tx.Exec` of a statement that has an effect on this transaction only; in one that has
failed every statement is refused. -/
def Tx.exec (tx : Tx pg) (ok : Bool) (effect : Tx pg → Tx pg) : Tx pg × Bool :=
  if tx.status = .live then
    if ok then (effect tx, true) else (tx.fail, false)
  else (tx, false)

/-- `SAVEPOINT drover_notify`. -/
def Tx.save (tx : Tx pg) : Tx pg :=
  { tx with savepoints := (tx.inserted, tx.notified) :: tx.savepoints }

/-- `SELECT pg_notify('drover', '')`.  Notifications that are alike are sent once. -/
def Tx.send (tx : Tx pg) : Tx pg := { tx with notified := true }

/-- `RELEASE SAVEPOINT` of the one that has `depth` others above it, and of those. -/
def Tx.release (depth : Nat) (tx : Tx pg) : Tx pg :=
  { tx with savepoints := tx.savepoints.drop (depth + 1) }

/-- `ROLLBACK TO SAVEPOINT`, which a failed transaction accepts.  The savepoint stays, those
above it go. -/
def Tx.rollbackTo (tx : Tx pg) (depth : Nat) (ok : Bool) : Tx pg × Bool :=
  match tx.savepoints.drop depth with
  | [] => (tx.fail, false)
  | (inserted, notified) :: rest =>
      if ok then
        ({ tx with
            status := .live, inserted := inserted, notified := notified
            savepoints := (inserted, notified) :: rest }, true)
      else (tx.fail, false)

/-- The errors of `NotifyTx`. -/
inductive NotifyError where
  /-- `notify drover savepoint: %w` -/
  | savepoint
  /-- `notify drover in tx: %w` -/
  | notify
  /-- `notify drover in tx: %w (rollback savepoint: %w)` -/
  | rollback
  /-- `notify drover release savepoint: %w` -/
  | release
  deriving DecidableEq, Repr

/-- Which statements of a `NotifyTx` go through. -/
structure NotifyOutcome where
  savepoint : Bool
  notify : Bool
  rollback : Bool
  release : Bool
  deriving DecidableEq, Repr

/-- `NotifyTx`.  The savepoint `drover_notify` it means is the last one set. -/
def Tx.notifyTx (tx : Tx pg) (out : NotifyOutcome) : Tx pg × Option NotifyError :=
  let saved := tx.exec out.savepoint Tx.save
  if saved.2 = false then (saved.1, some .savepoint)
  else
    let sent := saved.1.exec out.notify Tx.send
    if sent.2 = false then
      let undone := sent.1.rollbackTo 0 out.rollback
      if undone.2 = false then (undone.1, some .rollback) else (undone.1, some .notify)
    else
      let released := sent.1.exec out.release (Tx.release 0)
      if released.2 = false then (released.1, some .release) else (released.1, none)

/-- A statement of the caller's own that writes no job.  Of two savepoints of one name the
later is meant, so a savepoint is told by how many others there are above it. -/
inductive Statement where
  | savepoint
  | rollbackTo (depth : Nat)
  | release (depth : Nat)
  | other
  deriving DecidableEq, Repr

def Tx.caller (tx : Tx pg) (ok : Bool) : Statement → Tx pg × Bool
  | .savepoint => tx.exec ok Tx.save
  | .rollbackTo depth => tx.rollbackTo depth ok
  | .release depth => tx.exec (ok && depth < tx.savepoints.length) (Tx.release depth)
  | .other => tx.exec ok id

/-! ## Many transactions -/

/-- The table, the transactions begun so far, the ids the identity column has handed out
and how many notifications it has sent. -/
structure World (pg : Postgres) where
  db : Database pg
  txs : List (Tx pg)
  issued : List Int
  notices : Nat

/-- An empty table and no transaction. -/
def World.start (pg : Postgres) : World pg := ⟨Database.empty pg, [], [], 0⟩

/-- The rows of the transactions under way. -/
def World.pending (w : World pg) : List (DroverJob pg) := w.txs.flatMap Tx.jobs

/-- Those of all transactions but one. -/
def World.others (w : World pg) (t : Nat) : List (DroverJob pg) := (w.txs.eraseIdx t).flatMap Tx.jobs

/-- The state with one transaction changed. -/
def World.set (w : World pg) (t : Nat) (tx : Tx pg) : World pg := { w with txs := w.txs.set t tx }

/-- Some row of the one list has the entry of a row of the other. -/
def clash (jobs jobs' : List (DroverJob pg)) : Bool :=
  jobs.any fun job => jobs'.any fun job' => job.entry.isSome && job.entry == job'.entry

/-- A step of a transaction, of its caller, or of somebody else. -/
inductive TxLabel where
  | begin (now : Time)
  /-- the statement of `InsertTx`; `ok` unless it fails for another reason than its rows -/
  | insert (t : Nat) (id : Int) (params : InsertParams) (ok : Bool)
  /-- the last statement of `InsertManyTx`, those before it having gone through when `ok` -/
  | insertMany (t : Nat) (ids : List Int) (batch : List InsertParams) (ok : Bool)
  | notify (t : Nat) (out : NotifyOutcome)
  /-- a statement of the caller's own; `ok` unless it fails for another reason than a
  savepoint there is not -/
  | caller (t : Nat) (statement : Statement) (ok : Bool)
  | commit (t : Nat)
  | rollback (t : Nat)
  /-- a call of the driver outside any transaction -/
  | call (id : Int) (op : Op)
  /-- `Notify` -/
  | send

/-- What `InsertJobsFromStaging` inserts: the rows of the staged items, under the ids handed
out. -/
def batchOf (pg : Postgres) (now : Time) (ids : List Int) (batch : List InsertParams) :
    Option (Inserted pg) :=
  (copyFrom pg 0 batch).map fun staged =>
    (batch.map insertParams).zip (newJobs now (fun n => ids.getD n 0) staged)

/-- An insert of a live transaction.  It waits for the transactions whose entries it
would take, and fails when the index has one of its entries already.  It may fail while it
waits. -/
def World.insert (w : World pg) (t : Nat) (tx : Tx pg) (ids : List Int)
    (rows : Option (Inserted pg)) (ok : Bool) : Option (World pg) :=
  let w' := { w with issued := ids ++ w.issued }
  let tx := { tx with ids := ids ++ tx.ids }
  match rows with
  | none => some (w'.set t tx.fail)
  | some rows =>
      let jobs := rows.map Prod.snd
      if ok = false then some (w'.set t tx.fail)
      else if clash jobs (w.others t) then none
      else if ((w.db.jobs.rows ++ tx.jobs ++ jobs).filterMap DroverJob.entry).Nodup then
        some (w'.set t { tx with inserted := tx.inserted ++ rows })
      else some (w'.set t tx.fail)

/-- One step; `none` when it cannot be taken, or has to wait. -/
def World.step (w : World pg) : TxLabel → Option (World pg)
  | .begin now => some { w with txs := w.txs ++ [Tx.begin now] }
  | .insert t id params ok =>
      match w.txs[t]? with
      | some tx =>
          if tx.status = .live ∧ id ∉ w.issued then
            w.insert t tx [id]
              ((newJob pg tx.now id (insertParams params)).map fun job => [(insertParams params, job)])
              ok
          else none
      | none => none
  | .insertMany t ids batch ok =>
      match w.txs[t]? with
      | some tx =>
          if tx.status = .live ∧ ids.length = batch.length ∧ ids.Nodup ∧ (∀ id ∈ ids, id ∉ w.issued) ∧
              batch ≠ [] then
            w.insert t tx ids (batchOf pg tx.now ids batch) ok
          else none
      | none => none
  | .notify t out =>
      match w.txs[t]? with
      | some tx => if tx.isOpen then some (w.set t (tx.notifyTx out).1) else none
      | none => none
  | .caller t statement ok =>
      match w.txs[t]? with
      | some tx => if tx.isOpen then some (w.set t (tx.caller ok statement).1) else none
      | none => none
  | .commit t =>
      match w.txs[t]? with
      | some tx =>
          if tx.status = .live then
            match Pgdriver.commit (w.db.jobs.putAll tx.jobs) with
            | .ok db =>
                some { w.set t { tx with status := .committed } with
                  db := db, notices := w.notices + tx.notified.toNat }
            | .error _ => none
          -- a transaction that has failed is rolled back by `COMMIT`
          else if tx.status = .failed then some (w.set t { tx with status := .rolledBack })
          else none
      | none => none
  | .rollback t =>
      match w.txs[t]? with
      | some tx => if tx.isOpen then some (w.set t { tx with status := .rolledBack }) else none
      | none => none
  | .call id op =>
      match Pgdriver.step w.db id op with
      | some (db, _) =>
          if id ∈ w.issued ∨ clash db.jobs.rows w.pending then none
          else some { w with db := db, issued := id :: w.issued }
      | none => none
  | .send => some { w with notices := w.notices + 1 }

/-- The state after a step; a step that cannot be taken does nothing. -/
def World.next (w : World pg) (label : TxLabel) : World pg := (w.step label).getD w

/-! ## The same, one after another -/

/-- A call with a transaction of its own. -/
inductive Atom where
  /-- `Insert`, at the time and under the id given -/
  | insert (now : Time) (id : Int) (arg : InsertJobParams)
  | call (id : Int) (op : Op)

/-- The call made; `none` when it fails. -/
def Atom.replay (db : Database pg) : Atom → Option (Database pg)
  | .insert now id arg =>
      match db.insertJob now id arg with
      | .ok r => some r.1
      | .error _ => none
  | .call id op => (Pgdriver.step db id op).map Prod.fst

/-- What a step makes visible: the inserts of a transaction that commits, or a call. -/
def World.effects (w : World pg) : TxLabel → List Atom
  | .commit t =>
      match w.txs[t]? with
      | some tx =>
          if tx.status = .live then tx.inserted.map fun x => .insert tx.now x.2.id x.1 else []
      | none => []
  | .call id op => if (w.step (.call id op)).isSome then [.call id op] else []
  | _ => []

def TxLabel.isSend : TxLabel → Bool
  | .send => true
  | _ => false

/-- Nobody else notices the step. -/
def World.Quiet (w : World pg) (label : TxLabel) : Prop :=
  w.effects label = [] ∧ label.isSend = false

/-! ## What a transaction keeps -/

/-- What a transaction has inserted was built from its parameters, and its savepoints are
earlier states of it. -/
structure Tx.Built (tx : Tx pg) : Prop where
  rows : ∀ x ∈ tx.inserted, newJob pg tx.now x.2.id x.1 = some x.2
  saved : ∀ sp ∈ tx.savepoints, sp.1 <+: tx.inserted
  nested : tx.savepoints.Pairwise fun upper lower => lower.1 <+: upper.1

theorem built_begin (now : Time) : (Tx.begin now : Tx pg).Built :=
  ⟨by simp [Tx.begin], by simp [Tx.begin], by simp [Tx.begin]⟩

/-- The transaction has undone some of what it has done, or nothing. -/
structure Tx.Shrinks (tx tx' : Tx pg) : Prop where
  now : tx'.now = tx.now
  ids : tx'.ids = tx.ids
  inserted : tx'.inserted <+: tx.inserted
  built : tx.Built → tx'.Built

theorem Tx.Shrinks.refl (tx : Tx pg) : tx.Shrinks tx := ⟨rfl, rfl, List.prefix_refl _, id⟩

theorem Tx.Shrinks.trans {tx tx' tx'' : Tx pg} (h : tx.Shrinks tx') (h' : tx'.Shrinks tx'') :
    tx.Shrinks tx'' :=
  ⟨h'.now.trans h.now, h'.ids.trans h.ids, h'.inserted.trans h.inserted, fun hb => h'.built (h.built hb)⟩

/-- Going back to a savepoint. -/
theorem Tx.Built.back {tx : Tx pg} (h : tx.Built) {depth : Nat} {inserted : Inserted pg}
    {notified : Bool} {rest : List (Inserted pg × Bool)}
    (hsaved : tx.savepoints.drop depth = (inserted, notified) :: rest) (status : TxStatus) :
    inserted <+: tx.inserted ∧
      Tx.Built { tx with
        status := status, inserted := inserted, notified := notified
        savepoints := (inserted, notified) :: rest } := by
  have hsub := List.drop_sublist depth tx.savepoints
  rw [hsaved] at hsub
  have hpre : inserted <+: tx.inserted := h.saved (inserted, notified) (hsub.subset (by simp))
  have hnested := h.nested.sublist hsub
  refine ⟨hpre, fun x hx => h.rows x (hpre.subset hx), fun sp hsp => ?_, hnested⟩
  rcases List.mem_cons.mp hsp with rfl | hsp
  · exact List.prefix_refl _
  · exact (List.pairwise_cons.mp hnested).1 sp hsp

theorem Tx.Built.shrinks_fail {tx : Tx pg} (h : tx.Built) : tx.Shrinks tx.fail := by
  unfold Tx.fail
  split
  · rename_i hnone
    exact ⟨rfl, rfl, List.nil_prefix, fun _ => ⟨by simp, by simp [hnone], by simp [hnone]⟩⟩
  · rename_i hsaved
    have htop : tx.savepoints.drop 0 = _ := hsaved
    obtain ⟨hpre, hbuilt⟩ := h.back htop .failed
    rw [← hsaved] at hbuilt
    exact ⟨rfl, rfl, hpre, fun _ => hbuilt⟩

theorem Tx.Built.shrinks_exec {tx : Tx pg} (h : tx.Built) (ok : Bool) {effect : Tx pg → Tx pg}
    (heffect : tx.Shrinks (effect tx)) : tx.Shrinks (tx.exec ok effect).1 := by
  unfold Tx.exec
  split
  · cases ok
    · exact h.shrinks_fail
    · exact heffect
  · exact .refl tx

theorem Tx.Built.shrinks_rollbackTo {tx : Tx pg} (h : tx.Built) (depth : Nat) (ok : Bool) :
    tx.Shrinks (tx.rollbackTo depth ok).1 := by
  unfold Tx.rollbackTo
  split
  · exact h.shrinks_fail
  · rename_i hsaved
    cases ok
    · exact h.shrinks_fail
    · obtain ⟨hpre, hbuilt⟩ := h.back hsaved .live
      exact ⟨rfl, rfl, hpre, fun _ => hbuilt⟩

/-- A savepoint is the state there is. -/
theorem Tx.shrinks_save (tx : Tx pg) : tx.Shrinks tx.save := by
  refine ⟨rfl, rfl, List.prefix_refl _, fun h => ⟨h.rows, fun sp hsp => ?_, ?_⟩⟩
  · rcases List.mem_cons.mp hsp with rfl | hsp
    · exact List.prefix_refl _
    · exact h.saved sp hsp
  · exact List.pairwise_cons.mpr ⟨h.saved, h.nested⟩

theorem Tx.shrinks_send (tx : Tx pg) : tx.Shrinks tx.send :=
  ⟨rfl, rfl, List.prefix_refl _, fun h => ⟨h.rows, h.saved, h.nested⟩⟩

theorem Tx.shrinks_release (tx : Tx pg) (depth : Nat) : tx.Shrinks (tx.release depth) :=
  ⟨rfl, rfl, List.prefix_refl _, fun h =>
    ⟨h.rows, fun sp hsp => h.saved sp (List.mem_of_mem_drop hsp), h.nested.drop⟩⟩

/-- `NotifyTx` inserts nothing. -/
theorem Tx.Built.shrinks_notifyTx {tx : Tx pg} (h : tx.Built) (out : NotifyOutcome) :
    tx.Shrinks (tx.notifyTx out).1 := by
  have hsaved := h.shrinks_exec out.savepoint tx.shrinks_save
  have hsent := hsaved.trans
    ((hsaved.built h).shrinks_exec out.notify (Tx.shrinks_send _))
  have hundone := hsent.trans ((hsent.built h).shrinks_rollbackTo 0 out.rollback)
  have hreleased := hsent.trans ((hsent.built h).shrinks_exec out.release (Tx.shrinks_release _ 0))
  unfold Tx.notifyTx
  dsimp only
  split
  · exact hsaved
  · split
    · split <;> exact hundone
    · split <;> exact hreleased

/-- Nor does the caller, whose own statements can undo what it has inserted. -/
theorem Tx.Built.shrinks_caller {tx : Tx pg} (h : tx.Built) (ok : Bool) (statement : Statement) :
    tx.Shrinks (tx.caller ok statement).1 := by
  cases statement with
  | savepoint => exact h.shrinks_exec ok tx.shrinks_save
  | rollbackTo depth => exact h.shrinks_rollbackTo depth ok
  | release depth => exact h.shrinks_exec _ (tx.shrinks_release depth)
  | other => exact h.shrinks_exec ok (.refl tx)

/-! ## No statement removes a row -/

/-- The same ids are in use. -/
def SameIds (db db' : Database pg) : Prop :=
  ∀ id, (db'.jobs.get? id).isSome = (db.jobs.get? id).isSome

theorem SameIds.refl (db : Database pg) : SameIds db db := fun _ => rfl

theorem SameIds.trans {db db' db'' : Database pg} (h : SameIds db db') (h' : SameIds db' db'') :
    SameIds db db'' :=
  fun id => (h' id).trans (h id)

theorem sameIds_update {db db' : Database pg} {p : DroverJob pg → Bool}
    {set : DroverJob pg → DroverJob pg} {hset : ∀ job, (set job).id = job.id}
    (h : commit (db.jobs.updateWhere p set hset) = .ok db') : SameIds db db' := by
  intro id
  rw [jobs_of_commit h, Table.get?_updateWhere hset, Option.isSome_map]

/-- What a statement makes of the table it leaves is of no account. -/
theorem ok_of_map {ε α β : Type} {x : Except ε α} {f : α → β} {b : β} (h : x.map f = .ok b) :
    ∃ a, x = .ok a ∧ f a = b := by
  cases x with
  | error err => cases h
  | ok a => exact ⟨a, rfl, Except.ok.inj h⟩

theorem sameIds_of_map {β : Type} {db : Database pg} {p : DroverJob pg → Bool}
    {set : DroverJob pg → DroverJob pg} {hset : ∀ job, (set job).id = job.id}
    {f : Database pg → Database pg × β} (hf : ∀ db, (f db).1 = db) {r : Database pg × β}
    (h : (commit (db.jobs.updateWhere p set hset)).map f = .ok r) : SameIds db r.1 := by
  obtain ⟨db₁, hcommit, rfl⟩ := ok_of_map h
  rw [hf]
  exact sameIds_update hcommit

theorem sameIds_fetch {db : Database pg} {limit : Int}
    {statement : Except DbError (Database pg × List (DroverJob pg))}
    (h : ∀ r, statement = .ok r → SameIds db r.1) : SameIds db (db.fetch limit statement).1 := by
  unfold Database.fetch
  split
  · exact .refl db
  · split
    · exact .refl db
    · exact h _ rfl

theorem sameIds_fetchAvailable {db : Database pg} {now : Time} {leaseFor : Duration} {queue : Bytes}
    {limit : Int} {r : Database pg × List (DroverJob pg)}
    (h : db.fetchAvailable now leaseFor queue limit = .ok r) : SameIds db r.1 := by
  unfold Database.fetchAvailable at h
  split at h
  · dsimp only at h
    split at h
    · cases h
    · exact sameIds_of_map (fun _ => rfl) h
  · cases h

theorem sameIds_fetchExpired {db : Database pg} {now : Time} {leaseFor : Duration} {limit : Int}
    {r : Database pg × List (DroverJob pg)} (h : db.fetchExpired now leaseFor limit = .ok r) :
    SameIds db r.1 := by
  unfold Database.fetchExpired at h
  split at h
  · exact sameIds_of_map (fun _ => rfl) h
  · cases h

theorem sameIds_extendHeld (db : Database pg) (now : Time) (leases : List Lease)
    (leaseFor : Duration) : SameIds db (db.extendHeld now leases leaseFor).1 := by
  unfold Database.extendHeld
  split
  · exact .refl db
  · split
    · exact .refl db
    · rename_i db' h
      unfold Database.extendLeases at h
      split at h
      · exact sameIds_update h
      · cases h

theorem sameIds_appendTransition {db : Database pg} {id attempt : Int} {error : Option Bytes}
    {set : DroverJob pg → DroverJob pg} {hset : ∀ job, (set job).id = job.id}
    {r : Database pg × Nat} (h : db.appendTransition id attempt error set hset = .ok r) :
    SameIds db r.1 := by
  unfold Database.appendTransition at h
  split at h
  · exact sameIds_of_map (fun _ => rfl) h
  · split at h <;> cases h
    exact .refl db
  · cases h

theorem sameIds_mark (db : Database pg) (lease : Lease) (m : Memdriver.Mark) :
    SameIds db (db.mark lease m).1 := by
  unfold Database.mark
  split
  · exact .refl db
  · rename_i db' affected h
    show SameIds db (db', affected).1
    cases m with
    | completed now => exact sameIds_of_map (fun _ => rfl) h
    | dead now errDetail =>
        simp only [Database.markStatement, Database.markDead] at h
        exact sameIds_appendTransition h
    | cancelled now errDetail =>
        simp only [Database.markStatement, Database.markCancelled] at h
        exact sameIds_appendTransition h
    | retryable retryAt errDetail =>
        simp only [Database.markStatement, Database.markRetryable] at h
        split at h
        · exact sameIds_appendTransition h
        · cases h
    | snoozed runAt =>
        simp only [Database.markStatement, Database.markSnoozed] at h
        split at h
        · exact sameIds_of_map (fun _ => rfl) h
        · cases h

theorem sameIds_operatorUpdate {db : Database pg}
    {statement : Except DbError (Database pg × Option (DroverJob pg))}
    {miss : Database pg → Database pg × Except PgError JobRow}
    (h : ∀ r, statement = .ok r → SameIds db r.1) (hmiss : ∀ db, SameIds db (miss db).1) :
    SameIds db (db.operatorUpdate statement miss).1 := by
  unfold Database.operatorUpdate
  split
  · exact .refl db
  · exact (h _ rfl).trans (hmiss _)
  · exact h _ rfl

theorem sameIds_afterOperatorMiss {db : Database pg} {id : Int} {want : Want}
    {retry : Option (Database pg → Database pg × Except PgError JobRow)}
    (h : ∀ f, retry = some f → ∀ db, SameIds db (f db).1) :
    SameIds db (db.afterOperatorMiss id want retry).1 := by
  unfold Database.afterOperatorMiss
  split
  · exact .refl db
  · split
    · split
      · exact h _ rfl db
      · exact .refl db
    · exact .refl db

theorem sameIds_operatorAction {db : Database pg} {id : Int} {want : Want}
    {statement : Database pg → Except DbError (Database pg × Option (DroverJob pg))}
    (h : ∀ db r, statement db = .ok r → SameIds db r.1) :
    SameIds db (db.operatorAction id want statement).1 := by
  refine sameIds_operatorUpdate (h db) fun db => sameIds_afterOperatorMiss ?_
  rintro f ⟨⟩ db
  exact sameIds_operatorUpdate (h db) fun db => sameIds_afterOperatorMiss (by simp)

/-- A call keeps the ids in use; an insert takes the one it is handed. -/
theorem step_ids {db db' : Database pg} {fresh : Int} {op : Op} {answer : Reply}
    (h : step db fresh op = some (db', answer)) :
    ∀ id, id ≠ fresh → (db'.jobs.get? id).isSome = (db.jobs.get? id).isSome := by
  have hsame : SameIds db db' → ∀ id, id ≠ fresh →
      (db'.jobs.get? id).isSome = (db.jobs.get? id).isSome := fun hsame id _ => hsame id
  cases op with
  | insert now params =>
      simp only [step, Option.some.injEq, Prod.mk.injEq] at h
      obtain ⟨rfl, -⟩ := h
      intro id hne
      unfold Database.insert
      split
      · rfl
      · rename_i db' job hinsert
        unfold Database.insertJob at hinsert
        split at hinsert
        · cases hinsert
        · rename_i built hbuilt
          obtain ⟨db₁, hcommit, heq⟩ := ok_of_map hinsert
          cases heq
          have hid : job.id = fresh := by
            simp only [newJob, Option.bind_eq_bind, Option.bind_eq_some_iff, Option.pure_def,
              Option.some.injEq] at hbuilt
            obtain ⟨_, -, _, -, _, -, _, -, _, -, rfl⟩ := hbuilt
            rfl
          show (db'.jobs.get? id).isSome = _
          rw [jobs_of_commit hcommit, Table.get?_put_of_ne (by rw [hid]; exact hne.symm)]
  | fetchAvailable now queue leaseFor limit =>
      simp only [step, Option.some.injEq, Prod.mk.injEq] at h
      obtain ⟨rfl, -⟩ := h
      exact hsame (sameIds_fetch fun r hr => sameIds_fetchAvailable hr)
  | fetchExpired now leaseFor limit =>
      simp only [step, Option.some.injEq, Prod.mk.injEq] at h
      obtain ⟨rfl, -⟩ := h
      exact hsame (sameIds_fetch fun r hr => sameIds_fetchExpired hr)
  | extendLeases now leases leaseFor =>
      simp only [step, Option.some.injEq, Prod.mk.injEq] at h
      obtain ⟨rfl, -⟩ := h
      exact hsame (sameIds_extendHeld db now leases leaseFor)
  | mark lease m =>
      simp only [step, Option.some.injEq, Prod.mk.injEq] at h
      obtain ⟨rfl, -⟩ := h
      exact hsame (sameIds_mark db lease m)
  | operatorCancel now id =>
      simp only [step, Option.some.injEq, Prod.mk.injEq] at h
      obtain ⟨rfl, -⟩ := h
      exact hsame (sameIds_operatorAction fun db r hr => sameIds_of_map (fun _ => rfl) hr)
  | redriveDead now id =>
      simp only [step, Option.some.injEq, Prod.mk.injEq] at h
      obtain ⟨rfl, -⟩ := h
      exact hsame (sameIds_operatorAction fun db r hr => sameIds_of_map (fun _ => rfl) hr)
  | _ => cases h

/-! ## The table and the transactions under way -/

/-- No two of the rows have the same id or the same entry of the index. -/
structure Apart (jobs : List (DroverJob pg)) : Prop where
  ids : (jobs.map DroverJob.id).Nodup
  entries : (jobs.filterMap DroverJob.entry).Nodup

theorem Apart.perm {jobs jobs' : List (DroverJob pg)} (h : Apart jobs) (hperm : jobs.Perm jobs') :
    Apart jobs' :=
  ⟨(hperm.map _).nodup_iff.mp h.ids, (hperm.filterMap _).nodup_iff.mp h.entries⟩

theorem Apart.sublist {jobs jobs' : List (DroverJob pg)} (h : Apart jobs)
    (hsub : jobs'.Sublist jobs) : Apart jobs' :=
  ⟨h.ids.sublist (hsub.map _), h.entries.sublist (hsub.filterMap _)⟩

theorem disjoint_of_clash {jobs jobs' : List (DroverJob pg)} (h : clash jobs jobs' = false) :
    (jobs.filterMap DroverJob.entry).Disjoint (jobs'.filterMap DroverJob.entry) := by
  intro entry hentry hentry'
  obtain ⟨job, hjob, hsome⟩ := List.mem_filterMap.mp hentry
  obtain ⟨job', hjob', hsome'⟩ := List.mem_filterMap.mp hentry'
  have hany : clash jobs jobs' = true :=
    List.any_eq_true.mpr ⟨job, hjob, List.any_eq_true.mpr ⟨job', hjob', by simp [hsome, hsome']⟩⟩
  rw [h] at hany
  cases hany

theorem Apart.append {jobs jobs' : List (DroverJob pg)} (h : Apart jobs) (h' : Apart jobs')
    (hids : (jobs.map DroverJob.id).Disjoint (jobs'.map DroverJob.id))
    (hentries : (jobs.filterMap DroverJob.entry).Disjoint (jobs'.filterMap DroverJob.entry)) :
    Apart (jobs ++ jobs') := by
  constructor
  · rw [List.map_append, List.nodup_append']
    exact ⟨h.ids, h'.ids, hids⟩
  · rw [List.filterMap_append, List.nodup_append']
    exact ⟨h.entries, h'.entries, hentries⟩

theorem apart_rows (db : Database pg) : Apart db.jobs.rows :=
  ⟨db.jobs.nodup, (indexed_iff_nodup db.jobs).mp db.unique⟩

/-- Rows that are apart from those of the table are added to it as it stands. -/
theorem Apart.rows_putAll {db : Database pg} {jobs : List (DroverJob pg)}
    (h : Apart (db.jobs.rows ++ jobs)) : (db.jobs.putAll jobs).rows = db.jobs.rows ++ jobs := by
  have hids := h.ids
  rw [List.map_append] at hids
  obtain ⟨-, hnodup, hdisjoint⟩ := List.nodup_append'.mp hids
  refine Table.rows_putAll_of_free (fun job hjob => ?_) hnodup
  refine Table.get?_eq_none_iff.mpr fun other hother heq => ?_
  exact hdisjoint (List.mem_map.mpr ⟨other, hother, heq⟩) (List.mem_map_of_mem hjob)

/-- The index does not refuse them. -/
theorem Apart.indexed_putAll {db : Database pg} {jobs : List (DroverJob pg)}
    (h : Apart (db.jobs.rows ++ jobs)) : Indexed (db.jobs.putAll jobs) := by
  rw [indexed_iff_nodup, h.rows_putAll]
  exact h.entries

/-- Nor when they are inserted one by one. -/
theorem replay_inserts {now : Time} {rows : Inserted pg}
    (hbuilt : ∀ x ∈ rows, newJob pg now x.2.id x.1 = some x.2) {db : Database pg}
    (hapart : Apart (db.jobs.rows ++ rows.map Prod.snd)) :
    (rows.map fun x => Atom.insert now x.2.id x.1).foldlM Atom.replay db =
      some ⟨db.jobs.putAll (rows.map Prod.snd), hapart.indexed_putAll⟩ := by
  induction rows generalizing db with
  | nil => rfl
  | cons x rows ih =>
      have hfirst : Apart (db.jobs.rows ++ [x.2]) :=
        hapart.sublist ((List.cons_sublist_cons.mpr (List.nil_sublist _)).append_left _)
      have hput : Indexed (db.jobs.put x.2) := hfirst.indexed_putAll
      have hrest : Apart ((db.jobs.put x.2).rows ++ rows.map Prod.snd) := by
        have hrows : (db.jobs.put x.2).rows = db.jobs.rows ++ [x.2] := hfirst.rows_putAll
        rw [hrows, List.append_assoc]
        exact hapart
      have hinsert : Atom.replay db (.insert now x.2.id x.1) = some ⟨db.jobs.put x.2, hput⟩ := by
        simp only [Atom.replay, Database.insertJob, hbuilt x (List.mem_cons_self ..),
          commit_of_indexed hput, Except.map]
      have hrows : Apart ((⟨db.jobs.put x.2, hput⟩ : Database pg).jobs.rows ++ rows.map Prod.snd) :=
        hrest
      rw [List.map_cons, List.foldlM_cons, hinsert]
      exact ih (fun y hy => hbuilt y (List.mem_cons_of_mem _ hy)) hrows

section World

variable {w : World pg} {t : Nat} {tx : Tx pg}

theorem pending_perm (h : w.txs[t]? = some tx) : w.pending.Perm (tx.jobs ++ w.others t) := by
  obtain ⟨hlt, heq⟩ := List.getElem?_eq_some_iff.mp h
  have hperm := (List.getElem_cons_eraseIdx_perm hlt).symm.flatMap_right Tx.jobs
  rw [heq, List.flatMap_cons] at hperm
  exact hperm

theorem pending_set (h : w.txs[t]? = some tx) (tx' : Tx pg) :
    ((w.txs.set t tx').flatMap Tx.jobs).Perm (tx'.jobs ++ w.others t) := by
  obtain ⟨hlt, -⟩ := List.getElem?_eq_some_iff.mp h
  have hperm := (List.set_perm_cons_eraseIdx hlt tx').flatMap_right Tx.jobs
  rw [List.flatMap_cons] at hperm
  exact hperm

/-- What every state keeps: the rows of the table and of the transactions under way could
all be in one table. -/
structure World.Good (w : World pg) : Prop where
  apart : Apart (w.db.jobs.rows ++ w.pending)
  built : ∀ tx ∈ w.txs, tx.Built
  issued : ∀ job ∈ w.db.jobs.rows ++ w.pending, job.id ∈ w.issued

theorem good_start (pg : Postgres) : (World.start pg).Good := by
  refine ⟨⟨?_, ?_⟩, by simp [World.start], ?_⟩
  all_goals simp [World.start, World.pending, Database.empty, Table.empty]

/-- What the table, a transaction and the others have is apart. -/
theorem World.Good.apart_tx (h : w.Good) (htx : w.txs[t]? = some tx) :
    Apart (w.db.jobs.rows ++ (tx.jobs ++ w.others t)) :=
  h.apart.perm ((pending_perm htx).append_left _)

theorem World.Good.issued_tx (h : w.Good) (htx : w.txs[t]? = some tx) :
    ∀ job ∈ w.db.jobs.rows ++ (tx.jobs ++ w.others t), job.id ∈ w.issued :=
  fun job hjob => h.issued job (((pending_perm htx).append_left _).mem_iff.mpr hjob)

/-- A step that changes one transaction and perhaps the table. -/
theorem World.Good.change (h : w.Good) (htx : w.txs[t]? = some tx) {tx' : Tx pg} {db : Database pg}
    {issued : List Int} {notices : Nat} (hbuilt : tx'.Built)
    (hapart : Apart (db.jobs.rows ++ (tx'.jobs ++ w.others t)))
    (hissued : ∀ job ∈ db.jobs.rows ++ (tx'.jobs ++ w.others t), job.id ∈ issued) :
    World.Good ⟨db, w.txs.set t tx', issued, notices⟩ := by
  have hperm : (db.jobs.rows ++ (w.txs.set t tx').flatMap Tx.jobs).Perm _ :=
    (pending_set htx tx').append_left db.jobs.rows
  refine ⟨hapart.perm hperm.symm, fun other hother => ?_, fun job hjob => ?_⟩
  · rcases List.mem_or_eq_of_mem_set hother with hmem | rfl
    · exact h.built other hmem
    · exact hbuilt
  · exact hissued job (hperm.mem_iff.mp hjob)

/-- A transaction that undoes some of what it has done, or ends. -/
theorem World.Good.shrink (h : w.Good) (htx : w.txs[t]? = some tx) (hopen : tx.isOpen = true)
    {tx' : Tx pg} (hpre : tx'.inserted <+: tx.inserted) (hbuilt : tx'.Built) {issued : List Int}
    (hsub : ∀ id ∈ w.issued, id ∈ issued) :
    World.Good ⟨w.db, w.txs.set t tx', issued, w.notices⟩ := by
  have hjobs : tx'.jobs.Sublist tx.jobs := by
    unfold Tx.jobs
    rw [if_pos hopen]
    split
    · exact hpre.sublist.map _
    · exact List.nil_sublist _
  have hall := (hjobs.append_right (w.others t)).append_left w.db.jobs.rows
  refine h.change htx hbuilt ((h.apart_tx htx).sublist hall) fun job hjob => ?_
  exact hsub _ (h.issued_tx htx job (hall.subset hjob))

/-- Rows as an insert makes them, under ids of their own. -/
structure New (now : Time) (ids : List Int) (rows : Inserted pg) : Prop where
  built : ∀ x ∈ rows, newJob pg now x.2.id x.1 = some x.2
  nodup : (rows.map fun x => x.2.id).Nodup
  mem : ∀ x ∈ rows, x.2.id ∈ ids

/-- An insert that goes through. -/
theorem World.Good.grow (h : w.Good) (htx : w.txs[t]? = some tx) (hopen : tx.isOpen = true)
    {ids : List Int} (hfresh : ∀ id ∈ ids, id ∉ w.issued) {rows : Inserted pg}
    (hnew : New tx.now ids rows) (hclash : clash (rows.map Prod.snd) (w.others t) = false)
    (hnodup : ((w.db.jobs.rows ++ tx.jobs ++ rows.map Prod.snd).filterMap DroverJob.entry).Nodup) :
    World.Good ⟨w.db, w.txs.set t { tx with inserted := tx.inserted ++ rows, ids := ids ++ tx.ids },
      ids ++ w.issued, w.notices⟩ := by
  have hbuilt := h.built tx (List.mem_of_getElem? htx)
  have hjobs : Tx.jobs { tx with inserted := tx.inserted ++ rows, ids := ids ++ tx.ids } =
      tx.jobs ++ rows.map Prod.snd := by
    have hopen' : Tx.isOpen
        { tx with inserted := tx.inserted ++ rows, ids := ids ++ tx.ids } = true := hopen
    rw [Tx.jobs, if_pos hopen', Tx.jobs, if_pos hopen, List.map_append]
  have hperm : (w.db.jobs.rows ++ (tx.jobs ++ w.others t) ++ rows.map Prod.snd).Perm
      (w.db.jobs.rows ++ ((tx.jobs ++ rows.map Prod.snd) ++ w.others t)) := by
    simp only [List.append_assoc]
    exact (List.perm_append_comm.append_left tx.jobs).append_left w.db.jobs.rows
  have hissued : ∀ job ∈ w.db.jobs.rows ++ (tx.jobs ++ w.others t) ++ rows.map Prod.snd,
      job.id ∈ ids ++ w.issued := by
    intro job hjob
    rcases List.mem_append.mp hjob with hold | hrow
    · exact List.mem_append_right _ (h.issued_tx htx job hold)
    · obtain ⟨x, hx, rfl⟩ := List.mem_map.mp hrow
      exact List.mem_append_left _ (hnew.mem x hx)
  refine h.change htx ?_ ?_ ?_
  · refine ⟨fun x hx => ?_, fun sp hsp => ?_, hbuilt.nested⟩
    · exact (List.mem_append.mp hx).elim (hbuilt.rows x) (hnew.built x)
    · exact (hbuilt.saved sp hsp).trans (List.prefix_append _ _)
  · rw [hjobs]
    refine Apart.perm (Apart.append (h.apart_tx htx) ⟨?_, ?_⟩ ?_ ?_) hperm
    · rw [List.map_map]
      exact hnew.nodup
    · rw [List.filterMap_append] at hnodup
      exact hnodup.of_append_right
    · intro id hid hid'
      obtain ⟨job, hjob, rfl⟩ := List.mem_map.mp hid
      rw [List.map_map] at hid'
      obtain ⟨x, hx, heq⟩ := List.mem_map.mp hid'
      have hsame : x.2.id = job.id := heq
      exact hfresh x.2.id (hnew.mem x hx) (hsame ▸ h.issued_tx htx job hjob)
    · rw [← List.append_assoc, List.filterMap_append, List.disjoint_append_left]
      rw [List.filterMap_append, List.nodup_append'] at hnodup
      exact ⟨hnodup.2.2, List.disjoint_symm (disjoint_of_clash hclash)⟩
  · rw [hjobs]
    exact fun job hjob => hissued job (hperm.mem_iff.mpr hjob)

theorem new_insert {now : Time} {id : Int} {arg : InsertJobParams} {job : DroverJob pg}
    (h : newJob pg now id arg = some job) : New now [id] [(arg, job)] := by
  have hid : job.id = id := by
    simp only [newJob, Option.bind_eq_bind, Option.bind_eq_some_iff, Option.pure_def,
      Option.some.injEq] at h
    obtain ⟨kind, -, queue, -, args, -, at_, -, key, -, rfl⟩ := h
    rfl
  refine ⟨fun x hx => ?_, by simp, fun x hx => ?_⟩
  all_goals
    rw [List.mem_singleton] at hx
    subst hx
  · rw [hid]
    exact h
  · simp [hid]

theorem newJob_of_copyFrom {now : Time} {f : Nat → Int} {i : Nat} {batch : List InsertParams}
    {staged : List (StagedJob pg)} (h : copyFrom pg i batch = some staged) :
    ∀ x ∈ (batch.map insertParams).zip (newJobs now f staged), newJob pg now x.2.id x.1 = some x.2 := by
  induction batch generalizing i staged f with
  | nil => simp
  | cons params batch ih =>
      simp only [copyFrom, Option.bind_eq_bind, Option.bind_eq_some_iff, Option.pure_def,
        Option.some.injEq] at h
      obtain ⟨first, hfirst, rest, hrest, rfl⟩ := h
      intro x hx
      rw [newJobs, List.map_cons, List.zip_cons_cons, List.mem_cons] at hx
      rcases hx with rfl | hx
      · exact (stagedJob_spec hfirst).2 now (f 0)
      · exact ih hrest x hx

theorem new_batchOf {now : Time} {ids : List Int} {batch : List InsertParams} {rows : Inserted pg}
    (hlen : ids.length = batch.length) (hnodup : ids.Nodup)
    (h : batchOf pg now ids batch = some rows) : New now ids rows := by
  obtain ⟨staged, hstaged, rfl⟩ := Option.map_eq_some_iff.mp h
  have hlength : staged.length = ids.length := (length_copyFrom hstaged).trans hlen.symm
  have hids : (((batch.map insertParams).zip (newJobs now (fun n => ids.getD n 0) staged)).map
      fun x => x.2.id) = ids := by
    have hle : (newJobs now (fun n => ids.getD n 0) staged).length ≤
        (batch.map insertParams).length := by
      rw [← List.length_map (f := DroverJob.id), map_id_newJobs]
      simp [hlength, hlen]
    rw [← Function.comp_def DroverJob.id Prod.snd, ← List.map_map, List.map_snd_zip hle,
      map_id_newJobs, hlength]
    refine List.ext_getElem (by simp) fun n hn hn' => ?_
    simp [hn']
  refine ⟨newJob_of_copyFrom hstaged, by rw [hids]; exact hnodup, fun x hx => ?_⟩
  have hmem := List.mem_map_of_mem (f := fun x : InsertJobParams × DroverJob pg => x.2.id) hx
  rw [hids] at hmem
  exact hmem

/-- What a step can do. -/
inductive Change (w : World pg) : TxLabel → World pg → Prop where
  | begin (now : Time) : Change w (.begin now) { w with txs := w.txs ++ [Tx.begin now] }
  /-- a transaction undoes some of what it has done, or ends without a trace -/
  | shrink {label : TxLabel} {t : Nat} {tx tx' : Tx pg} {ids : List Int}
      (htx : w.txs[t]? = some tx) (hopen : tx.isOpen = true) (hstatus : tx'.status ≠ .committed)
      (hids : tx'.ids = ids ++ tx.ids) (hfresh : ∀ id ∈ ids, id ∉ w.issued)
      (hpre : tx'.inserted <+: tx.inserted) (hbuilt : tx'.Built) (hquiet : w.Quiet label) :
      Change w label ⟨w.db, w.txs.set t tx', ids ++ w.issued, w.notices⟩
  /-- a transaction inserts -/
  | grow {label : TxLabel} {t : Nat} {tx : Tx pg} {ids : List Int} {rows : Inserted pg}
      (htx : w.txs[t]? = some tx) (hlive : tx.status = .live) (hfresh : ∀ id ∈ ids, id ∉ w.issued)
      (hnew : New tx.now ids rows) (hclash : clash (rows.map Prod.snd) (w.others t) = false)
      (hnodup : ((w.db.jobs.rows ++ tx.jobs ++ rows.map Prod.snd).filterMap DroverJob.entry).Nodup)
      (hquiet : w.Quiet label) :
      Change w label
        ⟨w.db, w.txs.set t { tx with inserted := tx.inserted ++ rows, ids := ids ++ tx.ids },
          ids ++ w.issued, w.notices⟩
  | commit {t : Nat} {tx : Tx pg} {db : Database pg} (htx : w.txs[t]? = some tx)
      (hlive : tx.status = .live) (hdb : Pgdriver.commit (w.db.jobs.putAll tx.jobs) = .ok db) :
      Change w (.commit t)
        ⟨db, w.txs.set t { tx with status := .committed }, w.issued, w.notices + tx.notified.toNat⟩
  | call {id : Int} {op : Op} {db : Database pg} {answer : Reply}
      (hstep : Pgdriver.step w.db id op = some (db, answer)) (hfresh : id ∉ w.issued)
      (hclash : clash db.jobs.rows w.pending = false) :
      Change w (.call id op) ⟨db, w.txs, id :: w.issued, w.notices⟩
  | send : Change w .send { w with notices := w.notices + 1 }

theorem isOpen_of_live (h : tx.status = .live) : tx.isOpen = true := by simp [Tx.isOpen, h]

theorem status_fail (tx : Tx pg) : tx.fail.status = .failed := by
  unfold Tx.fail
  split <;> rfl

theorem Change.of_insert {label : TxLabel} (h : w.Good) (htx : w.txs[t]? = some tx)
    (hlive : tx.status = .live) {ids : List Int} (hfresh : ∀ id ∈ ids, id ∉ w.issued)
    {rows : Option (Inserted pg)} (hrows : ∀ rs, rows = some rs → New tx.now ids rs) {ok : Bool}
    {w' : World pg} (hquiet : w.Quiet label) (hs : w.insert t tx ids rows ok = some w') :
    Change w label w' := by
  have hbuilt := h.built tx (List.mem_of_getElem? htx)
  have hopen := isOpen_of_live hlive
  have hfail : Change w label ⟨w.db, w.txs.set t (Tx.fail { tx with ids := ids ++ tx.ids }),
      ids ++ w.issued, w.notices⟩ := by
    have hshrinks : Tx.Shrinks { tx with ids := ids ++ tx.ids } _ :=
      Tx.Built.shrinks_fail ⟨hbuilt.rows, hbuilt.saved, hbuilt.nested⟩
    exact .shrink htx hopen (by simp [status_fail]) hshrinks.ids hfresh hshrinks.inserted
      (hshrinks.built ⟨hbuilt.rows, hbuilt.saved, hbuilt.nested⟩) hquiet
  unfold World.insert at hs
  cases rows with
  | none =>
      cases hs
      exact hfail
  | some rs =>
      dsimp only at hs
      split at hs
      · cases hs
        exact hfail
      · split at hs
        · cases hs
        · rename_i hclash
          split at hs
          · rename_i hnodup
            cases hs
            exact .grow htx hlive hfresh (hrows rs rfl) (Bool.eq_false_iff.mpr hclash) hnodup hquiet
          · cases hs
            exact hfail

theorem Change.of_shrinks {label : TxLabel} (h : w.Good) (htx : w.txs[t]? = some tx)
    (hopen : tx.isOpen = true) {tx' : Tx pg} (hshrinks : tx.Shrinks tx')
    (hstatus : tx'.status ≠ .committed) (hquiet : w.Quiet label) :
    Change w label (w.set t tx') := by
  have hids : tx'.ids = [] ++ tx.ids := hshrinks.ids
  exact .shrink htx hopen hstatus hids (by simp) hshrinks.inserted
    (hshrinks.built (h.built tx (List.mem_of_getElem? htx))) hquiet

/-- Ending leaves what was inserted for the record. -/
theorem Tx.shrinks_status (tx : Tx pg) (status : TxStatus) :
    tx.Shrinks { tx with status := status } :=
  ⟨rfl, rfl, List.prefix_refl _, fun h => ⟨h.rows, h.saved, h.nested⟩⟩

theorem not_committed_of_isOpen (h : tx.isOpen = true) : tx.status ≠ .committed := by
  intro heq
  simp [Tx.isOpen, heq] at h

theorem isOpen_fail (tx : Tx pg) : tx.fail.isOpen = true := by simp [Tx.isOpen, status_fail]

theorem Tx.isOpen_exec (h : tx.isOpen = true) (ok : Bool) (effect : Tx pg → Tx pg)
    (heffect : (effect tx).isOpen = tx.isOpen) : (tx.exec ok effect).1.isOpen = true := by
  unfold Tx.exec
  split
  · cases ok
    · exact isOpen_fail tx
    · exact heffect.trans h
  · exact h

theorem Tx.isOpen_rollbackTo (tx : Tx pg) (depth : Nat) (ok : Bool) :
    (tx.rollbackTo depth ok).1.isOpen = true := by
  unfold Tx.rollbackTo
  split
  · exact isOpen_fail tx
  · cases ok
    · exact isOpen_fail tx
    · rfl

/-- `NotifyTx` ends no transaction. -/
theorem Tx.isOpen_notifyTx (h : tx.isOpen = true) (out : NotifyOutcome) :
    (tx.notifyTx out).1.isOpen = true := by
  have hsaved := Tx.isOpen_exec h out.savepoint Tx.save rfl
  have hsent := Tx.isOpen_exec hsaved out.notify Tx.send rfl
  have hreleased := Tx.isOpen_exec hsent out.release (Tx.release 0) rfl
  unfold Tx.notifyTx
  dsimp only
  split
  · exact hsaved
  · split
    · split <;> exact Tx.isOpen_rollbackTo _ _ _
    · split <;> exact hreleased

/-- Nor does a statement of the caller's. -/
theorem Tx.isOpen_caller (h : tx.isOpen = true) (ok : Bool) (statement : Statement) :
    (tx.caller ok statement).1.isOpen = true := by
  cases statement with
  | savepoint => exact Tx.isOpen_exec h ok Tx.save rfl
  | rollbackTo depth => exact Tx.isOpen_rollbackTo tx depth ok
  | release depth => exact Tx.isOpen_exec h _ (Tx.release depth) rfl
  | other => exact Tx.isOpen_exec h ok id rfl

/-- What a step that changes one open transaction has changed. -/
theorem World.exists_isOpen {effect : Tx pg → Tx pg} {w' : World pg}
    (hs : (match w.txs[t]? with
      | some tx => if tx.isOpen then some (w.set t (effect tx)) else none
      | none => none) = some w') :
    ∃ tx, w.txs[t]? = some tx ∧ tx.isOpen = true ∧ w' = w.set t (effect tx) := by
  split at hs
  · rename_i tx htx
    split at hs
    · rename_i hopen
      cases hs
      exact ⟨tx, htx, hopen, rfl⟩
    · cases hs
  · cases hs

theorem Change.of_step (h : w.Good) {label : TxLabel} {w' : World pg}
    (hs : w.step label = some w') : Change w label w' := by
  cases label with
  | begin now =>
      cases hs
      exact .begin now
  | insert t id params ok =>
      rw [World.step] at hs
      split at hs
      · rename_i tx htx
        split at hs
        · rename_i hok
          have hfresh : ∀ k ∈ [id], k ∉ w.issued := by simpa using hok.2
          refine .of_insert h htx hok.1 hfresh (fun rs hrs => ?_) ⟨rfl, rfl⟩ hs
          obtain ⟨job, hjob, rfl⟩ := Option.map_eq_some_iff.mp hrs
          exact new_insert hjob
        · cases hs
      · cases hs
  | insertMany t ids batch ok =>
      rw [World.step] at hs
      split at hs
      · split at hs
        · rename_i tx htx hok
          obtain ⟨hlive, hlen, hnodup, hfresh, -⟩ := hok
          exact .of_insert h htx hlive hfresh (fun rs => new_batchOf hlen hnodup) ⟨rfl, rfl⟩ hs
        · cases hs
      · cases hs
  | notify t out =>
      obtain ⟨tx, htx, hopen, rfl⟩ := World.exists_isOpen hs
      have hbuilt := h.built tx (List.mem_of_getElem? htx)
      exact .of_shrinks h htx hopen (hbuilt.shrinks_notifyTx out)
        (not_committed_of_isOpen (Tx.isOpen_notifyTx hopen out)) ⟨rfl, rfl⟩
  | caller t statement ok =>
      obtain ⟨tx, htx, hopen, rfl⟩ := World.exists_isOpen hs
      have hbuilt := h.built tx (List.mem_of_getElem? htx)
      exact .of_shrinks h htx hopen (hbuilt.shrinks_caller ok statement)
        (not_committed_of_isOpen (Tx.isOpen_caller hopen ok statement)) ⟨rfl, rfl⟩
  | commit t =>
      rw [World.step] at hs
      split at hs
      · rename_i tx htx
        split at hs
        · rename_i hlive
          split at hs
          · rename_i db hdb
            cases hs
            exact .commit htx hlive hdb
          · cases hs
        · rename_i hlive
          split at hs
          · rename_i hfailed
            cases hs
            refine .of_shrinks h htx (by simp [Tx.isOpen, hfailed]) (tx.shrinks_status .rolledBack)
              (by simp) ⟨?_, rfl⟩
            simp [World.effects, htx, hlive]
          · cases hs
      · cases hs
  | rollback t =>
      obtain ⟨tx, htx, hopen, rfl⟩ := World.exists_isOpen hs
      exact .of_shrinks h htx hopen (tx.shrinks_status .rolledBack) (by simp) ⟨rfl, rfl⟩
  | call id op =>
      rw [World.step] at hs
      split at hs
      · rename_i db answer hstep
        split at hs
        · cases hs
        · rename_i hok
          cases hs
          obtain ⟨hfresh, hclash⟩ := not_or.mp hok
          exact .call hstep hfresh (Bool.eq_false_iff.mpr hclash)
      · cases hs
  | send =>
      cases hs
      exact .send

/-! ## Every state a run reaches -/

theorem World.Good.apart_commit (h : w.Good) (htx : w.txs[t]? = some tx) :
    Apart (w.db.jobs.rows ++ tx.jobs) := by
  have hsub := List.sublist_append_left (w.db.jobs.rows ++ tx.jobs) (w.others t)
  rw [List.append_assoc] at hsub
  exact (h.apart_tx htx).sublist hsub

theorem Change.good (h : w.Good) {label : TxLabel} {w' : World pg} (hc : Change w label w') :
    w'.Good := by
  cases hc with
  | begin now =>
      have hpending : World.pending { w with txs := w.txs ++ [Tx.begin now] } = w.pending := by
        simp [World.pending, Tx.jobs, Tx.begin]
      refine ⟨?_, fun tx htx => ?_, ?_⟩
      · rw [hpending]
        exact h.apart
      · rcases List.mem_append.mp htx with hold | hnew
        · exact h.built tx hold
        · rw [List.mem_singleton.mp hnew]
          exact built_begin now
      · rw [hpending]
        exact h.issued
  | shrink htx hopen hstatus hids hfresh hpre hbuilt hquiet =>
      exact h.shrink htx hopen hpre hbuilt fun id => List.mem_append_right _
  | grow htx hlive hfresh hnew hclash hnodup hquiet =>
      exact h.grow htx (isOpen_of_live hlive) hfresh hnew hclash hnodup
  | @commit t tx db htx hlive hdb =>
      have hrows : db.jobs.rows = w.db.jobs.rows ++ tx.jobs := by
        rw [jobs_of_commit hdb, (h.apart_commit htx).rows_putAll]
      have hbuilt := h.built tx (List.mem_of_getElem? htx)
      have hjobs : Tx.jobs { tx with status := .committed } = [] := rfl
      refine h.change htx ((tx.shrinks_status .committed).built hbuilt) ?_ ?_
      · rw [hrows, hjobs, List.nil_append, List.append_assoc]
        exact h.apart_tx htx
      · rw [hrows, hjobs, List.nil_append, List.append_assoc]
        exact h.issued_tx htx
  | @call id op db answer hstep hfresh hclash =>
      -- a row of the table was there before, or is the one just inserted
      have hold : ∀ job ∈ db.jobs.rows, job.id ≠ id → job.id ∈ w.db.jobs.rows.map DroverJob.id := by
        intro job hjob hne
        rw [← Table.isSome_get?_iff, ← step_ids hstep job.id hne, Table.isSome_get?_iff]
        exact List.mem_map_of_mem hjob
      have hapart := h.apart.ids
      rw [List.map_append, List.nodup_append'] at hapart
      have hpending : Apart w.pending := h.apart.sublist (List.sublist_append_right _ _)
      refine ⟨(apart_rows db).append hpending ?_ (disjoint_of_clash hclash), h.built, ?_⟩
      · intro k hk hk'
        obtain ⟨job, hjob, rfl⟩ := List.mem_map.mp hk
        refine hapart.2.2 (hold job hjob fun heq => ?_) hk'
        obtain ⟨other, hother, hsame⟩ := List.mem_map.mp hk'
        rw [← heq, ← hsame] at hfresh
        exact hfresh (h.issued other (List.mem_append_right _ hother))
      · intro job hjob
        rcases List.mem_append.mp hjob with hrow | hrow
        · by_cases heq : job.id = id
          · exact List.mem_cons.mpr (Or.inl heq)
          · obtain ⟨other, hother, hsame⟩ := List.mem_map.mp (hold job hrow heq)
            rw [← hsame]
            exact List.mem_cons_of_mem _ (h.issued other (List.mem_append_left _ hother))
        · exact List.mem_cons_of_mem _ (h.issued job (List.mem_append_right _ hrow))
  | send => exact ⟨h.apart, h.built, h.issued⟩

theorem World.Good.next (h : w.Good) (label : TxLabel) : (w.next label).Good := by
  unfold World.next
  cases hs : w.step label with
  | none => exact h
  | some w' => exact (Change.of_step h hs).good h

/-- A step that cannot be taken is no commit of a live transaction. -/
theorem World.Good.effects_of_none (h : w.Good) {label : TxLabel} (hs : w.step label = none) :
    w.effects label = [] := by
  cases label with
  | commit t =>
      rw [World.effects]
      cases htx : w.txs[t]? with
      | none => rfl
      | some tx =>
          refine if_neg fun hlive => ?_
          rw [World.step, htx] at hs
          simp [hlive, commit_of_indexed (h.apart_commit htx).indexed_putAll] at hs
  | call id op =>
      rw [World.effects, hs]
      rfl
  | _ => rfl

/-- The effect of a step on the table is that of the calls it makes visible. -/
theorem World.Good.replay (h : w.Good) (label : TxLabel) :
    (w.effects label).foldlM Atom.replay w.db = some (w.next label).db := by
  cases hs : w.step label with
  | none =>
      rw [h.effects_of_none hs, World.next, hs]
      rfl
  | some w' =>
      rw [World.next, hs, Option.getD_some]
      cases Change.of_step h hs with
      | begin now => rfl
      | shrink htx hopen hstatus hids hfresh hpre hbuilt hquiet =>
          rw [hquiet.1]
          rfl
      | grow htx hlive hfresh hnew hclash hnodup hquiet =>
          rw [hquiet.1]
          rfl
      | @commit t tx db htx hlive hdb =>
          have hjobs : tx.jobs = tx.inserted.map Prod.snd := if_pos (isOpen_of_live hlive)
          have hapart := h.apart_commit htx
          rw [commit_of_indexed hapart.indexed_putAll, Except.ok.injEq] at hdb
          subst hdb
          rw [World.effects, htx]
          dsimp only
          rw [if_pos hlive]
          simp only [hjobs] at hapart ⊢
          exact replay_inserts (h.built tx (List.mem_of_getElem? htx)).rows hapart
      | @call id op db answer hstep hfresh hclash =>
          rw [World.effects, hs]
          simp [Atom.replay, hstep]
      | send => rfl

end World

/-- Transactions that overlap, with the calls of everybody else between their statements,
leave the table as their inserts do made one after another when each transaction commits:
none of those inserts fails. -/
theorem run_serial (pg : Postgres) (labels : List TxLabel) :
    (emitted World.next World.effects (World.start pg) labels).foldlM Atom.replay
        (Database.empty pg) =
      some (run World.next (World.start pg) labels).db := by
  have hrun : ∀ (w : World pg), w.Good →
      (emitted World.next World.effects w labels).foldlM Atom.replay w.db =
        some (run World.next w labels).db := by
    induction labels with
    | nil => exact fun w _ => rfl
    | cons label labels ih =>
        intro w h
        rw [emitted, List.foldlM_append, h.replay label]
        exact ih (w.next label) (h.next label)
  exact hrun (World.start pg) (good_start pg)

/-! ## What is seen of a transaction -/

/-- Of the ids a transaction was handed, the table has those of the rows it has left, once
it is committed, and none before. -/
structure Tx.Shown (db : Database pg) (issued : List Int) (tx : Tx pg) : Prop where
  issued : ∀ id ∈ tx.ids, id ∈ issued
  owned : ∀ x ∈ tx.inserted, x.2.id ∈ tx.ids
  visible : ∀ id ∈ tx.ids, (id ∈ db.jobs.rows.map DroverJob.id ↔
    tx.status = .committed ∧ id ∈ tx.inserted.map fun x => x.2.id)

structure World.Shown (w : World pg) : Prop where
  each : ∀ (t : Nat) (tx : Tx pg), w.txs[t]? = some tx → tx.Shown w.db w.issued
  apart : ∀ (t t' : Nat) (tx tx' : Tx pg), w.txs[t]? = some tx → w.txs[t']? = some tx' → t ≠ t' →
    tx.ids.Disjoint tx'.ids

section Shown

variable {w : World pg} {t : Nat} {tx : Tx pg}

theorem Tx.Shown.mono {db : Database pg} {issued issued' : List Int} (h : tx.Shown db issued)
    (hsub : ∀ id ∈ issued, id ∈ issued') : tx.Shown db issued' :=
  ⟨fun id hid => hsub id (h.issued id hid), h.owned, h.visible⟩

theorem getElem?_set_cases {α : Type} {l : List α} {t t' : Nat} {a b : α}
    (h : (l.set t a)[t']? = some b) : (t' = t ∧ b = a) ∨ (t' ≠ t ∧ l[t']? = some b) := by
  by_cases heq : t' = t
  · subst heq
    rw [List.getElem?_set_self'] at h
    obtain ⟨c, -, rfl⟩ := Option.map_eq_some_iff.mp h
    exact Or.inl ⟨rfl, rfl⟩
  · rw [List.getElem?_set_ne (Ne.symm heq)] at h
    exact Or.inr ⟨heq, h⟩

/-- A step that changes one transaction and perhaps the table. -/
theorem World.Shown.change (h : w.Shown) (htx : w.txs[t]? = some tx) {tx' : Tx pg} {ids : List Int}
    {db : Database pg} {notices : Nat} (hids : tx'.ids = ids ++ tx.ids)
    (hfresh : ∀ id ∈ ids, id ∉ w.issued) (hself : tx'.Shown db (ids ++ w.issued))
    (hothers : ∀ t' other, t' ≠ t → w.txs[t']? = some other → other.Shown db (ids ++ w.issued)) :
    World.Shown ⟨db, w.txs.set t tx', ids ++ w.issued, notices⟩ := by
  have hdisjoint : ∀ t' other, t' ≠ t → w.txs[t']? = some other → tx'.ids.Disjoint other.ids := by
    intro t' other hne hother id hid hid'
    rw [hids] at hid
    rcases List.mem_append.mp hid with hnew | hold
    · exact hfresh id hnew ((h.each t' other hother).issued id hid')
    · exact h.apart t t' tx other htx hother (Ne.symm hne) hold hid'
  constructor
  · intro t' other hother
    rcases getElem?_set_cases hother with ⟨-, rfl⟩ | ⟨hne, hother⟩
    · exact hself
    · exact hothers t' other hne hother
  · intro t₁ t₂ tx₁ tx₂ h₁ h₂ hne
    rcases getElem?_set_cases h₁ with ⟨rfl, rfl⟩ | ⟨hne₁, hold₁⟩
    · rcases getElem?_set_cases h₂ with ⟨rfl, -⟩ | ⟨hne₂, hold₂⟩
      · exact absurd rfl hne
      · exact hdisjoint t₂ tx₂ hne₂ hold₂
    · rcases getElem?_set_cases h₂ with ⟨rfl, rfl⟩ | ⟨-, hold₂⟩
      · exact List.disjoint_symm (hdisjoint t₁ tx₁ hne₁ hold₁)
      · exact h.apart t₁ t₂ tx₁ tx₂ hold₁ hold₂ hne

/-- Nothing is seen of a transaction under way, whatever it does but commit. -/
theorem World.Shown.keep (hgood : w.Good) (h : w.Shown) (htx : w.txs[t]? = some tx)
    (hopen : tx.isOpen = true) {tx' : Tx pg} {ids : List Int} (hids : tx'.ids = ids ++ tx.ids)
    (hfresh : ∀ id ∈ ids, id ∉ w.issued) (howned : ∀ x ∈ tx'.inserted, x.2.id ∈ tx'.ids)
    (hstatus : tx'.status ≠ .committed) :
    World.Shown ⟨w.db, w.txs.set t tx', ids ++ w.issued, w.notices⟩ := by
  have hold := h.each t tx htx
  refine h.change htx hids hfresh ⟨fun id hid => ?_, howned, fun id hid => ?_⟩
    fun t' other _ hother => (h.each t' other hother).mono fun id => List.mem_append_right _
  · rw [hids] at hid
    exact (List.mem_append.mp hid).elim (List.mem_append_left _)
      fun hmem => List.mem_append_right _ (hold.issued id hmem)
  · refine ⟨fun hrow => ?_, fun hcommitted => absurd hcommitted.1 hstatus⟩
    rw [hids] at hid
    rcases List.mem_append.mp hid with hnew | hmem
    · obtain ⟨job, hjob, rfl⟩ := List.mem_map.mp hrow
      exact absurd (hgood.issued job (List.mem_append_left _ hjob)) (hfresh job.id hnew)
    · exact absurd ((hold.visible id hmem).mp hrow).1 (not_committed_of_isOpen hopen)

theorem Change.shown (hgood : w.Good) (h : w.Shown) {label : TxLabel} {w' : World pg}
    (hc : Change w label w') : w'.Shown := by
  cases hc with
  | begin now =>
      have hcases : ∀ {t : Nat} {tx : Tx pg}, (w.txs ++ [Tx.begin now])[t]? = some tx →
          w.txs[t]? = some tx ∨ tx = Tx.begin now := by
        intro t tx htx
        by_cases hlt : t < w.txs.length
        · rw [List.getElem?_append_left hlt] at htx
          exact Or.inl htx
        · rw [List.getElem?_append_right (Nat.le_of_not_lt hlt)] at htx
          exact Or.inr (List.mem_singleton.mp (List.mem_of_getElem? htx))
      refine ⟨fun t tx htx => ?_, fun t₁ t₂ tx₁ tx₂ h₁ h₂ hne => ?_⟩
      · rcases hcases htx with hold | rfl
        · exact h.each t tx hold
        · exact ⟨by simp [Tx.begin], by simp [Tx.begin], by simp [Tx.begin]⟩
      · rcases hcases h₁ with hold₁ | rfl
        · rcases hcases h₂ with hold₂ | rfl
          · exact h.apart t₁ t₂ tx₁ tx₂ hold₁ hold₂ hne
          · exact List.disjoint_nil_right _
        · exact List.disjoint_nil_left _
  | @shrink _ t tx tx' ids htx hopen hstatus hids hfresh hpre hbuilt hquiet =>
      refine h.keep hgood htx hopen hids hfresh (fun x hx => ?_) hstatus
      rw [hids]
      exact List.mem_append_right _ ((h.each t tx htx).owned x (hpre.subset hx))
  | @grow _ t tx ids rows htx hlive hfresh hnew hclash hnodup hquiet =>
      have hopen := isOpen_of_live hlive
      refine h.keep hgood htx hopen rfl hfresh (fun x hx => ?_) (not_committed_of_isOpen hopen)
      rcases List.mem_append.mp hx with hold | hrow
      · exact List.mem_append_right _ ((h.each t tx htx).owned x hold)
      · exact List.mem_append_left _ (hnew.mem x hrow)
  | @commit t tx db htx hlive hdb =>
      have hrows : db.jobs.rows = w.db.jobs.rows ++ tx.jobs := by
        rw [jobs_of_commit hdb, (hgood.apart_commit htx).rows_putAll]
      have hjobs : tx.jobs.map DroverJob.id = tx.inserted.map fun x => x.2.id := by
        rw [Tx.jobs, if_pos (isOpen_of_live hlive), List.map_map]
        rfl
      have hold := h.each t tx htx
      have hids : ({ tx with status := .committed } : Tx pg).ids = [] ++ tx.ids := rfl
      refine h.change htx hids (by simp) ⟨hold.issued, hold.owned, fun id hid => ?_⟩
        fun t' other hne hother => ?_
      · rw [hrows, List.map_append, List.mem_append, hjobs, hold.visible id hid, hlive]
        simp
      · have hshown := h.each t' other hother
        refine ⟨hshown.issued, hshown.owned, fun id hid => ?_⟩
        rw [hrows, List.map_append, List.mem_append, hjobs, ← hshown.visible id hid]
        refine or_iff_left fun hmem => ?_
        obtain ⟨x, hx, rfl⟩ := List.mem_map.mp hmem
        exact h.apart t t' tx other htx hother (Ne.symm hne) (hold.owned x hx) hid
  | @call id op db answer hstep hfresh hclash =>
      refine ⟨fun t tx htx => ?_, h.apart⟩
      have hshown := h.each t tx htx
      refine ⟨fun k hk => List.mem_cons_of_mem _ (hshown.issued k hk), hshown.owned, fun k hk => ?_⟩
      have hne : k ≠ id := fun heq => hfresh (heq ▸ hshown.issued k hk)
      rw [← Table.isSome_get?_iff, step_ids hstep k hne, Table.isSome_get?_iff]
      exact hshown.visible k hk
  | send => exact ⟨h.each, h.apart⟩

theorem World.Shown.next (hgood : w.Good) (h : w.Shown) (label : TxLabel) : (w.next label).Shown := by
  unfold World.next
  cases hs : w.step label with
  | none => exact h
  | some w' => exact (Change.of_step hgood hs).shown hgood h

/-- The notification of a transaction has been sent. -/
def Tx.posted (tx : Tx pg) : Bool := tx.status == .committed && tx.notified

def World.posted (w : World pg) : Nat := w.txs.countP Tx.posted

theorem posted_set (htx : w.txs[t]? = some tx) (tx' : Tx pg) (db : Database pg) (issued : List Int)
    (notices : Nat) :
    World.posted ⟨db, w.txs.set t tx', issued, notices⟩ + tx.posted.toNat =
      w.posted + tx'.posted.toNat := by
  obtain ⟨hlt, heq⟩ := List.getElem?_eq_some_iff.mp htx
  have hbefore := (List.getElem_cons_eraseIdx_perm hlt).countP_eq Tx.posted
  have hafter := (List.set_perm_cons_eraseIdx hlt tx').countP_eq Tx.posted
  rw [heq, List.countP_cons] at hbefore
  rw [List.countP_cons] at hafter
  unfold World.posted
  cases hp : tx.posted <;> cases hp' : tx'.posted <;> simp [hp, hp'] at hbefore hafter ⊢ <;> omega

theorem not_posted (h : tx.status ≠ .committed) : tx.posted = false := by simp [Tx.posted, h]

theorem Change.notices {label : TxLabel} {w' : World pg} (hc : Change w label w') :
    w'.notices + w.posted = w'.posted + w.notices + label.isSend.toNat := by
  cases hc with
  | begin now =>
      have hposted : World.posted { w with txs := w.txs ++ [Tx.begin now] } = w.posted := by
        rw [World.posted, List.countP_append]
        rfl
      simp [hposted, TxLabel.isSend, Nat.add_comm]
  | @shrink _ t tx tx' ids htx hopen hstatus hids hfresh hpre hbuilt hquiet =>
      have hset := posted_set htx tx' w.db (ids ++ w.issued) w.notices
      rw [not_posted (not_committed_of_isOpen hopen), not_posted hstatus] at hset
      rw [hquiet.2, Nat.add_right_cancel hset]
      exact Nat.add_comm _ _
  | @grow _ t tx ids rows htx hlive hfresh hnew hclash hnodup hquiet =>
      have hset := posted_set htx { tx with inserted := tx.inserted ++ rows, ids := ids ++ tx.ids }
        w.db (ids ++ w.issued) w.notices
      rw [hquiet.2, Nat.add_right_cancel hset]
      exact Nat.add_comm _ _
  | @commit t tx db htx hlive hdb =>
      have hset := posted_set htx { tx with status := .committed } db w.issued
        (w.notices + tx.notified.toNat)
      have hbefore : tx.posted = false :=
        not_posted (not_committed_of_isOpen (isOpen_of_live hlive))
      have hafter : Tx.posted { tx with status := .committed } = tx.notified := rfl
      rw [hbefore, hafter, Bool.toNat_false, Nat.add_zero] at hset
      rw [hset]
      simp only [TxLabel.isSend, Bool.toNat_false]
      omega
  | call hstep hfresh hclash => exact Nat.add_comm _ _
  | send =>
      change w.notices + 1 + w.posted = w.posted + w.notices + 1
      omega

theorem World.Good.notices_next (h : w.Good) (label : TxLabel) :
    (w.next label).notices + w.posted = (w.next label).posted + w.notices + label.isSend.toNat := by
  unfold World.next
  cases hs : w.step label with
  | some w' => exact (Change.of_step h hs).notices
  | none =>
      cases label with
      | send => cases hs
      | _ => exact Nat.add_comm _ _

theorem World.Good.notices_run (h : w.Good) (labels : List TxLabel) :
    (run World.next w labels).notices + w.posted =
      (run World.next w labels).posted + w.notices + labels.countP TxLabel.isSend := by
  induction labels generalizing w with
  | nil => exact Nat.add_comm _ _
  | cons label labels ih =>
      have hfirst := h.notices_next label
      have hrest := ih (h.next label)
      rw [run_cons, List.countP_cons]
      cases hsend : label.isSend <;> simp [hsend] at hfirst ⊢ <;> omega

end Shown

/-- At every moment, of the rows a transaction was handed ids for, everybody sees those it
has not undone if it has committed, and none otherwise; and the notifications sent are
those of `Notify` and one for each transaction that committed after a `NotifyTx` it has
not undone. -/
theorem run_visible_iff_committed (pg : Postgres) (labels : List TxLabel) :
    let w := run World.next (World.start pg) labels
    (∀ (t : Nat) (tx : Tx pg), w.txs[t]? = some tx → ∀ id ∈ tx.ids,
      ((w.db.jobs.get? id).isSome = true ↔
        tx.status = .committed ∧ id ∈ tx.inserted.map fun x => x.2.id)) ∧
    w.notices = w.posted + labels.countP TxLabel.isSend := by
  intro w
  have hrun : w.Good ∧ w.Shown :=
    run_invariant (P := fun w : World pg => w.Good ∧ w.Shown)
      (fun s label h => ⟨h.1.next label, h.2.next h.1 label⟩)
      ⟨good_start pg, by simp [World.start], by simp [World.start]⟩ labels
  refine ⟨fun t tx htx id hid => ?_, ?_⟩
  · rw [Table.isSome_get?_iff]
    exact (hrun.2.each t tx htx).visible id hid
  · have hcount := (good_start pg).notices_run labels
    rwa [show (World.start pg).posted = 0 from rfl, show (World.start pg).notices = 0 from rfl,
      Nat.add_zero, Nat.add_zero] at hcount

/-- Two transactions that overlap.  The first undoes one of its two inserts, its
`pg_notify` fails and is undone, and it commits; the second is rolled back. -/
def overlapping : List TxLabel :=
  [.begin 1000, .begin 1000, .insert 0 1 sample true, .insert 1 2 sample true,
    .caller 0 .savepoint true, .insert 0 3 sample true, .caller 0 (.rollbackTo 0) true,
    .notify 0 ⟨true, false, true, true⟩, .notify 1 ⟨true, true, true, true⟩, .commit 0, .rollback 1]

theorem overlapping_visible :
    ∃ tx tx' : Tx micros,
      let w := run World.next (World.start micros) overlapping
      (w.txs = [tx, tx'] ∧ tx.ids = [3, 1] ∧ tx'.ids = [2]) ∧
      (∀ id ∈ tx.ids, ((w.db.jobs.get? id).isSome = true ↔
        tx.status = .committed ∧ id ∈ tx.inserted.map fun x => x.2.id)) ∧
      (∀ id ∈ tx'.ids, ((w.db.jobs.get? id).isSome = true ↔
        tx'.status = .committed ∧ id ∈ tx'.inserted.map fun x => x.2.id)) ∧
      (tx.status = .committed ∧ (tx.inserted.map fun x => x.2.id) = [1]) ∧
      tx'.status = .rolledBack ∧ w.notices = 0 := by
  obtain ⟨tx, tx', htxs⟩ : ∃ tx tx' : Tx micros,
      (run World.next (World.start micros) overlapping).txs = [tx, tx'] := ⟨_, _, rfl⟩
  have hids : (run World.next (World.start micros) overlapping).txs.map
      (fun tx => (tx.status, tx.ids, tx.inserted.map fun x => x.2.id)) =
        [(.committed, [3, 1], [1]), (.rolledBack, [2], [2])] := rfl
  have hseen := (run_visible_iff_committed micros overlapping).1
  simp only [htxs, List.map_cons, List.map_nil, List.cons.injEq, Prod.mk.injEq, and_true] at hids
  obtain ⟨⟨hstatus, hids, hleft⟩, hstatus', hids', -⟩ := hids
  exact ⟨tx, tx', ⟨htxs, hids, hids'⟩, hseen 0 tx (by rw [htxs]; rfl),
    hseen 1 tx' (by rw [htxs]; rfl), ⟨hstatus, hleft⟩, hstatus', rfl⟩

end Drover.Pgdriver
