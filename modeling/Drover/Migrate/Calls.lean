import Mathlib.Data.List.Sort
import Mathlib.Logic.Function.Basic
import Drover.Foundation.Run
import Drover.Go.Strings

set_option autoImplicit false

/-!
# Migrations (`internal/migrate/migrate.go`)

Any number of `Migrate` calls over one database, a statement at a time.  Every statement
may fail, and a call may die before any of them.  What a transaction did is seen by
others when it commits, all of it at once; until then its row of `drover_schema_version`
is an entry of the primary key that nobody else may insert.

A `COMMIT` whose answer is lost leaves its transaction undecided: the call has failed or
died, and the server commits or rolls back at some later time.
-/

namespace Drover.Migrate

open Drover.Foundation
open Drover.Foundation.Bytes (ascii)

/-! ## The embedded migrations -/

/-- `migration`. -/
structure Migration where
  version : Int
  name : Bytes
  sql : Bytes
  deriving DecidableEq, Repr

/-- Why `load` fails: a name without an underscore, or one that starts with no number. -/
inductive LoadError where
  | name (name : Bytes)
  | version (name : Bytes)
  deriving DecidableEq, Repr

/-- The migration in a file of the given name. -/
def loadFile (name sql : Bytes) : Except LoadError Migration :=
  match Go.cut (ascii '_') name with
  | (_, _, false) => .error (.name name)
  | (beginning, _, true) =>
      match Go.atoi beginning with
      | none => .error (.version name)
      | some version => .ok ⟨version.toInt, name, sql⟩

/-- The loop of `load` over the files of the directory. -/
def loadFiles : List (Bytes × Bytes) → Except LoadError (List Migration)
  | [] => .ok []
  | (name, sql) :: files =>
      match loadFile name sql with
      | .error err => .error err
      | .ok m => (loadFiles files).map (m :: ·)

/-- `load`: every migration, by version. -/
def load (files : List (Bytes × Bytes)) : Except LoadError (List Migration) :=
  (loadFiles files).map (List.insertionSort fun a b => a.version ≤ b.version)

/-! ## The database -/

/-- What has been committed, and the versions uncommitted transactions have inserted. -/
structure Db where
  /-- the rows of `drover_schema_version` -/
  versions : List Int
  /-- the migrations whose SQL was executed -/
  executed : List Migration
  pending : List Int
  deriving DecidableEq, Repr

/-- What a transaction has done so far. -/
structure Tx where
  executed : List Migration
  inserted : List Int
  deriving DecidableEq, Repr

/-- `SELECT COALESCE(MAX(version), 0) FROM drover_schema_version`. -/
def Db.currentVersion (db : Db) : Int := db.versions.max?.getD 0

/-- The entries of other transactions. -/
def Db.release (db : Db) (tx : Tx) : List Int := db.pending.filter fun v => v ∉ tx.inserted

/-- `ROLLBACK`. -/
def Db.rollback (db : Db) (tx : Tx) : Db := { db with pending := db.release tx }

/-- `COMMIT`. -/
def Db.commit (db : Db) (tx : Tx) : Db :=
  { versions := db.versions ++ tx.inserted
    executed := db.executed ++ tx.executed
    pending := db.release tx }

/-! ## Calls -/

/-- What `Migrate` fails with: the step, and the migration it was at. -/
inductive MigrateError where
  | createTable
  | readVersion
  | load (err : LoadError)
  | begin_ (version : Int)
  | apply (version : Int) (name : Bytes)
  | record (version : Int)
  | commit
  deriving DecidableEq, Repr

/-- Where a call is. -/
inductive Pc where
  /-- not made yet -/
  | idle
  /-- before `CREATE TABLE IF NOT EXISTS` -/
  | create
  /-- before the version is read -/
  | read
  /-- the head of the loop, with the migrations still to look at -/
  | loop (current : Int) (rest : List Migration)
  /-- in `apply`: before the SQL of `m`, before the insert, before the commit -/
  | exec (current : Int) (m : Migration) (rest : List Migration)
  | record (current : Int) (m : Migration) (rest : List Migration)
  | commit (current : Int) (m : Migration) (rest : List Migration)
  | returned (err : Option MigrateError)
  | crashed
  deriving DecidableEq, Repr

/-- A call, with the transaction it has open or left undecided. -/
structure Call where
  pc : Pc
  tx : Option Tx
  deriving DecidableEq, Repr

/-- The database and the calls. -/
structure State where
  db : Db
  calls : Nat → Call

/-- An empty database and no call. -/
def start : State := ⟨⟨[], [], []⟩, fun _ => ⟨.idle, none⟩⟩

/-- One step of a call or of the server. -/
inductive Label where
  /-- the next statement of a call, and whether it succeeds -/
  | go (n : Nat) (ok : Bool)
  /-- the answer to its `COMMIT` does not arrive -/
  | lose (n : Nat)
  /-- the process of a call dies -/
  | crash (n : Nat)
  /-- the server decides a transaction nobody waits for -/
  | settle (n : Nat) (landed : Bool)
  deriving DecidableEq, Repr

/-- The state with one call and the database changed. -/
def State.set (s : State) (n : Nat) (db : Db) (call : Call) : State :=
  ⟨db, Function.update s.calls n call⟩

/-- The transaction of a call is rolled back, by its `defer` or because its connection is
gone. -/
def State.abort (s : State) (n : Nat) (pc : Pc) : State :=
  match (s.calls n).tx with
  | none => s.set n s.db ⟨pc, none⟩
  | some tx => s.set n (s.db.rollback tx) ⟨pc, none⟩

/-- The next statement of `Migrate` and `apply`. -/
def callStep (files : List (Bytes × Bytes)) (s : State) (n : Nat) (ok : Bool) : Option State :=
  let fail (err : MigrateError) := some (s.abort n (.returned (some err)))
  match (s.calls n).pc, (s.calls n).tx with
  | .idle, _ => some (s.set n s.db ⟨.create, none⟩)
  | .create, _ => if ok then some (s.set n s.db ⟨.read, none⟩) else fail .createTable
  | .read, _ =>
      if ok then
        match load files with
        | .error err => fail (.load err)
        | .ok all => some (s.set n s.db ⟨.loop s.db.currentVersion all, none⟩)
      else fail .readVersion
  | .loop _ [], _ => some (s.set n s.db ⟨.returned none, none⟩)
  | .loop current (m :: rest), _ =>
      if m.version ≤ current then some (s.set n s.db ⟨.loop current rest, none⟩)
      else if ok then some (s.set n s.db ⟨.exec current m rest, some ⟨[], []⟩⟩)
      else fail (.begin_ m.version)
  | .exec current m rest, some tx =>
      if ok then
        some (s.set n s.db ⟨.record current m rest, some { tx with executed := tx.executed ++ [m] }⟩)
      else fail (.apply m.version m.name)
  | .record current m rest, some tx =>
      if ok then
        -- a version that is there is refused; one that is pending is waited for
        if m.version ∈ s.db.versions ∨ m.version ∈ s.db.pending then none
        else
          some (s.set n { s.db with pending := m.version :: s.db.pending }
            ⟨.commit current m rest, some { tx with inserted := tx.inserted ++ [m.version] }⟩)
      else fail (.record m.version)
  | .commit current _ rest, some tx =>
      if ok then some (s.set n (s.db.commit tx) ⟨.loop current rest, none⟩) else fail .commit
  | _, _ => none

/-- One step; `none` when it cannot be taken. -/
def step (files : List (Bytes × Bytes)) (s : State) : Label → Option State
  | .go n ok => callStep files s n ok
  | .lose n =>
      match (s.calls n).pc with
      | .commit _ _ _ => some (s.set n s.db ⟨.returned (some .commit), (s.calls n).tx⟩)
      | _ => none
  | .crash n =>
      match (s.calls n).pc with
      | .commit _ _ _ => some (s.set n s.db ⟨.crashed, (s.calls n).tx⟩)
      | .returned _ | .crashed => none
      | _ => some (s.abort n .crashed)
  | .settle n landed =>
      match (s.calls n).pc, (s.calls n).tx with
      | .returned _, some tx | .crashed, some tx =>
          some (s.set n (if landed then s.db.commit tx else s.db.rollback tx)
            ⟨(s.calls n).pc, none⟩)
      | _, _ => none

/-- The state after a step; a step that cannot be taken does nothing. -/
def next (files : List (Bytes × Bytes)) (s : State) (label : Label) : State :=
  (step files s label).getD s

end Drover.Migrate
