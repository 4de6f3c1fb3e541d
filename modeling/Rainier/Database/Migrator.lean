import Mathlib.Algebra.Order.Ring.Nat
import Mathlib.Data.List.Infix
import Mathlib.Data.List.Sort
import Rainier.Support.Error

/-! # The migrator

Named steps, each with the statements that apply it and those that undo it, and a ledger of
the ones that have run. Any statement can fail, the ledger's own among them. The order in
which the ledger is read back is the database's.
-/
namespace Rainier.Database

inductive Dialect where
  | mySql | postgres | sqlite
  deriving DecidableEq, Repr

/-- How a migration undoes itself. -/
inductive Down where
  | statements (statements : List String)
  | irreversible (reason : String)
  deriving DecidableEq, Repr

/-- The statements, or an error naming the migration and why it has none. -/
def Down.sql (migration : String) : Down → Except Error (List String)
  | .statements list => .ok list
  | .irreversible reason => .error (.internal s!"`{migration}` cannot be rolled back: {reason}")

structure Migration where
  name : String
  up : Dialect → List String
  down : Dialect → Down

/-- Whether an error is "that index is already there". -/
def isDuplicateIndex (error : Error) : Bool :=
  let message := error.message.toList.map Char.toLower
  "duplicate key name".toList <:+: message || "1061".toList <:+: message

/-- `str::limit`. -/
def limitText (value : String) (limit : ℕ) (ending : String) : String :=
  if value.toList.length ≤ limit then value else String.ofList (value.toList.take limit) ++ ending

/-- A row of the ledger: the step's name and its batch. -/
abbrev LedgerRow := String × ℕ

/-- What the history of a database records. The last two are ledger writes that failed. -/
inductive Event where
  | executed (sql : String)
  | applied (name : String)
  | undone (name : String)
  | unrecorded (name : String)
  | unforgotten (name : String)
  deriving DecidableEq, Repr

/-- A database under migration. The ledger is in the order its rows were inserted. -/
structure Db where
  clock : ℕ := 0
  ledger : List LedgerRow := []
  log : List Event := []

/-- What lies outside the migrator: the error of each statement that fails, by its number,
and the order in which a `SELECT` returns rows. -/
structure Driver where
  dialect : Dialect
  faults : ℕ → Option Error
  scan : ℕ → List LedgerRow → List LedgerRow
  scan_perm : ∀ n rows, (scan n rows).Perm rows

/-- A driver whose errors are ordinary ones, not those that mean an index is already there. -/
structure World extends Driver where
  ordinary : ∀ {n e}, faults n = some e → isDuplicateIndex e = false

instance : Coe World Driver := ⟨World.toDriver⟩

namespace Db

def tick (db : Db) : Db := { db with clock := db.clock + 1 }

def note (db : Db) (event : Event) : Db := { db with log := db.log ++ [event] }

end Db

/-- The migrations in the order they were registered, under names of their own. -/
structure Migrator where
  migrations : List Migration
  distinct : (migrations.map (·.name)).Nodup

namespace Migrator

variable (w : Driver)

/-- One statement on the database. -/
def statement (sql : String) (db : Db) : Except Error Unit × Db :=
  match w.faults db.clock with
  | none => (.ok (),db.tick.note (.executed sql))
  | some e => (.error e,db.tick)

def execute (name sql what : String) (db : Db) : Except Error Unit × Db :=
  match statement w sql db with
  | (.ok _,db) => (.ok (),db)
  | (.error e,db) =>
    if isDuplicateIndex e then (.ok (),db)
    else
      let shown := limitText sql 80 "…"
      let cause := e.display
      (.error (.internal s!"{what} `{name}` failed on `{shown}`: {cause}"),db)

def executeAll (name what : String) : List String → Db → Except Error Unit × Db
  | [], db => (.ok (),db)
  | sql :: rest, db =>
    match execute w name sql what db with
    | (.ok _,db) => executeAll name what rest db
    | (.error e,db) => (.error e,db)

/-- `CREATE TABLE IF NOT EXISTS` for the ledger: nothing changes if it is there. -/
def ensureLedger (db : Db) : Except Error Unit × Db :=
  match w.faults db.clock with
  | none => (.ok (),db.tick)
  | some e => (.error e,db.tick)

def ledgerRows (db : Db) : Except Error (List LedgerRow) × Db :=
  match ensureLedger w db with
  | (.error e,db) => (.error e,db)
  | (.ok _,db) =>
    match w.faults db.clock with
    | none => (.ok (w.scan db.clock db.ledger),db.tick)
    | some e => (.error e,db.tick)

/-- `INSERT INTO` the ledger. -/
def record (name : String) (batch : ℕ) (db : Db) : Except Error Unit × Db :=
  match w.faults db.clock with
  | none => (.ok (),{ db.tick with ledger := db.ledger ++ [(name,batch)] })
  | some e => (.error e,db.tick.note (.unrecorded name))

/-- `DELETE FROM` the ledger. -/
def forget (name : String) (db : Db) : Except Error Unit × Db :=
  match w.faults db.clock with
  | none => (.ok (),{ db.tick with ledger := db.ledger.filter (·.1 ≠ name) })
  | some e => (.error e,db.tick.note (.unforgotten name))

def runSteps (ledger : List LedgerRow) (batch : ℕ) : List Migration → Db → Except Error (List String) × Db
  | [], db => (.ok [],db)
  | m :: ms, db =>
    if ledger.any (·.1 = m.name) then runSteps ledger batch ms db
    else
      match executeAll w m.name "migration" (m.up w.dialect) db with
      | (.error e,db) => (.error e,db)
      | (.ok _,db) =>
        match record w m.name batch (db.note (.applied m.name)) with
        | (.error e,db) => (.error e,db)
        | (.ok _,db) =>
          match runSteps ledger batch ms db with
          | (.error e,db) => (.error e,db)
          | (.ok ran,db) => (.ok (m.name :: ran),db)

/-- Apply every step that has not run yet, in order, under the batch after the highest. -/
def run (M : Migrator) (db : Db) : Except Error (List String) × Db :=
  match ensureLedger w db with
  | (.error e,db) => (.error e,db)
  | (.ok _,db) =>
    match ledgerRows w db with
    | (.error e,db) => (.error e,db)
    | (.ok ledger,db) => runSteps w ledger ((ledger.map (·.2)).foldl max 0 + 1) M.migrations db

def names (M : Migrator) : List String := M.migrations.map (·.name)

/-- Where a step was declared, `usize::MAX` for a name the migrator does not know. -/
def position (M : Migrator) (name : String) : ℕ := (M.names.idxOf? name).getD (2 ^ 64 - 1)

/-- Highest batch first, and within a batch the reverse of the declared order. -/
def undoneBefore (M : Migrator) (a b : LedgerRow) : Bool :=
  b.2 < a.2 || (a.2 == b.2 && M.position b.1 ≤ M.position a.1)

/-- The lowest of the batches in range, `i64::MAX` if there is none. -/
def cutoff (rows : List LedgerRow) (batches : ℕ) : ℕ :=
  let numbers := ((rows.map (·.2)).insertionSort (· ≤ ·)).dedup
  ((numbers.reverse.take batches).min?).getD (2 ^ 63 - 1)

def rollbackTargets (M : Migrator) (batches : ℕ) (db : Db) : Except Error (List String) × Db :=
  if batches = 0 then (.ok [],db)
  else
    match ledgerRows w db with
    | (.error e,db) => (.error e,db)
    | (.ok rows,db) =>
      if rows.isEmpty then (.ok [],db)
      else
        let kept := rows.filter (cutoff rows batches ≤ ·.2)
        (.ok ((kept.insertionSort (M.undoneBefore · ·)).map (·.1)),db)

def find (M : Migrator) (name : String) : Except Error Migration :=
  match M.migrations.find? (·.name = name) with
  | some m => .ok m
  | none => .error (.internal ("`" ++ name ++ "` is in the ledger but not in this migrator, so there is nothing to " ++
      "run to undo it. It was probably deleted from the code while still applied."))

/-- The statements that undo a step. -/
def undoing (M : Migrator) (name : String) : Except Error (List String) := do
  (← M.find name).down w.dialect |>.sql name

/-- Whether every step in range can be undone. -/
def checkAll (M : Migrator) : List String → Except Error Unit
  | [] => .ok ()
  | name :: rest => do
    let _ ← undoing w M name
    checkAll M rest

def rollbackSteps (M : Migrator) : List String → Db → Except Error (List String) × Db
  | [], db => (.ok [],db)
  | name :: rest, db =>
    match undoing w M name with
    | .error e => (.error e,db)
    | .ok down =>
      match executeAll w name "rollback" down db with
      | (.error e,db) => (.error e,db)
      | (.ok _,db) =>
        match forget w name (db.note (.undone name)) with
        | (.error e,db) => (.error e,db)
        | (.ok _,db) =>
          match rollbackSteps M rest db with
          | (.error e,db) => (.error e,db)
          | (.ok rolledBack,db) => (.ok (name :: rolledBack),db)

/-- Undo the last batches, most recent first. Nothing runs unless every step can be undone. -/
def rollback (M : Migrator) (batches : ℕ) (db : Db) : Except Error (List String) × Db :=
  match rollbackTargets w M batches db with
  | (.error e,db) => (.error e,db)
  | (.ok targets,db) =>
    if targets.isEmpty then (.ok [],db)
    else
      match checkAll w M targets with
      | .error e => (.error e,db)
      | .ok _ => rollbackSteps w M targets db

end Migrator

end Rainier.Database
