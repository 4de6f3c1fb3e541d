import Mathlib.Algebra.Order.Ring.Nat
import Rainier.Support.Error
import Rainier.Support.Trace
import Rainier.Database.Criteria
import Rainier.Orm.Blueprint

/-! # Cursors

A cursor walks a table in the order of its primary key. It remembers the last key it saw and asks
for the rows after it, so what others do to the table does not shift it. The table of an entity
without shard columns is in one place, and its route is left out.
-/
namespace Rainier.Orm
open Database (TrashScope)

/-- An entity with one key column, and what a backend does with the rows of its table. The
database orders them by their keys, and a key that is read is the one it orders by. -/
structure Paged (R M K : Type) where
  columns : List (String × ColumnType)
  primaryKey : String
  softDeleteColumn : Option String
  fromRow : R → Except Error M
  /-- The getter of a column's type, and its value as it is bound. -/
  get : ColumnType → String → R → Except Error (Option K)
  isNull : String → R → Bool
  /-- Whether the driver binds a number as a `LIMIT`. Those that bind it signed panic on the
  larger ones. -/
  binds : ℕ → Bool
  key : R → K
  keyOf : M → K
  get_key : ∀ {ty r k}, get ty primaryKey r = .ok (some k) → k = key r
  keyOf_fromRow : ∀ {r m}, fromRow r = .ok m → keyOf m = key r
  binds_signed : ∀ n < 2 ^ 63, binds n = true

variable {R M K : Type}

namespace Paged

variable (E : Paged R M K)

/-- `pk_from_row`. -/
def pkFromRow (row : R) : Except Error K :=
  match E.columns.find? (·.1 = E.primaryKey) with
  | none => .error (.internal "primary key column not in metadata")
  | some (_,ty) => do
    match ← E.get ty E.primaryKey row with
    | some k => return k
    | none => throw (.internal ("primary key `" ++ E.primaryKey ++ "` was NULL"))

/-- The rows that a scope sees. -/
def inScope (scope : TrashScope) (row : R) : Bool :=
  match scope,E.softDeleteColumn with
  | .withTrashed,_ | .active,none => true
  | .active,some column => E.isNull column row
  | .onlyTrashed,some column => !E.isNull column row
  | .onlyTrashed,none => false

end Paged

structure Cursor (K : Type) where
  pageSize : ℕ
  after : Option K
  done : Bool
  trash : TrashScope
  deriving DecidableEq

/-- What comes of a query. -/
inductive Fetched (R : Type) where
  | rows (rows : List R)
  | error (e : Error)
  | panic

/-- What comes of a call of `next_page`. -/
inductive PageOutcome (M : Type) where
  | page (models : List M)
  | finished
  | error (e : Error)
  | panic

def PageOutcome.models : PageOutcome M → Option (List M)
  | .page models => some models
  | .finished | .error _ | .panic => none

namespace Cursor

def new (pageSize : ℕ) (trash : TrashScope) : Cursor K := ⟨max pageSize 1,none,false,trash⟩

/-- `Cursor::after`. -/
def startAfter (c : Cursor K) (pk : K) : Cursor K := { c with after := some pk }

def checkpoint (c : Cursor K) : Option K := c.after

/-- A fresh cursor of the same kind, at a checkpoint if there is one. -/
def freshAt (pageSize : ℕ) (trash : TrashScope) (checkpoint : Option K) : Cursor K :=
  checkpoint.elim (new pageSize trash) (new pageSize trash).startAfter

variable [LinearOrder K] (E : Paged R M K)

/-- `SELECT … WHERE key > after AND scope ORDER BY key LIMIT n`. -/
def select (c : Cursor K) (table : List R) : List R :=
  ((table.filter fun r => c.after.all (· < E.key r) && E.inScope c.trash r).insertionSort
    fun r r' => E.key r ≤ E.key r').take c.pageSize

def fetch (c : Cursor K) (table : List R) (fault : Option Error) : Fetched R :=
  if E.binds c.pageSize then fault.elim (.rows (c.select E table)) .error else .panic

def nextPage (c : Cursor K) (table : List R) (fault : Option Error) : PageOutcome M × Cursor K :=
  if c.done then (.finished,c)
  else match c.fetch E table fault with
    | .panic => (.panic,c)
    | .error e => (.error e,c)
    | .rows rows =>
      match rows.getLast? with
      | none => (.finished,{ c with done := true })
      | some last =>
        match rows.mapM E.fromRow,E.pkFromRow last with
        | .error e,_ => (.error e,c)
        | .ok _,.error e => (.error e,c)
        -- a final short page marks the end
        | .ok page,.ok k => (.page page,{ c with after := some k, done := rows.length < c.pageSize })

end Cursor

/-! ## Walks -/

/-- A table whose rows have distinct keys. -/
structure KeyedTable (E : Paged R M K) where
  rows : List R
  distinct : (rows.map E.key).Nodup

structure Walk (E : Paged R M K) where
  cursor : Cursor K
  table : KeyedTable E
  /-- The oldest first. -/
  outcomes : List (PageOutcome M)

inductive WalkEvent (E : Paged R M K) where
  | next (fault : Option Error)
  /-- Others insert, delete and change rows. -/
  | change (table : KeyedTable E)
  /-- A fresh cursor takes over at the checkpoint. -/
  | resume

def WalkEvent.isNext {E : Paged R M K} : WalkEvent E → Bool
  | .next _ => true
  | .change _ | .resume => false

namespace Walk

variable [LinearOrder K] {E : Paged R M K}

def start (pageSize : ℕ) (trash : TrashScope) (after : Option K) (table : KeyedTable E) : Walk E :=
  ⟨Cursor.freshAt pageSize trash after,table,[]⟩

def record (w : Walk E) (result : PageOutcome M × Cursor K) : Walk E :=
  { w with cursor := result.2, outcomes := w.outcomes ++ [result.1] }

def step (pageSize : ℕ) (trash : TrashScope) (w : Walk E) : WalkEvent E → Walk E
  | .next fault => w.record (w.cursor.nextPage E w.table.rows fault)
  | .change table => { w with table }
  | .resume => { w with cursor := .freshAt pageSize trash w.cursor.checkpoint }

/-- The pages that were returned. -/
def pages (w : Walk E) : List (List M) := w.outcomes.filterMap (·.models)

/-- The keys that were returned. -/
def keys (w : Walk E) : List K := w.pages.flatten.map E.keyOf

end Walk

end Rainier.Orm
