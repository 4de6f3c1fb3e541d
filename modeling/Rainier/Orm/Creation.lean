import Rainier.Support.Error
import Rainier.Orm.Route

/-! # Created rows

A row gets its key from the database, from the connector or from the caller. The repository's
`create` and the query builder's `first_or_create` both insert the row and may read it back by
the key they were told, through the endpoint that serves reads; where they do not, or find
nothing, they return the struct they were given.
-/
namespace Rainier.Orm
open Database

/-- What the two read of an entity that has one key column. -/
structure KeyedEntity where
  /-- The columns, and whether the database numbers them. -/
  columns : List (String × Bool)
  primaryKey : String
  shardColumns : List String
  softDeleteColumn : Option String
  keyKind : Kind
  named : (columns.map (·.1)).Nodup
  keyed : primaryKey ∈ columns.map (·.1)
  numbered : (primaryKey,true) ∈ columns → keyKind = .int

abbrev Fields := String → Value

namespace KeyedEntity

variable (E : KeyedEntity)

def hasAutoIncrementKey : Bool := E.columns.any fun column => column.1 = E.primaryKey && column.2

/-- Inserts skip the columns that the database numbers. -/
def insertValues (model : Fields) : List (String × Value) :=
  (E.columns.filter (!·.2)).map fun column => (column.1,model column.1)

/-- Whether this row needs a minted key, and the shard key to mint it from: the primary key is
itself a shard key, is not auto-increment and is unset. -/
def shardKeyForInsert (pairs : List (String × Value)) : Option UInt64 :=
  if E.primaryKey ∉ E.shardColumns then none
  else do
    let spec ← E.columns.find? (·.1 = E.primaryKey)
    if spec.2 then none
    else
      let unset ← pairs.find? (·.1 = E.primaryKey)
      if routingKey unset.2 ≠ some 0 then none
      else
        let owner ← pairs.find? fun pair =>
          pair.1 ≠ E.primaryKey && pair.1 ∈ E.shardColumns && (routingKey pair.2).isSome
        routingKey owner.2

/-- The pairs of the `INSERT`, with a minted id in the place of the key. -/
def insertPairs (model : Fields) (assigned : Option UInt64) : List (String × Value) :=
  match assigned with
  | some id => (E.insertValues model).map fun pair =>
      if pair.1 = E.primaryKey then (pair.1,.int .bigUnsigned (some id.toNat)) else pair
  | none => E.insertValues model

/-- `TrashScope::Active`. -/
def active (row : Fields) : Bool := E.softDeleteColumn.all fun column => (row column).content.isNone

end KeyedEntity

/-- A row as the database stored it: its key, and the `last_insert_id` of the outcome. -/
structure Inserted where
  key : Value
  lastInsertId : Int64

/-- A connection during one call. It stores a key that is bound as it is, numbers one that is
not from one on, and where it reports a number for that, reports the key. Values of one type
are equal if they hold the same. The re-read is served by some endpoint, the writer or a
replica, which has some rows of the table. -/
structure Handle (E : KeyedEntity) where
  allocateId : UInt64 → Option UInt64
  execute : List (String × Value) → Except Error Inserted
  equals : Value → Value → Bool
  seen : Except Error (List Fields)
  equals_iff : ∀ {a b : Value}, a.kind = b.kind → (equals a b = true ↔ a.content.isSome ∧ a.content = b.content)
  kept : ∀ {pairs o v}, execute pairs = .ok o → pairs.lookup E.primaryKey = some v → v.kind = E.keyKind →
    o.key.content = v.content
  reported : ∀ {pairs o}, execute pairs = .ok o → pairs.lookup E.primaryKey = none → 0 < o.lastInsertId →
    o.key.content = some (.int o.lastInsertId.toInt)
  typed : ∀ {rows row}, seen = .ok rows → row ∈ rows → (row E.primaryKey).kind = E.keyKind

namespace Handle

variable {E : KeyedEntity} (db : Handle E)

/-- The id the connector mints for a row, if it needs one. -/
def assigned (model : Fields) : Option UInt64 := (E.shardKeyForInsert (E.insertValues model)).bind db.allocateId

/-- `SELECT … WHERE key = id LIMIT 1`, without the rows in the trash. -/
def find (id : Int64) : Except Error (Option Fields) :=
  db.seen.map fun rows => rows.find? fun row =>
    E.active row && db.equals (row E.primaryKey) (.int .bigInt (some id.toInt))

/-- `repo::insert`. -/
def insert (model : Fields) : Except Error Int64 := do
  let assigned := db.assigned model
  let outcome ← db.execute (E.insertPairs model assigned)
  return (assigned.map (·.toInt64)).getD outcome.lastInsertId

end Handle

/-- The listeners of the lifecycle hooks. -/
structure Hooks where
  creating : Fields → Except Error Unit
  created : Fields → Int64 → Except Error Unit

/-- The row as it is, read back only when the database assigned its key. -/
def stored {E : KeyedEntity} (db : Handle E) (model : Fields) (assigned : Option UInt64) (id : Int64) :
    Except Error Fields :=
  if assigned.isNone && 0 < id && E.hasAutoIncrementKey then (db.find id).map (·.getD model)
  else .ok model

/-- `EntityRepository::create`. -/
def create {E : KeyedEntity} (db : Handle E) (hooks : Hooks) (model : Fields) : Except Error Fields := do
  hooks.creating model
  let assigned := db.assigned model
  let outcome ← db.execute (E.insertPairs model assigned)
  let id := (assigned.map (·.toInt64)).getD outcome.lastInsertId
  let stored ← stored db model assigned id
  hooks.created stored id
  return stored

/-- The created row under the key that is known, or else the struct. -/
def created {E : KeyedEntity} (db : Handle E) (default : Fields) (id : Int64) : Except Error Fields :=
  if 0 < id then (db.find id).map (·.getD default)
  else .ok default

/-- `Query::first_or_create`, with what its first query finds. -/
def firstOrCreate {E : KeyedEntity} (db : Handle E) (existing : Except Error (Option Fields)) (default : Fields) :
    Except Error Fields := do
  match ← existing with
  | some found => return found
  | none => created db default (← db.insert default)

end Rainier.Orm
