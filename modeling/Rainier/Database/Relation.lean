import Rainier.Support.Grouping
import Rainier.Database.Sql
import Rainier.Database.Value

/-! # Relationships

A relationship is loaded for a list of near-side models at once: their keys go into one `IN`,
and the rows that come back are grouped by the text of their own key. Through a pivot it takes
two queries, and the rows are put along the links.
-/
namespace Rainier.Database

/-! ## Keys -/

/-- `format!("{byte:02x}")` of each byte. -/
def hex (bytes : List UInt8) : String :=
  String.ofList (bytes.flatMap fun b => [Nat.digitChar (b.toNat / 16),Nat.digitChar (b.toNat % 16)])

def nullKey : String := "\x00null"

/-- The text a value is looked up by, `RelationKey::new`. Every integer width collapses to one
decimal rendering. -/
def relationKey : Value → String
  | .int _ n => (n.map Int.repr).getD nullKey
  | .bool b => (b.map fun b => if b then "true" else "false").getD nullKey
  | .string s => s.getD nullKey
  | .char c => (c.map String.singleton).getD nullKey
  | .bytes bs => (bs.map hex).getD nullKey
  | .other type none => type ++ "(None)"
  | .other type (some shown) => type ++ "(Some(" ++ shown ++ "))"

/-- A value read out of a row and bound again: `Cell::to_value` of what the getter of the
requested type gives. A `NULL` is dropped. -/
def Value.readBack (unsigned : Bool) : Value → Option Value
  | .int _ n => n.map fun n => .int (if unsigned then .bigUnsigned else .bigInt) (some n)
  | .bool b => b.map fun b => .bool (some b)
  | .string s => s.map fun s => .string (some s)
  | .char c => c.map fun c => .string (some (String.singleton c))
  | .bytes bs => bs.map fun bs => .bytes (some bs)
  | .other type shown => shown.map fun shown => .other type (some shown)

/-! ## Models -/

/-- The values of a model, in the order of its entity's columns. -/
abbrev Model := List Value

/-- One column's value by name, or none if the entity has no such column. -/
def valueOf (E : Entity) (model : Model) (column : String) : Option Value := (E.columns.zip model).lookup column

/-- A column of the entity, named without its table. -/
structure KeyColumn (E : Entity) where
  name : String
  mem : name ∈ E.columns
  bare : columnRef E name = ⟨E.table,name⟩

variable {E : Entity} {P X J : Type}

def Criteria.whereIn (c : Criteria Value P X J) (column : String) (values : List Value) : Criteria Value P X J :=
  { c with constraints := c.constraints ++ [.isIn column values] }

def Engine.matching (D : Engine Value P X J) (db : Tables Value) (E : Entity) (c : Criteria Value P X J) :
    Option (List Model) := D.fetchAll db (selectMatching E c)

/-! ## Loaded rows -/

/-- Rows grouped by the near side's key. -/
structure Related where
  nearKey : String
  groups : String → List Model

namespace Related

def empty (nearKey : String) : Related := ⟨nearKey,fun _ => []⟩

def keyOf (r : Related) (N : Entity) (near : Model) : Option String := (valueOf N near r.nearKey).map relationKey

/-- Every related row for `near`, in the order the query returned them. -/
def of (r : Related) (N : Entity) (near : Model) : List Model := Grouping.find (r.keyOf N) r.groups near

/-- Pair each of `near` with its related rows: `groups.remove` takes them out. -/
def zip (r : Related) (N : Entity) (near : List Model) : List (Model × List Model) :=
  Grouping.handOut (r.keyOf N) r.groups near

/-- Group rows by the value of `farKey`, to be looked up by `nearKey`. -/
def groupBy (E : Entity) (nearKey farKey : String) (rows : List Model) : Related where
  nearKey := nearKey
  groups := Grouping.collect (rows.filterMap fun row => (valueOf E row farKey).map fun v => (relationKey v,row))

end Related

/-- One value of each key, in first-seen order. -/
def dedup (values : List Value) : List Value := Grouping.firstSeen relationKey [] values

/-- The keys of `parents`, deduplicated. -/
def keysOf (N : Entity) (parents : List Model) (column : String) : List Value :=
  dedup (parents.filterMap (valueOf N · column))

/-! ## The relationships -/

/-- What has-many and belongs-to both do: one query over the far key. -/
def loadKeyed (D : Engine Value P X J) (db : Tables Value) (N E : Entity) (nearKey : String) (farKey : KeyColumn E)
    (criteria : Criteria Value P X J) (parents : List Model) : Option Related :=
  let keys := keysOf N parents nearKey
  if keys.isEmpty then some (.empty nearKey)
  else (D.matching db E (criteria.whereIn farKey.name keys)).map (.groupBy E nearKey farKey.name)

/-- One parent, many children. -/
structure HasMany (E : Entity) (P X J : Type) where
  foreignKey : KeyColumn E
  localKey : String
  criteria : Criteria Value P X J

def HasMany.load (r : HasMany E P X J) (D : Engine Value P X J) (db : Tables Value) (N : Entity) :
    List Model → Option Related := loadKeyed D db N E r.localKey r.foreignKey r.criteria

/-- One parent, one child: the same query. -/
structure HasOne (E : Entity) (P X J : Type) where
  children : HasMany E P X J

def HasOne.load (r : HasOne E P X J) (D : Engine Value P X J) (db : Tables Value) (N : Entity) :
    List Model → Option Related := r.children.load D db N

/-- The child pointing back at its parent. The near side is the child. -/
structure BelongsTo (E : Entity) (P X J : Type) where
  foreignKey : String
  ownerKey : KeyColumn E
  criteria : Criteria Value P X J

def BelongsTo.load (r : BelongsTo E P X J) (D : Engine Value P X J) (db : Tables Value) (N : Entity) :
    List Model → Option Related := loadKeyed D db N E r.foreignKey r.ownerKey r.criteria

/-- Many to many, through a pivot table. -/
structure BelongsToMany (E : Entity) (P X J : Type) where
  pivot : String
  parentPivotKey : String
  relatedPivotKey : String
  parentKey : String
  relatedKey : KeyColumn E
  criteria : Criteria Value P X J
  /-- Whether the related model's own key is unsigned: the pivot is read as that type. -/
  readsUnsigned : Bool

structure PivotQuery where
  table : String
  parentColumn : String
  relatedColumn : String
  parentKeys : List Value

/-- `SELECT parent, related FROM pivot WHERE parent IN (…)`, in no order. -/
def selectPivot (q : PivotQuery) : Select Value P X J where
  output := .columns [⟨q.table,q.parentColumn⟩,⟨q.table,q.relatedColumn⟩]
  table := q.table
  where_ := [.one (.constraint (.isIn q.parentColumn q.parentKeys) ⟨q.table,q.parentColumn⟩)]

def readLink (unsigned : Bool) : List Value → Option (Value × Value)
  | [parent,related] => do return (← parent.readBack unsigned,← related.readBack unsigned)
  | _ => none

def Engine.pivotLinks (D : Engine Value P X J) (db : Tables Value) (unsigned : Bool) (q : PivotQuery) :
    Option (List (Value × Value)) :=
  if q.parentKeys.isEmpty then some []
  else (D.fetchAll db (selectPivot q)).map (·.filterMap (readLink unsigned))

namespace BelongsToMany

variable (r : BelongsToMany E P X J)

def linksFor (keys : List Value) : PivotQuery := ⟨r.pivot,r.parentPivotKey,r.relatedPivotKey,keys⟩

/-- The rows by their own key. A later row takes the place of an earlier one. -/
def byKey (rows : List Model) (key : String) : Option Model :=
  rows.reverse.find? fun row => (valueOf E row r.relatedKey.name).map relationKey = some key

def load (D : Engine Value P X J) (db : Tables Value) (N : Entity) (parents : List Model) : Option Related := do
  let keys := keysOf N parents r.parentKey
  if keys.isEmpty then return .empty r.parentKey
  let links ← D.pivotLinks db r.readsUnsigned (r.linksFor keys)
  if links.isEmpty then return .empty r.parentKey
  let wanted := dedup (links.map (·.2))
  let rows ← D.matching db E (r.criteria.whereIn r.relatedKey.name wanted)
  return {
    nearKey := r.parentKey
    groups := Grouping.collect (links.filterMap fun link =>
      (r.byKey rows (relationKey link.2)).map fun row => (relationKey link.1,row)) }

end BelongsToMany

inductive Relation (E : Entity) (P X J : Type) where
  | hasMany (r : HasMany E P X J)
  | hasOne (r : HasOne E P X J)
  | belongsTo (r : BelongsTo E P X J)
  | belongsToMany (r : BelongsToMany E P X J)

namespace Relation

def nearKey : Relation E P X J → String
  | hasMany r => r.localKey
  | hasOne r => r.children.localKey
  | belongsTo r => r.foreignKey
  | belongsToMany r => r.parentKey

def farKey : Relation E P X J → KeyColumn E
  | hasMany r => r.foreignKey
  | hasOne r => r.children.foreignKey
  | belongsTo r => r.ownerKey
  | belongsToMany r => r.relatedKey

def criteria : Relation E P X J → Criteria Value P X J
  | hasMany r => r.criteria
  | hasOne r => r.children.criteria
  | belongsTo r => r.criteria
  | belongsToMany r => r.criteria

/-- Load the related rows for every parent. -/
def load (D : Engine Value P X J) (db : Tables Value) (N : Entity) : Relation E P X J → List Model → Option Related
  | hasMany r => r.load D db N
  | hasOne r => r.load D db N
  | belongsTo r => r.load D db N
  | belongsToMany r => r.load D db N

/-- Load for a single parent. -/
def forOne (D : Engine Value P X J) (db : Tables Value) (N : Entity) (r : Relation E P X J) (parent : Model) :
    Option (List Model) := (r.load D db N [parent]).map (·.of N parent)

end Relation

end Rainier.Database
