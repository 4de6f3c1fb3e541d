import Mathlib.Logic.Function.Basic
import Rainier.Database.Migrator

/-! # Changes to a table

Each change of a table renders the statements that make it, and those that take it back. The
statements are kept as trees. Default values are a type parameter.
-/
namespace Rainier.Orm

open Database (Dialect)

variable {V : Type}

inductive ColumnType where
  | bool | int | bigInt | uint | bigUint | double | text | binary | timestamp | date
  deriving DecidableEq, Repr

inductive ColumnKind where
  | basic (ty : ColumnType)
  | varchar (len : ℕ)
  | json
  | decimal (precision scale : ℕ)
  deriving DecidableEq, Repr

/-- One column, described. A reference to another table is not rendered in a change. -/
structure Column (V : Type) where
  name : String
  kind : ColumnKind
  nullable : Bool := false
  default : Option V := none
  autoIncrement : Bool := false
  primary : Bool := false
  unique : Bool := false
  indexed : Bool := false
  ifNotExists : Bool := false

structure ColumnDef (V : Type) where
  kind : ColumnKind
  primary : Bool
  autoIncrement : Bool
  nullable : Bool
  default : Option V
  unique : Bool
  deriving DecidableEq

/-- The column definition. The unsigned types narrow on Postgres when they are keys. -/
def Column.toDef (dialect : Dialect) (c : Column V) : ColumnDef V where
  kind := match c.autoIncrement, dialect, c.kind with
    | true, .postgres, .basic .bigUint => .basic .bigInt
    | true, .postgres, .basic .uint => .basic .int
    | _, _, kind => kind
  primary := c.primary
  autoIncrement := c.autoIncrement
  nullable := c.nullable
  default := c.default
  unique := c.unique

structure IndexDef where
  name : String
  columns : List String
  unique : Bool
  deriving DecidableEq, Repr

def conventionalName (table : String) (columns : List String) (suffix : String) : String :=
  table ++ "_" ++ "_".intercalate columns ++ "_" ++ suffix

inductive Change (V : Type) where
  | addColumn (column : Column V)
  | dropColumn (name : String)
  | renameColumn (before after : String)
  | addIndex (index : IndexDef)
  | dropIndex (index : IndexDef)
  | raw (only : Option Dialect) (sql : String) (down : Option String)

/-- A change to a table that already exists. -/
structure TableChanges (V : Type) where
  table : String
  changes : List (Change V)

/-- A statement of a change. -/
inductive Ddl (V : Type) where
  | addColumn (name : String) (column : ColumnDef V) (ifNotExists : Bool)
  | dropColumn (name : String)
  | renameColumn (before after : String)
  | createIndex (index : IndexDef) (ifNotExists : Bool)
  | dropIndex (name : String)
  | raw (sql : String)

def columnIndex (table : String) (column : Column V) : IndexDef where
  name := conventionalName table [column.name] "index"
  columns := [column.name]
  unique := false

/-- `CREATE INDEX`, which only MySQL cannot say `IF NOT EXISTS` in. -/
def createIndexStmt (dialect : Dialect) (index : IndexDef) : Ddl V := .createIndex index (dialect ≠ .mySql)

def dropIndexStmt (index : IndexDef) : Ddl V := .dropIndex index.name

/-- The statements that make one change. -/
def changeSql (dialect : Dialect) (table : String) : Change V → List (Ddl V)
  | .addColumn column =>
    if column.ifNotExists ∧ dialect = .sqlite then []
    else .addColumn column.name (column.toDef dialect) column.ifNotExists ::
      if column.indexed then [createIndexStmt dialect (columnIndex table column)] else []
  | .dropColumn name => [.dropColumn name]
  | .renameColumn before after => [.renameColumn before after]
  | .addIndex index => [createIndexStmt dialect index]
  | .dropIndex index => [dropIndexStmt index]
  | .raw only sql _ => if only = none ∨ only = some dialect then [.raw sql] else []

/-- The statements that take one change back. -/
def changeReverseSql (dialect : Dialect) (table : String) : Change V → List (Ddl V)
  | .addColumn column =>
    if column.ifNotExists ∧ dialect = .sqlite then []
    else (if column.indexed then [dropIndexStmt (columnIndex table column)] else []) ++ [.dropColumn column.name]
  | .renameColumn before after => [.renameColumn after before]
  | .addIndex index => [dropIndexStmt index]
  | .dropIndex index => [createIndexStmt dialect index]
  | .raw only _ (some down) => if only = none ∨ only = some dialect then [.raw down] else []
  | .dropColumn _ | .raw _ _ none => []

namespace TableChanges

def toSql (dialect : Dialect) (t : TableChanges V) : List (Ddl V) := t.changes.flatMap (changeSql dialect t.table)

def toReverseSql (dialect : Dialect) (t : TableChanges V) : List (Ddl V) :=
  t.changes.reverse.flatMap (changeReverseSql dialect t.table)

/-- Why these changes cannot be undone, or `none` if they can. -/
def irreversibleBecause (t : TableChanges V) : Option String :=
  let table := t.table
  t.changes.findSome? fun change => match change with
    | .dropColumn name => some s!"`{table}`.`{name}` was dropped, and its type and data went with it"
    | .raw _ sql none => some s!"a raw statement with no reverse: {sql}"
    | _ => none

end TableChanges

end Rainier.Orm
