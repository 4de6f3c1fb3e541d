import Rainier.Database.Criteria

/-! # The statements a criteria builds

A statement is kept as a tree rather than as text. The `WHERE` of all four comes from
`criteriaCondition`. The two readers pass through `applyCriteria`, which also adds the joins,
the soft-delete scope, the order and the paging.
-/
namespace Rainier.Database

variable {V P X J : Type}

/-- What the builders read of an entity. The derive rejects a struct without a key. -/
structure Entity where
  table : String
  columns : List String
  primaryKey : List String
  softDeleteColumn : Option String
  keyed : primaryKey ≠ []
  keyColumns : primaryKey ⊆ columns

structure ColumnRef where
  table : String
  column : String
  deriving DecidableEq, Repr

/-- A bare name is a column of `table`, a dotted one says its table. -/
def resolve (table spec : String) : ColumnRef :=
  match Text.splitOnce '.' spec with
  | some (table,column) => ⟨table,column⟩
  | none => ⟨table,spec⟩

def columnRef (E : Entity) (spec : String) : ColumnRef := resolve E.table spec

def subqueryAlias : String := "_rainier_sub"

def subqueryColumn (spec : String) : ColumnRef := resolve subqueryAlias spec

/-- The inner `SELECT` of a subquery, from its table under the reserved alias. The
projection is absent where only the existence of a row is asked. -/
structure SubSelect (V J : Type) where
  table : String
  projection : Option J
  correlations : List (ColumnRef × ColumnRef)
  constraints : List (Constraint V × ColumnRef)

def subquerySelect (E : Entity) (subquery : Subquery V J) (existenceOnly : Bool) : SubSelect V J where
  table := subquery.table
  projection := if existenceOnly then none else some subquery.projection
  correlations := subquery.correlations.map fun p => (subqueryColumn p.1,columnRef E p.2)
  constraints := subquery.constraints.map fun c => (c,subqueryColumn c.column)

/-- One boolean expression of a `WHERE`. Bare columns of a general predicate are those of
the named table. -/
inductive Test (V P J : Type) where
  | constraint (constraint : Constraint V) (column : ColumnRef)
  | whereExists (select : SubSelect V J)
  | whereNotExists (select : SubSelect V J)
  | compare (select : SubSelect V J) (comparison : Comparison) (value : V)
  | predicate (table : String) (predicate : P)
  | nothing

/-- One conjunct of a `WHERE`: an expression, or a parenthesised `OR` of them. -/
inductive Clause (V P J : Type) where
  | one (test : Test V P J)
  | any (tests : List (Test V P J))

def constraintExpr (E : Entity) (c : Constraint V) : Test V P J := .constraint c (columnRef E c.column)

def subqueryPredicateExpr (E : Entity) : SubqueryPredicate V J → Test V P J
  | .whereExists subquery => .whereExists (subquerySelect E subquery true)
  | .whereNotExists subquery => .whereNotExists (subquerySelect E subquery true)
  | .compare subquery comparison value => .compare (subquerySelect E subquery false) comparison value

/-- The `WHERE` a criteria implies. -/
def criteriaCondition (E : Entity) (c : Criteria V P X J) : List (Clause V P J) :=
  c.constraints.map (fun constraint => .one (constraintExpr E constraint)) ++
  c.orGroups.map (fun group => .any (group.constraints.map (constraintExpr E) ++
    group.subqueries.map (subqueryPredicateExpr E))) ++
  c.subqueries.map (fun predicate => .one (subqueryPredicateExpr E predicate)) ++
  c.predicates.map (fun predicate => .one (.predicate E.table predicate))

/-- What a join reads. -/
inductive Source (V J : Type) where
  | table (name : String)
  | derived (derived : Derived V J)

inductive On (P : Type) where
  | equals (near far : ColumnRef)
  | predicate (table : String) (predicate : P)

structure Join (V P J : Type) where
  kind : JoinKind
  source : Source V J
  aliased : String
  on : On P

inductive OrderTerm (X : Type) where
  | column (column : ColumnRef)
  | expression (table : String) (expression : X)

inductive Output where
  | columns (columns : List ColumnRef)
  | countAll

/-- The clauses of a `SELECT` around its `FROM` and `WHERE`. -/
structure Shape (X : Type) where
  output : Output
  distinct : Bool := false
  orders : List (OrderTerm X × Bool) := []
  limit : Option ℕ := none
  offset : Option ℕ := none

structure Select (V P X J : Type) extends Shape X where
  table : String
  joins : List (Join V P J) := []
  where_ : List (Clause V P J) := []

/-- What a column is set to. An increment adds to the column itself. -/
inductive SetTerm (V X J : Type) where
  | value (value : V)
  | increment (amount : ℤ)
  | scalar (select : SubSelect V J)
  | expression (table : String) (expression : X)

structure Update (V P X J : Type) where
  table : String
  set : List (String × SetTerm V X J)
  where_ : List (Clause V P J)

structure Delete (V P J : Type) where
  table : String
  where_ : List (Clause V P J)

/-- The soft-delete predicate a scope implies. -/
def scopePredicate (E : Entity) : TrashScope → Option (Test V P J)
  | .withTrashed => none
  | .active => E.softDeleteColumn.map fun column => .constraint (.null column) (columnRef E column)
  | .onlyTrashed => some (match E.softDeleteColumn with
    | some column => .constraint (.notNull column) (columnRef E column)
    | none => .nothing)

def scopeSelect (E : Entity) (scope : TrashScope) : List (Clause V P J) :=
  (scopePredicate E scope).toList.map .one

/-- The joins of a criteria, in the order they are written: plain ones, derived tables,
typed ones and those with an `ON` of their own. -/
def criteriaJoins (E : Entity) (c : Criteria V P X J) : List (Join V P J) :=
  c.joins.map (fun (table,local_,foreign) =>
    { kind := .inner, source := .table table, aliased := table
      on := .equals (columnRef E local_) ⟨table,foreign⟩ }) ++
  c.derivedJoins.map (fun (derived,local_,foreign,kind) =>
    { kind, source := .derived derived, aliased := derived.aliased
      on := .equals (columnRef E local_) ⟨derived.aliased,foreign⟩ }) ++
  c.typedJoins.map (fun (table,local_,foreign,kind) =>
    { kind, source := .table table, aliased := table
      on := .equals (columnRef E local_) ⟨table,foreign⟩ }) ++
  c.onJoins.map (fun (table,aliased,kind,on) =>
    { kind, source := .table table, aliased, on := .predicate E.table on })

/-- The column orders, and after them the orders by an expression. -/
def criteriaOrders (E : Entity) (c : Criteria V P X J) : List (OrderTerm X × Bool) :=
  c.orders.map (fun (column,descending) => (.column (columnRef E column),descending)) ++
  c.exprOrders.map (fun (expression,descending) => (.expression E.table expression,descending))

/-- Apply a criteria to a select. -/
def applyCriteria (E : Entity) (output : Output) (c : Criteria V P X J) (withPaging : Bool) : Select V P X J where
  output := output
  distinct := c.distinct
  table := E.table
  joins := criteriaJoins E c
  where_ := criteriaCondition E c ++ scopeSelect E c.trash
  orders := criteriaOrders E c
  limit := if withPaging then c.limit else none
  offset := if withPaging then c.offset else none

/-- The model's columns, qualified to its table. -/
def selectColumns (E : Entity) : List ColumnRef := E.columns.map fun column => ⟨E.table,column⟩

def selectMatching (E : Entity) (c : Criteria V P X J) : Select V P X J :=
  applyCriteria E (.columns (selectColumns E)) c true

def countMatching (E : Entity) (c : Criteria V P X J) : Select V P X J := applyCriteria E .countAll c false

def assignmentTerm (E : Entity) : Assignment V X J → SetTerm V X J
  | .value value => .value value
  | .increment amount => .increment amount
  | .subquery subquery => .scalar (subquerySelect E subquery false)
  | .expression expression => .expression E.table expression

def updateMatchingWith (E : Entity) (c : Criteria V P X J) (set : List (String × Assignment V X J)) :
    Update V P X J where
  table := E.table
  set := set.map fun p => (p.1,assignmentTerm E p.2)
  where_ := criteriaCondition E c

def updateMatching (E : Entity) (c : Criteria V P X J) (set : List (String × V)) : Update V P X J :=
  updateMatchingWith E c (set.map fun p => (p.1,.value p.2))

def deleteMatching (E : Entity) (c : Criteria V P X J) : Delete V P J where
  table := E.table
  where_ := criteriaCondition E c

end Rainier.Database
