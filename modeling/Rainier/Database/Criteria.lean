import Mathlib.Algebra.Order.Ring.Nat
import Rainier.Support.Text

/-! # Criteria

A recorded set of query constraints, of which one value builds a `SELECT`, a `COUNT`, an
`UPDATE` and a `DELETE`. Bound values, general predicates, general expressions and
projections are type parameters: the builders carry them into a statement and never look
inside one.
-/
namespace Rainier.Database

variable {V P X J : Type}

/-- `i64::MAX`, the largest number a driver binds. -/
def maxBound : ℕ := 2 ^ 63 - 1

inductive Constraint (V : Type) where
  | eqCi (column : String) (value : V)
  | eq (column : String) (value : V)
  | ne (column : String) (value : V)
  | gt (column : String) (value : V)
  | gte (column : String) (value : V)
  | lt (column : String) (value : V)
  | lte (column : String) (value : V)
  | like (column : String) (pattern : String)
  | notLike (column : String) (pattern : String)
  | isIn (column : String) (values : List V)
  | notIn (column : String) (values : List V)
  | null (column : String)
  | notNull (column : String)
  deriving DecidableEq, Repr

/-- The column this constraint applies to. -/
def Constraint.column : Constraint V → String
  | eqCi column _ | eq column _ | ne column _ | gt column _ | gte column _ | lt column _
  | lte column _ | like column _ | notLike column _ | isIn column _ | notIn column _
  | null column | notNull column => column

inductive Comparison where
  | eq | ne | gt | gte | lt | lte
  deriving DecidableEq, Repr

/-- A subquery over another table, tied to the outer row by at least one correlation: a
draft becomes a subquery through `correlate` alone. -/
structure Subquery (V J : Type) where
  table : String
  projection : J
  /-- Pairs of an inner and an outer column. -/
  correlations : List (String × String)
  constraints : List (Constraint V)
  correlated : correlations ≠ []

inductive SubqueryPredicate (V J : Type) where
  | whereExists (subquery : Subquery V J)
  | whereNotExists (subquery : Subquery V J)
  | compare (subquery : Subquery V J) (comparison : Comparison) (value : V)

/-- Predicates of which one is to hold. -/
structure OrGroup (V J : Type) where
  constraints : List (Constraint V) := []
  subqueries : List (SubqueryPredicate V J) := []

def OrGroup.isEmpty (group : OrGroup V J) : Bool :=
  group.constraints.isEmpty && group.subqueries.isEmpty

inductive Assignment (V X J : Type) where
  | value (value : V)
  | increment (amount : ℤ)
  | subquery (subquery : Subquery V J)
  | expression (expression : X)

inductive JoinKind where
  | inner | left
  deriving DecidableEq, Repr

/-- A subquery joined as though it were a table. -/
structure Derived (V J : Type) where
  table : String
  aliased : String
  projections : List (J × String) := []
  groups : List J := []
  constraints : List (Constraint V) := []

inductive TrashScope where
  | active | withTrashed | onlyTrashed
  deriving DecidableEq, Repr

/-- The fields that the statements over whole models read. What only an aggregate query
reads (its projections, groups, `HAVING` and alias orders) is not here. -/
structure Criteria (V P X J : Type) where
  constraints : List (Constraint V) := []
  /-- The table, the near column and the far column. -/
  joins : List (String × String × String) := []
  typedJoins : List (String × String × String × JoinKind) := []
  derivedJoins : List (Derived V J × String × String × JoinKind) := []
  orGroups : List (OrGroup V J) := []
  subqueries : List (SubqueryPredicate V J) := []
  distinct : Bool := false
  /-- The column and whether it descends. -/
  orders : List (String × Bool) := []
  limit : Option ℕ := none
  offset : Option ℕ := none
  trash : TrashScope := .active
  predicates : List P := []
  exprOrders : List (X × Bool) := []
  /-- The table, its alias, the kind and the `ON`. -/
  onJoins : List (String × String × JoinKind × P) := []
  /-- A group with no predicate at all is dropped by `or_where`. -/
  groupsHold : ∀ group ∈ orGroups, group.isEmpty = false := by simp

namespace Criteria

/-- `LIMIT n`, clamped to what a driver binds. -/
def setLimit (c : Criteria V P X J) (n : ℕ) : Criteria V P X J := { c with limit := some (min n maxBound) }

def setOffset (c : Criteria V P X J) (n : ℕ) : Criteria V P X J := { c with offset := some (min n maxBound) }

/-- `with_trashed`. -/
def includeTrashed (c : Criteria V P X J) : Criteria V P X J := { c with trash := .withTrashed }

/-- The same query in another order and with other paging. -/
def rearranged (c : Criteria V P X J) (orders : List (String × Bool)) (exprOrders : List (X × Bool))
    (limit offset : Option ℕ) : Criteria V P X J :=
  { c with orders, exprOrders, limit, offset }

/-- The same query with its limit and offset removed. -/
def unpaged (c : Criteria V P X J) : Criteria V P X J := { c with limit := none, offset := none }

end Criteria

/-- The predicates of a criteria, all of which a row is to meet. -/
structure Filters (V P J : Type) where
  constraints : List (Constraint V) := []
  orGroups : List (OrGroup V J) := []
  subqueries : List (SubqueryPredicate V J) := []
  predicates : List P := []
  groupsHold : ∀ group ∈ orGroups, group.isEmpty = false := by simp

/-- The same joins, order and paging under other filters. -/
def Criteria.filtered (c : Criteria V P X J) (f : Filters V P J) : Criteria V P X J :=
  { c with
    constraints := f.constraints
    orGroups := f.orGroups
    subqueries := f.subqueries
    predicates := f.predicates
    groupsHold := f.groupsHold }

end Rainier.Database
