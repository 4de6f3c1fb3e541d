import Mathlib.Data.List.Dedup
import Mathlib.Data.List.Sort
import Rainier.Database.Statement

/-! # What a statement means

The usual relational meaning, as a nested loop: each row of the root table is joined with
the rows of each joined table in turn, the `WHERE` keeps some of the combinations, and the
order and the paging apply to those. The database supplies the meaning of the bound values,
of general expressions and of its own rules on the clauses. A statement that names a table
it has not joined is rejected, and then it neither returns nor touches anything.
-/
namespace Rainier.Database

variable {V P X J : Type}

abbrev Row (V : Type) := String → V
abbrev Tables (V : Type) := String → List (Row V)

/-- The names in scope with their rows. A left join that finds nothing puts no row. -/
abbrev Env (V : Type) := List (String × Option (Row V))

/-- Two scopes give the same rows to some names. -/
def Agree (names : List String) (ρ ρ' : Env V) : Prop := ∀ name ∈ names, ρ.lookup name = ρ'.lookup name

/-- How a database reads bound values, projections, general predicates and expressions. The
leading name is the table that their bare columns belong to. -/
structure Language (V P X J : Type) where
  null : V
  number : ℕ → V
  meets : Constraint V → V → Bool
  equals : V → V → Bool
  compares : V → Comparison → V → Bool
  le : V → V → Bool
  aggregates : J → Bool
  projectionNames : String → J → List String
  /-- The value of a projection over some of the rows of an inner `SELECT`. -/
  project : String → J → Tables V → Env V → List (Row V) → List (Row V) → V
  predicateNames : String → P → List String
  holds : String → P → Tables V → Env V → Bool
  expressionNames : String → X → List String
  evaluate : String → X → Tables V → Env V → V
  number_injective : number.Injective
  le_total : ∀ a b, le a b ∨ le b a
  le_trans : ∀ {a b c}, le a b → le b c → le a c
  project_local : ∀ {table j db ρ ρ' all rows}, Agree ((projectionNames table j).filter (· ≠ table)) ρ ρ' →
    project table j db ρ all rows = project table j db ρ' all rows
  holds_local : ∀ {table p db ρ ρ'}, Agree (predicateNames table p) ρ ρ' →
    holds table p db ρ = holds table p db ρ'

namespace Language

variable (L : Language V P X J) (db : Tables V)

/-- The value of a column, `NULL` where the row is absent. -/
def value (ρ : Env V) (column : ColumnRef) : V :=
  match ρ.lookup column.table with
  | some (some row) => row column.column
  | _ => L.null

/-! ## Tests -/

def subRows (ρ : Env V) (s : SubSelect V J) : List (Row V) :=
  (db s.table).filter fun row =>
    let inner := (subqueryAlias,some row) :: ρ
    s.correlations.all (fun p => L.equals (L.value inner p.1) (L.value inner p.2)) &&
      s.constraints.all (fun p => L.meets p.1 (L.value inner p.2))

def scalar (ρ : Env V) (s : SubSelect V J) : V :=
  let rows := L.subRows db ρ s
  match s.projection with
  | some j => L.project subqueryAlias j db ρ rows rows
  | none => if rows.isEmpty then L.null else L.number 1

def test (ρ : Env V) : Test V P J → Bool
  | .constraint c column => L.meets c (L.value ρ column)
  | .whereExists s => !(L.subRows db ρ s).isEmpty
  | .whereNotExists s => (L.subRows db ρ s).isEmpty
  | .compare s comparison v => L.compares (L.scalar db ρ s) comparison v
  | .predicate table p => L.holds table p db ρ
  | .nothing => false

def clause (ρ : Env V) : Clause V P J → Bool
  | .one t => L.test db ρ t
  | .any ts => ts.any (L.test db ρ)

/-- Whether the whole `WHERE` is true. -/
def condition (clauses : List (Clause V P J)) (ρ : Env V) : Bool := clauses.all (L.clause db ρ)

/-- The outer names of a subquery: the reserved alias is its own. -/
def subNames (s : SubSelect V J) : List String :=
  (s.correlations.flatMap (fun p => [p.1.table,p.2.table]) ++ s.constraints.map (·.2.table) ++
    s.projection.toList.flatMap (L.projectionNames subqueryAlias)).filter (· ≠ subqueryAlias)

def testNames : Test V P J → List String
  | .constraint _ column => [column.table]
  | .whereExists s | .whereNotExists s | .compare s _ _ => L.subNames s
  | .predicate table p => L.predicateNames table p
  | .nothing => []

def clauseNames : Clause V P J → List String
  | .one t => L.testNames t
  | .any ts => ts.flatMap L.testNames

def conditionNames (clauses : List (Clause V P J)) : List String := clauses.flatMap L.clauseNames

/-! ## Joins -/

/-- The rows of a derived table: one for each group, one in all if a projection aggregates
without groups, and otherwise one for each row. -/
def derivedRows [DecidableEq V] (d : Derived V J) : List (Row V) :=
  let kept := (db d.table).filter fun row =>
    d.constraints.all fun c => L.meets c (L.value [(d.table,some row)] (resolve d.table c.column))
  let shown (rows : List (Row V)) : Row V := fun column =>
    ((d.projections.find? (·.2 = column)).map fun p => L.project d.table p.1 db [] kept rows).getD L.null
  if d.groups.isEmpty then
    if d.projections.any (L.aggregates ·.1) then [shown kept] else kept.map fun row => shown [row]
  else
    let key (row : Row V) := d.groups.map fun j => L.project d.table j db [] kept [row]
    (kept.map key).dedup.map fun k => shown (kept.filter (key · = k))

def sourceRows [DecidableEq V] : Source V J → List (Row V)
  | .table name => db name
  | .derived d => L.derivedRows db d

def on (ρ : Env V) : On P → Bool
  | .equals near far => L.equals (L.value ρ near) (L.value ρ far)
  | .predicate table p => L.holds table p db ρ

/-- The combinations one join makes of a combination so far. -/
def joinStep [DecidableEq V] (j : Join V P J) (ρ : Env V) : List (Env V) :=
  let found := ((L.sourceRows db j.source).map fun row => ρ ++ [(j.aliased,some row)]).filter fun ρ' => L.on db ρ' j.on
  match j.kind with
  | .inner => found
  | .left => if found.isEmpty then [ρ ++ [(j.aliased,none)]] else found

def combine [DecidableEq V] : List (Join V P J) → Env V → List (Env V)
  | [], ρ => [ρ]
  | j :: js, ρ => (L.joinStep db j ρ).flatMap (combine js)

def onNames : On P → List String
  | .equals near far => [near.table,far.table]
  | .predicate table p => L.predicateNames table p

def sourceResolves : Source V J → Bool
  | .table _ => true
  | .derived d => d.constraints.all (fun c => (resolve d.table c.column).table = d.table) &&
      (d.projections.map (·.1) ++ d.groups).all fun j => (L.projectionNames d.table j).all (· = d.table)

/-- Each join takes a name of its own, and its `ON` sees that one and those before it. -/
def joinsResolve : List String → List (Join V P J) → Bool
  | _, [] => true
  | seen, j :: js => j.aliased ∉ seen && (L.onNames j.on).all (· ∈ j.aliased :: seen) &&
      L.sourceResolves j.source && joinsResolve (j.aliased :: seen) js

/-! ## Order -/

def orderValue (ρ : Env V) : OrderTerm X → V
  | .column column => L.value ρ column
  | .expression table x => L.evaluate table x db ρ

def orderNames : OrderTerm X → List String
  | .column column => [column.table]
  | .expression table x => L.expressionNames table x

/-- Whether one combination may stand before another. -/
def before : List (OrderTerm X × Bool) → Env V → Env V → Bool
  | [], _, _ => true
  | (term,descending) :: rest, ρ, ρ' =>
    let x := L.orderValue db (if descending then ρ' else ρ) term
    let y := L.orderValue db (if descending then ρ else ρ') term
    L.le x y && (!L.le y x || before rest ρ ρ')

theorem before_total (orders : List (OrderTerm X × Bool)) (ρ ρ' : Env V) :
    L.before db orders ρ ρ' ∨ L.before db orders ρ' ρ := by
  induction orders with
  | nil => exact .inl rfl
  | cons order rest ih =>
    obtain ⟨term,descending⟩ := order
    have htotal := L.le_total (L.orderValue db ρ term) (L.orderValue db ρ' term)
    cases descending <;> simp only [before,Bool.and_eq_true,Bool.or_eq_true,Bool.not_eq_true',if_true,if_false,
      Bool.false_eq_true] <;> grind

theorem before_trans {orders : List (OrderTerm X × Bool)} {ρ ρ' ρ'' : Env V} (h : L.before db orders ρ ρ')
    (h' : L.before db orders ρ' ρ'') : L.before db orders ρ ρ'' := by
  induction orders with
  | nil => rfl
  | cons order rest ih =>
    obtain ⟨term,descending⟩ := order
    have htrans := @L.le_trans
    cases descending <;> simp only [before,Bool.and_eq_true,Bool.or_eq_true,Bool.not_eq_true',if_true,if_false,
      Bool.false_eq_true] at h h' ⊢ <;> grind

/-! ## A test reads the names it mentions -/

variable {db} {ρ ρ' : Env V}

theorem value_congr {column : ColumnRef} (h : ρ.lookup column.table = ρ'.lookup column.table) :
    L.value ρ column = L.value ρ' column := by rw [value,value,h]

theorem all_congr_mem {α : Type} {p q : α → Bool} {l : List α} (h : ∀ a ∈ l, p a = q a) : l.all p = l.all q := by
  rw [Bool.eq_iff_iff,List.all_eq_true,List.all_eq_true]
  exact forall₂_congr fun a ha => by rw [h a ha]

theorem lookup_inner {names : List String} (h : Agree (names.filter (· ≠ subqueryAlias)) ρ ρ') (row : Row V) :
    Agree names ((subqueryAlias,some row) :: ρ) ((subqueryAlias,some row) :: ρ') := by
  intro name hname
  by_cases hn : name = subqueryAlias
  · rw [hn,List.lookup_cons_self,List.lookup_cons_self]
  · rw [List.lookup_cons,List.lookup_cons,h name (List.mem_filter.2 ⟨hname,by simpa using hn⟩)]

theorem subRows_congr {s : SubSelect V J} (h : Agree (L.subNames s) ρ ρ') : L.subRows db ρ s = L.subRows db ρ' s := by
  apply List.filter_congr
  intro row _
  have hin := lookup_inner h row
  have hcorr : ∀ p ∈ s.correlations,
      L.equals (L.value ((subqueryAlias,some row) :: ρ) p.1) (L.value ((subqueryAlias,some row) :: ρ) p.2) =
        L.equals (L.value ((subqueryAlias,some row) :: ρ') p.1) (L.value ((subqueryAlias,some row) :: ρ') p.2) := by
    intro p hp
    rw [L.value_congr (hin p.1.table (by simp only [List.mem_append,List.mem_flatMap]; left; left; exact ⟨p,hp,by simp⟩)),
      L.value_congr (hin p.2.table (by simp only [List.mem_append,List.mem_flatMap]; left; left; exact ⟨p,hp,by simp⟩))]
  have hcons : ∀ p ∈ s.constraints, L.meets p.1 (L.value ((subqueryAlias,some row) :: ρ) p.2) =
      L.meets p.1 (L.value ((subqueryAlias,some row) :: ρ') p.2) := by
    intro p hp
    rw [L.value_congr (hin p.2.table (by simp only [List.mem_append,List.mem_map]; left; right; exact ⟨p,hp,rfl⟩))]
  exact congrArg₂ (· && ·) (all_congr_mem hcorr) (all_congr_mem hcons)

theorem scalar_congr {s : SubSelect V J} (h : Agree (L.subNames s) ρ ρ') : L.scalar db ρ s = L.scalar db ρ' s := by
  rw [scalar,scalar,L.subRows_congr h]
  cases hj : s.projection with
  | none => rfl
  | some j =>
    apply L.project_local
    intro name hname
    obtain ⟨hmem,hne⟩ := List.mem_filter.1 hname
    exact h name (List.mem_filter.2 ⟨by simp [hj,hmem],hne⟩)

theorem test_congr {t : Test V P J} (h : Agree (L.testNames t) ρ ρ') : L.test db ρ t = L.test db ρ' t := by
  cases t with
  | constraint c column => rw [test,test,L.value_congr (h _ (by simp [testNames]))]
  | whereExists s => rw [test,test,L.subRows_congr h]
  | whereNotExists s => rw [test,test,L.subRows_congr h]
  | compare s comparison v => rw [test,test,L.scalar_congr h]
  | predicate table p => exact L.holds_local h
  | nothing => rfl

theorem clause_congr {k : Clause V P J} (h : Agree (L.clauseNames k) ρ ρ') : L.clause db ρ k = L.clause db ρ' k := by
  cases k with
  | one t => exact L.test_congr h
  | any ts =>
    have htests : ∀ t ∈ ts, L.test db ρ t = L.test db ρ' t :=
      fun t ht => L.test_congr fun name hname => h name (List.mem_flatMap.2 ⟨t,ht,hname⟩)
    rw [clause,clause,Bool.eq_iff_iff,List.any_eq_true,List.any_eq_true]
    exact exists_congr fun t => and_congr_right fun ht => by rw [htests t ht]

theorem condition_congr {clauses : List (Clause V P J)} (h : Agree (L.conditionNames clauses) ρ ρ') :
    L.condition db clauses ρ = L.condition db clauses ρ' := by
  apply all_congr_mem
  intro k hk
  exact L.clause_congr fun name hname => h name (List.mem_flatMap.2 ⟨k,hk,hname⟩)

/-! ## A join adds names behind those there are -/

variable (db) [DecidableEq V]

theorem joinStep_extends {j : Join V P J} (h : ρ' ∈ L.joinStep db j ρ) : ∃ binding, ρ' = ρ ++ [binding] := by
  have hfound : ∀ ρ' ∈ ((L.sourceRows db j.source).map fun row => ρ ++ [(j.aliased,some row)]).filter
      (fun ρ' => L.on db ρ' j.on), ∃ binding, ρ' = ρ ++ [binding] := by
    intro ρ' hρ'
    obtain ⟨row,-,rfl⟩ := List.mem_map.1 (List.mem_filter.1 hρ').1
    exact ⟨_,rfl⟩
  rw [joinStep] at h
  cases hk : j.kind with
  | inner => rw [hk] at h; exact hfound ρ' h
  | left =>
    simp only [hk] at h
    split_ifs at h with hempty
    · exact ⟨_,List.mem_singleton.1 h⟩
    · exact hfound ρ' h

theorem combine_extends {js : List (Join V P J)} (h : ρ' ∈ L.combine db js ρ) : ∃ more, ρ' = ρ ++ more := by
  induction js generalizing ρ with
  | nil => exact ⟨[],by simpa [combine] using h⟩
  | cons j js ih =>
    obtain ⟨ρ₁,hstep,hrest⟩ := List.mem_flatMap.1 h
    obtain ⟨binding,rfl⟩ := L.joinStep_extends db hstep
    obtain ⟨more,rfl⟩ := ih hrest
    exact ⟨binding :: more,by simp⟩

/-- A combination keeps the row it was made from under the root's name. -/
theorem lookup_root {js : List (Join V P J)} {table : String} {row : Row V}
    (h : ρ ∈ L.combine db js [(table,some row)]) : ρ.lookup table = some (some row) := by
  obtain ⟨more,rfl⟩ := L.combine_extends db h
  exact List.lookup_cons_self

/-! ## Tables of one row -/

variable {db}

theorem derivedRows_length (d : Derived V J) (h : (db d.table).length ≤ 1) : (L.derivedRows db d).length ≤ 1 := by
  have hkept := Nat.le_trans (List.length_filter_le (fun row => d.constraints.all fun c =>
    L.meets c (L.value [(d.table,some row)] (resolve d.table c.column))) (db d.table)) h
  rw [derivedRows]
  split_ifs with hgroups haggregate
  · simp
  · simpa using hkept
  · rw [List.length_map]
    exact Nat.le_trans (List.dedup_sublist _).length_le (by simpa using hkept)

theorem sourceRows_length (h : ∀ table, (db table).length ≤ 1) (source : Source V J) :
    (L.sourceRows db source).length ≤ 1 := by
  cases source with
  | table name => exact h name
  | derived d => exact L.derivedRows_length d (h d.table)

theorem joinStep_length (h : ∀ table, (db table).length ≤ 1) (j : Join V P J) (ρ : Env V) :
    (L.joinStep db j ρ).length ≤ 1 := by
  have hfound : (((L.sourceRows db j.source).map fun row => ρ ++ [(j.aliased,some row)]).filter
      (fun ρ' => L.on db ρ' j.on)).length ≤ 1 :=
    Nat.le_trans (List.length_filter_le _ _) (by simpa using L.sourceRows_length h j.source)
  rw [joinStep]
  cases j.kind with
  | inner => exact hfound
  | left =>
    split_ifs
    · simp
    · exact hfound

theorem combine_length (h : ∀ table, (db table).length ≤ 1) (js : List (Join V P J)) (ρ : Env V) :
    (L.combine db js ρ).length ≤ 1 := by
  induction js generalizing ρ with
  | nil => simp [combine]
  | cons j js ih =>
    have hlength := L.joinStep_length h j ρ
    rw [combine]
    cases hstep : L.joinStep db j ρ with
    | nil => simp
    | cons ρ₁ more =>
      have hmore : more = [] := by simpa [hstep] using hlength
      simpa [hmore] using ih ρ₁

end Language

/-- A database: a language, the rules it has on the clauses around the `FROM`, and the order
in which it delivers the rows. Which order it takes among those `ORDER BY` leaves open may
depend on the whole statement. -/
structure Engine (V P X J : Type) extends Language V P X J where
  admits : Shape X → Bool
  arrange : Select V P X J → Tables V → List (Env V) → List (Env V)
  /-- A statement may be paged if it may be run without paging. -/
  admits_paged : ∀ (shape : Shape X) (l o : ℕ),
    admits { shape with limit := some l, offset := some o } = admits { shape with limit := none, offset := none }
  arrange_perm : ∀ (s : Select V P X J) (db : Tables V) (ρs : List (Env V)), (arrange s db ρs).Perm ρs
  arrange_ordered : ∀ (s : Select V P X J) (db : Tables V) (ρs : List (Env V)),
    (arrange s db ρs).Pairwise (toLanguage.before db s.orders · ·)

namespace Engine

variable (D : Engine V P X J)

def resolves (s : Select V P X J) : Bool :=
  let names := s.table :: s.joins.map (·.aliased)
  D.joinsResolve [s.table] s.joins && (D.conditionNames s.where_).all (· ∈ names) &&
    (s.orders.flatMap (D.orderNames ·.1)).all (· ∈ names)

def accepts (s : Select V P X J) : Bool := D.resolves s && D.admits s.toShape

variable [DecidableEq V] (db : Tables V)

/-- The combinations of a root row. -/
def combinations (s : Select V P X J) (row : Row V) : List (Env V) := D.combine db s.joins [(s.table,some row)]

/-- The combinations that the `WHERE` keeps. -/
def matched (s : Select V P X J) : List (Env V) :=
  ((db s.table).flatMap (D.combinations db s)).filter (D.condition db s.where_)

def output (columns : List ColumnRef) (ρ : Env V) : List V := columns.map (D.value ρ)

/-- `DISTINCT` keeps one combination of those that show the same. -/
def different (columns : List ColumnRef) (ρs : List (Env V)) : List (Env V) :=
  ρs.pwFilter fun ρ ρ' => D.output columns ρ ≠ D.output columns ρ'

/-- The combinations that a `SELECT` of some columns delivers, before paging. -/
def delivered (s : Select V P X J) (columns : List ColumnRef) : List (Env V) :=
  D.arrange s db (if s.distinct then D.different columns (D.matched db s) else D.matched db s)

/-- `LIMIT` and `OFFSET`. -/
def window {α : Type} (shape : Shape X) (rows : List α) : List α :=
  let rest := rows.drop (shape.offset.getD 0)
  match shape.limit with
  | some n => rest.take n
  | none => rest

def fetchAll (s : Select V P X J) : Option (List (List V)) :=
  if D.accepts s then
    match s.output with
    | .columns columns => some ((window s.toShape (D.delivered db s columns)).map (D.output columns))
    | .countAll => none
  else none

/-- A `COUNT(*)` makes one row, whatever is `DISTINCT` about it. -/
def fetchCount (s : Select V P X J) : Option ℕ :=
  if D.accepts s then
    match s.output with
    | .columns _ => none
    | .countAll => (window s.toShape [(D.matched db s).length]).head?
  else none

omit [DecidableEq V] in
/-- The rows of one table under a `WHERE` that may name that table only. -/
def touched (table : String) (clauses : List (Clause V P J)) : List (Row V) :=
  (db table).filter fun row => D.condition db clauses [(table,some row)]

def resolvesIn (table : String) (names : List String) : Bool := names.all (· = table)

def setNames : SetTerm V X J → List String
  | .value _ | .increment _ => []
  | .scalar s => D.subNames s
  | .expression table x => D.expressionNames table x

omit [DecidableEq V] in
def deleted (s : Delete V P J) : List (Row V) :=
  if resolvesIn s.table (D.conditionNames s.where_) then D.touched db s.table s.where_ else []

omit [DecidableEq V] in
def updated (s : Update V P X J) : List (Row V) :=
  if resolvesIn s.table (s.set.flatMap (D.setNames ·.2) ++ D.conditionNames s.where_)
    then D.touched db s.table s.where_ else []

variable {D db}

/-- Paging keeps the positions from the offset to the limit behind it. -/
theorem mem_window {α : Type} {shape : Shape X} {rows : List α} {a : α} : a ∈ window shape rows ↔
    ∃ i, rows[i]? = some a ∧ shape.offset.getD 0 ≤ i ∧ ∀ n, shape.limit = some n → i < shape.offset.getD 0 + n := by
  have hdrop : ∀ n, (∃ i, (rows.drop (shape.offset.getD 0))[i]? = some a ∧ i < n) ↔
      ∃ i, rows[i]? = some a ∧ shape.offset.getD 0 ≤ i ∧ i < shape.offset.getD 0 + n := by
    intro n
    constructor
    · rintro ⟨i,hi,hn⟩
      exact ⟨shape.offset.getD 0 + i,by rwa [List.getElem?_drop] at hi,by omega,by omega⟩
    · rintro ⟨i,hi,hlo,hhi⟩
      exact ⟨i - shape.offset.getD 0,by rw [List.getElem?_drop,Nat.add_sub_cancel' hlo]; exact hi,by omega⟩
  rw [window]
  cases hlimit : shape.limit with
  | none =>
    rw [List.mem_iff_getElem?]
    constructor
    · rintro ⟨i,hi⟩
      exact ⟨shape.offset.getD 0 + i,by rwa [List.getElem?_drop] at hi,by omega,by simp⟩
    · rintro ⟨i,hi,hlo,-⟩
      exact ⟨i - shape.offset.getD 0,by rw [List.getElem?_drop,Nat.add_sub_cancel' hlo]; exact hi⟩
  | some n =>
    have htake : a ∈ (rows.drop (shape.offset.getD 0)).take n ↔
        ∃ i, (rows.drop (shape.offset.getD 0))[i]? = some a ∧ i < n := by
      rw [List.mem_iff_getElem?]
      exact exists_congr fun i => by rw [List.getElem?_take]; split_ifs with hn <;> simp [hn]
    simpa using htake.trans (hdrop n)

theorem window_unpaged {α : Type} (shape : Shape X) (hl : shape.limit = none) (ho : shape.offset.getD 0 = 0)
    (rows : List α) : window shape rows = rows := by
  rw [window,hl,ho,List.drop_zero]

/-- `DISTINCT` and the order lose nothing that is shown, and add nothing. -/
theorem delivered_subset {s : Select V P X J} {columns : List ColumnRef} :
    D.delivered db s columns ⊆ D.matched db s := by
  intro ρ hρ
  have hmem := (D.arrange_perm s db _).mem_iff.1 hρ
  split_ifs at hmem
  · exact List.pwFilter_subset _ hmem
  · exact hmem

theorem delivered_length (s : Select V P X J) (columns : List ColumnRef) :
    (D.delivered db s columns).length ≤ (D.matched db s).length := by
  rw [delivered,(D.arrange_perm s db _).length_eq]
  split_ifs
  · exact (List.pwFilter_sublist _).length_le
  · exact Nat.le_refl _

theorem exists_delivered {s : Select V P X J} (columns : List ColumnRef) {ρ : Env V} (h : ρ ∈ D.matched db s) :
    ∃ ρ' ∈ D.delivered db s columns, D.output columns ρ' = D.output columns ρ := by
  simp only [delivered,(D.arrange_perm s db _).mem_iff]
  split_ifs
  · by_contra hne
    push Not at hne
    have hneg : ∀ {x y z : Env V}, D.output columns x ≠ D.output columns z →
        D.output columns x ≠ D.output columns y ∨ D.output columns y ≠ D.output columns z := by
      intro x y z hxz
      by_cases hxy : D.output columns x = D.output columns y
      · exact .inr fun hyz => hxz (hxy.trans hyz)
      · exact .inl hxy
    have hall := (List.forall_mem_pwFilter (R := fun ρ ρ' => D.output columns ρ ≠ D.output columns ρ') hneg ρ
      (D.matched db s)).1 fun ρ' hρ' => (hne ρ' hρ').symm
    exact hall ρ h rfl
  · exact ⟨ρ,h,rfl⟩

/-- Where the `WHERE` names only the root table, the rows it keeps are kept before the joins. -/
theorem matched_eq_touched {s : Select V P X J} (h : resolvesIn s.table (D.conditionNames s.where_)) :
    D.matched db s = (D.touched db s.table s.where_).flatMap (D.combinations db s) := by
  have hroot : ∀ row, ∀ ρ ∈ D.combinations db s row,
      D.condition db s.where_ ρ = D.condition db s.where_ [(s.table,some row)] := by
    intro row ρ hρ
    apply D.condition_congr
    intro name hname
    have hname' : name = s.table := by simpa using List.all_eq_true.1 h name hname
    rw [hname',D.lookup_root db hρ,List.lookup_cons_self]
  rw [matched,touched,List.filter_flatMap]
  induction db s.table with
  | nil => rfl
  | cons row rows ih =>
    have hhead := List.filter_congr (hroot row)
    rw [List.flatMap_cons,ih,hhead,List.filter_cons]
    cases hc : D.condition db s.where_ [(s.table,some row)] with
    | false => simp
    | true => simp

end Engine

/-- What the tables hold. No two rows of the entity's own table share their key. -/
structure Contents (V : Type) (E : Entity) where
  tables : Tables V
  keyed : ((tables E.table).map fun row => E.primaryKey.map row).Nodup

/-! ## A database of numbers -/

/-- Comparison of two numbers, not true of `NULL`. -/
def numbers (test : ℕ → ℕ → Bool) : Option ℕ → Option ℕ → Bool
  | some a, some b => test a b
  | _, _ => false

def numberMeets : Constraint (Option ℕ) → Option ℕ → Bool
  | .eqCi _ x, v | .eq _ x, v => numbers (· == ·) v x
  | .ne _ x, v => numbers (· != ·) v x
  | .gt _ x, v => numbers (· > ·) v x
  | .gte _ x, v => numbers (· ≥ ·) v x
  | .lt _ x, v => numbers (· < ·) v x
  | .lte _ x, v => numbers (· ≤ ·) v x
  | .like _ _, _ | .notLike _ _, _ => false
  | .isIn _ xs, v => xs.any (numbers (· == ·) v)
  | .notIn _ xs, v => xs.all (numbers (· != ·) v)
  | .null _, v => v.isNone
  | .notNull _, v => v.isSome

def numberCompares (v : Option ℕ) : Comparison → Option ℕ → Bool
  | .eq, x => numbers (· == ·) v x
  | .ne, x => numbers (· != ·) v x
  | .gt, x => numbers (· > ·) v x
  | .gte, x => numbers (· ≥ ·) v x
  | .lt, x => numbers (· < ·) v x
  | .lte, x => numbers (· ≤ ·) v x

/-- `NULL` sorts first. -/
def numberLe : Option ℕ → Option ℕ → Bool
  | none, _ => true
  | some _, none => false
  | some a, some b => a ≤ b

def numberLanguage : Language (Option ℕ) Empty Empty Empty where
  null := none
  number := some
  meets := numberMeets
  equals := numbers (· == ·)
  compares := numberCompares
  le := numberLe
  aggregates := Empty.elim
  projectionNames _ := Empty.elim
  project _ := Empty.elim
  predicateNames _ := Empty.elim
  holds _ := Empty.elim
  expressionNames _ := Empty.elim
  evaluate _ := Empty.elim
  number_injective := Option.some_injective ℕ
  le_total a b := by cases a <;> cases b <;> simp [numberLe]; omega
  le_trans {a b c} h h' := by cases a <;> cases b <;> cases c <;> simp_all [numberLe]; omega
  project_local {_ j} := j.elim
  holds_local {_ p} := p.elim

/-- The rule on `ORDER BY` is the one given: some databases reject a bare column there in an
aggregate query, some do not. -/
def numberEngine (admits : Output → List (OrderTerm Empty × Bool) → Bool) :
    Engine (Option ℕ) Empty Empty Empty where
  toLanguage := numberLanguage
  admits shape := admits shape.output shape.orders
  arrange s db := List.insertionSort (numberLanguage.before db s.orders · ·)
  admits_paged _ _ _ := rfl
  arrange_perm s db := List.perm_insertionSort _
  arrange_ordered s db := by
    have : Std.Total (fun ρ ρ' => numberLanguage.before db s.orders ρ ρ' = true) :=
      ⟨numberLanguage.before_total db s.orders⟩
    have : IsTrans _ (fun ρ ρ' => numberLanguage.before db s.orders ρ ρ' = true) :=
      ⟨fun _ _ _ => numberLanguage.before_trans db⟩
    exact List.pairwise_insertionSort _

end Rainier.Database
