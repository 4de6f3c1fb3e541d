import Rainier.Support.Bytes
import Rainier.Support.Ordered
import Rainier.Database.Relation

/-! # Keys, and databases that compare them

The text of a key tells what a value of one type holds, but for the text that stands for a
`NULL`. A database that compares keys by what they hold answers a query for some of them with
those rows of the criteria that have one of them, in the order of the criteria.
-/
namespace Rainier.Database

/-! ## What the text of a key tells -/

namespace Value

theorem readBack_eq {unsigned : Bool} {v w : Value} (h : v.readBack unsigned = some w) :
    w.content = v.content ∧ w.kind = v.kind := by
  cases v <;> simp only [readBack,Option.map_eq_some_iff] at h <;> obtain ⟨x,rfl,rfl⟩ := h <;> exact ⟨rfl,rfl⟩

theorem readBack_isSome (unsigned : Bool) (v : Value) : (v.readBack unsigned).isSome = v.content.isSome := by
  cases v <;> simp [readBack,content]

end Value

/-- The text of what a value of some type holds. -/
def Content.shown (kind : Kind) : Content → String
  | .int n => Int.repr n
  | .bool b => if b then "true" else "false"
  | .text s => s
  | .bytes bs => hex bs
  | .other shown => match kind with
    | .other type => type ++ "(Some(" ++ shown ++ "))"
    | _ => shown

/-- The text of a `NULL` of some type. -/
def Kind.shownNull : Kind → String
  | .other type => type ++ "(None)"
  | _ => nullKey

theorem relationKey_eq (v : Value) : relationKey v = (v.content.map (Content.shown v.kind)).getD v.kind.shownNull := by
  cases v with
  | other type shown => cases shown <;> rfl
  | int _ x => cases x <;> rfl
  | bool x => cases x <;> rfl
  | string x => cases x <;> rfl
  | char x => cases x <;> rfl
  | bytes x => cases x <;> rfl

theorem relationKey_congr {a b : Value} (hkind : a.kind = b.kind) (h : a.content = b.content) :
    relationKey a = relationKey b := by rw [relationKey_eq,relationKey_eq,hkind,h]

theorem natRepr_injective {m n : ℕ} (h : m.repr = n.repr) : m = n := by
  have hdigits := congrArg (fun s => Text.digits s.toList) h
  simpa [Nat.toList_repr,Text.digits_toDigits] using hdigits

/-- A sign is no digit. -/
theorem natRepr_ne_negative (m : ℕ) (s : String) : m.repr ≠ "-" ++ s := by
  intro h
  have hmem : '-' ∈ Nat.toDigits 10 m := by
    rw [← Nat.toList_repr,h,String.toList_append]
    exact List.mem_append_left _ (by decide)
  exact absurd (Text.isDigit_of_mem_toDigits hmem) (by decide)

theorem repr_injective {m n : ℤ} (h : Int.repr m = Int.repr n) : m = n := by
  rw [Int.repr_eq_if,Int.repr_eq_if] at h
  split_ifs at h with hm hn hn
  · have hnat := natRepr_injective h
    omega
  · exact absurd h (natRepr_ne_negative _ _)
  · exact absurd h.symm (natRepr_ne_negative _ _)
  · have hnat := natRepr_injective (String.append_right_inj _ |>.1 h)
    omega

theorem repr_ne_nullKey (n : ℤ) : Int.repr n ≠ nullKey := by
  intro h
  rw [Int.repr_eq_if] at h
  have hchars := congrArg String.toList h
  split_ifs at hchars
  · rw [Nat.toList_repr] at hchars
    have hmem : '\x00' ∈ Nat.toDigits 10 n.toNat := by
      rw [hchars]
      decide
    exact absurd (Text.isDigit_of_mem_toDigits hmem) (by decide)
  · rw [String.toList_append] at hchars
    exact absurd (congrArg List.head? hchars) (by simp [nullKey])

theorem hex_ne_nullKey (bs : List UInt8) : hex bs ≠ nullKey := by
  intro h
  have hlength := congrArg String.length h
  have heven : (hex bs).length = 2 * bs.length := by
    rw [hex,String.length_ofList,List.length_flatMap]
    simp [Nat.mul_comm]
  rw [heven,show nullKey.length = 5 from by decide] at hlength
  omega

/-- The contents a column of some type holds. -/
def Content.OfKind : Content → Kind → Prop
  | .int _, .int | .bool _, .bool | .text _, .text | .bytes _, .bytes | .other _, .other _ => True
  | _, _ => False

theorem Value.ofKind {v : Value} {x : Content} (h : v.content = some x) : x.OfKind v.kind := by
  cases v <;> simp only [content,Option.map_eq_some_iff] at h <;> obtain ⟨y,-,rfl⟩ := h <;> trivial

/-- Two values of one column with the same text are the same. -/
theorem Content.shown_inj {kind : Kind} {x y : Content} (hx : x.OfKind kind) (hy : y.OfKind kind)
    (h : x.shown kind = y.shown kind) : x = y := by
  cases kind with
  | int =>
    cases x <;> cases y <;> simp only [OfKind] at hx hy
    rw [repr_injective h]
  | bool =>
    cases x <;> cases y <;> simp only [OfKind] at hx hy
    rename_i b b'
    cases b <;> cases b' <;> simp_all [shown]
  | text =>
    cases x <;> cases y <;> simp only [OfKind] at hx hy
    exact congrArg _ h
  | bytes =>
    cases x <;> cases y <;> simp only [OfKind] at hx hy
    exact congrArg _ (Bytes.hex_injective h)
  | other type =>
    cases x <;> cases y <;> simp only [OfKind] at hx hy
    rename_i s s'
    have hchars : (s ++ "))").toList = (s' ++ "))").toList := by
      simpa [shown,String.append_assoc] using congrArg String.toList h
    have hs : s.toList = s'.toList := by simpa using hchars
    rw [String.toList_injective hs]

/-- Only the text that stands for a `NULL` is taken for one. -/
theorem Content.shown_eq_null {kind : Kind} {x : Content} (hx : x.OfKind kind) (h : x.shown kind = kind.shownNull) :
    x = .text nullKey := by
  cases kind with
  | int =>
    cases x <;> simp only [OfKind] at hx
    exact absurd h (repr_ne_nullKey _)
  | bool =>
    cases x <;> simp only [OfKind] at hx
    rename_i b
    cases b <;> exact absurd h (by decide)
  | text =>
    cases x <;> simp only [OfKind] at hx
    exact congrArg _ h
  | bytes =>
    cases x <;> simp only [OfKind] at hx
    exact absurd h (hex_ne_nullKey _)
  | other type =>
    cases x <;> simp only [OfKind] at hx
    have hchars := congrArg String.toList h
    simp [shown,Kind.shownNull,String.append_assoc] at hchars

theorem relationKey_inj {a b : Value} {x y : Content} (hkind : a.kind = b.kind) (ha : a.content = some x)
    (hb : b.content = some y) (h : relationKey a = relationKey b) : x = y := by
  have hx := Value.ofKind ha
  have hy := Value.ofKind hb
  rw [relationKey_eq,relationKey_eq,ha,hb,← hkind] at h
  rw [← hkind] at hy
  exact Content.shown_inj hx hy h

theorem relationKey_eq_null {a b : Value} {x : Content} (hkind : a.kind = b.kind) (ha : a.content = some x)
    (hb : b.content = none) (h : relationKey a = relationKey b) : x = .text nullKey := by
  have hx := Value.ofKind ha
  rw [relationKey_eq,relationKey_eq,ha,hb,← hkind] at h
  exact Content.shown_eq_null hx h

/-! ## Databases that compare keys by what they hold -/

variable {E : Entity} {P X J : Type}

/-- A database where `IN` is an equality with one of the values, values of one type are equal
if they hold the same, a `NULL` equals nothing, and which of two tied rows comes first does
not depend on the `WHERE`. -/
structure KeyedEngine (P X J : Type) extends Engine Value P X J where
  meets_isIn : ∀ (column : String) (values : List Value) (v : Value),
    meets (.isIn column values) v = values.any (equals v)
  equals_iff : ∀ {a b : Value}, a.kind = b.kind → (equals a b = true ↔ a.content.isSome ∧ a.content = b.content)
  admits_plain : ∀ columns : List ColumnRef, admits { output := .columns columns } = true
  arrange_filter : ∀ (s : Select Value P X J) (w : List (Clause Value P J)) (db : Tables Value) (ρs : List (Env Value))
    (p : Env Value → Bool), arrange { s with where_ := w } db (ρs.filter p) = (arrange s db ρs).filter p

theorem lookup_zip_map (row : Row Value) {columns : List String} {column : String} (h : column ∈ columns) :
    (columns.zip (columns.map row)).lookup column = some (row column) := by
  induction columns with
  | nil => simp at h
  | cons c columns ih =>
    rw [List.map_cons,List.zip_cons_cons,List.lookup_cons]
    by_cases hc : column = c
    · simp [hc]
    · have hbeq : (column == c) = false := by simpa using hc
      rw [hbeq]
      exact ih (by simpa [hc] using h)

namespace KeyedEngine

variable (D : KeyedEngine P X J) (db : Tables Value)

theorem valueOf_output (k : KeyColumn E) (ρ : Env Value) :
    valueOf E (D.output (selectColumns E) ρ) k.name = some (D.value ρ ⟨E.table,k.name⟩) := by
  have hcolumns : D.output (selectColumns E) ρ = E.columns.map fun column => D.value ρ ⟨E.table,column⟩ := by
    rw [Engine.output,selectColumns,List.map_map]
    rfl
  rw [valueOf,hcolumns]
  exact lookup_zip_map (fun column => D.value ρ ⟨E.table,column⟩) k.mem

/-- The far key of a row is one of some values. -/
def among (k : KeyColumn E) (values : List Value) (row : Model) : Bool :=
  (valueOf E row k.name).any fun v => values.any (D.equals v)

theorem condition_whereIn (c : Criteria Value P X J) (k : KeyColumn E) (values : List Value) (ρ : Env Value) :
    D.condition db (criteriaCondition E (c.whereIn k.name values) ++ scopeSelect E c.trash) ρ =
      (D.among k values (D.output (selectColumns E) ρ) &&
        D.condition db (criteriaCondition E c ++ scopeSelect E c.trash) ρ) := by
  have hclause : D.clause db ρ (.one (constraintExpr E (.isIn k.name values))) =
      D.among k values (D.output (selectColumns E) ρ) := by
    rw [among,D.valueOf_output,Option.any_some,Language.clause,constraintExpr,Language.test,D.meets_isIn,
      Constraint.column,k.bare]
  simp only [Language.condition,criteriaCondition,Criteria.whereIn,List.map_append,List.all_append,List.map_cons,
    List.map_nil,List.all_cons,List.all_nil,Bool.and_true,hclause]
  grind

theorem accepts_whereIn (c : Criteria Value P X J) (k : KeyColumn E) (values : List Value) :
    D.accepts (selectMatching E (c.whereIn k.name values)) = D.accepts (selectMatching E c) := by
  have hnames : (D.conditionNames (selectMatching E (c.whereIn k.name values)).where_).all
      (· ∈ E.table :: (criteriaJoins E c).map (·.aliased)) = (D.conditionNames (selectMatching E c).where_).all
        (· ∈ E.table :: (criteriaJoins E c).map (·.aliased)) := by
    simp only [selectMatching,applyCriteria,criteriaCondition,Criteria.whereIn,Language.conditionNames,List.map_append,
      List.flatMap_append,List.all_append,List.map_cons,List.map_nil,List.flatMap_cons,List.flatMap_nil,
      Language.clauseNames,constraintExpr,Language.testNames,Constraint.column,k.bare]
    simp
  simp only [Engine.accepts,Engine.resolves]
  exact congrArg (fun b => (D.joinsResolve [E.table] (criteriaJoins E c) && b && _) && _) hnames

theorem different_filter (columns : List ColumnRef) (p : List Value → Bool) (ρs : List (Env Value)) :
    D.different columns (ρs.filter fun ρ => p (D.output columns ρ)) =
      (D.different columns ρs).filter fun ρ => p (D.output columns ρ) := by
  induction ρs with
  | nil => rfl
  | cons ρ ρs ih =>
    simp only [Engine.different] at ih ⊢
    cases hp : p (D.output columns ρ) with
    | false =>
      rw [List.filter_cons_of_neg (by simp [hp]),ih]
      by_cases hnew : ∀ ρ' ∈ ρs.pwFilter fun ρ ρ' => D.output columns ρ ≠ D.output columns ρ',
          D.output columns ρ ≠ D.output columns ρ'
      · rw [List.pwFilter_cons_of_pos hnew,List.filter_cons_of_neg (by simp [hp])]
      · rw [List.pwFilter_cons_of_neg hnew]
    | true =>
      rw [List.filter_cons_of_pos (by simp [hp])]
      -- a combination that looks like this one passes as this one does
      have hiff : (∀ ρ' ∈ (ρs.pwFilter fun ρ ρ' => D.output columns ρ ≠ D.output columns ρ').filter
          (fun ρ => p (D.output columns ρ)), D.output columns ρ ≠ D.output columns ρ') ↔
            ∀ ρ' ∈ ρs.pwFilter fun ρ ρ' => D.output columns ρ ≠ D.output columns ρ',
              D.output columns ρ ≠ D.output columns ρ' := by
        constructor
        · intro h ρ' hρ' heq
          exact h ρ' (List.mem_filter.2 ⟨hρ',by simp only [← heq,hp]⟩) heq
        · intro h ρ' hρ'
          exact h ρ' (List.mem_filter.1 hρ').1
      by_cases hnew : ∀ ρ' ∈ ρs.pwFilter fun ρ ρ' => D.output columns ρ ≠ D.output columns ρ',
          D.output columns ρ ≠ D.output columns ρ'
      · rw [List.pwFilter_cons_of_pos hnew,List.filter_cons_of_pos (by simp [hp]),← ih]
        exact List.pwFilter_cons_of_pos (by rw [ih]; exact hiff.2 hnew)
      · rw [List.pwFilter_cons_of_neg hnew,← ih]
        exact List.pwFilter_cons_of_neg (by rw [ih]; exact fun h => hnew (hiff.1 h))

/-- The rows of a criteria, in its order. -/
def rows (E : Entity) (c : Criteria Value P X J) : List Model :=
  (D.delivered db (selectMatching E c) (selectColumns E)).map (D.output (selectColumns E))

theorem delivered_whereIn (c : Criteria Value P X J) (k : KeyColumn E) (values : List Value) :
    D.delivered db (selectMatching E (c.whereIn k.name values)) (selectColumns E) =
      (D.delivered db (selectMatching E c) (selectColumns E)).filter
        fun ρ => D.among k values (D.output (selectColumns E) ρ) := by
  have hmatched : D.matched db (selectMatching E (c.whereIn k.name values)) =
      (D.matched db (selectMatching E c)).filter fun ρ => D.among k values (D.output (selectColumns E) ρ) := by
    rw [Engine.matched,Engine.matched,List.filter_filter]
    exact List.filter_congr fun ρ _ => D.condition_whereIn db c k values ρ
  have hdistinct : (selectMatching E (c.whereIn k.name values)).distinct = (selectMatching E c).distinct := rfl
  rw [Engine.delivered,Engine.delivered,← D.arrange_filter (selectMatching E c)
    (selectMatching E (c.whereIn k.name values)).where_,hmatched,hdistinct]
  split_ifs
  · rw [D.different_filter]
    rfl
  · rfl

/-- A query for some keys keeps those rows of the criteria that have one of them. -/
theorem matching_whereIn {c : Criteria Value P X J} (hlimit : c.limit = none) (hoffset : c.offset.getD 0 = 0)
    (haccepts : D.accepts (selectMatching E c)) (k : KeyColumn E) (values : List Value) :
    D.matching db E (c.whereIn k.name values) = some ((D.rows db E c).filter (D.among k values)) := by
  have hfetch : D.matching db E (c.whereIn k.name values) = if D.accepts (selectMatching E (c.whereIn k.name values)) then
      some ((Engine.window (selectMatching E (c.whereIn k.name values)).toShape (D.delivered db
        (selectMatching E (c.whereIn k.name values)) (selectColumns E))).map (D.output (selectColumns E))) else none := rfl
  rw [hfetch,D.accepts_whereIn,if_pos haccepts,Engine.window_unpaged _ hlimit hoffset,D.delivered_whereIn,rows,
    List.filter_map]
  rfl

/-- A row of a criteria is a row of the table. -/
theorem exists_row {c : Criteria Value P X J} {model : Model} (h : model ∈ D.rows db E c) :
    ∃ row ∈ db E.table, model = E.columns.map row := by
  obtain ⟨ρ,hρ,rfl⟩ := List.mem_map.1 h
  obtain ⟨row,hrow,hcomb⟩ := List.mem_flatMap.1 (List.mem_filter.1 (D.delivered_subset hρ)).1
  refine ⟨row,hrow,?_⟩
  have hroot : ρ.lookup E.table = some (some row) := D.lookup_root db hcomb
  rw [Engine.output,selectColumns,List.map_map]
  apply List.map_congr_left
  intro column _
  simp only [Function.comp_apply,Language.value,hroot]

end KeyedEngine

/-! ## A database of values -/

/-- The number a value holds. -/
def Value.number? : Value → Option ℤ
  | .int _ n => n
  | _ => none

def valueEquals (a b : Value) : Bool := a.content.isSome && a.content = b.content

/-- `NULL` sorts first. -/
def valueLe (a b : Value) : Bool :=
  match a.number?, b.number? with
  | none, _ => true
  | some _, none => false
  | some m, some n => m ≤ n

def valueLt (a b : Value) : Bool := a.content.isSome && b.content.isSome && !valueLe b a

def valueCompares (v : Value) : Comparison → Value → Bool
  | .eq, x => valueEquals v x
  | .ne, x => v.content.isSome && x.content.isSome && !valueEquals v x
  | .gt, x => valueLt x v
  | .gte, x => valueLt x v || valueEquals v x
  | .lt, x => valueLt v x
  | .lte, x => valueLt v x || valueEquals v x

def valueMeets : Constraint Value → Value → Bool
  | .eqCi _ x, v | .eq _ x, v => valueCompares v .eq x
  | .ne _ x, v => valueCompares v .ne x
  | .gt _ x, v => valueCompares v .gt x
  | .gte _ x, v => valueCompares v .gte x
  | .lt _ x, v => valueCompares v .lt x
  | .lte _ x, v => valueCompares v .lte x
  | .like _ _, _ | .notLike _ _, _ => false
  | .isIn _ xs, v => xs.any (valueEquals v)
  | .notIn _ xs, v => xs.all (valueCompares v .ne)
  | .null _, v => v.content.isNone
  | .notNull _, v => v.content.isSome

def valueLanguage : Language Value Empty Empty Empty where
  null := .int .bigInt none
  number n := .int .bigInt (some n)
  meets := valueMeets
  equals := valueEquals
  compares := valueCompares
  le := valueLe
  aggregates := Empty.elim
  projectionNames _ := Empty.elim
  project _ := Empty.elim
  predicateNames _ := Empty.elim
  holds _ := Empty.elim
  expressionNames _ := Empty.elim
  evaluate _ := Empty.elim
  number_injective m n h := by
    simp only [Value.int.injEq,Option.some.injEq,true_and] at h
    omega
  le_total a b := by
    rw [valueLe,valueLe]
    cases a.number? <;> cases b.number? <;> simp
    omega
  le_trans {a b c} := by
    rw [valueLe,valueLe,valueLe]
    cases a.number? <;> cases b.number? <;> cases c.number? <;> simp
    omega
  project_local {_ j} := j.elim
  holds_local {_ p} := p.elim

def valueEngine : KeyedEngine Empty Empty Empty where
  toLanguage := valueLanguage
  admits _ := true
  arrange s db := List.insertionSort (valueLanguage.before db s.orders · ·)
  admits_paged _ _ _ := rfl
  arrange_perm s db := List.perm_insertionSort _
  arrange_ordered s db := by
    have : Std.Total (fun ρ ρ' => valueLanguage.before db s.orders ρ ρ' = true) :=
      ⟨valueLanguage.before_total db s.orders⟩
    have : IsTrans _ (fun ρ ρ' => valueLanguage.before db s.orders ρ ρ' = true) :=
      ⟨fun _ _ _ => valueLanguage.before_trans db⟩
    exact List.pairwise_insertionSort _
  meets_isIn _ _ _ := rfl
  equals_iff {a b} _ := by simp [valueLanguage,valueEquals]
  admits_plain _ := rfl
  arrange_filter s _ db ρs p := Ordered.insertionSort_filter _ (valueLanguage.before_total db s.orders)
    (valueLanguage.before_trans db) p ρs

end Rainier.Database
