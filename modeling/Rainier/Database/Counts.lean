import Rainier.Support.Ordered
import Rainier.Database.Writes

/-! # Counts and pages

The `COUNT` of a criteria drops its paging but keeps its `ORDER BY` and its `DISTINCT`: the
first makes criteria that differ in their order build different counts, which some databases
reject, and the second does not reach inside a `COUNT(*)`. Where neither shows, the count is
the number of rows, and the pages of a totally ordered query are the query cut in pieces.
-/
namespace Rainier.Database

variable {V P X J : Type}

/-- One page of results. -/
structure Paginated (α : Type) where
  data : List α
  total : ℕ
  currentPage : ℕ
  perPage : ℕ

namespace Paginated

variable {α : Type}

def new (data : List α) (total page perPage : ℕ) : Paginated α := ⟨data,total,max page 1,max perPage 1⟩

def empty (page perPage : ℕ) : Paginated α := new [] 0 page perPage

/-- The last page number: `total.div_ceil(per_page)`, at least one. -/
def lastPage (p : Paginated α) : ℕ := max ((p.total + p.perPage - 1) / p.perPage) 1

end Paginated

variable [DecidableEq V]

/-- One page of the rows matching a criteria. The offset is a product of two `u64`. -/
def paginateMatching (D : Engine V P X J) (E : Entity) (db : Tables V) (c : Criteria V P X J) (page perPage : ℕ) :
    Option (Paginated (List V)) := do
  let page := max page 1
  let perPage := max perPage 1
  let total ← D.fetchCount db (countMatching E c)
  if total = 0 then return .empty page perPage
  let window := (c.setLimit perPage).setOffset ((page - 1) * perPage % 2 ^ 64)
  let data ← D.fetchAll db (selectMatching E window)
  return .new data total page perPage

/-- Rows that the order leaves tied look the same. -/
def TotalOrder (D : Engine V P X J) (E : Entity) (c : Criteria V P X J) (db : Tables V) : Prop :=
  ∀ ρ ∈ D.matched db (selectMatching E c.unpaged), ∀ ρ' ∈ D.matched db (selectMatching E c.unpaged),
    D.before db (criteriaOrders E c) ρ ρ' → D.before db (criteriaOrders E c) ρ' ρ →
      D.output (selectColumns E) ρ = D.output (selectColumns E) ρ'

/-- The pages up to the last are the rows, each once and in order, and all report their number. -/
def PagesCover (D : Engine V P X J) (E : Entity) (c : Criteria V P X J) (db : Tables V) (rows : List (List V))
    (perPage : ℕ) : Prop :=
  ∃ (last : ℕ) (page : ℕ → Paginated (List V)),
    (∀ i < last, paginateMatching D E db c (i + 1) perPage = some (page i) ∧
      (page i).lastPage = last ∧ (page i).total = rows.length) ∧
    1 ≤ last ∧ (List.range last).flatMap (fun i => (page i).data) = rows

/-- A criteria and another order and paging for it: the count is the number of rows, the two
build one `COUNT`, and the pages are the rows. A count is a signed 64-bit number in each of the
databases, so no result has `2 ^ 63` rows. -/
structure CountsAgree (D : Engine V P X J) (E : Entity) (c : Criteria V P X J) (db : Tables V)
    (orders : List (String × Bool)) (exprOrders : List (X × Bool)) (limit offset : Option ℕ) : Prop where
  counted : D.fetchCount db (countMatching E c) = (D.fetchAll db (selectMatching E c.unpaged)).map List.length
  sameCount : countMatching E (c.rearranged orders exprOrders limit offset) = countMatching E c
  paged : ∀ rows, D.fetchAll db (selectMatching E c.unpaged) = some rows → rows.length < 2 ^ 63 →
    TotalOrder D E c db → ∀ perPage, 1 ≤ perPage → perPage < 2 ^ 64 → PagesCover D E c db rows perPage

section Counting

variable {D : Engine V P X J} {E : Entity} {c : Criteria V P X J} {db : Tables V}

theorem fetchAll_select (c : Criteria V P X J) : D.fetchAll db (selectMatching E c) =
    if D.accepts (selectMatching E c) then some ((Engine.window (selectMatching E c).toShape
      (D.delivered db (selectMatching E c) (selectColumns E))).map (D.output (selectColumns E))) else none := rfl

theorem fetchCount_count (c : Criteria V P X J) : D.fetchCount db (countMatching E c) =
    if D.accepts (countMatching E c) then some (D.matched db (selectMatching E c.unpaged)).length else none := rfl

theorem accepts_count : D.accepts (countMatching E c) =
    (D.resolves (selectMatching E c.unpaged) && D.admits (countMatching E c).toShape) := rfl

theorem accepts_select : D.accepts (selectMatching E c.unpaged) =
    (D.resolves (selectMatching E c.unpaged) && D.admits (selectMatching E c.unpaged).toShape) := rfl

/-- `DISTINCT` shortens the result unless all rows look different already. -/
theorem delivered_length_eq_iff : (D.delivered db (selectMatching E c.unpaged) (selectColumns E)).length =
    (D.matched db (selectMatching E c.unpaged)).length ↔
      (c.distinct → ((D.matched db (selectMatching E c.unpaged)).map (D.output (selectColumns E))).Nodup) := by
  have hdistinct : (selectMatching E c.unpaged).distinct = c.distinct := rfl
  rw [Engine.delivered,(D.arrange_perm _ db _).length_eq,hdistinct]
  cases c.distinct with
  | false => simp
  | true =>
    rw [if_pos rfl,List.Nodup,List.pairwise_map]
    constructor
    · intro hlength _
      rw [← (List.pwFilter_sublist _).eq_of_length hlength]
      exact List.pairwise_pwFilter _
    · intro hnodup
      rw [Engine.different,List.pwFilter_eq_self.2 (hnodup rfl)]

theorem counted_iff : D.fetchCount db (countMatching E c) =
      (D.fetchAll db (selectMatching E c.unpaged)).map List.length ↔
    (D.resolves (selectMatching E c.unpaged) →
      D.admits (countMatching E c).toShape = D.admits (selectMatching E c.unpaged).toShape ∧
      (D.admits (selectMatching E c.unpaged).toShape → c.distinct →
        ((D.matched db (selectMatching E c.unpaged)).map (D.output (selectColumns E))).Nodup)) := by
  rw [fetchCount_count,fetchAll_select,accepts_count,accepts_select,← delivered_length_eq_iff]
  cases D.resolves (selectMatching E c.unpaged) with
  | false => simp
  | true =>
    have hwindow := Engine.window_unpaged (selectMatching E c.unpaged).toShape rfl rfl
      (D.delivered db (selectMatching E c.unpaged) (selectColumns E))
    cases D.admits (countMatching E c).toShape <;>
      cases D.admits (selectMatching E c.unpaged).toShape <;> simp [hwindow,eq_comm]

/-- The orders by column and those by expression can be told apart again. -/
theorem criteriaOrders_inj {c c' : Criteria V P X J} : criteriaOrders E c = criteriaOrders E c' ↔
    c.orders.map (fun o => (columnRef E o.1,o.2)) = c'.orders.map (fun o => (columnRef E o.1,o.2)) ∧
      c.exprOrders = c'.exprOrders := by
  rw [criteriaOrders,criteriaOrders]
  generalize c.orders = os
  generalize c'.orders = os'
  induction os generalizing os' with
  | nil =>
    cases os' with
    | nil =>
      have hinj : Function.Injective fun o : X × Bool => (OrderTerm.expression E.table o.1,o.2) := by
        intro o o' h
        simp only [Prod.mk.injEq,OrderTerm.expression.injEq,true_and] at h
        exact Prod.ext h.1 h.2
      simpa using (List.map_injective_iff.2 hinj).eq_iff
    | cons o os' => cases c.exprOrders <;> simp
  | cons o os ih =>
    cases os' with
    | nil => cases c'.exprOrders <;> simp
    | cons o' os' => simp [ih os',and_assoc]

theorem sameCount_iff {orders : List (String × Bool)} {exprOrders : List (X × Bool)} {limit offset : Option ℕ} :
    countMatching E (c.rearranged orders exprOrders limit offset) = countMatching E c ↔
      orders.map (fun o => (columnRef E o.1,o.2)) = c.orders.map (fun o => (columnRef E o.1,o.2)) ∧
        exprOrders = c.exprOrders := by
  have horders : countMatching E (c.rearranged orders exprOrders limit offset) = countMatching E c ↔
      criteriaOrders E (c.rearranged orders exprOrders limit offset) = criteriaOrders E c := by
    constructor
    · intro h
      exact congrArg (fun s => s.orders) h
    · intro h
      simp only [countMatching,applyCriteria,h]
      rfl
  exact horders.trans criteriaOrders_inj

/-- Under a total order every statement over the same rows delivers them in the same order. -/
theorem delivered_congr (htotal : TotalOrder D E c db) (n o : ℕ) :
    (D.delivered db (selectMatching E ((c.setLimit n).setOffset o)) (selectColumns E)).map (D.output (selectColumns E)) =
      (D.delivered db (selectMatching E c.unpaged) (selectColumns E)).map (D.output (selectColumns E)) := by
  let chosen := if c.distinct then D.different (selectColumns E) (D.matched db (selectMatching E c.unpaged))
    else D.matched db (selectMatching E c.unpaged)
  have hp : (D.delivered db (selectMatching E ((c.setLimit n).setOffset o)) (selectColumns E)).Perm chosen :=
    D.arrange_perm _ db _
  have hp' : (D.delivered db (selectMatching E c.unpaged) (selectColumns E)).Perm chosen := D.arrange_perm _ db _
  have hmatched : D.delivered db (selectMatching E ((c.setLimit n).setOffset o)) (selectColumns E) ⊆
      D.matched db (selectMatching E ((c.setLimit n).setOffset o)) := D.delivered_subset
  apply Ordered.map_eq_of_arranged fun ρ ρ' => D.before db (criteriaOrders E c) ρ ρ'
  · intro ρ
    exact (D.before_total db _ ρ ρ).elim id id
  · exact D.before_trans db
  · exact hp.trans hp'.symm
  · exact D.arrange_ordered (selectMatching E ((c.setLimit n).setOffset o)) db _
  · exact D.arrange_ordered (selectMatching E c.unpaged) db _
  · intro ρ hρ ρ' hρ'
    exact htotal ρ (hmatched hρ) ρ' (hmatched hρ')

/-- One page of a totally ordered query is the window of its rows. -/
theorem fetchAll_page (htotal : TotalOrder D E c db) {rows : List (List V)}
    (hrows : D.fetchAll db (selectMatching E c.unpaged) = some rows) (n o : ℕ) :
    D.fetchAll db (selectMatching E ((c.setLimit n).setOffset o)) =
      some ((rows.drop (min o maxBound)).take (min n maxBound)) := by
  have hadmits : D.accepts (selectMatching E ((c.setLimit n).setOffset o)) = D.accepts (selectMatching E c.unpaged) :=
    congrArg (D.resolves (selectMatching E c.unpaged) && ·)
      (D.admits_paged (selectMatching E c.unpaged).toShape (min n maxBound) (min o maxBound))
  rw [fetchAll_select] at hrows ⊢
  rw [hadmits]
  split_ifs at hrows ⊢
  rw [Engine.window_unpaged _ rfl rfl] at hrows
  cases hrows
  rw [← delivered_congr htotal n o,List.map_drop.symm,List.map_take.symm]
  rfl

/-- A page inside the last one needs neither the clamp nor the wrap of its offset. -/
theorem page_window {rows : List (List V)} (hlength : rows.length < 2 ^ 63) {i perPage : ℕ}
    (hi : i * perPage < rows.length) :
    (rows.drop (min (i * perPage % 2 ^ 64) maxBound)).take (min perPage maxBound) =
      (rows.drop (i * perPage)).take perPage := by
  have hoffset : min (i * perPage % 2 ^ 64) maxBound = i * perPage := by
    rw [Nat.mod_eq_of_lt (by omega),maxBound]
    omega
  rw [hoffset]
  by_cases hclamp : perPage ≤ maxBound
  · rw [Nat.min_eq_left hclamp]
  · have hshort : (rows.drop (i * perPage)).length ≤ maxBound := by
      rw [List.length_drop,maxBound]
      omega
    rw [Nat.min_eq_right (by omega),List.take_of_length_le hshort,List.take_of_length_le (by omega)]

theorem page_lt {n perPage i : ℕ} (hn : 0 < n) (hp : 1 ≤ perPage) (hi : i < max ((n + perPage - 1) / perPage) 1) :
    i * perPage < n := by
  have hcases : i < (n + perPage - 1) / perPage ∨ i < 1 := by omega
  rcases hcases with hdiv | hone
  · have hmul := (Nat.le_div_iff_mul_le hp).1 (Nat.succ_le_of_lt hdiv)
    rw [Nat.succ_mul] at hmul
    omega
  · rw [Nat.lt_one_iff.1 hone,Nat.zero_mul]
    exact hn

theorem le_lastPage (n : ℕ) {perPage : ℕ} (hp : 1 ≤ perPage) : n ≤ max ((n + perPage - 1) / perPage) 1 * perPage := by
  have hdiv := Nat.lt_div_mul_add hp (a := n + perPage - 1)
  have hle := Nat.mul_le_mul_right perPage (Nat.le_max_left ((n + perPage - 1) / perPage) 1)
  omega

theorem paginateMatching_eq (htotal : TotalOrder D E c db) {rows : List (List V)}
    (hrows : D.fetchAll db (selectMatching E c.unpaged) = some rows)
    (hcount : D.fetchCount db (countMatching E c) = some rows.length) (hlength : rows.length < 2 ^ 63)
    {i perPage : ℕ} (hp : 1 ≤ perPage) (hi : i < max ((rows.length + perPage - 1) / perPage) 1) :
    paginateMatching D E db c (i + 1) perPage =
      some (.new ((rows.drop (i * perPage)).take perPage) rows.length (i + 1) perPage) := by
  have hpage : max (i + 1) 1 = i + 1 := Nat.max_eq_left (by omega)
  have hper : max perPage 1 = perPage := Nat.max_eq_left hp
  simp only [paginateMatching,hcount,hpage,hper,Option.bind_eq_bind,Option.bind_some,Nat.add_sub_cancel]
  by_cases hn : rows.length = 0
  · rw [if_pos hn,List.length_eq_zero_iff.1 hn]
    simp [Paginated.empty]
  · rw [if_neg hn,fetchAll_page htotal hrows,page_window hlength (page_lt (Nat.pos_of_ne_zero hn) hp hi)]
    rfl

theorem pagesCover (htotal : TotalOrder D E c db) {rows : List (List V)}
    (hrows : D.fetchAll db (selectMatching E c.unpaged) = some rows)
    (hcount : D.fetchCount db (countMatching E c) = some rows.length) (hlength : rows.length < 2 ^ 63)
    {perPage : ℕ} (hp : 1 ≤ perPage) : PagesCover D E c db rows perPage := by
  refine ⟨max ((rows.length + perPage - 1) / perPage) 1,
    fun i => .new ((rows.drop (i * perPage)).take perPage) rows.length (i + 1) perPage,fun i hi => ⟨?_,?_,rfl⟩,
    Nat.le_max_right _ _,?_⟩
  · exact paginateMatching_eq htotal hrows hcount hlength hp hi
  · simp only [Paginated.lastPage,Paginated.new,Nat.max_eq_left hp]
  · simp only [Paginated.new]
    rw [Ordered.flatMap_pages,List.take_of_length_le (le_lastPage _ hp)]

end Counting

/-- The count agrees just when the other criteria has the same order, and, if all names
resolve, the database takes the order that the `COUNT` keeps as it takes the one of the
`SELECT`, and a `DISTINCT` has nothing to remove. -/
theorem counts_agree_iff (D : Engine V P X J) (E : Entity) (c : Criteria V P X J) (db : Tables V)
    (orders : List (String × Bool)) (exprOrders : List (X × Bool)) (limit offset : Option ℕ) :
    CountsAgree D E c db orders exprOrders limit offset ↔
      (orders.map (fun o => (columnRef E o.1,o.2)) = c.orders.map (fun o => (columnRef E o.1,o.2)) ∧
        exprOrders = c.exprOrders) ∧
      (D.resolves (selectMatching E c.unpaged) →
        D.admits (countMatching E c).toShape = D.admits (selectMatching E c.unpaged).toShape ∧
        (D.admits (selectMatching E c.unpaged).toShape → c.distinct →
          ((D.matched db (selectMatching E c.unpaged)).map (D.output (selectColumns E))).Nodup)) := by
  constructor
  · intro h
    exact ⟨sameCount_iff.1 h.sameCount,counted_iff.1 h.counted⟩
  · rintro ⟨hsame,hcounted⟩
    have hcount := counted_iff.2 hcounted
    refine ⟨hcount,sameCount_iff.2 hsame,fun rows hrows hlength htotal perPage hp _ => ?_⟩
    rw [hrows] at hcount
    exact pagesCover htotal hrows hcount hlength hp

/-- Two comments on the one post. -/
def twoComments : Tables (Option ℕ) := fun table =>
  if table = "posts" then [fun _ => some 1] else if table = "comments" then [fun _ => some 1,fun _ => some 1] else []

/-- A database that takes no order over a bare column in an aggregate query. -/
def strictOrder : Output → List (OrderTerm Empty × Bool) → Bool
  | .columns _, _ => true
  | .countAll, orders => orders.isEmpty

/-- The posts that have a comment, each once: one row is read and two are counted. A database
that takes no order in an aggregate query does not count the ordered posts at all, and the two
orders make two statements. -/
theorem count_disagrees :
    ¬ CountsAgree (numberEngine fun _ _ => true) posts { joins := [("comments","id","post_id")], distinct := true }
      twoComments [] [] none none ∧
    ¬ CountsAgree (numberEngine strictOrder) posts { orders := [("id",false)] } twoComments [("id",false)] [] none none ∧
    ¬ CountsAgree (numberEngine fun _ _ => true) posts {} twoComments [("id",false)] [] none none := by
  refine ⟨fun h => ?_,fun h => ?_,fun h => ?_⟩
  · exact absurd h.counted (by decide)
  · exact absurd h.counted (by decide)
  · exact absurd (sameCount_iff.1 h.sameCount).1 (by simp)


end Rainier.Database
