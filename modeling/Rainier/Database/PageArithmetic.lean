import Rainier.Database.Counts

/-! # The arithmetic of pages

A page number and a page size come from a client, and the offset is their product, made in
`u64` before it is clamped. A build with overflow checks panics when it does not fit, and
another keeps its low 64 bits.
-/
namespace Rainier.Database

inductive Build where
  | checked
  | wrapping
  deriving DecidableEq, Repr

namespace Build

/-- A sum or a product in `u64`; `none` is a panic. -/
def u64 : Build → ℕ → Option ℕ
  | checked, n => if n < 2 ^ 64 then some n else none
  | wrapping, n => some (n % 2 ^ 64)

def sub : Build → ℕ → ℕ → Option ℕ
  | checked, m, n => if n ≤ m then some (m - n) else none
  | wrapping, m, n => some (if n ≤ m then m - n else m + 2 ^ 64 - n)

/-- The result is exact exactly when it fits. -/
theorem u64_eq_some {b : Build} {n : ℕ} : b.u64 n = some n ↔ n < 2 ^ 64 := by
  cases b with
  | checked =>
    rw [u64]
    split <;> simp_all
  | wrapping =>
    rw [u64,Option.some_inj]
    constructor
    · intro h
      have hlt := Nat.mod_lt n (Nat.two_pow_pos 64)
      omega
    · exact Nat.mod_eq_of_lt

theorem sub_eq {b : Build} {m n : ℕ} (h : n ≤ m) : b.sub m n = some (m - n) := by
  cases b with
  | checked => exact if_pos h
  | wrapping => rw [sub,if_pos h]

end Build

namespace Paginated
variable {α : Type} (b : Build) (p : Paginated α)

/-- The `OFFSET` the page corresponds to. -/
def offset : Option ℕ := do
  let before ← b.sub p.currentPage 1
  b.u64 (before * p.perPage)

/-- The index of the first row, from one, if there is a row; the outer `none` is a panic. -/
def from_ : Option (Option ℕ) :=
  if p.data.isEmpty then some none
  else do
    let before ← b.sub p.currentPage 1
    let start ← b.u64 (before * p.perPage)
    return some (← b.u64 (start + 1))

/-- The index of the last row. -/
def to_ : Option (Option ℕ) := do
  match ← p.from_ b with
  | none => return none
  | some first =>
    let past ← b.u64 (first + p.data.length)
    return some (← b.sub past 1)

end Paginated

variable {V P X J : Type}

/-- The criteria of one page. -/
def pageWindow (b : Build) (c : Criteria V P X J) (page perPage : ℕ) : Option (Criteria V P X J) :=
  (b.u64 ((max page 1 - 1) * max perPage 1)).map fun offset => (c.setLimit (max perPage 1)).setOffset offset

variable [DecidableEq V]

/-- `paginate_matching`: the outer `none` is a panic, the inner one an error of the database. -/
def paginate (b : Build) (D : Engine V P X J) (E : Entity) (db : Tables V) (c : Criteria V P X J) (page perPage : ℕ) :
    Option (Option (Paginated (List V))) :=
  match D.fetchCount db (countMatching E c) with
  | none => some none
  | some total =>
    if total = 0 then some (some (.empty (max page 1) (max perPage 1)))
    else (pageWindow b c page perPage).map fun window =>
      (D.fetchAll db (selectMatching E window)).map fun data => .new data total (max page 1) (max perPage 1)

/-- How many rows come before a page. -/
def rowsBefore (page perPage : ℕ) : ℕ := (max page 1 - 1) * max perPage 1

/-- A page asks for the rows after those before it, and numbers them. -/
structure PageExact (b : Build) (D : Engine V P X J) (E : Entity) (db : Tables V) (c : Criteria V P X J) (total page perPage : ℕ) :
    Prop where
  window : pageWindow b c page perPage = some ((c.setLimit (max perPage 1)).setOffset (rowsBefore page perPage))
  returns : (paginate b D E db c page perPage).isSome = true
  pastEnd : ∀ p, paginate b D E db c page perPage = some (some p) → total ≤ rowsBefore page perPage → p.data = []
  offset : ∀ (data : List (List V)) (rows : ℕ), (Paginated.new data rows page perPage).offset b = some (rowsBefore page perPage)
  from_ : ∀ p, paginate b D E db c page perPage = some (some p) →
    p.from_ b = some (if p.data.isEmpty then none else some (rowsBefore page perPage + 1))
  to_ : ∀ p, paginate b D E db c page perPage = some (some p) →
    p.to_ b = some (if p.data.isEmpty then none else some (rowsBefore page perPage + p.data.length))

section Arithmetic
variable {b : Build} {D : Engine V P X J} {E : Entity} {db : Tables V} {c : Criteria V P X J} {total page perPage : ℕ}

/-- The build that wraps is the one whose pages are the rows. -/
theorem paginate_wrapping : paginate .wrapping D E db c page perPage = some (paginateMatching D E db c page perPage) := by
  rw [paginate,paginateMatching]
  cases D.fetchCount db (countMatching E c) with
  | none => rfl
  | some total =>
    simp only [Option.bind_eq_bind,Option.bind_some,pageWindow,Build.u64,Option.map_some]
    split
    · rfl
    · cases D.fetchAll db (selectMatching E ((c.setLimit (max perPage 1)).setOffset
        ((max page 1 - 1) * max perPage 1 % 2 ^ 64))) <;> rfl

theorem offset_new {α : Type} (data : List α) (rows : ℕ) :
    (Paginated.new data rows page perPage).offset b = b.u64 (rowsBefore page perPage) := by
  have hsub : b.sub (max page 1) 1 = some (max page 1 - 1) := Build.sub_eq (Nat.le_max_right page 1)
  rw [Paginated.offset,Paginated.new]
  simp only [hsub,Option.bind_eq_bind,Option.bind_some,rowsBefore]

/-- With an exact offset the rows of a page are those after the ones before it, as many as a page holds. -/
theorem data_length (hcount : D.fetchCount db (countMatching E c) = some total) {o n : ℕ} {data : List (List V)}
    (hdata : D.fetchAll db (selectMatching E ((c.setLimit n).setOffset o)) = some data) :
    data.length + min o maxBound ≤ total ∨ data = [] := by
  have htotal : (D.matched db (selectMatching E c.unpaged)).length = total := by
    rw [fetchCount_count] at hcount
    split at hcount
    · exact Option.some_inj.1 hcount
    · cases hcount
  rw [fetchAll_select] at hdata
  split at hdata
  · have hlength : (D.delivered db (selectMatching E ((c.setLimit n).setOffset o)) (selectColumns E)).length ≤ total :=
      Nat.le_trans (D.delivered_length _ _) (Nat.le_of_eq htotal)
    obtain ⟨rows,hrows⟩ : ∃ rows, rows = D.delivered db (selectMatching E ((c.setLimit n).setOffset o)) (selectColumns E) := ⟨_,rfl⟩
    have hwindow : data = (((rows.drop (min o maxBound)).take (min n maxBound)).map (D.output (selectColumns E))) := by
      rw [hrows]
      exact (Option.some_inj.1 hdata).symm
    rw [← hrows] at hlength
    by_cases hpast : rows.length ≤ min o maxBound
    · right
      rw [hwindow,List.drop_eq_nil_of_le hpast,List.take_nil,List.map_nil]
    · left
      rw [hwindow,List.length_map,List.length_take,List.length_drop]
      omega
  · cases hdata

theorem paginate_fits (hcount : D.fetchCount db (countMatching E c) = some total) (hpos : 0 < total)
    (hfits : rowsBefore page perPage < 2 ^ 64) :
    paginate b D E db c page perPage =
      some ((D.fetchAll db (selectMatching E ((c.setLimit (max perPage 1)).setOffset (rowsBefore page perPage)))).map
        fun data => .new data total (max page 1) (max perPage 1)) := by
  have hwindow : pageWindow b c page perPage = some ((c.setLimit (max perPage 1)).setOffset (rowsBefore page perPage)) := by
    have hproduct := Build.u64_eq_some (b := b).2 hfits
    rw [rowsBefore] at hproduct
    rw [pageWindow,hproduct,Option.map_some,rowsBefore]
  rw [paginate,hcount]
  simp only [if_neg (Nat.ne_of_gt hpos),hwindow,Option.map_some]

/-- What a page that is returned holds: nothing, or rows whose numbers are no larger than the count. -/
theorem page_rows (hcount : D.fetchCount db (countMatching E c) = some total) (hpos : 0 < total) (htotal : total < 2 ^ 63)
    (hfits : rowsBefore page perPage < 2 ^ 64) {p : Paginated (List V)} (hp : paginate b D E db c page perPage = some (some p)) :
    p.currentPage = max page 1 ∧ p.perPage = max perPage 1 ∧
      (p.data = [] ∨ rowsBefore page perPage + p.data.length ≤ total) := by
  rw [paginate_fits hcount hpos hfits,Option.some_inj] at hp
  obtain ⟨data,hdata,rfl⟩ := Option.map_eq_some_iff.1 hp
  refine ⟨by simp [Paginated.new],by simp [Paginated.new],?_⟩
  have hbound : maxBound = 2 ^ 63 - 1 := rfl
  by_cases hnil : data = []
  · exact .inl hnil
  · right
    have hlength := (data_length hcount hdata).resolve_right hnil
    have hpos := List.length_pos_iff.2 hnil
    simp only [Paginated.new]
    omega

theorem from_eq {α : Type} {p : Paginated α} (hpage : p.currentPage = max page 1) (hper : p.perPage = max perPage 1)
    (hrows : p.data = [] ∨ rowsBefore page perPage + p.data.length ≤ total) (htotal : total < 2 ^ 63) :
    p.from_ b = some (if p.data.isEmpty then none else some (rowsBefore page perPage + 1)) := by
  rw [Paginated.from_]
  cases hempty : p.data.isEmpty with
  | true => rfl
  | false =>
    have hnil : p.data ≠ [] := by simpa using hempty
    have hlength := hrows.resolve_left hnil
    have hpos := List.length_pos_iff.2 hnil
    have hsub : b.sub (max page 1) 1 = some (max page 1 - 1) := Build.sub_eq (Nat.le_max_right page 1)
    have hproduct : b.u64 ((max page 1 - 1) * max perPage 1) = some (rowsBefore page perPage) :=
      Build.u64_eq_some.2 (show rowsBefore page perPage < 2 ^ 64 by omega)
    have hnext : b.u64 (rowsBefore page perPage + 1) = some (rowsBefore page perPage + 1) := Build.u64_eq_some.2 (by omega)
    simp [hpage,hper,hsub,hproduct,hnext]

theorem to_eq {α : Type} {p : Paginated α} (hpage : p.currentPage = max page 1) (hper : p.perPage = max perPage 1)
    (hrows : p.data = [] ∨ rowsBefore page perPage + p.data.length ≤ total) (htotal : total < 2 ^ 63) :
    p.to_ b = some (if p.data.isEmpty then none else some (rowsBefore page perPage + p.data.length)) := by
  rw [Paginated.to_,from_eq hpage hper hrows htotal]
  cases hempty : p.data.isEmpty with
  | true => rfl
  | false =>
    have hnil : p.data ≠ [] := by simpa using hempty
    have hlength := hrows.resolve_left hnil
    have hpast : b.u64 (rowsBefore page perPage + 1 + p.data.length) = some (rowsBefore page perPage + 1 + p.data.length) :=
      Build.u64_eq_some.2 (by omega)
    have hlast : b.sub (rowsBefore page perPage + 1 + p.data.length) 1 = some (rowsBefore page perPage + p.data.length) := by
      rw [Build.sub_eq (by omega)]
      congr 1
      omega
    simp [hpast,hlast]

/-- A page of a table is exact, whatever the build, exactly when the rows before it can be counted in 64 bits. -/
theorem pageExact_iff (hcount : D.fetchCount db (countMatching E c) = some total) (hpos : 0 < total) (htotal : total < 2 ^ 63) :
    PageExact b D E db c total page perPage ↔ rowsBefore page perPage < 2 ^ 64 := by
  constructor
  · intro h
    have hoffset := h.offset [] 0
    rw [offset_new] at hoffset
    exact Build.u64_eq_some.1 hoffset
  · intro hfits
    have hproduct := Build.u64_eq_some (b := b).2 hfits
    have hrows {p : Paginated (List V)} (hp : paginate b D E db c page perPage = some (some p)) :=
      page_rows hcount hpos htotal hfits hp
    refine ⟨?_,?_,fun p hp hpast => ?_,fun data rows => ?_,fun p hp => ?_,fun p hp => ?_⟩
    · rw [rowsBefore] at hproduct
      rw [pageWindow,hproduct,Option.map_some,rowsBefore]
    · rw [paginate_fits hcount hpos hfits]
      rfl
    · rcases (hrows hp).2.2 with hnil | hlength
      · exact hnil
      · exact List.length_eq_zero_iff.1 (by omega)
    · rw [offset_new,hproduct]
    · exact from_eq (hrows hp).1 (hrows hp).2.1 (hrows hp).2.2 htotal
    · exact to_eq (hrows hp).1 (hrows hp).2.1 (hrows hp).2.2 htotal

end Arithmetic

/-- The last page number a client can send, of one post. -/
theorem pageExact_last : PageExact .checked (numberEngine fun _ _ => true) posts onePost.tables {} 1 (2 ^ 64 - 1) 1 ↔
    rowsBefore (2 ^ 64 - 1) 1 < 2 ^ 64 :=
  pageExact_iff (by decide) (by decide) (by decide)

/-- A page far past the end: one build panics, and the other returns the first page under its number. -/
theorem page_wraps :
    paginate .checked (numberEngine fun _ _ => true) posts onePost.tables {} (2 ^ 32 + 1) (2 ^ 32) = none ∧
    (paginate .wrapping (numberEngine fun _ _ => true) posts onePost.tables {} (2 ^ 32 + 1) (2 ^ 32)).map
      (fun p => p.map fun p => (p.data,p.currentPage)) = some (some ([[some 1]],2 ^ 32 + 1)) := by
  refine ⟨?_,?_⟩
  · have hnone : (paginate .checked (numberEngine fun _ _ => true) posts onePost.tables {} (2 ^ 32 + 1) (2 ^ 32)).isNone = true := by
      decide
    simpa using hnone
  · decide

end Rainier.Database
