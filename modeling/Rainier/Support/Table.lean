import Mathlib.Data.List.Basic
import Mathlib.Data.List.Nodup
import Mathlib.Data.List.Perm.Basic

/-! # Tables

A table is the list of its rows, in no particular order, and each function here
is one statement run on it. `key` is the column the rows are told apart by.
-/
namespace Rainier.Table
variable {α κ : Type*}

/-- `UPDATE … SET … WHERE …` -/
def updateWhere (p : α → Bool) (f : α → α) (rows : List α) : List α :=
  rows.map (fun row => if p row then f row else row)

/-- `DELETE … WHERE …` -/
def deleteWhere (p : α → Bool) (rows : List α) : List α := rows.filter (fun row => !p row)

/-- The answer of `SELECT … WHERE … ORDER BY … LIMIT …` when the database lists the
rows it finds as `order`; rows that tie may come in any order. -/
def select [BEq α] (p : α → Bool) (sorted : List α → Bool) (limit : ℕ) (rows order : List α) : Option (List α) :=
  if order.isPerm (rows.filter p) && sorted order then some (order.take limit) else none

variable {p : α → Bool} {f : α → α} {rows : List α} {key : α → κ}

theorem mem_updateWhere {row : α} :
    row ∈ updateWhere p f rows ↔ (∃ old ∈ rows, p old = true ∧ f old = row) ∨ (row ∈ rows ∧ p row = false) := by
  simp only [updateWhere,List.mem_map]
  constructor
  · rintro ⟨old,hold,he⟩
    cases hp : p old with
    | true => exact .inl ⟨old,hold,hp,by simpa [hp] using he⟩
    | false =>
      have : old = row := by simpa [hp] using he
      exact .inr ⟨this ▸ hold,this ▸ hp⟩
  · rintro (⟨old,hold,hp,he⟩ | ⟨hrow,hp⟩)
    · exact ⟨old,hold,by simpa [hp] using he⟩
    · exact ⟨row,hrow,by simp [hp]⟩

theorem keys_updateWhere (h : (rows.map key).Nodup) (hf : ∀ row, key (f row) = key row) :
    ((updateWhere p f rows).map key).Nodup := by
  have hkeys : (updateWhere p f rows).map key = rows.map key := by
    rw [updateWhere,List.map_map]
    refine List.map_congr_left ?_
    intro row _
    simp only [Function.comp_apply]
    split
    · exact hf row
    · rfl
  rw [hkeys]
  exact h

theorem mem_deleteWhere {row : α} : row ∈ deleteWhere p rows ↔ row ∈ rows ∧ p row = false := by
  simp [deleteWhere]

theorem keys_deleteWhere (h : (rows.map key).Nodup) : ((deleteWhere p rows).map key).Nodup :=
  h.sublist (List.filter_sublist.map key)

theorem eq_of_key (h : (rows.map key).Nodup) {a b : α} (ha : a ∈ rows) (hb : b ∈ rows) (hk : key a = key b) :
    a = b := List.inj_on_of_nodup_map h ha hb hk

theorem mem_of_select [BEq α] [LawfulBEq α] {sorted : List α → Bool} {limit : ℕ} {order answer : List α}
    (h : select p sorted limit rows order = some answer) {row : α} (hr : row ∈ answer) :
    row ∈ rows ∧ p row = true := by
  unfold select at h
  split at h
  next hc =>
    cases h
    have hperm : order.Perm (rows.filter p) := List.isPerm_iff.mp (Bool.and_eq_true_iff.mp hc).1
    exact List.mem_filter.mp (hperm.mem_iff.mp (List.mem_of_mem_take hr))
  · cases h

end Rainier.Table
