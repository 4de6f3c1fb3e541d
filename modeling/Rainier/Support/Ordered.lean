import Mathlib.Order.Antisymmetrization
import Mathlib.Data.List.Sort

/-! # Lists in order, and lists in pages -/
namespace Rainier.Ordered

/-- Two arrangements of one list by a preorder look the same, if what is looked at tells no
more than the order does. -/
theorem map_eq_of_arranged {α β : Type*} (le : α → α → Prop) (hrefl : ∀ a, le a a)
    (htrans : ∀ {a b c}, le a b → le b c → le a c) {l l' : List α} (hperm : l.Perm l') (hl : l.Pairwise le)
    (hl' : l'.Pairwise le) {f : α → β} (hf : ∀ a ∈ l, ∀ b ∈ l, le a b → le b a → f a = f b) :
    l.map f = l'.map f := by
  let _ : Preorder α := { le, le_refl := hrefl, le_trans := fun _ _ _ => htrans }
  -- up to the elements that are tied, the order is antisymmetric and the arrangement unique
  let tie := toAntisymmetrization (α := α) (· ≤ ·)
  have hties : l.map tie = l'.map tie := by
    apply List.Perm.eq_of_pairwise' (r := (· ≤ ·)) _ _ (hperm.map tie)
    · exact List.pairwise_map.2 (hl.imp fun h => toAntisymmetrization_le_toAntisymmetrization_iff.2 h)
    · exact List.pairwise_map.2 (hl'.imp fun h => toAntisymmetrization_le_toAntisymmetrization_iff.2 h)
  have hlength : l.length = l'.length := hperm.length_eq
  apply List.ext_getElem (by simp [hlength])
  intro i hi hi'
  rw [List.length_map] at hi hi'
  have htie : tie l[i] = tie l'[i] := by
    have hget := congrArg (·[i]?) hties
    simpa [hi,hi'] using hget
  have hle := toAntisymmetrization_le_toAntisymmetrization_iff.1 htie.le
  have hge := toAntisymmetrization_le_toAntisymmetrization_iff.1 htie.ge
  rw [List.getElem_map,List.getElem_map]
  exact hf _ (List.getElem_mem hi) _ (hperm.mem_iff.2 (List.getElem_mem hi')) hle hge

/-- Pages of one size, read one after the other. -/
theorem flatMap_pages {α : Type*} (l : List α) (size n : ℕ) :
    (List.range n).flatMap (fun i => (l.drop (i * size)).take size) = l.take (n * size) := by
  induction n with
  | zero => simp
  | succ n ih =>
    rw [List.range_succ,List.flatMap_append,ih,List.flatMap_singleton,Nat.succ_mul,List.take_add]

theorem filter_orderedInsert {α : Type*} (le : α → α → Prop) [DecidableRel le] (htrans : ∀ {a b c}, le a b → le b c → le a c)
    (p : α → Bool) (a : α) {l : List α} (hl : l.Pairwise le) :
    (l.orderedInsert le a).filter p = if p a then (l.filter p).orderedInsert le a else l.filter p := by
  induction l with
  | nil => cases hp : p a <;> simp [hp]
  | cons b l ih =>
    obtain ⟨hb,hl⟩ := List.pairwise_cons.1 hl
    rw [List.orderedInsert]
    split_ifs with hab hpa hpa
    · -- the new element stands before all that is kept
      have hfirst : ∀ c ∈ (b :: l).filter p, le a c := by
        intro c hc
        rcases List.mem_cons.1 (List.mem_filter.1 hc).1 with rfl | hc
        · exact hab
        · exact htrans hab (hb c hc)
      rw [List.filter_cons_of_pos hpa]
      cases hkept : (b :: l).filter p with
      | nil => rfl
      | cons c kept => rw [List.orderedInsert,if_pos (hfirst c (hkept ▸ List.mem_cons_self))]
    · rw [List.filter_cons_of_neg hpa]
    · cases hpb : p b with
      | false => rw [List.filter_cons_of_neg (by simp [hpb]),List.filter_cons_of_neg (by simp [hpb]),ih hl,if_pos hpa]
      | true =>
        rw [List.filter_cons_of_pos hpb,List.filter_cons_of_pos hpb,ih hl,if_pos hpa,List.orderedInsert,if_neg hab]
    · cases hpb : p b with
      | false => rw [List.filter_cons_of_neg (by simp [hpb]),List.filter_cons_of_neg (by simp [hpb]),ih hl,if_neg hpa]
      | true => rw [List.filter_cons_of_pos hpb,List.filter_cons_of_pos hpb,ih hl,if_neg hpa]

/-- What is kept of a list in order is what is kept, put in order. -/
theorem insertionSort_filter {α : Type*} (le : α → α → Prop) [DecidableRel le] (htotal : ∀ a b, le a b ∨ le b a)
    (htrans : ∀ {a b c}, le a b → le b c → le a c) (p : α → Bool) (l : List α) :
    (l.filter p).insertionSort le = (l.insertionSort le).filter p := by
  have : Std.Total le := ⟨htotal⟩
  have : IsTrans α le := ⟨fun _ _ _ => htrans⟩
  induction l with
  | nil => rfl
  | cons a l ih =>
    rw [List.insertionSort_cons,filter_orderedInsert le htrans p a (List.pairwise_insertionSort le l),← ih]
    cases hp : p a with
    | false => rw [List.filter_cons_of_neg (by simp [hp]),if_neg (by simp)]
    | true => rw [List.filter_cons_of_pos hp,List.insertionSort_cons,if_pos rfl]

/-- What occurs once in all the pages is on one of them. -/
theorem countP_any_eq_one {α β : Type*} [DecidableEq β] {f : α → β} {b : β} {pages : List (List α)}
    (h : (pages.flatten.map f).Nodup) (hb : b ∈ pages.flatten.map f) :
    pages.countP (fun page => page.any (f · = b)) = 1 := by
  induction pages with
  | nil => simp at hb
  | cons page pages ih =>
    rw [List.flatten_cons,List.map_append] at h hb
    obtain ⟨-,hrest,hdisjoint⟩ := List.nodup_append.1 h
    have hany : page.any (f · = b) = true ↔ b ∈ page.map f := by simp
    rw [List.countP_cons]
    by_cases hpage : b ∈ page.map f
    · have hnone : pages.countP (fun page => page.any (f · = b)) = 0 := by
        rw [List.countP_eq_zero]
        intro other hother hin
        obtain ⟨a,ha,hfa⟩ := List.any_eq_true.1 hin
        have hmem : b ∈ pages.flatten.map f :=
          List.mem_map.2 ⟨a,List.mem_flatten.2 ⟨other,hother,ha⟩,by simpa using hfa⟩
        exact hdisjoint b hpage b hmem rfl
      rw [hnone,if_pos (hany.2 hpage)]
    · rw [ih hrest ((List.mem_append.1 hb).resolve_left hpage),if_neg fun h => hpage (hany.1 h)]

end Rainier.Ordered
