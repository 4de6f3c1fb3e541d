import Mathlib.Data.List.Basic
import Mathlib.Logic.Function.Basic

/-! # Rows grouped by a key

Groups are filled by appending, looked up by key, and handed out to a list of owners, who
take a group away when they take it.
-/
namespace Rainier.Grouping

variable {α β κ : Type} [DecidableEq κ]

/-- The first element of each key, in the order they come. -/
def firstSeen (key : α → κ) : List κ → List α → List α
  | _, [] => []
  | seen, a :: as => if key a ∈ seen then firstSeen key seen as else a :: firstSeen key (key a :: seen) as

theorem firstSeen_subset (key : α → κ) (seen : List κ) (as : List α) : firstSeen key seen as ⊆ as := by
  induction as generalizing seen with
  | nil => simp [firstSeen]
  | cons a as ih =>
    rw [firstSeen]
    split_ifs
    · exact List.subset_cons_of_subset a (ih seen)
    · exact List.cons_subset_cons a (ih _)

theorem key_not_mem_seen {key : α → κ} {seen : List κ} {as : List α} {a : α} (h : a ∈ firstSeen key seen as) :
    key a ∉ seen := by
  induction as generalizing seen with
  | nil => simp [firstSeen] at h
  | cons b as ih =>
    rw [firstSeen] at h
    split_ifs at h with hseen
    · exact ih h
    · rcases List.mem_cons.1 h with rfl | h
      · exact hseen
      · exact fun hmem => ih h (List.mem_cons_of_mem _ hmem)

/-- A key keeps one element. -/
theorem firstSeen_unique {key : α → κ} {seen : List κ} {as : List α} {a b : α} (ha : a ∈ firstSeen key seen as)
    (hb : b ∈ firstSeen key seen as) (h : key a = key b) : a = b := by
  induction as generalizing seen with
  | nil => simp [firstSeen] at ha
  | cons c as ih =>
    rw [firstSeen] at ha hb
    split_ifs at ha hb
    · exact ih ha hb
    · rcases List.mem_cons.1 ha with rfl | ha
      · rcases List.mem_cons.1 hb with rfl | hb
        · rfl
        · exact absurd (h ▸ List.mem_cons_self) (key_not_mem_seen hb)
      · rcases List.mem_cons.1 hb with rfl | hb
        · exact absurd (h ▸ List.mem_cons_self) (key_not_mem_seen ha)
        · exact ih ha hb

theorem exists_firstSeen {key : α → κ} {seen : List κ} {as : List α} {a : α} (h : a ∈ as) :
    key a ∈ seen ∨ ∃ b ∈ firstSeen key seen as, key b = key a := by
  induction as generalizing seen with
  | nil => simp at h
  | cons b as ih =>
    rw [firstSeen]
    rcases List.mem_cons.1 h with rfl | h
    · split_ifs with hseen
      · exact .inl hseen
      · exact .inr ⟨a,List.mem_cons_self,rfl⟩
    · split_ifs with hseen
      · exact ih h
      · have hrest : key a ∈ key b :: seen ∨ ∃ c ∈ firstSeen key (key b :: seen) as, key c = key a := ih h
        rcases hrest with hmem | ⟨c,hc,hkey⟩
        · rcases List.mem_cons.1 hmem with heq | hmem
          · exact .inr ⟨b,List.mem_cons_self,heq.symm⟩
          · exact .inl hmem
        · exact .inr ⟨c,List.mem_cons_of_mem _ hc,hkey⟩

/-- `entry(key).or_default().push(row)`. No lookup tells an absent group from an empty one. -/
def push (groups : κ → List β) (pair : κ × β) : κ → List β :=
  Function.update groups pair.1 (groups pair.1 ++ [pair.2])

def collect (pairs : List (κ × β)) : κ → List β := pairs.foldl push fun _ => []

theorem collect_apply (pairs : List (κ × β)) (k : κ) : collect pairs k = (pairs.filter (·.1 = k)).map (·.2) := by
  have hfold : ∀ groups : κ → List β, pairs.foldl push groups k = groups k ++ (pairs.filter (·.1 = k)).map (·.2) := by
    induction pairs with
    | nil => simp
    | cons pair pairs ih =>
      intro groups
      rw [List.foldl_cons,ih]
      by_cases hk : pair.1 = k
      · simp [push,← hk]
      · simp [push,hk,Ne.symm hk]
  rw [collect,hfold,List.nil_append]

/-- What an owner finds under its key. -/
def find (key : α → Option κ) (groups : κ → List β) (a : α) : List β :=
  match key a with
  | some k => groups k
  | none => []

/-- Each owner takes its group away. -/
def handOut (key : α → Option κ) : (κ → List β) → List α → List (α × List β)
  | _, [] => []
  | groups, a :: as =>
    match key a with
    | some k => (a,groups k) :: handOut key (Function.update groups k []) as
    | none => (a,[]) :: handOut key groups as

omit [DecidableEq κ] in
theorem find_of_key {key : α → Option κ} {a : α} {k : κ} (h : key a = some k) (groups : κ → List β) :
    find key groups a = groups k := by rw [find,h]

/-- Where a group has been taken nothing is left. -/
theorem handOut_taken {key : α → Option κ} {groups : κ → List β} {k : κ} (hk : groups k = []) {as : List α} {a : α}
    {rows : List β} (h : (a,rows) ∈ handOut key groups as) (ha : key a = some k) : rows = [] := by
  induction as generalizing groups with
  | nil => simp [handOut] at h
  | cons b as ih =>
    cases hb : key b with
    | none =>
      simp only [handOut,hb,List.mem_cons,Prod.mk.injEq] at h
      rcases h with ⟨-,rfl⟩ | h
      · rfl
      · exact ih hk h
    | some k' =>
      simp only [handOut,hb,List.mem_cons,Prod.mk.injEq] at h
      rcases h with ⟨rfl,rfl⟩ | h
      · rw [ha] at hb
        cases hb
        exact hk
      · apply ih _ h
        by_cases hkk : k = k'
        · rw [hkk,Function.update_self]
        · rw [Function.update_of_ne hkk,hk]

/-- Every owner gets what it would find just when owners of one key share an empty group. -/
theorem handOut_eq_find_iff (key : α → Option κ) (groups : κ → List β) (as : List α) :
    handOut key groups as = as.map (fun a => (a,find key groups a)) ↔
      as.Pairwise fun a b => key a = key b → find key groups a = [] := by
  induction as generalizing groups with
  | nil => simp [handOut]
  | cons a as ih =>
    rw [List.pairwise_cons,List.map_cons]
    cases ha : key a with
    | none =>
      have hnone : find key groups a = [] := by rw [find,ha]
      simp only [handOut,ha,hnone,List.cons.injEq,true_and,ih groups]
      simp
    | some k =>
      have hfind := find_of_key ha groups
      simp only [handOut,ha,hfind,List.cons.injEq,true_and]
      -- what the first owner takes is missed by none of the others
      have hrest : (∀ b ∈ as, some k = key b → groups k = []) →
          as.map (fun b => (b,find key (Function.update groups k []) b)) = as.map fun b => (b,find key groups b) := by
        intro hempty
        apply List.map_congr_left
        intro b hb
        cases hkb : key b with
        | none => rw [find,find,hkb]
        | some k' =>
          rw [find_of_key hkb,find_of_key hkb]
          by_cases hkk : k' = k
          · rw [hkk,Function.update_self,hempty b hb (by rw [hkb,hkk])]
          · rw [Function.update_of_ne hkk]
      have hfinds : (∀ b ∈ as, some k = key b → groups k = []) → ∀ b ∈ as,
          find key (Function.update groups k []) b = find key groups b := by
        intro hempty b hb
        exact (Prod.mk.inj (List.map_inj_left.1 (hrest hempty) b hb)).2
      constructor
      · intro h
        have hempty : ∀ b ∈ as, some k = key b → groups k = [] := by
          intro b hb hkey
          have hmem : (b,find key groups b) ∈ handOut key (Function.update groups k []) as :=
            h ▸ List.mem_map_of_mem hb
          rw [find_of_key hkey.symm] at hmem
          exact handOut_taken (Function.update_self k [] groups) hmem hkey.symm
        refine ⟨hempty,?_⟩
        rw [← hrest hempty,ih] at h
        exact h.imp_of_mem fun hb _ himp hkeys => by rw [← hfinds hempty _ hb]; exact himp hkeys
      · rintro ⟨hempty,hpairs⟩
        rw [← hrest hempty,ih]
        exact hpairs.imp_of_mem fun hb _ himp hkeys => by rw [hfinds hempty _ hb]; exact himp hkeys

end Rainier.Grouping
