import Rainier.Support.Text

/-! # Texts taken apart at a separator and put together again -/
namespace Rainier.Text

/-- `str::split` at a character. -/
def split (sep : Char) (s : String) : List String := (s.toList.splitOn sep).map String.ofList

/-- `[str]::join` with a character. -/
def join (sep : Char) (pieces : List String) : String :=
  String.ofList (List.intercalate [sep] (pieces.map String.toList))

variable {sep : Char}

theorem join_split (s : String) : join sep (split sep s) = s := by
  rw [join,split,List.map_map]
  have hid : String.toList ∘ String.ofList = id := funext fun l => String.toList_ofList
  rw [hid,List.map_id,List.intercalate_splitOn,String.ofList_toList]

theorem split_ne_nil (s : String) : split sep s ≠ [] := by
  simp [split]

theorem split_join {pieces : List String} (hne : pieces ≠ []) (h : ∀ p ∈ pieces, sep ∉ p.toList) :
    split sep (join sep pieces) = pieces := by
  have hpieces : ∀ l ∈ pieces.map String.toList, sep ∉ l := by
    intro l hl
    obtain ⟨p,hp,rfl⟩ := List.mem_map.mp hl
    exact h p hp
  rw [split,join,String.toList_ofList,List.splitOn_intercalate sep hpieces (by simpa using hne),List.map_map]
  simp [Function.comp_def]

theorem not_of_mem_splitOnP {p : Char → Bool} {cs l : List Char} (hl : l ∈ cs.splitOnP p) : ∀ c ∈ l, p c = false := by
  induction cs generalizing l with
  | nil =>
    rw [List.splitOnP_nil,List.mem_singleton] at hl
    subst hl
    simp
  | cons c cs ih =>
    rw [List.splitOnP_cons_eq_if_modifyHead] at hl
    split at hl
    · rcases List.mem_cons.mp hl with rfl | hl
      · simp
      · exact ih hl
    · next hc =>
      obtain ⟨first,rest,heq⟩ := List.exists_cons_of_ne_nil (List.splitOnP_ne_nil p cs)
      rw [heq] at ih
      rw [heq,List.modifyHead_cons] at hl
      rcases List.mem_cons.mp hl with rfl | hl
      · intro d hd
        rcases List.mem_cons.mp hd with rfl | hd
        · exact Bool.eq_false_iff.mpr hc
        · exact ih List.mem_cons_self d hd
      · exact ih (List.mem_cons_of_mem first hl)

theorem not_mem_of_mem_splitOn {cs l : List Char} (hl : l ∈ cs.splitOn sep) : sep ∉ l := by
  rw [List.splitOn_eq_splitOnP] at hl
  intro hmem
  have hne := not_of_mem_splitOnP hl sep hmem
  rw [beq_self_eq_true] at hne
  cases hne

/-- No piece holds the separator. -/
theorem not_mem_of_mem_split {s p : String} (hp : p ∈ split sep s) : sep ∉ p.toList := by
  obtain ⟨l,hl,rfl⟩ := List.mem_map.mp hp
  rw [String.toList_ofList]
  exact not_mem_of_mem_splitOn hl

@[simp] theorem join_nil : join sep [] = "" := rfl

theorem join_singleton (p : String) : join sep [p] = p := by
  simp [join]

theorem join_cons {p : String} {rest : List String} (hrest : rest ≠ []) :
    join sep (p :: rest) = p ++ String.singleton sep ++ join sep rest := by
  obtain ⟨q,rest,rfl⟩ := List.exists_cons_of_ne_nil hrest
  apply String.toList_injective
  simp [join,String.toList_append,List.intercalate_cons_cons]

theorem join_concat {pieces : List String} (hne : pieces ≠ []) (p : String) :
    join sep (pieces ++ [p]) = join sep pieces ++ String.singleton sep ++ p := by
  induction pieces with
  | nil => exact absurd rfl hne
  | cons q rest ih =>
    by_cases hrest : rest = []
    · subst hrest
      rw [List.singleton_append,join_cons (List.cons_ne_nil p []),join_singleton,join_singleton]
    · rw [List.cons_append,join_cons (by simp),join_cons hrest,ih hrest]
      simp only [String.append_assoc]

theorem mem_join_of_mem {pieces : List String} {p : String} {c : Char} (hp : p ∈ pieces) (hc : c ∈ p.toList) :
    c ∈ (join sep pieces).toList := by
  induction pieces with
  | nil => cases hp
  | cons q rest ih =>
    by_cases hrest : rest = []
    · subst hrest
      rw [join_singleton,← List.mem_singleton.mp hp]
      exact hc
    · rw [join_cons hrest,String.toList_append,String.toList_append,List.mem_append,List.mem_append]
      rcases List.mem_cons.mp hp with rfl | hp
      · exact .inl (.inl hc)
      · exact .inr (ih hp)

/-- What is in a joined text is a separator or in a piece. -/
theorem mem_join {pieces : List String} {c : Char} (hc : c ∈ (join sep pieces).toList) : c = sep ∨ ∃ p ∈ pieces, c ∈ p.toList := by
  induction pieces with
  | nil => cases hc
  | cons piece rest ih =>
    by_cases hrest : rest = []
    · subst hrest
      rw [join_singleton] at hc
      exact .inr ⟨piece,List.mem_cons_self,hc⟩
    · rw [join_cons hrest] at hc
      simp only [String.toList_append,List.mem_append,String.toList_singleton,List.mem_singleton] at hc
      rcases hc with (hc | hc) | hc
      · exact .inr ⟨piece,List.mem_cons_self,hc⟩
      · exact .inl hc
      · exact (ih hc).imp_right fun ⟨p,hp,hpc⟩ => ⟨p,List.mem_cons_of_mem piece hp,hpc⟩

/-- Pieces that are empty leave their separators. -/
theorem eq_sep_of_mem_join {pieces : List String} (h : ∀ p ∈ pieces, p = "") {c : Char} (hc : c ∈ (join sep pieces).toList) :
    c = sep := by
  rcases mem_join hc with hsep | ⟨p,hp,hpc⟩
  · exact hsep
  · rw [h p hp] at hpc
    cases hpc

/-- A text of separators alone has only empty pieces, and any other has one that is not. -/
theorem eq_sep_of_filter_split {s : String} (h : (split sep s).filter (· ≠ "") = []) : ∀ c ∈ s.toList, c = sep := by
  intro c hc
  rw [← join_split s] at hc
  refine eq_sep_of_mem_join (fun p hp => ?_) hc
  by_contra hne
  exact List.not_mem_nil (h ▸ List.mem_filter.mpr ⟨hp,decide_eq_true hne⟩)

theorem mem_of_mem_split {s p : String} {c : Char} (hp : p ∈ split sep s) (hc : c ∈ p.toList) : c ∈ s.toList := by
  rw [← join_split s]
  exact mem_join_of_mem hp hc

/-- The first piece ends where the separator stands. -/
theorem head?_split {a b : String} (ha : sep ∉ a.toList) (hb : b = "" ∨ ∃ rest, b = String.singleton sep ++ rest) :
    (split sep (a ++ b)).head? = some a := by
  rcases hb with rfl | ⟨rest,rfl⟩
  · have hpieces : split sep (join sep [a]) = [a] := split_join (List.cons_ne_nil a []) (by simpa using ha)
    rw [join_singleton] at hpieces
    rw [String.append_empty,hpieces]
    rfl
  · have hjoin : a ++ (String.singleton sep ++ rest) = join sep (a :: split sep rest) := by
      rw [join_cons (split_ne_nil rest),join_split,String.append_assoc]
    have hpieces : ∀ p ∈ a :: split sep rest, sep ∉ p.toList := by
      intro p hp
      rcases List.mem_cons.mp hp with rfl | hp
      · exact ha
      · exact not_mem_of_mem_split hp
    rw [hjoin,split_join (List.cons_ne_nil a _) hpieces]
    rfl

theorem asBytes_join (hsep : sep.toNat < 128) (pieces : List String) :
    asBytes (join sep pieces) = List.intercalate [sep.toNat.toUInt8] (pieces.map asBytes) := by
  induction pieces with
  | nil => rfl
  | cons p rest ih =>
    cases rest with
    | nil => simp [join_singleton]
    | cons q rest =>
      have hone : asBytes (String.singleton sep) = [sep.toNat.toUInt8] := by
        rw [← String.ofList_toList (s := String.singleton sep),String.toList_singleton]
        exact asBytes_ascii (by simpa using hsep)
      rw [join_cons (List.cons_ne_nil q rest),asBytes_append,asBytes_append,hone,ih]
      simp [List.intercalate_cons_cons]

/-- Taken apart as bytes, a text has the pieces it has as characters. -/
theorem splitOn_asBytes (hsep : sep.toNat < 128) (s : String) :
    (asBytes s).splitOn sep.toNat.toUInt8 = (split sep s).map asBytes := by
  have hbytes : asBytes s = List.intercalate [sep.toNat.toUInt8] ((split sep s).map asBytes) := by
    rw [← asBytes_join hsep,join_split]
  rw [hbytes]
  apply List.splitOn_intercalate
  · intro bytes hbytes
    obtain ⟨p,hp,rfl⟩ := List.mem_map.1 hbytes
    exact fun h => not_mem_of_mem_split hp (mem_of_mem_asBytes hsep h)
  · simpa using split_ne_nil s
end Rainier.Text
