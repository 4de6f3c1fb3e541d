import Rainier.Config.Env

/-! # Splitting, references and escapes

What the passes over a raw value find in it, and what they leave alone.
-/
namespace Rainier.Config.Env

/-- Two characters stand side by side. -/
def Adjacent (x y : Char) (cs : List Char) : Prop := [x,y] <:+: cs

/-- A reference begins and ends in the text. -/
def Closed (cs : List Char) : Prop := ∃ before name after, cs = before ++ '$' :: '{' :: (name ++ '}' :: after)

def escapeChar (c : Char) : List Char := if c = '\\' ∨ c = '"' then ['\\',c] else [c]

def escape (v : List Char) : List Char := v.flatMap escapeChar

/-! ## Splitting -/

section Splitting

variable {pattern cs before after : List Char}

theorem splitAtText_eq (h : splitAtText pattern cs = some (before,after)) : cs = before ++ (pattern ++ after) := by
  induction cs generalizing before with
  | nil =>
    rw [splitAtText] at h
    split_ifs at h with hempty
    cases h
    rw [List.isEmpty_iff.1 hempty]
    rfl
  | cons c cs ih =>
    rw [splitAtText] at h
    split_ifs at h with hinitial
    · cases h
      obtain ⟨rest,hrest⟩ := hinitial
      rw [List.nil_append,← hrest,List.drop_left]
    · obtain ⟨parts,hparts,heq⟩ := Option.map_eq_some_iff.1 h
      cases heq
      rw [List.cons_append,← ih hparts]

/-- The occurrence found is the first one. -/
theorem splitAtText_first (h : splitAtText pattern cs = some (before,after)) {front back : List Char}
    (hcs : cs = front ++ (pattern ++ back)) : before.length ≤ front.length := by
  induction cs generalizing before front with
  | nil =>
    rw [splitAtText] at h
    split_ifs at h
    cases h
    exact Nat.zero_le _
  | cons c cs ih =>
    rw [splitAtText] at h
    split_ifs at h with hinitial
    · cases h
      exact Nat.zero_le _
    · obtain ⟨parts,hparts,heq⟩ := Option.map_eq_some_iff.1 h
      cases heq
      cases front with
      | nil => exact absurd ⟨back,hcs.symm⟩ hinitial
      | cons d front =>
        obtain ⟨-,hcs⟩ := List.cons.inj hcs
        exact Nat.succ_le_succ (ih hparts hcs)

theorem exists_splitAtText (h : pattern <:+: cs) : ∃ before after, splitAtText pattern cs = some (before,after) := by
  induction cs with
  | nil => exact ⟨[],[],by rw [splitAtText,List.infix_nil.1 h]; rfl⟩
  | cons c cs ih =>
    rw [splitAtText]
    split_ifs with hinitial
    · exact ⟨_,_,rfl⟩
    · obtain ⟨before,after,hrest⟩ := ih ((List.infix_cons_iff.1 h).resolve_left hinitial)
      exact ⟨_,_,by rw [hrest]; rfl⟩

end Splitting

/-! ## References -/

section References

variable {r : String → String} {cs : List Char} {c : Char}

theorem closed_cons (h : Closed cs) : Closed (c :: cs) := by
  obtain ⟨before,name,after,rfl⟩ := h
  exact ⟨c :: before,name,after,rfl⟩

theorem closed_of_split {name after : List Char} (h : splitAtText ['}'] cs = some (name,after)) : Closed ('$' :: '{' :: cs) :=
  ⟨[],name,after,by rw [splitAtText_eq h]; rfl⟩

/-- The brace that closes a reference stands behind the one that opens it. -/
theorem exists_split_of_closed (h : Closed ('$' :: '{' :: cs)) : ∃ name after, splitAtText ['}'] cs = some (name,after) := by
  apply exists_splitAtText
  obtain ⟨before,name,after,hcs⟩ := h
  have hmem : '}' ∈ '$' :: '{' :: cs := by
    rw [hcs]
    simp
  have hcs : '}' ∈ cs := by simpa using hmem
  obtain ⟨front,back,rfl⟩ := List.append_of_mem hcs
  exact ⟨front,back,by simp⟩

/-- Without a closed reference nothing is replaced. -/
theorem expand_of_not_closed (h : ¬ Closed cs) : expand r cs = cs := by
  induction cs using expand.induct with
  | case1 => rw [expand]
  | case2 cs name after hsplit ih => exact absurd (closed_of_split hsplit) h
  | case3 cs hsplit ih =>
    rw [expand]
    split
    · next hsome => rw [hsplit] at hsome; cases hsome
    · rw [ih fun hclosed => h (closed_cons (closed_cons hclosed))]
  | case4 c cs hplain ih =>
    rw [expand,ih fun hclosed => h (closed_cons hclosed)]
    exact hplain

/-- A character that does not begin a reference stays. -/
theorem expand_cons (h : ¬ (c = '$' ∧ cs.head? = some '{')) : expand r (c :: cs) = c :: expand r cs := by
  rw [expand]
  rintro rest rfl rfl
  exact h ⟨rfl,rfl⟩

/-- Where every variable is a quote, a closed reference leaves one, as does a quote. -/
theorem quote_mem_expand (h : '\'' ∈ cs ∨ Closed cs) : '\'' ∈ expand (fun _ => "'") cs := by
  induction cs using expand.induct with
  | case1 => simp [Closed] at h
  | case2 cs name after hsplit ih =>
    rw [expand]
    split
    · simp
    · next hnone => rw [hsplit] at hnone; cases hnone
  | case3 cs hsplit ih =>
    rw [expand]
    split
    · next hsome => rw [hsplit] at hsome; cases hsome
    · have hmem : '\'' ∈ cs := by
        cases h with
        | inl h => simpa using h
        | inr h =>
          obtain ⟨name,after,hsome⟩ := exists_split_of_closed h
          rw [hsplit] at hsome
          cases hsome
      exact List.mem_cons_of_mem _ (List.mem_cons_of_mem _ (ih (.inl hmem)))
  | case4 c cs hplain ih =>
    rw [expand_cons (by
      rintro ⟨rfl,hhead⟩
      obtain ⟨rest,rfl⟩ := List.head?_eq_some_iff.1 hhead
      exact hplain rest rfl rfl)]
    obtain hmem | hclosed := h
    · obtain rfl | hmem := List.mem_cons.1 hmem
      · exact List.mem_cons_self
      · exact List.mem_cons_of_mem _ (ih (.inl hmem))
    · obtain ⟨before,name,after,heq⟩ := hclosed
      cases before with
      | nil =>
        obtain ⟨hc,hcs⟩ := List.cons.inj heq
        exact (hplain _ hc hcs).elim
      | cons d before => exact List.mem_cons_of_mem _ (ih (.inr ⟨before,name,after,(List.cons.inj heq).2⟩))

/-- A text without a beginning of a reference stands in front unchanged. -/
theorem expand_append {front : List Char} (h : ¬ Adjacent '$' '{' front) (hcs : cs.head? ≠ some '{') :
    expand r (front ++ cs) = front ++ expand r cs := by
  induction front with
  | nil => rfl
  | cons c front ih =>
    have htail : ¬ Adjacent '$' '{' front := fun hadj => h (hadj.trans (List.suffix_cons c front).isInfix)
    rw [List.cons_append,expand_cons,ih htail,List.cons_append]
    rintro ⟨rfl,hhead⟩
    cases front with
    | nil => exact hcs hhead
    | cons d front =>
      cases hhead
      exact h ⟨[],front,rfl⟩

end References

/-! ## Escapes -/

section Escapes

variable {x y : Char} {v cs : List Char}

theorem escape_cons (c : Char) (v : List Char) : escape (c :: v) = escapeChar c ++ escape v := rfl

theorem unescape_cons {c : Char} (hc : c ≠ '\\') : unescape (c :: cs) = c :: unescape cs := by
  rw [unescape]
  exact fun _ _ hslash _ => hc hslash

/-- What is escaped is read as it was. -/
theorem unescape_escape (v rest : List Char) : unescape (escape v ++ rest) = v ++ unescape rest := by
  induction v with
  | nil => rfl
  | cons c v ih =>
    rw [escape_cons,escapeChar,List.append_assoc]
    split_ifs with hspecial
    · obtain rfl | rfl := hspecial
      · simp [unescape,escaped,ih]
      · simp [unescape,escaped,ih]
    · rw [List.singleton_append,unescape_cons fun hc => hspecial (.inl hc),ih,List.cons_append]

theorem length_le_escape (v : List Char) : v.length ≤ (escape v).length := by
  induction v with
  | nil => exact Nat.le_refl 0
  | cons c v ih =>
    rw [escape_cons,escapeChar,List.length_append,List.length_cons]
    split_ifs <;> simp only [List.length_cons,List.length_nil] <;> omega

theorem adjacent_cons {c : Char} : Adjacent x y (c :: cs) ↔ c = x ∧ cs.head? = some y ∨ Adjacent x y cs := by
  rw [Adjacent,Adjacent,List.infix_cons_iff,List.cons_prefix_cons]
  cases cs with
  | nil => simp
  | cons d cs =>
    rw [List.cons_prefix_cons]
    simp [eq_comm]

/-- Characters that are not escaped stand side by side only where they did. -/
theorem adjacent_of_escape (hx : x ≠ '\\' ∧ x ≠ '"') (hy : y ≠ '\\' ∧ y ≠ '"') (h : Adjacent x y (escape v ++ ['"'])) :
    Adjacent x y v := by
  induction v with
  | nil =>
    obtain ⟨-,hnone⟩ | hnil := adjacent_cons.1 h
    · cases hnone
    · simp [Adjacent] at hnil
  | cons c v ih =>
    rw [escape_cons,escapeChar,List.append_assoc] at h
    split_ifs at h with hspecial
    · obtain ⟨hslash,-⟩ | h := adjacent_cons.1 h
      · exact absurd hslash.symm hx.1
      obtain ⟨hc,-⟩ | h := adjacent_cons.1 h
      · rw [hc] at hspecial
        exact absurd hspecial (not_or.2 hx)
      · exact adjacent_cons.2 (.inr (ih h))
    · obtain ⟨hc,hhead⟩ | h := adjacent_cons.1 h
      · refine adjacent_cons.2 (.inl ⟨hc,?_⟩)
        cases v with
        | nil => exact absurd (Option.some.inj hhead).symm hy.2
        | cons d v =>
          rw [escape_cons,escapeChar] at hhead
          split_ifs at hhead
          · exact absurd (Option.some.inj hhead).symm hy.1
          · exact hhead
      · exact adjacent_cons.2 (.inr (ih h))

theorem trimEnd_initial (cs : List Char) : trimEnd cs <+: cs := by
  have h := List.dropWhile_suffix Text.isWhitespace (l := cs.reverse)
  rwa [← List.reverse_prefix,List.reverse_reverse] at h

end Escapes

end Rainier.Config.Env
