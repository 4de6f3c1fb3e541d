import Mathlib.Algebra.Order.BigOperators.Group.List
import Mathlib.Algebra.Order.Group.Nat
import Mathlib.Data.List.Nodup
import Mathlib.Data.List.Perm.Subperm
import Mathlib.Data.List.TakeWhile
import Rainier.Support.Split
import Rainier.OAuth.Scope

/-! # Scopes read back from their text

A refresh that names no scope writes the scopes of the old token with spaces, and reads
them again: a blank text reads as the default, and any other as its words.
-/
namespace Rainier.OAuth
open Rainier

/-- The scopes a refresh without a scope parameter reads are those it has written: the
default, where their text is blank, and else names without spaces, with no whitespace at
the ends of the text. -/
structure Rereads (default scopes : List String) : Prop where
  blank : Text.trim (joinSpaces scopes) = "" → default.eraseDups = scopes
  plain : Text.trim (joinSpaces scopes) ≠ "" → ∀ x ∈ scopes, x ≠ "" ∧ ' ' ∉ x.toList
  head : Text.trim (joinSpaces scopes) ≠ "" → ∀ x ∈ scopes.head?, ∀ c ∈ x.toList.head?, Text.isWhitespace c = false
  last : Text.trim (joinSpaces scopes) ≠ "" → ∀ x ∈ scopes.getLast?, ∀ c ∈ x.toList.getLast?, Text.isWhitespace c = false

/-! ## Trimming -/

section Trimming
variable {cs : List Char} {c : Char}

/-- The whitespace that is no separator. -/
def blanks (text : String) : ℕ := text.toList.countP fun c => Text.isWhitespace c && c != ' '

/-- A text that keeps all of it when it is trimmed begins with none of it, and ends with
none. -/
theorem eq_space_of_blanks (h : blanks (String.ofList cs) ≤ blanks (Text.trim (String.ofList cs))) :
    (∀ c ∈ cs.head?, Text.isWhitespace c = true → c = ' ') ∧ ∀ c ∈ cs.getLast?, Text.isWhitespace c = true → c = ' ' := by
  have hcount {c : Char} {cs' : List Char} (hc : Text.isWhitespace c = true) (hperm : cs.Perm (c :: cs'))
      (htrim : Text.trim (String.ofList cs) = Text.trim (String.ofList cs')) : c = ' ' := by
    by_contra hne
    have hless := (Text.trim_sublist cs').countP_le (p := fun c => Text.isWhitespace c && c != ' ')
    rw [blanks,blanks,String.toList_ofList,htrim,hperm.countP_eq,List.countP_cons_of_pos (by simp [hc,hne])] at h
    omega
  constructor
  · intro c hc hblank
    obtain ⟨rest,rfl⟩ := List.head?_eq_some_iff.mp hc
    exact hcount hblank (List.Perm.refl _) (Text.trim_cons hblank rest)
  · intro c hc hblank
    obtain ⟨init,rfl⟩ := List.getLast?_eq_some_iff.mp hc
    exact hcount hblank (List.perm_append_singleton c init) (Text.trim_concat hblank init)

theorem blanks_join (pieces : List String) : blanks (Text.join ' ' pieces) = (pieces.map blanks).sum := by
  induction pieces with
  | nil => rfl
  | cons piece rest ih =>
    by_cases hrest : rest = []
    · subst hrest
      simp [Text.join_singleton]
    · rw [Text.join_cons hrest,List.map_cons,List.sum_cons,← ih]
      have hsep : blanks (String.singleton ' ') = 0 := by decide
      have happend (s t : String) : blanks (s ++ t) = blanks s + blanks t := by
        rw [blanks,String.toList_append,List.countP_append]
        rfl
      rw [happend,happend,hsep,Nat.add_zero]

end Trimming

/-! ## Words -/

section Words
variable {scopes : List String}

theorem joinSpaces_eq (scopes : List String) : joinSpaces scopes = Text.join ' ' scopes := rfl

theorem words_eq (list : String) : Scopes.words list = (Text.split ' ' list).filter (· ≠ "") := by
  rw [Scopes.words,Text.split,List.filter_map]
  congr 2
  funext l
  simp [← String.toList_eq_nil_iff]

theorem mem_words {list x : String} (h : x ∈ Scopes.words list) : x ≠ "" ∧ ' ' ∉ x.toList := by
  rw [words_eq] at h
  obtain ⟨hmem,hne⟩ := List.mem_filter.mp h
  exact ⟨of_decide_eq_true hne,Text.not_mem_of_mem_split hmem⟩

theorem sum_blanks_filter {dropped : String} (h : blanks dropped = 0) (pieces : List String) :
    ((pieces.filter (· ≠ dropped)).map blanks).sum = (pieces.map blanks).sum := by
  induction pieces with
  | nil => rfl
  | cons piece rest ih =>
    by_cases hpiece : piece = dropped
    · subst hpiece
      rw [List.filter_cons_of_neg (by simp),ih,List.map_cons,List.sum_cons,h,Nat.zero_add]
    · rw [List.filter_cons_of_pos (by simpa using hpiece),List.map_cons,List.sum_cons,ih,List.map_cons,List.sum_cons]

/-- The words of a text hold all of it but the separators. -/
theorem blanks_words (list : String) : ((Scopes.words list).map blanks).sum = blanks list := by
  rw [words_eq,sum_blanks_filter rfl,← blanks_join,Text.join_split]

theorem requested_some (s : Scopes) (list : String) :
    s.requested (some list) = if Text.trim list = "" then s.default else Scopes.words (Text.trim list) := by
  rw [Scopes.requested,Option.map_some,Option.filter_some]
  by_cases hlist : Text.trim list = "" <;> simp [hlist]

/-- A blank text has no `*` in it. -/
theorem everything_not_mem (htext : Text.trim (joinSpaces scopes) = "") : ∀ x ∈ scopes, x ≠ everything := by
  rintro x hx rfl
  rw [← String.ofList_toList (s := joinSpaces scopes)] at htext
  have hstar : '*' ∈ (joinSpaces scopes).toList := Text.mem_join_of_mem hx (by decide)
  exact absurd (Text.blank_of_trim htext '*' hstar) (by decide)

theorem toList_ne_nil {x : String} (h : x ≠ "") : x.toList ≠ [] := fun hnil => h (String.toList_eq_nil_iff.mp hnil)

theorem head?_joinSpaces (hne : ∀ x ∈ scopes, x ≠ "") {x : String} (hx : x ∈ scopes.head?) :
    (joinSpaces scopes).toList.head? = x.toList.head? := by
  obtain ⟨rest,rfl⟩ := List.head?_eq_some_iff.mp hx
  rw [joinSpaces,String.toList_ofList,List.map_cons,head?_intercalate (toList_ne_nil (hne x List.mem_cons_self))]

theorem getLast?_joinSpaces (hne : ∀ x ∈ scopes, x ≠ "") {x : String} (hx : x ∈ scopes.getLast?) :
    (joinSpaces scopes).toList.getLast? = x.toList.getLast? := by
  obtain ⟨init,rfl⟩ := List.getLast?_eq_some_iff.mp hx
  rw [joinSpaces_eq]
  by_cases hinit : init = []
  · rw [hinit,List.nil_append,Text.join_singleton]
  · rw [Text.join_concat hinit,String.toList_append,List.getLast?_append_of_ne_nil _ (toList_ne_nil (hne x (by simp)))]

/-- Names without spaces come back where no whitespace stands at the ends of the text. -/
theorem words_of_rereads {default : List String} (htext : Text.trim (joinSpaces scopes) ≠ "") (h : Rereads default scopes) :
    Scopes.words (Text.trim (joinSpaces scopes)) = scopes := by
  have hplain := h.plain htext
  have hhead := h.head htext
  have hlast := h.last htext
  have hne : scopes ≠ [] := by
    rintro rfl
    exact htext rfl
  have htrim : Text.trim (joinSpaces scopes) = joinSpaces scopes := by
    refine Text.trim_eq_self ?_ ?_
    · obtain ⟨x,hx⟩ := Option.ne_none_iff_exists'.mp fun hnil => hne (List.head?_eq_none_iff.mp hnil)
      rw [head?_joinSpaces (fun x hx => (hplain x hx).1) hx]
      exact hhead x hx
    · obtain ⟨x,hx⟩ := Option.ne_none_iff_exists'.mp fun hnil => hne (List.getLast?_eq_none_iff.mp hnil)
      rw [getLast?_joinSpaces (fun x hx => (hplain x hx).1) hx]
      exact hlast x hx
  rw [htrim,words_eq,joinSpaces_eq,Text.split_join hne fun x hx => (hplain x hx).2]
  exact List.filter_eq_self.mpr fun x hx => decide_eq_true (hplain x hx).1

end Words

/-! ## What a refresh issues -/

section Issued
variable {s : Scopes} {client : Client} {scopes named : List String}

theorem eraseDups_of_nodup {l : List String} (h : l.Nodup) : l.eraseDups = l := by
  induction l with
  | nil => rfl
  | cons a l ih =>
    obtain ⟨ha,hl⟩ := List.nodup_cons.mp h
    have hself : l.filter (fun b => !b == a) = l := List.filter_eq_self.mpr fun b hb => by
      have hba : b ≠ a := fun heq => ha (heq ▸ hb)
      simpa using hba
    rw [List.eraseDups_cons,hself,ih hl]

/-- A token has no scope twice, and only scopes that exist and that its client may have. -/
theorem finalize_sound (s : Scopes) (named : List String) (grant : Grant) (client : Client) :
    (s.finalize named grant client).Nodup ∧
      ∀ x ∈ s.finalize named grant client, s.exists' x = true ∧ client.allowsScope x = true := by
  have hstep {out : List String} (x : String) (h : out.Nodup ∧ ∀ x ∈ out, s.exists' x = true ∧ client.allowsScope x = true) :
      (s.finalizeStep grant client out x).Nodup ∧
        ∀ y ∈ s.finalizeStep grant client out x, s.exists' y = true ∧ client.allowsScope y = true := by
    unfold Scopes.finalizeStep
    split
    · exact h
    · split
      · next hkept =>
        simp only [Bool.and_eq_true,Bool.not_eq_true',List.contains_eq_mem,decide_eq_false_iff_not] at hkept
        refine ⟨List.concat_eq_append ▸ List.Nodup.concat hkept.2 h.1,fun y hy => ?_⟩
        rcases List.mem_append.mp hy with hy | hy
        · exact h.2 y hy
        · rw [List.mem_singleton.mp hy]
          exact hkept.1
      · exact h
  have hfold (rest out : List String) (h : out.Nodup ∧ ∀ x ∈ out, s.exists' x = true ∧ client.allowsScope x = true) :
      (rest.foldl (s.finalizeStep grant client) out).Nodup ∧
        ∀ x ∈ rest.foldl (s.finalizeStep grant client) out, s.exists' x = true ∧ client.allowsScope x = true := by
    induction rest generalizing out with
    | nil => exact h
    | cons x rest ih => exact ih _ (hstep x h)
  exact hfold named [] ⟨List.nodup_nil,fun x hx => absurd hx List.not_mem_nil⟩

/-- Over a refresh, the scopes that exist and that the client may have are kept, each once,
without the everything scope. -/
theorem finalize_refresh (hnamed : ∀ x ∈ named, s.exists' x = true ∧ client.allowsScope x = true) :
    s.finalize named .refreshToken client = (named.filter (· ≠ everything)).eraseDups := by
  -- what is kept so far is not kept again
  have hfold (rest out : List String) (hrest : ∀ x ∈ rest, s.exists' x = true ∧ client.allowsScope x = true) :
      rest.foldl (s.finalizeStep .refreshToken client) out =
        out ++ (rest.filter fun x => x ≠ everything ∧ x ∉ out).eraseDups := by
    induction rest generalizing out with
    | nil => simp
    | cons x rest ih =>
      obtain ⟨hexists,hallowed⟩ := hrest x List.mem_cons_self
      have hnext (out : List String) := ih out fun y hy => hrest y (List.mem_cons_of_mem x hy)
      rw [List.foldl_cons,Scopes.finalizeStep]
      by_cases hx : x = everything
      · rw [if_pos (by simp [hx,Scopes.keepsEverything]),hnext,List.filter_cons_of_neg (by simp [hx])]
      · rw [if_neg (by simp [hx])]
        by_cases hout : x ∈ out
        · rw [if_neg (by simp [hout]),hnext,List.filter_cons_of_neg (by simp [hout])]
        · rw [if_pos (by simp [hexists,hallowed,hout]),hnext,List.filter_cons_of_pos (by simp [hx,hout]),List.eraseDups_cons,
            List.filter_filter,List.append_assoc,List.singleton_append]
          congr 4
          funext y
          by_cases hy : y = x <;> simp [hy,and_comm]
  rw [Scopes.finalize,hfold named [] hnamed,List.nil_append]
  simp

theorem validate_of_known (hnamed : ∀ x ∈ s.requested (some (joinSpaces scopes)), s.exists' x = true) :
    s.validate (some (joinSpaces scopes)) = .ok (s.requested (some (joinSpaces scopes))) := by
  rw [Scopes.validate,List.find?_eq_none.mpr fun x hx => by simp [hnamed x hx]]

/-- Each scope but `*` is a word of the text. -/
theorem mem_words_of_finalize {x : String} (hx : x ∈ scopes)
    (h : s.finalize named .refreshToken client = scopes.filter (· ≠ everything)) : x = everything ∨ x ∈ named := by
  by_cases hstar : x = everything
  · exact .inl hstar
  · exact .inr (s.finalize_subset named .refreshToken client x (h ▸ List.mem_filter.mpr ⟨hx,decide_eq_true hstar⟩))

/-- The whitespace of the scopes is in the words that were read. -/
theorem sum_blanks_le (hnodup : scopes.Nodup) (h : s.finalize named .refreshToken client = scopes.filter (· ≠ everything)) :
    (scopes.map blanks).sum ≤ (named.map blanks).sum := by
  have hsub : scopes.filter (· ≠ everything) ⊆ named := fun x hx => s.finalize_subset named .refreshToken client x (h ▸ hx)
  obtain ⟨found,hperm,hfound⟩ := List.subperm_of_subset (hnodup.filter _) hsub
  rw [← sum_blanks_filter (show blanks everything = 0 from rfl) scopes,← (hperm.map blanks).sum_eq]
  exact (hfound.map blanks).sum_le_sum fun _ _ => Nat.zero_le _

/-- A refresh without a scope parameter succeeds and issues the old scopes but `*`, just
when the text of the old scopes is read back as they are. -/
theorem reissue_iff (hnodup : scopes.Nodup) (hscopes : ∀ x ∈ scopes, s.exists' x = true ∧ client.allowsScope x = true) :
    (∃ named, s.validate (some (joinSpaces scopes)) = .ok named ∧ (∀ x ∈ named, x ∈ scopes) ∧
        s.finalize named .refreshToken client = scopes.filter (· ≠ everything)) ↔ Rereads s.default scopes := by
  have hall {l : List String} (h : ∀ x ∈ l, x ≠ everything) : l.filter (· ≠ everything) = l :=
    List.filter_eq_self.mpr fun x hx => decide_eq_true (h x hx)
  constructor
  · rintro ⟨named,hvalid,hsub,hkept⟩
    obtain ⟨hnamed,-⟩ := Scopes.validate_eq_ok hvalid
    rw [requested_some] at hnamed
    by_cases htext : Text.trim (joinSpaces scopes) = ""
    · rw [if_pos htext] at hnamed
      rw [hnamed] at hsub hkept
      refine ⟨fun _ => ?_,fun h => absurd htext h,fun h => absurd htext h,fun h => absurd htext h⟩
      have hstar := everything_not_mem htext
      rw [finalize_refresh fun x hx => hscopes x (hsub x hx),hall fun x hx => hstar x (hsub x hx),hall hstar] at hkept
      exact hkept
    · rw [if_neg htext] at hnamed
      rw [hnamed] at hkept
      have hplain : ∀ x ∈ scopes, x ≠ "" ∧ ' ' ∉ x.toList := by
        intro x hx
        rcases mem_words_of_finalize hx hkept with rfl | hx
        · decide
        · exact mem_words hx
      have hblanks := sum_blanks_le hnodup hkept
      rw [blanks_words,← blanks_join,← joinSpaces_eq,← String.ofList_toList (s := joinSpaces scopes)] at hblanks
      obtain ⟨hhead,hlast⟩ := eq_space_of_blanks hblanks
      refine ⟨fun h => absurd h htext,fun _ => hplain,fun _ x hx c hc => ?_,fun _ x hx c hc => ?_⟩
      · rw [Bool.eq_false_iff]
        intro hblank
        have hx' := List.mem_of_mem_head? hx
        have hspace := hhead c (by rwa [head?_joinSpaces (fun x hx => (hplain x hx).1) hx]) hblank
        exact (hplain x hx').2 (hspace ▸ List.mem_of_mem_head? hc)
      · rw [Bool.eq_false_iff]
        intro hblank
        have hx' := List.mem_of_mem_getLast? hx
        have hspace := hlast c (by rwa [getLast?_joinSpaces (fun x hx => (hplain x hx).1) hx]) hblank
        exact (hplain x hx').2 (hspace ▸ List.mem_of_mem_getLast? hc)
  · intro h
    by_cases htext : Text.trim (joinSpaces scopes) = ""
    · have hdefault := h.blank htext
      have hstar := everything_not_mem htext
      have hsub : ∀ x ∈ s.default, x ∈ scopes := fun x hx => hdefault ▸ List.mem_eraseDups.mpr hx
      have hrequested : s.requested (some (joinSpaces scopes)) = s.default := by rw [requested_some,if_pos htext]
      refine ⟨s.default,?_,hsub,?_⟩
      · rw [validate_of_known,hrequested]
        exact hrequested ▸ fun x hx => (hscopes x (hsub x hx)).1
      · rw [finalize_refresh fun x hx => hscopes x (hsub x hx),hall fun x hx => hstar x (hsub x hx),hall hstar,hdefault]
    · have hrequested : s.requested (some (joinSpaces scopes)) = scopes := by
        rw [requested_some,if_neg htext,words_of_rereads htext h]
      refine ⟨scopes,?_,fun _ => id,?_⟩
      · rw [validate_of_known,hrequested]
        exact hrequested.symm ▸ fun x hx => (hscopes x hx).1
      · rw [finalize_refresh hscopes,eraseDups_of_nodup (hnodup.filter _)]

end Issued
end Rainier.OAuth
