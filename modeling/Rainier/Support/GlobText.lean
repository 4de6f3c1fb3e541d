import Mathlib.Data.String.Basic
import Rainier.Support.Glob
import Rainier.Support.Text

/-! # Patterns over the bytes of a text

The first byte of a character is none of the others of any character, so that wherever the bytes of
a character stand in the bytes of a text, the character stands in the text. A pattern that is held
against bytes is therefore held against characters.
-/
namespace Rainier.Utf8

/-- The bytes of some characters. -/
def encode (cs : List Char) : List UInt8 := cs.flatMap String.utf8EncodeChar

variable {c d : Char} {cs : List Char} {front rest rest' : List UInt8}

@[simp] theorem encode_nil : encode [] = [] := rfl

@[simp] theorem encode_cons (c : Char) (cs : List Char) : encode (c :: cs) = String.utf8EncodeChar c ++ encode cs := rfl

theorem asBytes_eq_encode (s : String) : Text.asBytes s = encode s.toList := by
  rw [← String.ofList_toList (s := s),String.toList_ofList]
  induction s.toList with
  | nil => rfl
  | cons c cs ih => rw [Text.asBytes_cons,ih,encode_cons]

/-- No character begins as another one does with all its bytes. -/
theorem char_eq_of_append (h : String.utf8EncodeChar c ++ rest = String.utf8EncodeChar d ++ rest') : c = d := by
  have hdecode (c : Char) (rest : List UInt8) :
      ByteArray.utf8DecodeChar? (String.utf8EncodeChar c ++ rest).toByteArray 0 = some c := by
    rw [List.toByteArray_append]
    exact ByteArray.utf8DecodeChar?_utf8EncodeChar_append
  have hsame := hdecode c rest
  rw [h,hdecode d rest'] at hsame
  exact (Option.some.inj hsame).symm

/-- A character does not begin within another one. -/
theorem not_within {n : ℕ} (hpos : 0 < n) (hn : n < (String.utf8EncodeChar d).length) :
    ¬ String.utf8EncodeChar c <+: (String.utf8EncodeChar d).drop n ++ rest := by
  intro hinitial
  cases hc : String.utf8EncodeChar c with
  | nil => exact String.utf8EncodeChar_ne_nil hc
  | cons b bs =>
    have hfirst : b.IsUTF8FirstByte := by
      have hzero := UInt8.isUTF8FirstByte_getElem_zero_utf8EncodeChar (c := c)
      simpa only [hc,List.getElem_cons_zero] using hzero
    rw [hc,List.drop_eq_getElem_cons hn,List.cons_append,List.cons_prefix_cons] at hinitial
    rw [hinitial.1,UInt8.isUTF8FirstByte_getElem_utf8EncodeChar] at hfirst
    omega

/-- Where the bytes of a character stand in the bytes of others, the character stands among them. -/
theorem exists_char_of_append (h : encode cs = front ++ (String.utf8EncodeChar c ++ rest)) :
    ∃ before after, cs = before ++ c :: after ∧ encode before = front ∧ encode after = rest := by
  induction cs generalizing front with
  | nil =>
    have hnil := congrArg List.length h
    have hpos := Char.utf8Size_pos c
    simp only [encode_nil,List.length_nil,List.length_append,String.length_utf8EncodeChar] at hnil
    omega
  | cons d cs ih =>
    rw [encode_cons] at h
    rcases List.append_eq_append_iff.1 h with ⟨more,hfront,hmore⟩ | ⟨more,hd,hmore⟩
    · obtain ⟨before,after,rfl,hbefore,hafter⟩ := ih hmore
      exact ⟨d :: before,after,rfl,by rw [encode_cons,hbefore,hfront],hafter⟩
    · cases more with
      | nil =>
        obtain ⟨before,after,rfl,hbefore,hafter⟩ := @ih [] hmore.symm
        exact ⟨d :: before,after,rfl,by rw [encode_cons,hbefore,hd,List.append_nil,List.append_nil],hafter⟩
      | cons x more =>
        cases front with
        | nil =>
          rw [List.nil_append] at h
          cases char_eq_of_append h
          exact ⟨[],cs,rfl,rfl,List.append_cancel_left h⟩
        | cons b front =>
          have hlt : (b :: front).length < (String.utf8EncodeChar d).length := by
            rw [hd,List.length_append]
            exact Nat.lt_add_of_pos_right (Nat.succ_pos more.length)
          have hdrop : (String.utf8EncodeChar d).drop (b :: front).length = x :: more := by rw [hd,List.drop_left]
          refine absurd ?_ (@not_within c d (encode cs) (b :: front).length (Nat.succ_pos front.length) hlt)
          rw [hdrop,← hmore]
          exact List.prefix_append _ _

end Rainier.Utf8

namespace Rainier.Glob
open Utf8

variable {c : Char} {pattern text : List Char} {front bytes : List UInt8}

theorem star_encoded : String.utf8EncodeChar '*' = [42] := by decide

/-- No other character has the byte of the star. -/
theorem star_not_mem (hc : c ≠ '*') : 42 ∉ String.utf8EncodeChar c := by
  have hstar : ('*' : Char).toNat < 128 := by decide
  exact fun h => hc (Text.eq_of_mem_utf8EncodeChar hstar h).symm

theorem encode_of_matches (h : Matches '*' pattern text) : Matches 42 (encode pattern) (encode text) := by
  induction h with
  | nil => exact .nil
  | empty h ih =>
    rw [encode_cons,star_encoded]
    exact .empty ih
  | more c h ih =>
    rw [encode_cons,star_encoded] at ih ⊢
    exact matches_star_append ih
  | same hc h ih =>
    rw [encode_cons,encode_cons]
    exact (matches_append (star_not_mem hc)).2 ⟨_,rfl,ih⟩

/-- A pattern that is matched in the bytes of a text: at its start it is matched by the text, and
anywhere, within a character too, it is matched behind a star. -/
structure ReadsBack (pattern : List Char) : Prop where
  whole : ∀ text, Matches 42 (encode pattern) (encode text) → Matches '*' pattern text
  behind : ∀ text front bytes, encode text = front ++ bytes → Matches 42 (encode pattern) bytes →
    Matches '*' ('*' :: pattern) text

theorem readsBack_nil : ReadsBack [] where
  whole text h := by
    have hempty : encode text = [] := by
      cases hbytes : encode text with
      | nil => rfl
      | cons b bs =>
        rw [hbytes] at h
        cases h
    cases text with
    | nil => exact .nil
    | cons c cs => exact absurd (List.append_eq_nil_iff.1 hempty).1 String.utf8EncodeChar_ne_nil
  behind text front bytes _ _ := by
    have h : Matches '*' ['*'] (text ++ []) := matches_star_append (.empty .nil)
    rwa [List.append_nil] at h

theorem readsBack_star (ih : ReadsBack pattern) : ReadsBack ('*' :: pattern) where
  whole text h := by
    rw [encode_cons,star_encoded] at h
    obtain ⟨front,bytes,heq,h⟩ := matches_star_iff.1 h
    exact ih.behind text front bytes heq h
  behind text front bytes heq h := by
    rw [encode_cons,star_encoded] at h
    obtain ⟨front',bytes',rfl,hrest⟩ := matches_star_iff.1 h
    rw [← List.append_assoc] at heq
    exact .empty (ih.behind text _ bytes' heq hrest)

theorem readsBack_plain (hc : c ≠ '*') (ih : ReadsBack pattern) : ReadsBack (c :: pattern) where
  whole text h := by
    rw [encode_cons,matches_append (star_not_mem hc)] at h
    obtain ⟨rest,heq,h⟩ := h
    rw [← List.nil_append (String.utf8EncodeChar c ++ rest)] at heq
    obtain ⟨before,after,rfl,hbefore,rfl⟩ := exists_char_of_append heq
    cases before with
    | nil => exact .same hc (ih.whole after h)
    | cons d before => exact absurd (List.append_eq_nil_iff.1 hbefore).1 String.utf8EncodeChar_ne_nil
  behind text front bytes heq h := by
    rw [encode_cons,matches_append (star_not_mem hc)] at h
    obtain ⟨rest,rfl,h⟩ := h
    obtain ⟨before,after,rfl,-,rfl⟩ := exists_char_of_append heq
    exact matches_star_append (.empty (.same hc (ih.whole after h)))

theorem readsBack (pattern : List Char) : ReadsBack pattern := by
  induction pattern with
  | nil => exact readsBack_nil
  | cons c pattern ih =>
    by_cases hc : c = '*'
    · rw [hc]
      exact readsBack_star ih
    · exact readsBack_plain hc ih

/-- Whether the bytes of a text match is a matter of its characters. -/
theorem matches_asBytes (pattern text : String) :
    Matches 42 (Text.asBytes pattern) (Text.asBytes text) ↔ Matches '*' pattern.toList text.toList := by
  rw [asBytes_eq_encode,asBytes_eq_encode]
  exact ⟨(readsBack _).whole _,encode_of_matches⟩

end Rainier.Glob
