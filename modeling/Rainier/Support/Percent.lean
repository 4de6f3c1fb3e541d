import Rainier.Support.Text

/-! # Percent-encoding

`PercentEncoding` is what the code relies on of the `percent_encoding` crate: the
encoder escapes the characters of a set and everything that is not ASCII, one byte at
a time, and the decoder undoes that and leaves other characters alone. `standard` is
an implementation.
-/
namespace Rainier

/-- `%` and a hexadecimal number, or a character outside the set. -/
def Percent.plain (escaped : Char → Bool) (c : Char) : Bool :=
  c = '%' || ('0' ≤ c && c ≤ '9') || ('A' ≤ c && c ≤ 'F') || !escaped c

structure PercentEncoding where
  /-- `utf8_percent_encode`. -/
  encode : (Char → Bool) → String → String
  /-- `percent_decode_str`, as bytes. -/
  decode : String → List UInt8
  encode_empty : ∀ escaped, encode escaped "" = ""
  encode_plain : ∀ escaped s, (encode escaped s).toList.all (Percent.plain escaped) = true
  decode_empty : decode "" = []
  decode_encode : ∀ escaped s t, escaped '%' = true → decode (encode escaped s ++ t) = Text.asBytes s ++ decode t
  decode_char : ∀ c t, c ≠ '%' → decode (String.singleton c ++ t) = Text.asBytes (String.singleton c) ++ decode t
  decode_ne : ∀ s, s ≠ "" → decode s ≠ []

/-- A text is escaped character by character: what is ASCII and outside the set stands for itself, and of any other
`%` and hexadecimal numbers are left. -/
structure PercentEncoding.Piecewise (pe : PercentEncoding) : Prop where
  encode_append : ∀ escaped s t, pe.encode escaped (s ++ t) = pe.encode escaped s ++ pe.encode escaped t
  encode_self : ∀ escaped c, c.toNat < 128 → escaped c = false →
    pe.encode escaped (String.singleton c) = String.singleton c
  encode_char : ∀ escaped c, escaped c = true ∨ 128 ≤ c.toNat →
    (pe.encode escaped (String.singleton c)).toList.all (Percent.plain fun _ => true) = true

section
variable (pe : PercentEncoding) {escaped : Char → Bool}

/-- A character of the set is left in no escaped text. -/
theorem PercentEncoding.not_mem_encode {c : Char} (hc : Percent.plain escaped c = false) (s : String) :
    c ∉ (pe.encode escaped s).toList := by
  intro hmem
  rw [List.all_eq_true.mp (pe.encode_plain escaped s) c hmem] at hc
  cases hc

theorem PercentEncoding.decode_encode_self (h : escaped '%' = true) (s : String) :
    pe.decode (pe.encode escaped s) = Text.asBytes s := by
  have hbytes := pe.decode_encode escaped s "" h
  rwa [String.append_empty,pe.decode_empty,List.append_nil] at hbytes

/-- A character that is never written as part of an escape is left where it stands. -/
theorem PercentEncoding.Piecewise.mem_encode_iff {pe : PercentEncoding} (h : pe.Piecewise) {c : Char} (hascii : c.toNat < 128)
    (hset : escaped c = false) (hc : Percent.plain (fun _ => true) c = false) (s : String) :
    c ∈ (pe.encode escaped s).toList ↔ c ∈ s.toList := by
  rw [← String.ofList_toList (s := s)]
  induction s.toList with
  | nil => simp [pe.encode_empty]
  | cons d rest ih =>
    have hcons : String.ofList (d :: rest) = String.singleton d ++ String.ofList rest := by
      rw [String.singleton_eq_ofList,← String.ofList_append,List.singleton_append]
    have hchar : c ∈ (pe.encode escaped (String.singleton d)).toList ↔ c = d := by
      by_cases hd : escaped d = true ∨ 128 ≤ d.toNat
      · constructor
        · intro hmem
          rw [List.all_eq_true.mp (h.encode_char escaped d hd) c hmem] at hc
          cases hc
        · rintro rfl
          rcases hd with hd | hd
          · exact absurd (hset.symm.trans hd) (by decide)
          · omega
      · rw [not_or,Bool.not_eq_true,Nat.not_le] at hd
        rw [h.encode_self escaped d hd.2 hd.1,String.toList_singleton,List.mem_singleton]
    rw [hcons,h.encode_append,String.toList_append,String.toList_append,List.mem_append,List.mem_append,hchar,ih,
      String.toList_singleton,List.mem_singleton]

end

namespace Percent

def hexDigit (n : ℕ) : Char := if n < 10 then Char.ofNat (48 + n) else Char.ofNat (55 + n)

def hexValue (c : Char) : Option ℕ :=
  if '0' ≤ c ∧ c ≤ '9' then some (c.toNat - 48)
  else if 'A' ≤ c ∧ c ≤ 'F' then some (c.toNat - 55)
  else if 'a' ≤ c ∧ c ≤ 'f' then some (c.toNat - 87)
  else none

def encodeByte (escaped : Char → Bool) (b : UInt8) : List Char :=
  if b.toNat ≥ 128 ∨ escaped (Char.ofNat b.toNat) = true then ['%',hexDigit (b.toNat / 16),hexDigit (b.toNat % 16)]
  else [Char.ofNat b.toNat]

def encode (escaped : Char → Bool) (s : String) : String :=
  String.ofList ((Text.asBytes s).flatMap (encodeByte escaped))

def decodeChars : List Char → List UInt8
  | [] => []
  | c :: rest =>
    match c, rest with
    | '%', a :: b :: tail =>
      match hexValue a, hexValue b with
      | some high, some low => UInt8.ofNat (high * 16 + low) :: decodeChars tail
      | _, _ => 37 :: decodeChars (a :: b :: tail)
    | c, rest => Text.asBytes (String.singleton c) ++ decodeChars rest

def decode (s : String) : List UInt8 := decodeChars s.toList

theorem hexValue_hexDigit {n : ℕ} (h : n < 16) : hexValue (hexDigit n) = some n := by
  have hall : ∀ n < 16, hexValue (hexDigit n) = some n := by decide
  exact hall n h

theorem plain_hexDigit (escaped : Char → Bool) {n : ℕ} (h : n < 16) : plain escaped (hexDigit n) = true := by
  have hall : ∀ n < 16, (('0' ≤ hexDigit n && hexDigit n ≤ '9') || ('A' ≤ hexDigit n && hexDigit n ≤ 'F')) = true := by decide
  have := hall n h
  simp only [Bool.or_eq_true] at this
  simp only [plain,Bool.or_eq_true]
  tauto

theorem decodeChars_cons {c : Char} (hc : c ≠ '%') (rest : List Char) :
    decodeChars (c :: rest) = Text.asBytes (String.singleton c) ++ decodeChars rest := by
  rw [decodeChars]
  exact fun _ _ _ h _ => hc h

theorem decodeChars_escape (b : UInt8) (rest : List Char) :
    decodeChars ('%' :: hexDigit (b.toNat / 16) :: hexDigit (b.toNat % 16) :: rest) = b :: decodeChars rest := by
  have hb := b.toNat_lt
  have hbyte : UInt8.ofNat (b.toNat / 16 * 16 + b.toNat % 16) = b := by
    rw [Nat.div_add_mod' b.toNat 16]
    exact UInt8.ofNat_toNat
  rw [decodeChars]
  simp only [hexValue_hexDigit (show b.toNat / 16 < 16 by omega),hexValue_hexDigit (show b.toNat % 16 < 16 by omega),hbyte]

theorem toNat_ofNat {n : ℕ} (h : n < 128) : (Char.ofNat n).toNat = n := by
  have hall : ∀ n < 128, (Char.ofNat n).toNat = n := by decide
  exact hall n h

/-- The one byte of an ASCII character. -/
theorem asBytes_ascii_byte {b : UInt8} (hb : b.toNat < 128) :
    Text.asBytes (String.singleton (Char.ofNat b.toNat)) = [b] := by
  have hc := toNat_ofNat hb
  have hascii : ∀ c ∈ [Char.ofNat b.toNat], c.toNat < 128 := by
    intro c hmem
    rw [List.mem_singleton.mp hmem,hc]
    exact hb
  have hbytes := Text.asBytes_ascii hascii
  rw [List.map_singleton,hc] at hbytes
  exact hbytes.trans (congrArg (fun b => [b]) UInt8.ofNat_toNat)

theorem decodeChars_encodeByte {escaped : Char → Bool} (h : escaped '%' = true) (b : UInt8) (rest : List Char) :
    decodeChars (encodeByte escaped b ++ rest) = b :: decodeChars rest := by
  rw [encodeByte]
  split
  · exact decodeChars_escape b rest
  · next hplain =>
    rw [not_or,Nat.not_le] at hplain
    have hne : Char.ofNat b.toNat ≠ '%' := fun heq => hplain.2 (heq ▸ h)
    rw [List.singleton_append,decodeChars_cons hne,asBytes_ascii_byte hplain.1,List.singleton_append]

theorem decodeChars_encode {escaped : Char → Bool} (h : escaped '%' = true) (bytes : List UInt8) (rest : List Char) :
    decodeChars (bytes.flatMap (encodeByte escaped) ++ rest) = bytes ++ decodeChars rest := by
  induction bytes with
  | nil => rfl
  | cons b bytes ih =>
    rw [List.flatMap_cons,List.append_assoc,decodeChars_encodeByte h,ih,List.cons_append]

theorem plain_encodeByte (escaped : Char → Bool) (b : UInt8) : (encodeByte escaped b).all (plain escaped) = true := by
  have hb := b.toNat_lt
  rw [encodeByte]
  split
  · simp only [List.all_cons,List.all_nil,Bool.and_true,Bool.and_eq_true]
    exact ⟨rfl,plain_hexDigit escaped (by omega),plain_hexDigit escaped (by omega)⟩
  · next hplain =>
    rw [not_or,Bool.not_eq_true] at hplain
    simp [plain,hplain.2]

theorem asBytes_singleton_ne_nil (c : Char) : Text.asBytes (String.singleton c) ≠ [] := by
  have hbytes : Text.asBytes (String.singleton c) = String.utf8EncodeChar c ++ Text.asBytes "" := Text.asBytes_cons c []
  rw [hbytes]
  exact List.append_ne_nil_of_left_ne_nil String.utf8EncodeChar_ne_nil _

theorem decodeChars_ne_nil {cs : List Char} (h : cs ≠ []) : decodeChars cs ≠ [] := by
  obtain ⟨c,rest,rfl⟩ := List.exists_cons_of_ne_nil h
  rw [decodeChars.eq_def]
  split
  · contradiction
  · split
    · split <;> simp
    · simp [asBytes_singleton_ne_nil]

end Percent

/-- Bytes escaped with upper-case digits, escapes of either case read back. -/
def PercentEncoding.standard : PercentEncoding where
  encode := Percent.encode
  decode := Percent.decode
  encode_empty _ := rfl
  encode_plain escaped s := by
    rw [Percent.encode,String.toList_ofList,List.all_flatMap,List.all_eq_true]
    exact fun b _ => Percent.plain_encodeByte escaped b
  decode_empty := rfl
  decode_encode escaped s t h := by
    rw [Percent.decode,Percent.encode,String.toList_append,String.toList_ofList,Percent.decodeChars_encode h]
    rfl
  decode_char c t h := by
    rw [Percent.decode,String.toList_append,String.toList_singleton,List.singleton_append,Percent.decodeChars_cons h]
    rfl
  decode_ne s h := Percent.decodeChars_ne_nil fun hnil => h (String.toList_inj.mp hnil)

theorem PercentEncoding.standard_piecewise : standard.Piecewise where
  encode_append escaped s t := by
    apply String.toList_injective
    simp only [standard,Percent.encode,Text.asBytes_append,List.flatMap_append,String.toList_ofList,String.toList_append]
  encode_self escaped c hc hplain := by
    have hbytes : Text.asBytes (String.ofList [c]) = [c.toNat.toUInt8] := Text.asBytes_ascii (by simpa using hc)
    have hbyte : (c.toNat.toUInt8).toNat = c.toNat := by
      rw [UInt8.toNat_ofNat']
      exact Nat.mod_eq_of_lt (by omega)
    have hsmall : ¬(128 ≤ c.toNat) := by omega
    apply String.toList_injective
    rw [String.singleton_eq_ofList]
    simp only [standard,Percent.encode,hbytes]
    simp [Percent.encodeByte,hbyte,hsmall,hplain]
  encode_char escaped c hc := by
    simp only [standard,Percent.encode,String.toList_ofList,List.all_flatMap]
    rw [List.all_eq_true]
    intro b hb
    have hcode : 128 ≤ b.toNat ∨ escaped (Char.ofNat b.toNat) = true := by
      by_contra hne
      rw [not_or,Nat.not_le] at hne
      have hnat : (Char.ofNat b.toNat).toNat = b.toNat := Percent.toNat_ofNat hne.1
      -- a byte below 128 is the character itself
      have hsame : Char.ofNat b.toNat = c := by
        apply Text.eq_of_mem_utf8EncodeChar (by omega)
        have hbytes : Text.asBytes (String.singleton c) = String.utf8EncodeChar c ++ Text.asBytes "" := Text.asBytes_cons c []
        have hnone : Text.asBytes "" = [] := rfl
        rw [hnat,Nat.toUInt8_eq,UInt8.ofNat_toNat]
        rwa [hbytes,hnone,List.append_nil] at hb
      rw [hsame] at hnat hne
      rcases hc with hc | hc
      · exact hne.2 hc
      · omega
    have hlt := b.toNat_lt
    have hhigh := Percent.plain_hexDigit (fun _ => true) (n := b.toNat / 16) (by omega)
    have hlow := Percent.plain_hexDigit (fun _ => true) (n := b.toNat % 16) (by omega)
    rw [Percent.encodeByte,if_pos hcode,List.all_cons,List.all_cons,List.all_cons,hhigh,hlow]
    rfl

end Rainier
