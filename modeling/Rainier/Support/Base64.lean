import Mathlib.Data.List.Basic
import Mathlib.Data.Nat.Basic

/-! # URL-safe base64 without padding

`Base64` is what the code relies on of the `base64` crate's `URL_SAFE_NO_PAD`: the text is
made of letters, digits, `-` and `_`, and decodes to the bytes it was made of.
`standard` is an implementation.
-/
namespace Rainier

/-- The characters of the URL-safe alphabet. -/
def Base64.isSymbol (c : Char) : Bool :=
  ('A' ≤ c && c ≤ 'Z') || ('a' ≤ c && c ≤ 'z') || ('0' ≤ c && c ≤ '9') || c = '-' || c = '_'

structure Base64 where
  encode : List UInt8 → String
  decode : String → Option (List UInt8)
  isSymbol_encode : ∀ bytes, (encode bytes).toList.all Base64.isSymbol = true
  decode_encode : ∀ bytes, decode (encode bytes) = some bytes

namespace Base64

def symbol (n : ℕ) : Char :=
  if n < 26 then Char.ofNat (65 + n)
  else if n < 52 then Char.ofNat (71 + n)
  else if n < 62 then Char.ofNat (n - 4)
  else if n = 62 then '-'
  else '_'

def value (c : Char) : Option ℕ :=
  if 'A' ≤ c ∧ c ≤ 'Z' then some (c.toNat - 65)
  else if 'a' ≤ c ∧ c ≤ 'z' then some (c.toNat - 71)
  else if '0' ≤ c ∧ c ≤ '9' then some (c.toNat + 4)
  else if c = '-' then some 62
  else if c = '_' then some 63
  else none

/-- Three bytes are four values of six bits. -/
def encodeValues : List UInt8 → List ℕ
  | a :: b :: c :: rest =>
    a.toNat / 4 :: (a.toNat % 4 * 16 + b.toNat / 16) :: (b.toNat % 16 * 4 + c.toNat / 64) :: c.toNat % 64 ::
      encodeValues rest
  | [a,b] => [a.toNat / 4,a.toNat % 4 * 16 + b.toNat / 16,b.toNat % 16 * 4]
  | [a] => [a.toNat / 4,a.toNat % 4 * 16]
  | [] => []

/-- Bits that belong to no byte must be zero. -/
def decodeValues : List ℕ → Option (List UInt8)
  | p :: q :: r :: s :: rest => (decodeValues rest).map fun bytes =>
    UInt8.ofNat (p * 4 + q / 16) :: UInt8.ofNat (q % 16 * 16 + r / 4) :: UInt8.ofNat (r % 4 * 64 + s) :: bytes
  | [p,q,r] => if r % 4 = 0 then some [UInt8.ofNat (p * 4 + q / 16),UInt8.ofNat (q % 16 * 16 + r / 4)] else none
  | [p,q] => if q % 16 = 0 then some [UInt8.ofNat (p * 4 + q / 16)] else none
  | [_] => none
  | [] => some []

theorem value_symbol {n : ℕ} (h : n < 64) : value (symbol n) = some n := by
  have hall : ∀ n < 64, value (symbol n) = some n := by decide
  exact hall n h

theorem isSymbol_symbol {n : ℕ} (h : n < 64) : isSymbol (symbol n) = true := by
  have hall : ∀ n < 64, isSymbol (symbol n) = true := by decide
  exact hall n h

theorem encodeValues_lt (bytes : List UInt8) : ∀ n ∈ encodeValues bytes, n < 64 := by
  fun_induction encodeValues bytes with
  | case1 a b c rest ih =>
    have ha := a.toNat_lt
    have hb := b.toNat_lt
    have hc := c.toNat_lt
    simp only [List.forall_mem_cons]
    exact ⟨by omega,by omega,by omega,by omega,ih⟩
  | case2 a b =>
    have ha := a.toNat_lt
    have hb := b.toNat_lt
    simp only [List.forall_mem_cons]
    exact ⟨by omega,by omega,by omega,by simp⟩
  | case3 a =>
    have ha := a.toNat_lt
    simp only [List.forall_mem_cons]
    exact ⟨by omega,by omega,by simp⟩
  | case4 => simp

theorem ofNat_of_eq {n : ℕ} {b : UInt8} (h : n = b.toNat) : UInt8.ofNat n = b := by
  rw [h]
  exact UInt8.ofNat_toNat

theorem decodeValues_encodeValues (bytes : List UInt8) : decodeValues (encodeValues bytes) = some bytes := by
  fun_induction encodeValues bytes with
  | case1 a b c rest ih =>
    have hb := b.toNat_lt
    have hc := c.toNat_lt
    rw [decodeValues,ih,Option.map_some,ofNat_of_eq (b := a) (by omega),ofNat_of_eq (b := b) (by omega),
      ofNat_of_eq (b := c) (by omega)]
  | case2 a b =>
    have hb := b.toNat_lt
    rw [decodeValues,if_pos (by omega),ofNat_of_eq (b := a) (by omega),ofNat_of_eq (b := b) (by omega)]
  | case3 a => rw [decodeValues,if_pos (by omega),ofNat_of_eq (b := a) (by omega)]
  | case4 => rfl

theorem mapM_value_symbol {values : List ℕ} (h : ∀ n ∈ values, n < 64) : (values.map symbol).mapM value = some values := by
  induction values with
  | nil => rfl
  | cons n values ih =>
    rw [List.forall_mem_cons] at h
    rw [List.map_cons,List.mapM_cons,value_symbol h.1,ih h.2]
    rfl

def standard : Base64 where
  encode bytes := String.ofList ((encodeValues bytes).map symbol)
  decode s := (s.toList.mapM value).bind decodeValues
  isSymbol_encode bytes := by
    rw [String.toList_ofList,List.all_map,List.all_eq_true]
    exact fun n hn => isSymbol_symbol (encodeValues_lt bytes n hn)
  decode_encode bytes := by
    rw [String.toList_ofList,mapM_value_symbol (encodeValues_lt bytes)]
    exact decodeValues_encodeValues bytes

end Base64
end Rainier
