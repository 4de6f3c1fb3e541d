import Mathlib.Algebra.Order.Ring.Nat
import Mathlib.Data.List.Induction

/-! # Numbers as bytes, the most significant first -/
namespace Rainier.Bytes

/-- `to_be_bytes` of the number cut to `width` bytes. -/
def toBeBytes : (width : ℕ) → ℕ → List UInt8
  | 0, _ => []
  | width + 1, n => toBeBytes width (n / 256) ++ [UInt8.ofNat n]

def fromBeBytes (bytes : List UInt8) : ℕ := bytes.foldl (fun n b => n * 256 + b.toNat) 0

@[simp] theorem length_toBeBytes (width n : ℕ) : (toBeBytes width n).length = width := by
  induction width generalizing n with
  | zero => rfl
  | succ width ih => simp [toBeBytes,ih]

theorem fromBeBytes_concat (bytes : List UInt8) (b : UInt8) :
    fromBeBytes (bytes ++ [b]) = fromBeBytes bytes * 256 + b.toNat := by
  simp [fromBeBytes]

theorem fromBeBytes_toBeBytes (width n : ℕ) (h : n < 256 ^ width) : fromBeBytes (toBeBytes width n) = n := by
  induction width generalizing n with
  | zero =>
    rw [Nat.pow_zero] at h
    obtain rfl : n = 0 := by omega
    rfl
  | succ width ih =>
    have hhigh : n / 256 < 256 ^ width := Nat.div_lt_of_lt_mul (by rwa [Nat.pow_succ,Nat.mul_comm] at h)
    rw [toBeBytes,fromBeBytes_concat,ih _ hhigh,UInt8.toNat_ofNat']
    omega

theorem fromBeBytes_lt (bytes : List UInt8) : fromBeBytes bytes < 256 ^ bytes.length := by
  induction bytes using List.reverseRecOn with
  | nil => decide
  | append_singleton bytes b ih =>
    have hb := b.toNat_lt
    rw [fromBeBytes_concat,List.length_append,List.length_singleton,Nat.pow_succ]
    omega

/-! ## Hexadecimal -/

/-- `{byte:02x}` of each byte. -/
def hex (bytes : List UInt8) : String :=
  String.ofList (bytes.flatMap fun b => [Nat.digitChar (b.toNat / 16),Nat.digitChar (b.toNat % 16)])

theorem digitChar_inj {m n : ℕ} (hm : m < 16) (hn : n < 16) (h : Nat.digitChar m = Nat.digitChar n) : m = n := by
  have hall : ∀ m < 16, ∀ n < 16, Nat.digitChar m = Nat.digitChar n → m = n := by decide
  exact hall m hm n hn h

theorem hex_injective : Function.Injective hex := by
  intro bs bs' h
  have hlist := String.ofList_injective h
  induction bs generalizing bs' with
  | nil => cases bs' <;> simp_all
  | cons b bs ih =>
    cases bs' with
    | nil => simp at hlist
    | cons b' bs' =>
      simp only [List.flatMap_cons,List.cons_append,List.nil_append,List.cons.injEq] at hlist
      obtain ⟨hhigh,hlow,hrest⟩ := hlist
      have hb := b.toNat_lt
      have hb' := b'.toNat_lt
      have hhigh := digitChar_inj (by omega) (by omega) hhigh
      have hlow := digitChar_inj (by omega) (by omega) hlow
      have hbyte : b = b' := UInt8.toNat_inj.1 (by omega)
      rw [hbyte,ih (by rw [hex,hex,hrest]) hrest]

end Rainier.Bytes
