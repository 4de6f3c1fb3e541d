import Mathlib.Algebra.Order.Ring.Rat
import Mathlib.Algebra.Order.Floor.Ring
import Mathlib.Data.Nat.Log
import Mathlib.Data.Rat.Floor
import Rainier.Support.Json
import Rainier.Support.Text

/-! # Double-precision numbers by their values

The sign of a zero is left out: no comparison tells the zeros apart. A conversion gives
the nearest double, and of two that are equally near the one with the even significand.
-/
namespace Rainier

inductive F64 where
  | nan
  | negInf
  | posInf
  | finite (q : ℚ)
  deriving DecidableEq, Repr

namespace F64

/-- The quotient to the nearest integer, to the even one from the middle. -/
def halfEven (x y : ℕ) : ℕ :=
  if 2 * (x % y) < y ∨ (2 * (x % y) = y ∧ x / y % 2 = 0) then x / y else x / y + 1

/-- An integer to 53 significant bits. -/
def roundNat (n : ℕ) : ℕ := halfEven n (2 ^ (Nat.log2 n - 52)) * 2 ^ (Nat.log2 n - 52)

/-- `as f64` of an unsigned integer. -/
def ofNat (n : ℕ) : F64 := finite (roundNat n)

/-- The exponent of the last bit kept of a positive ratio: 53 bits of it, and none below the subnormals. -/
def lastBit (a b : ℕ) : ℤ :=
  let log : ℤ := Nat.log2 a - Nat.log2 b
  let log := if (b : ℚ) * 2 ^ log ≤ a then log else log - 1
  max (log - 52) (-1074)

/-- The nearest double; from the overflow threshold on, an infinity. -/
def round (q : ℚ) : F64 :=
  if q = 0 then finite 0
  else
    let a := q.num.natAbs
    let e := lastBit a q.den
    let m := if 0 ≤ e then halfEven a (q.den * 2 ^ e.toNat) else halfEven (a * 2 ^ (-e).toNat) q.den
    let magnitude : ℚ := m * 2 ^ e
    if 2 ^ 1024 ≤ magnitude then (if q < 0 then negInf else posInf)
    else finite (if q < 0 then -magnitude else magnitude)

/-- The bits of a double. -/
def ofBits (bits : BitVec 64) : F64 :=
  let n := bits.toNat
  let negative := 2 ^ 63 ≤ n
  let exponent : ℕ := n / 2 ^ 52 % 2 ^ 11
  let fraction : ℕ := n % 2 ^ 52
  if exponent = 2047 then (if fraction ≠ 0 then nan else if negative then negInf else posInf)
  else
    let magnitude : ℚ :=
      if exponent = 0 then fraction * 2 ^ (-1074 : ℤ) else (2 ^ 52 + fraction) * 2 ^ ((exponent : ℤ) - 1075)
    finite (if negative then -magnitude else magnitude)

/-- `Number::as_f64`. -/
def ofNumber : JsonNumber → F64
  | .posInt n => finite (roundNat n)
  | .negInt n => finite (-(roundNat (n + 1)))
  | .float bits => ofBits bits

/-- `<=`. -/
def le : F64 → F64 → Bool
  | nan, _ | _, nan => false
  | negInf, _ | _, posInf => true
  | posInf, _ | _, negInf => false
  | finite a, finite b => a ≤ b

/-- `==`. -/
def eq : F64 → F64 → Bool
  | nan, _ => false
  | a, b => a = b

/-- `(a - b).abs() < f64::EPSILON`. -/
def near : F64 → F64 → Bool
  | finite a, finite b =>
    match round (a - b) with
    | finite d => |d| < 2 ^ (-52 : ℤ)
    | _ => false
  | _, _ => false

/-- `value.fract() == 0.0`. -/
def isIntegral : F64 → Bool
  | finite q => q.den = 1
  | _ => false

/-- `as i64`, which saturates. -/
def toI64 : F64 → ℤ
  | finite q => max (-2 ^ 63) (min (2 ^ 63 - 1) (if q < 0 then ⌈q⌉ else ⌊q⌋))
  | posInf => 2 ^ 63 - 1
  | negInf => -2 ^ 63
  | nan => 0

/-- `value.max(0.0) as u64`. -/
def toU64 : F64 → ℕ
  | finite q => min (2 ^ 64 - 1) ⌊q⌋.toNat
  | posInf => 2 ^ 64 - 1
  | negInf | nan => 0

/-- Digits, at least one of them before or after a point. -/
def parseMantissa (cs : List Char) : Option ℚ :=
  let whole := cs.takeWhile Text.isDigit
  let value (ds : List Char) : ℕ := ds.foldl (fun n c => 10 * n + (c.toNat - '0'.toNat)) 0
  match cs.dropWhile Text.isDigit with
  | [] => if whole.isEmpty then none else some (value whole)
  | '.' :: fraction =>
    if (whole.isEmpty && fraction.isEmpty) || !fraction.all Text.isDigit then none
    else some (value (whole ++ fraction) / 10 ^ fraction.length)
  | _ => none

def parseExponent : List Char → Option ℤ
  | '-' :: cs => (Text.digits cs).map fun n => -Int.ofNat n
  | '+' :: cs => (Text.digits cs).map Int.ofNat
  | cs => (Text.digits cs).map Int.ofNat

def parseDecimal (cs : List Char) : Option ℚ :=
  let isE (c : Char) := c = 'e' || c = 'E'
  match cs.dropWhile (fun c => !isE c) with
  | [] => parseMantissa cs
  | _ :: exponent =>
    (parseMantissa (cs.takeWhile fun c => !isE c)).bind fun m => (parseExponent exponent).map fun e => m * 10 ^ e

/-- `str::parse`. -/
def parse (s : String) : Option F64 :=
  let (negative,cs) := match s.toList with
    | '-' :: cs => (true,cs)
    | '+' :: cs => (false,cs)
    | cs => (false,cs)
  let word := String.ofList (cs.map Char.toLower)
  if word = "nan" then some nan
  else if word = "inf" ∨ word = "infinity" then some (if negative then negInf else posInf)
  else (parseDecimal cs).map fun q => round (if negative then -q else q)

/-! ## Rounding keeps the order -/

theorem halfEven_le {x y k : ℕ} (hy : 0 < y) (h : x ≤ k * y) : halfEven x y ≤ k := by
  have hdiv : x / y ≤ k := Nat.div_le_of_le_mul (by rw [Nat.mul_comm]; exact h)
  rw [halfEven]
  split
  · exact hdiv
  · next hup =>
    -- rounded up from a remainder, so the quotient is not yet `k`
    by_contra hlt
    have heq : x / y = k := by omega
    have hx := Nat.div_add_mod x y
    rw [heq,Nat.mul_comm] at hx
    have hzero : x % y = 0 := by omega
    exact hup (.inl (by omega))

theorem le_halfEven {x y k : ℕ} (hy : 0 < y) (h : k * y ≤ x) : k ≤ halfEven x y := by
  have hdiv : k ≤ x / y := (Nat.le_div_iff_mul_le hy).mpr h
  rw [halfEven]
  split
  · exact hdiv
  · omega

theorem halfEven_mono {x x' y : ℕ} (h : x ≤ x') : halfEven x y ≤ halfEven x' y := by
  have hdiv : x / y ≤ x' / y := Nat.div_le_div_right h
  by_cases heq : x / y = x' / y
  · have hx := Nat.div_add_mod x y
    have hx' := Nat.div_add_mod x' y
    rw [← heq] at hx'
    have hmod : x % y ≤ x' % y := by omega
    rw [halfEven,halfEven,← heq]
    split <;> split <;> omega
  · have hnext : x / y + 1 ≤ x' / y := by omega
    calc halfEven x y ≤ x / y + 1 := by
          rw [halfEven]
          split <;> omega
      _ ≤ x' / y := hnext
      _ ≤ halfEven x' y := by
          rw [halfEven]
          split <;> omega

theorem roundNat_mono {n m : ℕ} (h : n ≤ m) : roundNat n ≤ roundNat m := by
  have hlog : Nat.log2 n ≤ Nat.log2 m := by
    rw [Nat.log2_eq_log_two,Nat.log2_eq_log_two]
    exact Nat.log_mono_right h
  have hunit : ∀ k, 0 < 2 ^ k := fun k => Nat.two_pow_pos k
  by_cases heq : Nat.log2 n - 52 = Nat.log2 m - 52
  · rw [roundNat,roundNat,heq]
    exact Nat.mul_le_mul_right _ (halfEven_mono h)
  · -- a power of two lies between the two
    have hm : m ≠ 0 := by
      rintro rfl
      rw [Nat.le_zero.mp h] at heq
      exact heq rfl
    have hlow : 2 ^ Nat.log2 m ≤ m := Nat.log2_self_le hm
    have hhigh : n < 2 ^ (Nat.log2 n + 1) := Nat.lt_log2_self
    have hbetween : n ≤ 2 ^ Nat.log2 m := by
      have hpow : 2 ^ (Nat.log2 n + 1) ≤ 2 ^ Nat.log2 m := Nat.pow_le_pow_right (by omega) (by omega)
      omega
    have hsplit : ∀ k ≤ Nat.log2 m, 2 ^ (Nat.log2 m - k) * 2 ^ k = 2 ^ Nat.log2 m := by
      intro k hk
      rw [← Nat.pow_add]
      congr 1
      omega
    calc roundNat n ≤ 2 ^ (Nat.log2 m - (Nat.log2 n - 52)) * 2 ^ (Nat.log2 n - 52) := by
          refine Nat.mul_le_mul_right _ (halfEven_le (hunit _) ?_)
          rw [hsplit _ (by omega)]
          exact hbetween
      _ = 2 ^ (Nat.log2 m - (Nat.log2 m - 52)) * 2 ^ (Nat.log2 m - 52) := by
          rw [hsplit _ (by omega),hsplit _ (by omega)]
      _ ≤ roundNat m := by
          refine Nat.mul_le_mul_right _ (le_halfEven (hunit _) ?_)
          rw [hsplit _ (by omega)]
          exact hlow

end F64
end Rainier
