import Mathlib.Algebra.Order.Ring.Int

/-! # Instants and durations

A `DateTime<Utc>` is its distance from the epoch and a `Duration` its length,
both in nanoseconds. Dates are unbounded: the panic of an addition past
chrono's last year is not represented.
-/
namespace Rainier

namespace Duration

def fromMillis (n : ℕ) : ℕ := n * 1000000
def fromSecs (n : ℕ) : ℕ := n * 1000000000
def asMillis (d : ℕ) : ℕ := d / 1000000

/-- The longest chrono `Duration`: `i64::MAX` milliseconds. -/
def maxChrono : ℕ := fromMillis (2 ^ 63 - 1)

/-- `chrono::Duration::from_std`, which refuses what chrono cannot hold. -/
def fromStd (d : ℕ) : Option ℕ := if d ≤ maxChrono then some d else none

private def trimZeros (digits : List Char) : List Char :=
  (digits.reverse.dropWhile (· == '0')).reverse

private def fraction (part width : ℕ) : String :=
  let digits := (Nat.toDigits 10 part)
  let padded := List.replicate (width - digits.length) '0' ++ digits
  match trimZeros padded with
  | [] => ""
  | kept => "." ++ String.ofList kept

/-- `{:?}` of a `std::time::Duration`: the largest unit that is not zero. -/
def debug (d : ℕ) : String :=
  if 1000000000 ≤ d then toString (d / 1000000000) ++ fraction (d % 1000000000) 9 ++ "s"
  else if 1000000 ≤ d then toString (d / 1000000) ++ fraction (d % 1000000) 6 ++ "ms"
  else if 1000 ≤ d then toString (d / 1000) ++ fraction (d % 1000) 3 ++ "µs"
  else toString d ++ "ns"

end Duration

def Time.timestampMillis (t : ℕ) : ℕ := t / 1000000

theorem Time.timestampMillis_mono {s t : ℕ} (h : s ≤ t) :
    timestampMillis s ≤ timestampMillis t := Nat.div_le_div_right h

end Rainier
