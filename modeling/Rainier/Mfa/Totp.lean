import Rainier.Support.Text
import Mathlib.Algebra.Order.Ring.Nat

/-! # Time-based one-time codes

A code is good for one step of `period` seconds and is accepted `window` steps to either
side. The one-time code of a secret and a step is a parameter.
-/
namespace Rainier.Mfa

structure Totp (Secret : Type) where
  digits : ℕ
  period : ℕ
  window : ℕ
  hotp : Secret → ℕ → String
  positive : 0 < period

namespace Totp
variable {Secret : Type} (totp : Totp Secret)

/-- The step a Unix time falls in. -/
def stepAt (unix : ℕ) : ℕ := unix / totp.period

/-- `u64::MAX`. -/
def lastStep : ℕ := 2 ^ 64 - 1

/-- The loop body of `verify_at`: the newest step that matches and is fresh wins. -/
def tryStep (secret : Secret) (code : String) (lastUsedStep matched : Option ℕ) (step : ℕ) : Option ℕ :=
  let fresh := lastUsedStep.all fun used => used < step
  if totp.hotp secret step = code ∧ fresh = true then some step else matched

def verifyAt (secret : Secret) (code : String) (unix : ℕ) (lastUsedStep : Option ℕ) : Option ℕ :=
  let code := String.ofList (code.toList.filter fun c => !Text.isWhitespace c)
  if code.utf8ByteSize ≠ totp.digits ∨ !code.toList.all Text.isDigit then none
  else
    let current := totp.stepAt unix
    let first := current - totp.window
    let last := min lastStep (current + totp.window)
    (List.range' first (last + 1 - first)).foldl (totp.tryStep secret code lastUsedStep) none

variable {totp} {secret : Secret} {code : String} {unix step : ℕ} {lastUsedStep : Option ℕ}

theorem tryStep_cases (matched : Option ℕ) (candidate : ℕ)
    (h : totp.tryStep secret code lastUsedStep matched candidate = some step) : matched = some step ∨ step = candidate := by
  unfold tryStep at h
  dsimp only at h
  split at h
  · cases h
    exact .inr rfl
  · exact .inl h

theorem foldl_tryStep {steps : List ℕ} (matched : Option ℕ)
    (h : steps.foldl (totp.tryStep secret code lastUsedStep) matched = some step) : matched = some step ∨ step ∈ steps := by
  induction steps generalizing matched with
  | nil => exact .inl h
  | cons candidate steps ih =>
    rcases ih _ h with hmatched | hmem
    · rcases tryStep_cases matched candidate hmatched with hmatched | rfl
      · exact .inl hmatched
      · exact .inr List.mem_cons_self
    · exact .inr (List.mem_cons_of_mem candidate hmem)

/-- A step that is matched is in the window. -/
theorem verifyAt_window (h : totp.verifyAt secret code unix lastUsedStep = some step) :
    totp.stepAt unix - totp.window ≤ step ∧ step ≤ totp.stepAt unix + totp.window := by
  unfold verifyAt at h
  dsimp only at h
  split at h
  · cases h
  · rcases foldl_tryStep none h with hnone | hmem
    · cases hnone
    · rw [List.mem_range'_1] at hmem
      omega

end Totp
end Rainier.Mfa
