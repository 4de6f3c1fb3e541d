import Rainier.Accounts.TwoFactor
import Rainier.Validation.RuleOrder

/-! # The length of a new password

The minimum is a rule that measures a text as a number where it reads as one, so a short
password of digits is held against its value.
-/
namespace Rainier.Accounts
open Rainier Validation

variable {Secret : Type} (accounts : Accounts Secret) (input : Json)

/-- The rules of the password refuse nothing. -/
def PasswordAccepted : Prop :=
  Validator.validate accounts.formats (.fromRules [("password",passwordRules accounts)]) input = .ok ()

def LongEnough : Prop :=
  ∃ s, lookup input "password" = some (.string s) ∧ accounts.features.passwordMinLength ≤ s.toList.length

/-- The number a text is measured by. -/
def measured (s : String) : F64 := (F64.parse s).getD (F64.ofNat s.toList.length)

/-- A password that is given twice and too short, but measures as much as the minimum. -/
structure ShortButMeasured (s : String) : Prop where
  password : lookup input "password" = some (.string s)
  confirmation : lookup input "password_confirmation" = some (.string s)
  filled : Text.trim s ≠ ""
  short : s.toList.length < accounts.features.passwordMinLength
  measures : (F64.ofNat accounts.features.passwordMinLength).le (measured s) = true

variable {accounts input}

theorem expand_password : expand "password" input = ["password"] := by
  rw [expand,if_pos (by decide)]

theorem passwordAccepted_iff : PasswordAccepted accounts input ↔
    Passes accounts.formats "password" (lookup input "password") input (passwordRules accounts) := by
  rw [PasswordAccepted,validate_eq_ok]
  simp only [mem_fields_errorsOf,Validator.fromRules,List.mem_singleton,exists_eq_left,expand_password]
  constructor
  · intro h
    by_contra hfails
    exact h "password" ⟨rfl,hfails⟩
  · rintro h key ⟨rfl,hfails⟩
    exact hfails h

/-- The forms that ask for more than the password accept it by the same rules. -/
theorem passwordAccepted_of_validate {rules : List (String × List (Validation.Rule Unit))}
    (hmem : ("password",passwordRules accounts) ∈ rules)
    (h : Validator.validate accounts.formats (.fromRules rules) input = .ok ()) : PasswordAccepted accounts input := by
  rw [passwordAccepted_iff]
  by_contra hfails
  refine validate_eq_ok.1 h "password" (mem_fields_errorsOf.2 ⟨_,hmem,?_,hfails⟩)
  rw [expand_password]
  exact List.mem_singleton_self _

section Rules
variable {D : Type} (fm : Formats D) (field s : String) (all : Json)

theorem required_check : (Rule.required : Rule D).check fm field (some (.string s)) all = .pass ↔ Text.trim s ≠ "" := by
  rw [Rule.check,isFilled]
  by_cases h : Text.trim s = "" <;> simp [h]

theorem min_check (bound : F64) : (Rule.min bound : Rule D).check fm field (some (.string s)) all = .pass ↔
    bound.le (measured s) = true := by
  have hvalue : (Rule.min bound : Rule D).check fm field (some (.string s)) all =
    (Rule.min bound).checkValue fm field (.string s) all := rfl
  rw [hvalue,Rule.checkValue,Validation.measure,measured]
  cases F64.parse s <;> simp [Validation.check]

theorem sameValue_string {other : Json} : sameValue other (.string s) = true ↔ other = .string s := by
  cases other with
  | string t => simp [sameValue]
  | number n => cases n <;> exact ⟨nofun,nofun⟩
  | _ => exact ⟨nofun,nofun⟩

theorem confirmed_check : (Rule.confirmed : Rule D).check fm field (some (.string s)) all = .pass ↔
    lookup all (field ++ "_confirmation") = some (.string s) := by
  have hvalue : (Rule.confirmed : Rule D).check fm field (some (.string s)) all =
    (Rule.confirmed).checkValue fm field (.string s) all := rfl
  rw [hvalue,Rule.checkValue]
  cases lookup all (field ++ "_confirmation") with
  | none => simp [Validation.check]
  | some other => simp [Validation.check,sameValue_string]

/-- A presence rule comes first, so that only a text goes on. -/
theorem passes_string {rest : List (Rule D)} {value : Option Json}
    (h : Passes fm field value all (.required :: .string :: rest)) : ∃ s, value = some (.string s) := by
  rw [passes_cons,passes_cons] at h
  cases value with
  | none =>
    rcases h with h | ⟨h,-⟩ <;> cases h
  | some value =>
    rcases h with h | ⟨hfilled,h⟩
    · rw [Rule.check] at h
      split at h <;> cases h
    · cases value with
      | string s => exact ⟨s,rfl⟩
      | null => cases hfilled
      | _ => rcases h with h | ⟨h,-⟩ <;> cases h

theorem not_skip (rule : Rule D) : rule.check fm field (some (.string s)) all ≠ .skip := by
  rw [ne_eq,check_eq_skip]
  simp [missing]

end Rules

/-- A password is accepted when it is a text with something in it, given twice, that measures enough. -/
theorem passwordAccepted_iff_string : PasswordAccepted accounts input ↔ ∃ s, lookup input "password" = some (.string s) ∧
    lookup input "password_confirmation" = some (.string s) ∧ Text.trim s ≠ "" ∧
    (F64.ofNat accounts.features.passwordMinLength).le (measured s) = true := by
  have hname : "password" ++ "_confirmation" = "password_confirmation" := rfl
  rw [passwordAccepted_iff,passwordRules]
  constructor
  · intro h
    obtain ⟨s,hvalue⟩ := passes_string _ _ _ h
    rw [hvalue] at h
    simp only [passes_cons,not_skip,false_or,required_check,min_check,confirmed_check,hname] at h
    exact ⟨s,hvalue,h.2.2.2.1,h.1,h.2.2.1⟩
  · rintro ⟨s,hvalue,hconfirmed,hfilled,hmeasured⟩
    rw [hvalue]
    simp only [passes_cons,not_skip,false_or,required_check,min_check,confirmed_check,hname]
    exact ⟨hfilled,rfl,hmeasured,hconfirmed,by simp [Passes]⟩

/-- What is accepted is long enough exactly when it is not a short text that measures enough. -/
theorem accepted_long_iff (accounts : Accounts Secret) (input : Json) :
    (PasswordAccepted accounts input → LongEnough accounts input) ↔ ∀ s, ¬ ShortButMeasured accounts input s := by
  rw [passwordAccepted_iff_string]
  constructor
  · intro hlong s hshort
    obtain ⟨s',hvalue,hlength⟩ := hlong ⟨s,hshort.password,hshort.confirmation,hshort.filled,hshort.measures⟩
    rw [hshort.password] at hvalue
    cases hvalue
    exact absurd hshort.short (Nat.not_lt.2 hlength)
  · rintro hnone ⟨s,hvalue,hconfirmed,hfilled,hmeasured⟩
    refine ⟨s,hvalue,?_⟩
    by_contra hlength
    exact hnone s ⟨hvalue,hconfirmed,hfilled,Nat.not_le.1 hlength,hmeasured⟩

/-! ## Which texts measure as much -/

theorem roundNat_of_lt {n : ℕ} (h : n < 2 ^ 53) : F64.roundNat n = n := by
  have hlog : Nat.log2 n - 52 = 0 := by
    by_cases hn : n = 0
    · subst hn
      rfl
    · have hlt := (Nat.log2_lt hn).2 h
      omega
  rw [F64.roundNat,hlog,F64.halfEven]
  simp [Nat.mod_one]

/-- Short of lengths no double tells apart, the text reads as a number. -/
theorem ShortButMeasured.reads {s : String} (h : ShortButMeasured accounts input s)
    (hn : accounts.features.passwordMinLength < 2 ^ 53) :
    ∃ x, F64.parse s = some x ∧ (F64.ofNat accounts.features.passwordMinLength).le x = true := by
  have hmeasures := h.measures
  rw [measured] at hmeasures
  cases hparse : F64.parse s with
  | some x => exact ⟨x,rfl,by simpa [hparse] using hmeasures⟩
  | none =>
    have hshort := h.short
    simp only [hparse,Option.getD_none,F64.ofNat,F64.le,decide_eq_true_eq,Nat.cast_le] at hmeasures
    rw [roundNat_of_lt hn,roundNat_of_lt (Nat.lt_trans hshort hn)] at hmeasures
    omega

/-- Two digits are more than eight. -/
theorem ninety_nine_accepted :
    PasswordAccepted (sample .default) (.object [("password",.string "99"),("password_confirmation",.string "99")]) ∧
      ¬ LongEnough (sample .default) (.object [("password",.string "99"),("password_confirmation",.string "99")]) := by
  have hvalue : lookup (.object [("password",.string "99"),("password_confirmation",.string "99")]) "password" =
      some (.string "99") := by decide
  refine ⟨passwordAccepted_iff_string.2 ⟨"99",hvalue,?_,?_,?_⟩,?_⟩
  · decide
  · decide
  · decide +kernel
  · rintro ⟨s,hs,hlength⟩
    rw [hvalue] at hs
    cases hs
    revert hlength
    decide

end Rainier.Accounts
