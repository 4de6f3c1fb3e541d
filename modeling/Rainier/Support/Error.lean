import Mathlib.Data.List.Basic

/-! # The framework's error -/
namespace Rainier

/-- `rainier_support::Error`, as far as the modelled code reads it: the message
and the text of the underlying cause. -/
structure Error where
  message : String
  source : Option String
  deriving DecidableEq, Repr

namespace Error

def internal (message : String) : Error := ⟨message,none⟩

def badRequest (message : String) : Error := ⟨message,none⟩

def unauthorized (message : String) : Error := ⟨message,none⟩

def unauthenticated (message : String) : Error := ⟨message,none⟩

def conflict (message : String) : Error := ⟨message,none⟩

def notFound (message : String) : Error := ⟨message,none⟩

/-- `Display`: the message, and the cause after a colon. -/
def display (e : Error) : String :=
  match e.source with
  | some source => e.message ++ ": " ++ source
  | none => e.message

end Error

/-- A chain of fallible steps succeeds when every step does. -/
theorem bind_eq_ok {ε α β : Type} {x : Except ε α} {f : α → Except ε β} {b : β} :
    x >>= f = .ok b ↔ ∃ a, x = .ok a ∧ f a = .ok b := by
  constructor
  · intro h
    cases x with
    | error e => cases h
    | ok a => exact ⟨a,rfl,h⟩
  · rintro ⟨a,rfl,h⟩
    exact h

theorem mapError_eq_ok {ε ε' α : Type} {f : ε → ε'} {x : Except ε α} {a : α} :
    x.mapError f = .ok a ↔ x = .ok a := by
  cases x with
  | error e => exact ⟨nofun,nofun⟩
  | ok b => exact ⟨fun h => Except.ok.inj h ▸ rfl,fun h => Except.ok.inj h ▸ rfl⟩

end Rainier
