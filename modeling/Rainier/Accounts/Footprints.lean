import Rainier.Accounts.TwoFactor

/-! # What the parts of the flows call

The operations of the limiter stay with the two cache keys of its key, those of the guard
with the session, the clock, the users and the announcements.
-/
namespace Rainier.Accounts
open Auth Cache

variable {U Secret : Type}

/-- The cache keys of a limiter's key, and the clock. -/
def LimiterOp (l : CacheRateLimiter) (key : String) : Op U → Prop
  | .cacheGet k | .cacheAdd k _ _ | .cacheIncrement k _ | .cacheForget k => k = l.counter key ∨ k = l.deadline key
  | .now => True
  | _ => False

/-- The session of a request, and the clock. -/
def SessionOp : Op U → Prop
  | .session _ | .store _ _ | .now | .generateSessionId => True
  | _ => False

/-- The users and the announcements as well. -/
def GuardOp : Op U → Prop
  | .findById _ | .announce _ => True
  | o => SessionOp o

theorem SessionOp.guardOp (o : Op U) (h : SessionOp o) : GuardOp o := by
  cases o with
  | findById id => trivial
  | announce event => trivial
  | _ => exact h

/-- Whom an entry has logged in: the last step of every way in says so. -/
def loginIn : Program.Entry (Op U) Op.Answer Refusal → Option U
  | ⟨.announce (.login user),.ok _⟩ => some user
  | _ => none

theorem loginIn_eq_some {e : Program.Entry (Op U) Op.Answer Refusal} {user : U} :
    loginIn e = some user ↔ e = ⟨.announce (.login user),.ok ()⟩ := by
  constructor
  · intro h
    unfold loginIn at h
    split at h
    · cases h
      rfl
    · cases h
  · rintro rfl
    rfl

section Limiter
variable (l : CacheRateLimiter) (key : String)

theorem uses_hit (window : ℕ) : Program.Uses (LimiterOp l key) (hit l key window : Flow U Hit) := by
  have hcount : ∀ endsAt : Option ℕ, Program.Uses (LimiterOp l key)
      (do
        let count ← cacheIncrement (l.counter key) 1
        return ⟨(max count 0).toNat % 2 ^ 32,CacheRateLimiter.remaining (← clock) endsAt window⟩ : Flow U Hit) := by
    intro endsAt
    exact Program.uses_perform (.inl rfl) fun _ => Program.uses_perform trivial fun _ => trivial
  refine Program.uses_perform (.inl rfl) ?_
  rintro (e | (_ | _))
  · trivial
  · exact Program.uses_perform (.inr rfl) fun stored => hcount (CacheRateLimiter.readMillis stored)
  · exact Program.uses_perform trivial fun _ => Program.uses_perform (.inr rfl) fun _ => hcount _

theorem uses_peek : Program.Uses (LimiterOp l key) (peek l key : Flow U (Option Hit)) := by
  refine Program.uses_perform (.inl rfl) ?_
  rintro (_ | raw)
  · trivial
  · exact Program.uses_perform (.inr rfl) fun _ => Program.uses_perform trivial fun _ => trivial

theorem uses_clear : Program.Uses (LimiterOp l key) (clear l key : Flow U Unit) :=
  Program.uses_perform (.inl rfl) fun _ => Program.uses_perform (.inr rfl) fun _ => trivial

end Limiter

section Guard
variable (request : Request)

theorem uses_forgetPending : Program.Uses SessionOp (forgetPending request : Flow U Unit) := by
  refine Program.uses_perform trivial ?_
  rintro (_ | session)
  · trivial
  · exact ⟨trivial,fun _ => trivial⟩

theorem uses_livePending (session : Session) : Program.Uses SessionOp (livePending session : Flow U (Option Pending)) := by
  unfold livePending
  split
  · trivial
  · refine Program.uses_perform trivial fun now => ?_
    dsimp only [pure,Program.bind]
    split <;> trivial

section Lookup
variable {kind : Op U → Prop}

theorem uses_requireConfirmedPassword (hsession : ∀ id, kind (.session id)) (hnow : kind .now) :
    Program.Uses kind (requireConfirmedPassword request : Flow U Unit) := by
  refine Program.uses_perform (hsession _) fun session => Program.uses_perform hnow fun now => ?_
  dsimp only [pure,Program.bind]
  split <;> trivial

variable (accounts : Accounts Secret) (hsession : ∀ id, kind (.session id)) (hfind : ∀ id, kind (.findById id))
include hsession hfind

theorem uses_guardUser : Program.Uses kind (guardUser accounts request : Flow U (Option U)) := by
  refine Program.uses_perform (hsession _) ?_
  rintro (_ | session)
  · trivial
  · dsimp only
    split
    · trivial
    · exact ⟨hfind _,fun _ => trivial⟩

theorem uses_currentUser : Program.Uses kind (currentUser accounts request : Flow U U) := by
  refine (uses_guardUser request accounts hsession hfind).bind ?_
  rintro (_ | user) <;> trivial

end Lookup

variable (accounts : Accounts Secret)

variable [AccountUser U]

theorem uses_guardLogin (user : U) : Program.Uses SessionOp (guardLogin request user) := by
  refine Program.uses_perform trivial fun fresh => Program.uses_perform trivial ?_
  rintro (_ | session)
  · trivial
  · exact ⟨trivial,fun _ => trivial⟩

theorem uses_completeLogin (user : U) : Program.Uses GuardOp (completeLogin accounts request user) :=
  ((uses_guardLogin request user).mono SessionOp.guardOp).bind fun _ => Program.uses_perform trivial fun _ => trivial

end Guard

end Rainier.Accounts
