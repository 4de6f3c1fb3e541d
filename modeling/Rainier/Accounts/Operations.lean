import Rainier.Auth.SessionGuard
import Rainier.Cache.MemoryCache
import Rainier.Support.Program
import Rainier.Validation.Validator

/-! # What the account flows call

The flows are programs over the operations below: the session of the request, the clock,
the application's users, the store of enrolments, the cache, the hasher, and the events
they announce. Who the users are and what is random come from outside with each operation,
and so does its failure. A session is named by a number; a request that shares it sees what
another has written.
-/
namespace Rainier.Accounts
open Auth Cache

/-- A user's enrolment, as the application stores it. -/
structure TwoFactorRecord where
  secret : String
  confirmed : Bool
  recoveryCodes : List String
  lastUsedStep : Option ℕ
  deriving DecidableEq, Repr

inductive Announcement (U : Type) where
  | lockout (email : String) (ip : Option String) (retryAfter : ℕ)
  | failed (email : String) (ip : Option String)
  | login (user : U)
  | logout (user : U)
  | passwordUpdated (user : U)
  | twoFactorChallenged (userId : String)
  | twoFactorFailed (user : U)
  | recoveryCodeUsed (userId : String) (remaining : ℕ)
  | twoFactorEnabled (user : U)
  | twoFactorDisabled (user : U)

/-- Why a flow ends early: an error, or the messages of the fields that failed. -/
inductive Refusal where
  | error (e : Error)
  | invalid (errors : Validation.ValidationErrors)
  deriving DecidableEq

inductive Op (U : Type) where
  | session (id : ℕ)
  | store (id : ℕ) (session : Session)
  | now
  | generateSessionId
  | findById (id : String)
  | findByEmail (email : String)
  | setPasswordHash (user : U) (hash : String)
  | findTwoFactor (user : U)
  | saveTwoFactor (user : U) (record : Option TwoFactorRecord)
  | cacheGet (key : String)
  | cacheAdd (key value : String) (ttl : Option ℕ)
  | cacheIncrement (key : String) (by' : ℤ)
  | cacheForget (key : String)
  | verify (password hash : String)
  | dummyVerify (password : String)
  | hash (password : String)
  | generateSecret
  | generateCodes (count : ℕ)
  | announce (event : Announcement U)

variable {U : Type}

/-- Callers of `set_password_hash` and of `add` may go on after a failure, so it is an answer. -/
def Op.Answer : Op U → Type
  | session _ => Option Session
  | store _ _ => Unit
  | now => ℕ
  | generateSessionId => String
  | findById _ => Option U
  | findByEmail _ => Option U
  | setPasswordHash _ _ => Except Refusal Unit
  | findTwoFactor _ => Option TwoFactorRecord
  | saveTwoFactor _ _ => Unit
  | cacheGet _ => Option String
  | cacheAdd _ _ _ => Except Refusal Bool
  | cacheIncrement _ _ => ℤ
  | cacheForget _ => Bool
  | verify _ _ => Bool
  | dummyVerify _ => Unit
  | hash _ => String
  | generateSecret => String
  | generateCodes _ => List String
  | announce _ => Unit

/-- The operation is one of the cache. -/
def Op.usesCache : Op U → Bool
  | cacheGet _ | cacheAdd _ _ _ | cacheIncrement _ _ | cacheForget _ => true
  | _ => false

/-- What an operation meets: the time that passes before it, its failure if it has one, and
what it takes from outside. -/
structure Outside (U : Type) where
  delay : ℕ
  fails : Option Error
  user : Option U
  text : String
  codes : List String

/-- What the operations work on. Enrolments are kept by the identifier of their user. -/
structure World where
  clock : ℕ
  sessions : ℕ → Option Session
  cache : MemoryCache
  records : String → Option TwoFactorRecord

abbrev Flow (U α : Type) := Program (Op U) Op.Answer Refusal α

abbrev Trace (U : Type) := List (Program.Entry (Op U) Op.Answer Refusal)

/-- An operation that may fail, and its effect when it does not. -/
def Outside.attempt {α : Type} (x : Outside U) (w : World) (done : Except Refusal α × World) : Except Refusal α × World :=
  match x.fails with
  | some e => (.error (.error e),w)
  | none => done

theorem Outside.attempt_of_none {α : Type} {x : Outside U} (h : x.fails = none) (w : World) (done : Except Refusal α × World) :
    x.attempt w done = done := by
  rw [attempt,h]

variable [Authenticatable U]

/-- One operation. The store of users finds nobody under an identifier that is not theirs. -/
def operate (verify : String → String → Bool) (x : Outside U) (w : World) : (o : Op U) → Except Refusal o.Answer × World
  | .session id => (.ok (w.sessions id),w)
  | .store id session => (.ok (),{ w with sessions := Function.update w.sessions id (some session) })
  | .now => (.ok w.clock,w)
  | .generateSessionId => (.ok x.text,w)
  | .findById id => x.attempt w (.ok (x.user.filter fun user => authIdentifier user = id),w)
  | .findByEmail _ => x.attempt w (.ok x.user,w)
  | .setPasswordHash _ _ => (.ok (x.attempt w (.ok (),w)).1,w)
  | .findTwoFactor user => x.attempt w (.ok (w.records (authIdentifier user)),w)
  | .saveTwoFactor user record =>
    x.attempt w (.ok (),{ w with records := Function.update w.records (authIdentifier user) record })
  | .cacheGet key => x.attempt w (.ok (MemoryCache.get w.clock w.cache key).1,{ w with cache := (MemoryCache.get w.clock w.cache key).2 })
  | .cacheAdd key value ttl =>
    let done := x.attempt w (.ok (MemoryCache.add w.clock w.cache key value ttl).1,
      { w with cache := (MemoryCache.add w.clock w.cache key value ttl).2 })
    (.ok done.1,done.2)
  | .cacheIncrement key by' =>
    x.attempt w ((MemoryCache.increment w.clock w.cache key by').1.mapError .error,
      { w with cache := (MemoryCache.increment w.clock w.cache key by').2 })
  | .cacheForget key =>
    x.attempt w (.ok (MemoryCache.forget w.cache key).1,{ w with cache := (MemoryCache.forget w.cache key).2 })
  | .verify password hash => (.ok (verify password hash),w)
  | .dummyVerify _ => (.ok (),w)
  | .hash _ => x.attempt w (.ok x.text,w)
  | .generateSecret => (.ok x.text,w)
  | .generateCodes _ => (.ok x.codes,w)
  | .announce _ => (.ok (),w)

/-- Time passes, and the operation is performed. -/
def handle (verify : String → String → Bool) (x : Outside U) (w : World) (o : Op U) : Except Refusal o.Answer × World :=
  operate verify x { w with clock := w.clock + x.delay } o

section Frame
variable {verify : String → String → Bool} {x : Outside U} {w : World} {o : Op U}

/-- Only time passes by itself. -/
theorem handle_clock : (handle verify x w o).2.clock = w.clock + x.delay := by
  cases o <;> simp only [handle,operate,Outside.attempt] <;> first | rfl | (split <;> rfl)

theorem handle_cache (h : o.usesCache = false) : (handle verify x w o).2.cache = w.cache := by
  cases o with
  | cacheGet key => cases h
  | cacheAdd key value ttl => cases h
  | cacheIncrement key by' => cases h
  | cacheForget key => cases h
  | _ => simp only [handle,operate,Outside.attempt] <;> first | rfl | (split <;> rfl)

/-- A record changes when it is saved. -/
theorem handle_records {userId : String} (h : ∀ user record, o = .saveTwoFactor user record → authIdentifier user ≠ userId) :
    (handle verify x w o).2.records userId = w.records userId := by
  cases o with
  | saveTwoFactor user record =>
    simp only [handle,operate,Outside.attempt]
    split
    · rfl
    · exact Function.update_of_ne (h user record rfl).symm _ _
  | _ => simp only [handle,operate,Outside.attempt] <;> first | rfl | (split <;> rfl)

end Frame

end Rainier.Accounts
