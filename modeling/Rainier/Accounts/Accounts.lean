import Rainier.Accounts.Operations
import Rainier.Cache.RateLimit
import Rainier.Mfa.Recovery
import Rainier.Mfa.Totp

/-! # The account flows

The flows an application mounts, each a program over the operations: the limiter, the guard
on a session, and what is done with a password.
-/
namespace Rainier.Accounts
open Auth Cache Mfa

class AccountUser (U : Type) extends Authenticatable U where
  email : U → String

instance : AccountUser Account := ⟨fun account => account.id⟩

/-- `Features`, as far as the flows below read them; durations are in nanoseconds. -/
structure Features where
  twoFactor : Bool
  twoFactorAttempts : ℕ
  twoFactorTimeout : ℕ
  recoveryCodes : ℕ
  maxLoginAttempts : ℕ
  loginDecay : ℕ
  passwordMinLength : ℕ

def Features.default : Features where
  twoFactor := false
  twoFactorAttempts := 5
  twoFactorTimeout := Duration.fromSecs (5 * 60)
  recoveryCodes := 8
  maxLoginAttempts := 5
  loginDecay := Duration.fromSecs 60
  passwordMinLength := 8

/-- What the flows are configured with, and the functions they get from elsewhere. -/
structure Accounts (Secret : Type) where
  features : Features
  twoFactor : Option (Totp Secret)
  fromBase32 : String → Except Error Secret
  provisioningUri : String → String → String
  /-- The digest recovery codes are stored under. -/
  digest : String → String
  needsRehash : String → Bool
  toLowercase : String → String
  formats : Validation.Formats Unit
  home : String
  twoFactorPage : String

/-- A request, as the flows read it. -/
structure Request where
  session : ℕ
  all : Json
  ip : Option String
  expectsJson : Bool

inductive Response where
  | json (status : ℕ) (body : List (String × Json))
  | noContent
  | redirect (target : String)
  /-- Where the form came from. -/
  | back
  | tooMany (message : String) (retryAfter : ℕ)

/-! ## The operations by name -/

section Operations
variable {U : Type}

def session (id : ℕ) : Flow U (Option Session) := .perform (Op.session id)
def store (id : ℕ) (session : Session) : Flow U Unit := .perform (Op.store id session)
def clock : Flow U ℕ := .perform Op.now
def generateSessionId : Flow U String := .perform Op.generateSessionId
def findById (id : String) : Flow U (Option U) := .perform (Op.findById id)
def findByEmail (email : String) : Flow U (Option U) := .perform (Op.findByEmail email)
def setPasswordHash (user : U) (hash : String) : Flow U (Except Refusal Unit) := .perform (Op.setPasswordHash user hash)
def findTwoFactor (user : U) : Flow U (Option TwoFactorRecord) := .perform (Op.findTwoFactor user)
def saveTwoFactor (user : U) (record : Option TwoFactorRecord) : Flow U Unit := .perform (Op.saveTwoFactor user record)
def cacheGet (key : String) : Flow U (Option String) := .perform (Op.cacheGet key)
def cacheAdd (key value : String) (ttl : Option ℕ) : Flow U (Except Refusal Bool) := .perform (Op.cacheAdd key value ttl)
def cacheIncrement (key : String) (by' : ℤ) : Flow U ℤ := .perform (Op.cacheIncrement key by')
def cacheForget (key : String) : Flow U Bool := .perform (Op.cacheForget key)
def verify (password hash : String) : Flow U Bool := .perform (Op.verify password hash)
def dummyVerify (password : String) : Flow U Unit := .perform (Op.dummyVerify password)
def hashPassword (password : String) : Flow U String := .perform (Op.hash password)
def generateSecret : Flow U String := .perform Op.generateSecret
def generateCodes (count : ℕ) : Flow U (List String) := .perform (Op.generateCodes count)
def announce (event : Announcement U) : Flow U Unit := .perform (Op.announce event)

/-- `now()`: the Unix time. -/
def now : Flow U ℕ := do
  let t ← clock
  return t / Duration.fromSecs 1

def refuse {α : Type} (e : Error) : Flow U α := .error (.error e)

def invalid {α : Type} (errors : Validation.ValidationErrors) : Flow U α := .error (.invalid errors)

end Operations

/-! ## The limiter -/

section Limiter
variable {U : Type} (l : CacheRateLimiter) (key : String)

def hit (window : ℕ) : Flow U Hit := do
  let opened ← .lift (← cacheAdd (l.counter key) "0" (some window))
  let endsAt ←
    if opened then do
      let endsAt := (CacheRateLimiter.nowMillis (← clock) + Duration.asMillis window % 2 ^ 64) % 2 ^ 64
      -- whether this is written or not, the window has its end
      let _ ← cacheAdd (l.deadline key) (toString endsAt) (some window)
      pure (some endsAt)
    else do
      pure (CacheRateLimiter.readMillis (← cacheGet (l.deadline key)))
  let count ← cacheIncrement (l.counter key) 1
  return ⟨(max count 0).toNat % 2 ^ 32,CacheRateLimiter.remaining (← clock) endsAt window⟩

def peek : Flow U (Option Hit) := do
  match ← cacheGet (l.counter key) with
  | none => return none
  | some raw =>
    let count := (Text.parseUInt (2 ^ 32 - 1) (Text.trim raw)).getD 0
    let endsAt := CacheRateLimiter.readMillis (← cacheGet (l.deadline key))
    return some ⟨count,CacheRateLimiter.remaining (← clock) endsAt 0⟩

def clear : Flow U Unit := do
  let _ ← cacheForget (l.counter key)
  let _ ← cacheForget (l.deadline key)
  return ()

def tooMany (message : String) (retryAfter : ℕ) : Response :=
  .tooMany message (max ((Duration.asMillis retryAfter + 999) / 1000) 1)

end Limiter

def loginLimiter : CacheRateLimiter := ⟨"login-attempts:"⟩

def twoFactorLimiter : CacheRateLimiter := ⟨"two-factor-attempts:"⟩

/-! ## Input and output -/

section Forms
variable {Secret : Type} (accounts : Accounts Secret)

def normaliseEmail (email : String) : String := accounts.toLowercase (Text.trim email)

def fieldOf (input : Json) (key : String) : Option Json :=
  match input with
  | .object fields => Json.field fields key
  | _ => none

/-- The submitted fields, with `email` already normalised. -/
def input (request : Request) : Json :=
  match request.all, fieldOf request.all "email" with
  | .object fields, some (.string email) => .object (Json.insert fields "email" (.string (normaliseEmail accounts email)))
  | all, _ => all

def string (input : Json) (key : String) : String :=
  match fieldOf input key with
  | some (.string value) => value
  | some .null | none => ""
  | some other => Json.write accounts.formats.numberText other

/-- `request.input`: a scalar as text. -/
def scalar (request : Request) (key : String) : Option String :=
  match fieldOf request.all key with
  | some (.string value) => some value
  | some (.number n) => some (Json.writeNumber accounts.formats.numberText n)
  | some (.bool b) => some (toString b)
  | _ => none

def validate {U : Type} (rules : List (String × List (Validation.Rule Unit))) (input : Json) : Flow U Unit :=
  match Validation.Validator.validate accounts.formats (.fromRules rules) input with
  | .ok _ => pure ()
  | .error errors => invalid errors

def respond (request : Request) (status : ℕ) (body : List (String × Json)) (target : String) : Response :=
  if request.expectsJson then .json status body else if target = "back" then .back else .redirect target

end Forms

/-! ## The guard -/

section Guard
variable {U Secret : Type} [AccountUser U] (accounts : Accounts Secret)

/-- `guard.user`. -/
def guardUser (request : Request) : Flow U (Option U) := do
  match ← session request.session with
  | none => return none
  | some session =>
    match session.string accounts.formats.numberText authKey with
    | none => return none
    | some id => findById id

/-- `guard.login`. -/
def guardLogin (request : Request) (user : U) : Flow U Unit := do
  let fresh ← generateSessionId
  match SessionGuard.login user fresh (← session request.session) with
  | (.ok _,some session) => store request.session session
  | (.error e,_) => refuse e
  | (.ok _,none) => return ()

/-- `guard.logout`. -/
def guardLogout (request : Request) : Flow U Unit := do
  let fresh ← generateSessionId
  match SessionGuard.logout fresh (← session request.session) with
  | some session => store request.session session
  | none => return ()

def currentUser (request : Request) : Flow U U := do
  match ← guardUser accounts request with
  | some user => return user
  | none => refuse (.unauthenticated "Unauthenticated.")

/-- Log a fully authenticated user in and say so: the last step of every way in. -/
def completeLogin (request : Request) (user : U) : Flow U Response := do
  guardLogin request user
  announce (.login user)
  return respond request 200 [("authenticated",.bool true)] accounts.home

def logout (request : Request) : Flow U Response := do
  let user ← guardUser accounts request
  guardLogout request
  match user with
  | some user => announce (.logout user)
  | none => pure ()
  return if request.expectsJson then .noContent else .redirect "/"

end Guard

/-! ## Passwords -/

section Passwords

/-- Where the session records that the password was confirmed. -/
def confirmedAt : String := "auth.password_confirmed_at"

/-- A number a session holds, read as an `i64`. -/
def i64Of : Option Json → Option ℤ
  | some (.number (.posInt n)) => if n < 2 ^ 63 then some n else none
  | some (.number (.negInt n)) => some (-1 - n)
  | _ => none

/-- How long ago the password was confirmed, in seconds; a clock that has gone back says now. -/
def confirmedAgo (now : ℕ) (session : Option Session) : Option ℕ :=
  (session.bind fun s => i64Of (s.value confirmedAt)).map fun at' =>
    (max (min MemoryCache.i64Max ((now : ℤ) - at')) 0).toNat

/-- Whether there is a confirmation inside the window, which is in nanoseconds. -/
def isConfirmed (window now : ℕ) (session : Option Session) : Bool :=
  (confirmedAgo now session).any fun ago => Duration.fromSecs ago ≤ window

/-- Fifteen minutes. -/
def recently : ℕ := Duration.fromSecs 900

variable {U Secret : Type}

def markConfirmed (request : Request) : Flow U Unit := do
  match ← session request.session with
  | none => refuse (.internal "confirming a password needs the `session` middleware")
  | some session => store request.session (session.put confirmedAt (.number (.posInt (← now))))

def requireConfirmedPassword (request : Request) : Flow U Unit := do
  let current ← session request.session
  if isConfirmed recently (← now) current then return ()
  else refuse ⟨"Please confirm your password.",none⟩

variable [AccountUser U] (accounts : Accounts Secret)

def confirmPassword (request : Request) : Flow U Response := do
  let user ← currentUser accounts request
  let password := (scalar accounts request "password").getD ""
  match authPasswordHash user with
  | none => refuse (.badRequest "This account does not sign in with a password.")
  | some hash =>
    if !(← verify password hash) then invalid [("password",["That password is not correct."])]
    else
      markConfirmed request
      return if request.expectsJson then .noContent else .back

def passwordRules : List (Validation.Rule Unit) :=
  [.required,.string,.min (F64.ofNat accounts.features.passwordMinLength),.confirmed]

/-- Whether this is the user's password. -/
def currentPassword (user : U) (password : String) : Flow U Bool :=
  match authPasswordHash user with
  | some hash => verify password hash
  | none => pure false

/-- A new id for the session of the request, if it has one. -/
def regenerate (request : Request) : Flow U Unit := do
  match ← session request.session with
  | some session => store request.session (session.regenerate (← generateSessionId))
  | none => return ()

def updatePassword (request : Request) : Flow U Response := do
  let user ← currentUser accounts request
  let input := input accounts request
  validate accounts [("current_password",[.required,.string]),("password",passwordRules accounts)] input
  let currentOk ← currentPassword user (string accounts input "current_password")
  if !currentOk then invalid [("current_password",["That password is not correct."])]
  else
    let hash ← hashPassword (string accounts input "password")
    .lift (← setPasswordHash user hash)
    -- a reset link in an old email must not be able to undo this
    let _ ← cacheForget ("password-reset:" ++ authIdentifier user)
    regenerate request
    announce (.passwordUpdated user)
    return respond request 200 [("status",.string "password-updated")] "back"

end Passwords

end Rainier.Accounts
