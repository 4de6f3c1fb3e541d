import Rainier.Accounts.Accounts

/-! # Two-factor authentication

A right password of a user with a confirmed enrolment leaves a pending login in the session,
and `two_factor_challenge` turns it into a session for a code or a recovery code. The record
of the enrolment is read, changed and written back as a whole; a time step is claimed in the
cache before its code is accepted.
-/
namespace Rainier.Accounts
open Auth Cache Mfa

/-- Where a pending login waits for its second factor. -/
def pendingKey : String := "_accounts.two_factor.pending"

structure Pending where
  id : String
  expiresAt : ℕ
  deriving DecidableEq, Repr

def Pending.toJson (p : Pending) : Json :=
  .object [("expires_at",.number (.posInt p.expiresAt)),("id",.string p.id)]

/-- A struct is read from an object, or from an array of its fields. -/
def Pending.ofJson : Json → Option Pending
  | .object fields =>
    match Json.field fields "id", Json.field fields "expires_at" with
    | some (.string id), some (.number (.posInt expiresAt)) => some ⟨id,expiresAt⟩
    | _, _ => none
  | .array [.string id,.number (.posInt expiresAt)] => some ⟨id,expiresAt⟩
  | _ => none

/-- The pending login a session holds. -/
def pendingIn (session : Session) : Option Pending := (session.value pendingKey).bind Pending.ofJson

/-- The cache key a time step is claimed under. -/
def claimKey (userId : String) (step : ℕ) : String := "two-factor-step:" ++ userId ++ ":" ++ toString step

section
variable {U Secret : Type} [AccountUser U] (accounts : Accounts Secret)

/-- `self.two_factor()`. -/
def configured : Flow U (Totp Secret) :=
  match accounts.twoFactor with
  | some totp => pure totp
  | none => refuse (.internal "two-factor authentication has no `two_factor_with`")

/-- After a right password: a challenge, if this user has a confirmed enrolment. -/
def beginTwoFactor (request : Request) (user : U) : Flow U (Option Response) := do
  if !accounts.features.twoFactor then return none
  else
    let _ ← configured accounts
    let record ← findTwoFactor user
    if !record.any TwoFactorRecord.confirmed then return none
    else
      match ← session request.session with
      | none => refuse (.internal "a two-factor login needs the session middleware")
      | some session =>
        let session := session.regenerate (← generateSessionId)
        let expiresAt := ((← now) + accounts.features.twoFactorTimeout / Duration.fromSecs 1) % 2 ^ 64
        store request.session (session.put pendingKey (Pending.toJson ⟨authIdentifier user,expiresAt⟩))
        announce (.twoFactorChallenged (authIdentifier user))
        return some (respond request 200 [("two_factor",.bool true)] accounts.twoFactorPage)

/-- Check a code, refuse a replay, and record the step; `none` when it is not accepted. -/
def acceptCode (totp : Totp Secret) (userId : String) (record : TwoFactorRecord) (code : String) :
    Flow U (Option TwoFactorRecord) := do
  let secret ← .lift ((accounts.fromBase32 record.secret).mapError Refusal.error)
  match totp.verifyAt secret code (← now) record.lastUsedStep with
  | none => return none
  | some step =>
    let claimed ← .lift (← cacheAdd (claimKey userId step) "1" (some (Duration.fromSecs (5 * 60))))
    if claimed then return some { record with lastUsedStep := some step } else return none

def forgetPending (request : Request) : Flow U Unit := do
  match ← session request.session with
  | some session => store request.session (session.forget pendingKey)
  | none => return ()

def notAccepted : Validation.ValidationErrors := [("code",["The two-factor code was not valid."])]

/-- The pending login that has not expired. -/
def livePending (session : Session) : Flow U (Option Pending) := do
  match pendingIn session with
  | none => return none
  | some pending => if (← now) ≤ pending.expiresAt then return some pending else return none

/-- Either of the two factors; the record with what was used taken out. -/
def acceptFactor (totp : Totp Secret) (userId : String) (record : TwoFactorRecord) (code recoveryCode : String) :
    Flow U (Option TwoFactorRecord) := do
  if code ≠ "" then acceptCode accounts totp userId record code
  else if recoveryCode ≠ "" then
    let (spent,left) := Recovery.consume accounts.digest record.recoveryCodes recoveryCode
    if spent then
      announce (.recoveryCodeUsed userId left.length)
      return some { record with recoveryCodes := left }
    else return none
  else return none

/-- The part of the challenge after the limiter has let it through. -/
def checkFactor (request : Request) (user : U) (userId : String) : Flow U Response := do
  let input := input accounts request
  let totp ← configured accounts
  match (← findTwoFactor user).filter TwoFactorRecord.confirmed with
  | none =>
    -- turned off between the password and the code
    forgetPending request
    refuse (.unauthenticated "Please sign in again.")
  | some record =>
    match ← acceptFactor accounts totp userId record (string accounts input "code") (string accounts input "recovery_code") with
    | none =>
      let _ ← hit twoFactorLimiter userId accounts.features.loginDecay
      announce (.twoFactorFailed user)
      invalid notAccepted
    | some record =>
      saveTwoFactor user (some record)
      clear twoFactorLimiter userId
      forgetPending request
      completeLogin accounts request user

def twoFactorChallenge (request : Request) : Flow U Response := do
  match ← session request.session with
  | none => refuse (.internal "a two-factor login needs the session middleware")
  | some session =>
    match ← livePending session with
    | none =>
      forgetPending request
      refuse (.unauthenticated "There is no login waiting for a second factor. Please sign in again.")
    | some pending =>
      match ← findById pending.id with
      | none =>
        forgetPending request
        refuse (.unauthenticated "Please sign in again.")
      | some user =>
        match (← peek twoFactorLimiter pending.id).filter fun hit => accounts.features.twoFactorAttempts ≤ hit.count with
        | some hit => return tooMany "Too many two-factor attempts. Please try again later." hit.resetsIn
        | none => checkFactor accounts request user pending.id

/-! ## Enrolment -/

def enableTwoFactor (request : Request) : Flow U Response := do
  let user ← currentUser accounts request
  requireConfirmedPassword request
  let _ ← configured accounts
  if (← findTwoFactor user).any TwoFactorRecord.confirmed then
    refuse (.conflict "Two-factor authentication is already on. Turn it off before enrolling again.")
  else
    let secret ← generateSecret
    let codes ← generateCodes accounts.features.recoveryCodes
    saveTwoFactor user (some ⟨secret,false,codes.map (Recovery.hash accounts.digest),none⟩)
    return .json 201 [("secret",.string secret),("otpauth_url",.string (accounts.provisioningUri secret (AccountUser.email user))),
      ("recovery_codes",.array (codes.map .string))]

def confirmTwoFactor (request : Request) : Flow U Response := do
  let user ← currentUser accounts request
  let totp ← configured accounts
  match ← findTwoFactor user with
  | none => refuse (.conflict "Start enrolling first.")
  | some record =>
    if record.confirmed then refuse (.conflict "Two-factor authentication is already on.")
    else
      match ← acceptCode accounts totp (authIdentifier user) record (string accounts (input accounts request) "code") with
      | none => invalid notAccepted
      | some record =>
        saveTwoFactor user (some { record with confirmed := true })
        announce (.twoFactorEnabled user)
        return respond request 200 [("status",.string "two-factor-authentication-enabled")] "back"

def disableTwoFactor (request : Request) : Flow U Response := do
  let user ← currentUser accounts request
  requireConfirmedPassword request
  let _ ← configured accounts
  if (← findTwoFactor user).isSome then
    saveTwoFactor user none
    announce (.twoFactorDisabled user)
  return respond request 200 [("status",.string "two-factor-authentication-disabled")] "back"

def regenerateRecoveryCodes (request : Request) : Flow U Response := do
  let user ← currentUser accounts request
  requireConfirmedPassword request
  let _ ← configured accounts
  match ← findTwoFactor user with
  | none => refuse (.conflict "Two-factor authentication is not on.")
  | some record =>
    let codes ← generateCodes accounts.features.recoveryCodes
    saveTwoFactor user (some { record with recoveryCodes := codes.map (Recovery.hash accounts.digest) })
    return .json 200 [("recovery_codes",.array (codes.map .string))]

/-! ## Login -/

/-- The key failed logins are counted under. -/
def loginKey (email : String) (ip : Option String) : String := email ++ "|" ++ ip.getD ""

/-- A hash that was written under weaker parameters is replaced while the password is in hand. -/
def upgradeHash (user : U) (password : String) : Flow U Unit := do
  match (authPasswordHash user).filter accounts.needsRehash with
  | none => return ()
  | some _ =>
    let upgraded ← hashPassword password
    let _ ← setPasswordHash user upgraded
    return ()

/-- The password against the user that was found; as long for nobody as for somebody. -/
def checkPassword (user : Option U) (password : String) : Flow U Bool := do
  match user.bind authPasswordHash with
  | some hash => verify password hash
  | none =>
    dummyVerify password
    return false

/-- What is left to do when the password was right. -/
def passwordProven (request : Request) (key : String) (user : U) (password : String) : Flow U Response := do
  clear loginLimiter key
  upgradeHash accounts user password
  match ← beginTwoFactor accounts request user with
  | some challenge => return challenge
  | none => completeLogin accounts request user

def login (request : Request) : Flow U Response := do
  let input := input accounts request
  validate accounts [("email",[.required,.string]),("password",[.required,.string])] input
  let email := normaliseEmail accounts (string accounts input "email")
  let password := string accounts input "password"
  let key := loginKey email request.ip
  match (← peek loginLimiter key).filter fun hit => accounts.features.maxLoginAttempts ≤ hit.count with
  | some hit =>
    announce (.lockout email request.ip hit.resetsIn)
    return tooMany "Too many login attempts. Please try again later." hit.resetsIn
  | none =>
    let user ← findByEmail email
    let verified ← checkPassword user password
    match user.filter fun _ => verified with
    | none =>
      let _ ← hit loginLimiter key accounts.features.loginDecay
      announce (.failed email request.ip)
      invalid [("email",["These credentials do not match our records."])]
    | some user => passwordProven accounts request key user password

end

/-- A configuration for examples: texts stand for themselves, and a code is the number of its step. -/
def sample (features : Features) : Accounts Unit where
  features := features
  twoFactor := some ⟨6,30,1,fun _ step => String.ofList ((Nat.toDigits 10 (1000000 + step)).drop 1),by decide⟩
  fromBase32 _ := .ok ()
  provisioningUri _ _ := ""
  digest code := code
  needsRehash _ := false
  toLowercase := id
  formats := ⟨fun _ => none,fun _ _ => false,fun _ => "",fun _ => "",fun _ => ""⟩
  home := "/home"
  twoFactorPage := "/two-factor-challenge"

end Rainier.Accounts
