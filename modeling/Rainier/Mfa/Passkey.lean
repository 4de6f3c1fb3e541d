import Rainier.Mfa.Cose
import Rainier.Support.Base64
import Rainier.Support.JsonPath

/-! # Passkey registration and sign-in

A ceremony is two requests. Its state has the challenge, and the response of the browser is checked against
it: the client data, the authenticator data, and the signature over both.
-/
namespace Rainier.Mfa
open Cbor Json

/-- The crates that a relying party is built on: signatures, base64 and the JSON reader. -/
structure Crates extends Signatures where
  base64 : Base64
  parseJson : List UInt8 → Option Json

def flagUp : UInt8 := 0x01
def flagUv : UInt8 := 0x04
def flagBe : UInt8 := 0x08
def flagBs : UInt8 := 0x10
def flagAt : UInt8 := 0x40
def flagEd : UInt8 := 0x80

def maxCredentialId : ℕ := 1023

inductive UserVerification where
  | required | preferred | discouraged
  deriving DecidableEq, Repr

inductive AttestationPolicy where
  | lenient | strict
  deriving DecidableEq, Repr

structure PasskeyCredential where
  id : List UInt8
  publicKey : List UInt8
  signCount : ℕ
  userHandle : List UInt8
  transports : List String
  backupEligible : Bool
  backedUp : Bool
  aaguid : List UInt8
  attestation : String
  deriving DecidableEq, Repr

structure RegistrationState where
  challenge : List UInt8
  userHandle : List UInt8
  userVerification : UserVerification
  expiresAt : ℕ
  deriving DecidableEq, Repr

/-- An empty list of ids is a discoverable sign-in. -/
structure AuthenticationState where
  challenge : List UInt8
  allowed : List String
  userVerification : UserVerification
  expiresAt : ℕ
  deriving DecidableEq, Repr

structure RegistrationResponse where
  id : String
  rawId : String
  kind : String
  clientDataJson : String
  attestationObject : String
  transports : List String
  deriving DecidableEq, Repr

structure AuthenticationResponse where
  id : String
  rawId : String
  kind : String
  clientDataJson : String
  authenticatorData : String
  signature : String
  userHandle : Option String
  deriving DecidableEq, Repr

structure VerifiedAssertion where
  credentialId : List UInt8
  signCount : ℕ
  userVerified : Bool
  backupEligible : Bool
  backedUp : Bool
  deriving DecidableEq, Repr

def VerifiedAssertion.applyTo (verified : VerifiedAssertion) (credential : PasskeyCredential) : PasskeyCredential :=
  { credential with
    signCount := verified.signCount
    backupEligible := verified.backupEligible
    backedUp := verified.backedUp }

def malformed (why : String) : Error := .badRequest ("invalid passkey response: " ++ why)

def refused (why : String) : Error := .unauthorized ("passkey refused: " ++ why)

structure RelyingParty where
  id : String
  name : String
  origins : List String
  userVerification : UserVerification
  allowCrossOrigin : Bool
  attestation : AttestationPolicy
  algorithms : List CoseAlgorithm
  deriving DecidableEq, Repr

section

variable (c : Crates)

/-- `str::trim_end_matches` with an equals sign, and the URL-safe alphabet for the standard one. -/
def normalised (text : String) : String :=
  String.ofList ((text.toList.reverse.dropWhile (· = '=')).reverse.map fun symbol =>
    if symbol = '+' then '-' else if symbol = '/' then '_' else symbol)

def decode (text field : String) : Except Error (List UInt8) :=
  match c.base64.decode (normalised text) with
  | some bytes => .ok bytes
  | none => .error (.badRequest ("`" ++ field ++ "` is not base64url"))

/-- An `Option` that must be there. -/
def okOr {α : Type} (error : Error) : Option α → Except Error α
  | some a => .ok a
  | none => .error error

/-- A check that must hold. -/
def ensure (ok : Bool) (error : Error) : Except Error Unit := if ok then .ok () else .error error

theorem ensure_eq_ok {ok : Bool} {error : Error} {u : Unit} : ensure ok error = .ok u ↔ ok = true := by
  cases ok <;> simp [ensure]

theorem okOr_eq_ok {α : Type} {error : Error} {o : Option α} {a : α} : okOr error o = .ok a ↔ o = some a := by
  cases o <;> simp [okOr]

/-! ## What is in the authenticator data -/

structure AttestedCredential where
  aaguid : List UInt8
  id : List UInt8
  publicKey : List UInt8
  key : CoseKey

structure AuthenticatorData where
  rpIdHash : List UInt8
  flags : UInt8
  signCount : ℕ
  attested : Option AttestedCredential

namespace AuthenticatorData

/-- The attested credential, and the bytes after it. -/
def parseAttested (rest : List UInt8) : Except Error (AttestedCredential × List UInt8) := do
  ensure (18 ≤ rest.length) (malformed "attested credential data is truncated")
  let idLen := Bytes.fromBeBytes ((rest.drop 16).take 2)
  ensure (idLen ≠ 0 && idLen ≤ maxCredentialId && 18 + idLen ≤ rest.length) (malformed "a credential id of an impossible length")
  let afterId := rest.drop (18 + idLen)
  let (value,used) ← decodePrefix afterId
  let key ← CoseKey.fromValue c.toSignatures value
  return (⟨rest.take 16,(rest.drop 18).take idLen,afterId.take used,key⟩,afterId.drop used)

/-- What follows the credential is a map of extensions, or nothing. -/
def checkExtensions (flags : UInt8) (rest : List UInt8) : Except Error Unit :=
  if flags &&& flagEd ≠ 0 then do
    match ← Cbor.decode rest with
    | .map _ => return ()
    | _ => throw (malformed "extensions that are not a map")
  else ensure rest.isEmpty (malformed "trailing bytes in authenticator data")

def parse (bytes : List UInt8) : Except Error AuthenticatorData := do
  ensure (37 ≤ bytes.length) (malformed "authenticator data shorter than 37 bytes")
  let flags := bytes.getD 32 0
  let signCount := Bytes.fromBeBytes ((bytes.drop 33).take 4)
  if flags &&& flagAt ≠ 0 then do
    let (attested,rest) ← parseAttested c (bytes.drop 37)
    checkExtensions flags rest
    return ⟨bytes.take 32,flags,signCount,some attested⟩
  else do
    checkExtensions flags (bytes.drop 37)
    return ⟨bytes.take 32,flags,signCount,none⟩

end AuthenticatorData

/-! ## The checks of both ceremonies -/

def checkLive (now expiresAt : ℕ) : Except Error Unit :=
  ensure (now ≤ expiresAt) (refused "the passkey challenge has expired — start again")

def sameIds (kind id rawId : String) : Except Error (List UInt8) := do
  ensure (kind = "public-key") (malformed "a credential that is not `public-key`")
  let raw ← decode c rawId "rawId"
  let other ← decode c id "id"
  ensure (other = raw) (malformed "`id` and `rawId` disagree")
  return raw

namespace RelyingParty

variable (rp : RelyingParty)

/-- The origin of client data that has none is empty. -/
def checkClientData (bytes : List UInt8) (kind : String) (challenge : List UInt8) : Except Error Unit := do
  let data ← okOr (malformed "client data that is not JSON") (c.parseJson bytes)
  ensure (stringField data "type" = some kind) (refused ("client data that is not `" ++ kind ++ "`"))
  let text ← okOr (malformed "client data with no challenge") (stringField data "challenge")
  let echoed ← decode c text "challenge"
  ensure (echoed = challenge) (refused "the challenge does not match")
  let origin := (stringField data "origin").getD ""
  ensure (rp.origins.any (· = origin)) (refused ("the origin `" ++ origin ++ "` is not allowed"))
  ensure (valueField data "crossOrigin" ≠ some (.bool true) || rp.allowCrossOrigin) (refused "a cross-origin ceremony")

def checkAuthData (data : AuthenticatorData) (uv : UserVerification) : Except Error Unit := do
  ensure (data.rpIdHash = c.sha256 (Text.asBytes rp.id)) (refused "the passkey is for a different site")
  ensure (data.flags &&& flagUp ≠ 0) (refused "the user was not present")
  ensure (uv ≠ .required || data.flags &&& flagUv ≠ 0) (refused "the user was not verified")
  ensure (data.flags &&& flagBs = 0 || data.flags &&& flagBe ≠ 0) (malformed "backed up but not backup-eligible")

/-! ## Registration -/

/-- Self-attestation is signed by the key of the credential. -/
def checkStatement (format : String) (statement : Value) (authData clientDataHash : List UInt8) (key : CoseKey) :
    Except Error String :=
  let entries := statement.asMap.getD []
  if format = "none" then do
    ensure entries.isEmpty (refused "a `none` attestation with a statement")
    return "none"
  else if format = "packed" ∧ statement.getText "x5c" = none then do
    let alg := (statement.getText "alg").bind Value.asInt
    ensure (alg = some key.algorithm.id) (refused "a self-attestation whose algorithm is not the key's")
    let signature ← okOr (malformed "a packed attestation with no signature") ((statement.getText "sig").bind Value.asBytes)
    match key.verify c.toSignatures (authData ++ clientDataHash) signature with
    | .ok _ => return "packed"
    | .error _ => throw (refused "the self-attestation signature did not verify")
  else
    match rp.attestation with
    | .lenient => return "unverified:" ++ format
    | .strict => throw (refused ("`" ++ format ++ "` attestation is not accepted by this relying party"))

def finishRegistration (now : ℕ) (state : RegistrationState) (response : RegistrationResponse) :
    Except Error PasskeyCredential := do
  checkLive now state.expiresAt
  let rawId ← sameIds c response.kind response.id response.rawId
  let clientData ← decode c response.clientDataJson "clientDataJSON"
  rp.checkClientData c clientData "webauthn.create" state.challenge
  let object ← decode c response.attestationObject "attestationObject"
  let attestation ← Cbor.decode object
  let format ← okOr (malformed "an attestation object with no format") ((attestation.getText "fmt").bind Value.asText)
  let statement ← okOr (malformed "an attestation object with no statement")
    ((attestation.getText "attStmt").filter fun statement => statement.asMap.isSome)
  let authDataBytes ← okOr (malformed "an attestation object with no authenticator data")
    ((attestation.getText "authData").bind Value.asBytes)
  let authData ← AuthenticatorData.parse c authDataBytes
  rp.checkAuthData c authData state.userVerification
  let attested ← okOr (malformed "a registration with no attested credential") authData.attested
  ensure (rp.algorithms.contains attested.key.algorithm) (refused "the passkey uses an algorithm that was not offered")
  ensure (attested.id = rawId) (refused "the credential id does not match the response's")
  let attestation ← rp.checkStatement c format statement authDataBytes (c.sha256 clientData) attested.key
  return {
    id := attested.id
    publicKey := attested.publicKey
    signCount := authData.signCount
    userHandle := state.userHandle
    transports := response.transports
    backupEligible := authData.flags &&& flagBe ≠ 0
    backedUp := authData.flags &&& flagBs ≠ 0
    aaguid := attested.aaguid
    attestation := attestation }

/-! ## Sign-in -/

/-- An empty handle is no handle. -/
def userHandle (response : AuthenticationResponse) : Except Error (Option (List UInt8)) :=
  match response.userHandle with
  | none => .ok none
  | some handle => if handle = "" then .ok none else (decode c handle "userHandle").map some

def checkUser (state : AuthenticationState) (response : AuthenticationResponse) (credential : PasskeyCredential) :
    Except Error Unit := do
  match ← userHandle c response with
  | some handle => ensure (handle = credential.userHandle) (refused "the passkey belongs to a different user")
  | none => ensure (!state.allowed.isEmpty) (refused "a discoverable sign-in returned no user handle")

def finishAuthentication (now : ℕ) (state : AuthenticationState) (response : AuthenticationResponse)
    (credential : PasskeyCredential) : Except Error VerifiedAssertion := do
  checkLive now state.expiresAt
  let rawId ← sameIds c response.kind response.id response.rawId
  ensure (rawId = credential.id) (refused "the response is not from this credential")
  ensure (state.allowed.isEmpty || state.allowed.contains (c.base64.encode credential.id)) (refused "this credential was not asked for")
  checkUser c state response credential
  let clientData ← decode c response.clientDataJson "clientDataJSON"
  rp.checkClientData c clientData "webauthn.get" state.challenge
  let authDataBytes ← decode c response.authenticatorData "authenticatorData"
  let authData ← AuthenticatorData.parse c authDataBytes
  rp.checkAuthData c authData state.userVerification
  let signature ← decode c response.signature "signature"
  let key ← CoseKey.fromBytes c.toSignatures credential.publicKey
  key.verify c.toSignatures (authDataBytes ++ c.sha256 clientData) signature
  ensure (!((authData.signCount ≠ 0 || credential.signCount ≠ 0) && authData.signCount ≤ credential.signCount))
    (refused "the passkey's signature counter did not advance — it may have been cloned")
  return {
    credentialId := credential.id
    signCount := authData.signCount
    userVerified := authData.flags &&& flagUv ≠ 0
    backupEligible := authData.flags &&& flagBe ≠ 0
    backedUp := authData.flags &&& flagBs ≠ 0 }

end RelyingParty

end

end Rainier.Mfa
