import Rainier.Support.Json
import Rainier.OAuth.Redirect
import Rainier.OAuth.Scope
import Rainier.OAuth.Store

/-! # The authorization server

The checks of the token endpoint and of the authorization endpoint, as the source
makes them between its calls to the store. The clock, the store and the sealer enter
as what they answered; the hasher and the S256 digest are parameters.
-/
namespace Rainier.OAuth
open Rainier

structure Lifetimes where
  accessToken : ℕ := Duration.fromSecs (60 * 60)
  refreshToken : ℕ := Duration.fromSecs (30 * 24 * 60 * 60)
  authCode : ℕ := Duration.fromSecs (10 * 60)
  deriving DecidableEq, Repr

structure AuthorizationServer where
  /-- The text of a JSON number. -/
  numberText : JsonNumber → String
  /-- `Hasher::verify`, of a secret against a hash. -/
  verify : String → String → Bool
  /-- The URL-safe base64 of a verifier's SHA-256. -/
  s256 : String → String
  scopes : Scopes
  passwordGrant : Bool := false
  lifetimes : Lifetimes := {}
  rotateRefreshTokens : Bool := true
  requirePkceForPublicClients : Bool := true
  allowPlainPkce : Bool := true

/-- The inputs of a request: its body, its query, and what its `Authorization` header
says in the Basic scheme. -/
structure Request where
  body : List (String × Json)
  query : List (String × Json)
  basic : Option (String × String)
  deriving DecidableEq

structure AuthorizationRequest where
  clientId : String
  clientName : String
  redirectUri : Option String
  finalRedirectUri : String
  state : Option String
  scopes : List String
  codeChallenge : Option String
  codeChallengeMethod : Option String
  deriving DecidableEq, Repr

/-- RFC 7636's character set and length. -/
def isPkceString (value : String) : Bool :=
  43 ≤ (Text.asBytes value).length && (Text.asBytes value).length ≤ 128 &&
    value.toList.all fun c => c.isAlphanum || "-._~".toList.contains c

/-- Form-style percent-encoding, spaces as `+`. -/
def encode (value : String) : String :=
  String.join ((Text.asBytes value).map fun b =>
    let c := Char.ofNat b.toNat
    if c.isAlphanum || "-_.*".toList.contains c then String.singleton c
    else if c = ' ' then "+"
    else "%" ++ String.ofList [(b.toNat / 16).digitChar.toUpper,(b.toNat % 16).digitChar.toUpper])

def appendQuery (uri : String) (pairs : List (String × String)) : String :=
  match pairs with
  | [] => uri
  | pairs =>
    let encoded := pairs.map fun p => encode p.1 ++ "=" ++ encode p.2
    uri ++ (if uri.toList.contains '?' then "&" else "?") ++ String.intercalate "&" encoded

namespace AuthorizationServer
variable (srv : AuthorizationServer)

/-- A parameter as text, trimmed, absent when empty. -/
def scalar (value : Option Json) : Option String :=
  let text := match value with
    | some (.string s) => some (Text.trim s)
    | some (.number n) => some (srv.numberText n)
    | some (.bool b) => some (if b then "true" else "false")
    | _ => none
  text.filter (· ≠ "")

def param (r : Request) (name : String) : Option String := srv.scalar (r.body.lookup name)

def query (r : Request) (name : String) : Option String := srv.scalar (r.query.lookup name)

/-- The client a request names and the secret it gives. -/
def credentials (r : Request) : Except OAuthError (String × String) :=
  match (srv.param r "client_id").or (r.basic.map Prod.fst) with
  | some id => .ok (id,((srv.param r "client_secret").or (r.basic.map Prod.snd)).getD "")
  | none => .error (.invalidRequest "client_id")

/-- `active_client`: a revoked one is treated as unknown. -/
def activeClient (found : Option Client) : Option Client := found.filter (!·.revoked)

/-- The rest of `authenticate_client`, once the store has answered. -/
def authenticateClient (grant : Grant) (secret : String) (found : Option Client) : Except OAuthError Client :=
  match activeClient found with
  | none => .error .invalidClient
  | some client =>
    if !client.supportsGrant grant then .error .unauthorizedClient
    else if client.isConfidential then
      if secret = "" then .error (.invalidRequest "client_secret")
      else if !srv.verify secret (client.secretHash.getD "") then .error .invalidClient
      else .ok client
    else .ok client

/-- The challenge a verifier answers, under the method of the code. -/
def computeChallenge (method verifier : String) : Except OAuthError String :=
  if method = "S256" then .ok (srv.s256 verifier)
  else if method = "plain" ∧ srv.allowPlainPkce = true then .ok verifier
  else .error .serverError

def checkRedirectUri (recorded given : Option String) : Except OAuthError Unit :=
  match recorded, given with
  | some _, none => .error (.invalidRequest "redirect_uri")
  | expected, some given =>
    if expected ≠ some given then .error ((OAuthError.invalidRequest "redirect_uri").withHint "Invalid redirect URI")
    else .ok ()
  | none, none => .ok ()

def checkVerifier (payload : AuthCodePayload) (verifier : Option String) : Except OAuthError Unit :=
  match payload.codeChallenge, verifier with
  | none, some _ => .error ((OAuthError.invalidRequest "code_challenge").withHint
      "code_verifier received when no code_challenge is present")
  | some challenge, verifier => do
    let verifier ← match verifier with
      | some verifier => .ok verifier
      | none => .error (.invalidRequest "code_verifier")
    if !isPkceString verifier then .error ((OAuthError.invalidRequest "code_verifier").withHint
      "Code Verifier must follow the specifications of RFC-7636.")
    else
      let computed ← srv.computeChallenge (payload.codeChallengeMethod.getD "plain") verifier
      if computed ≠ challenge then .error (.invalidGrant "Failed to verify `code_verifier`.")
      else .ok ()
  | none, none => .ok ()

/-- `authorization_code` between authenticating the client and spending the code. -/
def checkCode (now : ℤ) (opened : String → Option Sealed) (r : Request) (client : Client) :
    Except OAuthError (AuthCodePayload × List String) := do
  let text ← match srv.param r "code" with
    | some text => .ok text
    | none => .error (.invalidRequest "code")
  let payload ← match opened text with
    | some (.code payload) => .ok payload
    | _ => .error (.invalidGrant "Cannot validate the provided authorization code")
  if payload.expireTime < timestamp now then .error (.invalidGrant "Authorization code has expired")
  else if payload.clientId ≠ client.id then .error ((OAuthError.invalidRequest "code").withHint
    "Authorization code was not issued to this client")
  else
    checkRedirectUri payload.redirectUri (srv.param r "redirect_uri")
    srv.checkVerifier payload (srv.param r "code_verifier")
    let scopes ← srv.scopes.validate (some (joinSpaces payload.scopes))
    return (payload,srv.scopes.finalize scopes .authorizationCode client)

/-- `refresh_token` between authenticating the client and spending the token. -/
def checkRefresh (now : ℤ) (opened : String → Option Sealed) (r : Request) (client : Client) :
    Except OAuthError (RefreshTokenPayload × List String) := do
  let text ← match srv.param r "refresh_token" with
    | some text => .ok text
    | none => .error (.invalidRequest "refresh_token")
  let old ← match opened text with
    | some (.refresh old) => .ok old
    | _ => .error (.invalidRefreshToken "Cannot decrypt the refresh token")
  if old.clientId ≠ client.id then .error (.invalidRefreshToken "Token is not linked to client")
  else if old.expireTime < timestamp now then .error (.invalidRefreshToken "Token has expired")
  else
    let scopes ← srv.scopes.validate (some ((srv.param r "scope").getD (joinSpaces old.scopes)))
    match scopes.find? (!old.scopes.contains ·) with
    | some extra => .error (.invalidScope extra)
    | none => return (old,srv.scopes.finalize scopes .refreshToken client)

/-- `password`, with what the resource owners answered. -/
def checkPassword (r : Request) (client : Client) (owner : Option String) :
    Except OAuthError (String × List String) := do
  let scopes ← srv.scopes.validate (srv.param r "scope")
  if (srv.param r "username").isNone then .error (.invalidRequest "username")
  else if (srv.param r "password").isNone then .error (.invalidRequest "password")
  else match owner with
    | none => .error .invalidCredentials
    | some user => return (user,srv.scopes.finalize scopes .password client)

def checkClientCredentials (r : Request) (client : Client) : Except OAuthError (List String) := do
  if !client.isConfidential then .error .invalidClient
  else
    let scopes ← srv.scopes.validate (srv.param r "scope")
    return srv.scopes.finalize scopes .clientCredentials client

/-- The grant a token request asks for, where the server answers it. -/
def grantOf (r : Request) : Except OAuthError Grant :=
  match srv.param r "grant_type" with
  | some name =>
    if name = Grant.authorizationCode.name then .ok .authorizationCode
    else if name = Grant.refreshToken.name then .ok .refreshToken
    else if name = Grant.password.name ∧ srv.passwordGrant = true then .ok .password
    else if name = Grant.clientCredentials.name then .ok .clientCredentials
    else .error .unsupportedGrantType
  | none => .error .unsupportedGrantType

/-! The authorization endpoint. -/

/-- The redirect URI an authorization answers to: the one named, or the client's only
one. -/
def finalRedirectUri (given : Option String) (client : Client) : Except OAuthError String :=
  match given with
  | some uri => if redirectUriAllowed uri client.redirectUris then .ok uri else .error .invalidClient
  | none => match client.redirectUris with
    | [only] => .ok only
    | _ => .error .invalidClient

/-- The challenge of an authorization request and its method. -/
def challengeOf (r : Request) (client : Client) : Except OAuthError (Option String × Option String) :=
  match srv.query r "code_challenge" with
  | some challenge =>
    let method := (srv.query r "code_challenge_method").getD "plain"
    if !(method = "S256" || (method = "plain" && srv.allowPlainPkce)) then
      .error ((OAuthError.invalidRequest "code_challenge_method").withHint
        ("Code challenge method must be one of " ++ (if srv.allowPlainPkce then "`S256`, `plain`" else "`S256`")))
    else if !isPkceString challenge then
      .error ((OAuthError.invalidRequest "code_challenge").withHint
        "Code challenge must follow the specifications of RFC-7636.")
    else .ok (some challenge,some method)
  | none =>
    if srv.requirePkceForPublicClients && !client.isConfidential then
      .error ((OAuthError.invalidRequest "code_challenge").withHint
        "Code challenge must be provided for public clients")
    else .ok (none,none)

/-- `validate_authorization_request`, with what the store found under the request's
client. -/
def validateAuthorizationRequest (r : Request) (find : String → Option Client) :
    Except OAuthError AuthorizationRequest := do
  if srv.query r "response_type" ≠ some "code" then .error .unsupportedGrantType
  else
    let id ← match srv.query r "client_id" with
      | some id => .ok id
      | none => .error (.invalidRequest "client_id")
    let client ← match activeClient (find id) with
      | some client => .ok client
      | none => .error .invalidClient
    if !client.supportsGrant .authorizationCode then .error .unauthorizedClient
    else
      let redirectUri := srv.query r "redirect_uri"
      let final ← finalRedirectUri redirectUri client
      let state := srv.query r "state"
      let back := fun e : OAuthError => e.redirectingTo (appendQuery final (state.toList.map ("state",·)))
      let scopes ← (srv.scopes.validate (srv.query r "scope")).mapError back
      let (challenge,method) ← (srv.challengeOf r client).mapError back
      return ⟨client.id,client.name,redirectUri,final,state,scopes,challenge,method⟩

end AuthorizationServer
end Rainier.OAuth
