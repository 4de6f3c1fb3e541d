import Rainier.Support.Text
import Rainier.Support.Time

/-! # What the authorization server keeps

Clients, the rows for access tokens, refresh tokens and codes, the payloads sealed
inside codes and refresh tokens, and the error a refusal is answered with. Instants
are nanoseconds from the epoch.
-/
namespace Rainier.OAuth
open Rainier

inductive Grant where
  | authorizationCode
  | refreshToken
  | password
  | clientCredentials
  | personalAccess
  deriving DecidableEq, Repr

/-- The name of a grant, in `grant_type` and in a client's allow-list. -/
def Grant.name : Grant → String
  | .authorizationCode => "authorization_code"
  | .refreshToken => "refresh_token"
  | .password => "password"
  | .clientCredentials => "client_credentials"
  | .personalAccess => "personal_access"

/-- The everything scope. -/
def everything : String := "*"

/-- Whether holding `held` grants `wanted`: exactly, by namespace, or by `*`. -/
def grants (held wanted : String) : Bool :=
  held = everything || held = wanted || (held.toList ++ [':']).isPrefixOf wanted.toList

def heldGrants (held : List String) (wanted : String) : Bool := held.any (grants · wanted)

structure Client where
  id : String
  name : String
  secretHash : Option String
  redirectUris : List String
  grantTypes : List String
  scopes : Option (List String)
  revoked : Bool
  deriving DecidableEq, Repr

namespace Client

/-- Whether it holds a secret; an empty hash is none. -/
def isConfidential (c : Client) : Bool := c.secretHash.any (· ≠ "")

def supportsGrant (c : Client) (g : Grant) : Bool := c.grantTypes.any (· = g.name)

def allowsScope (c : Client) (scope : String) : Bool :=
  match c.scopes with
  | none => true
  | some allowed => heldGrants allowed scope

end Client

structure AccessTokenRecord where
  id : String
  userId : Option String
  clientId : String
  scopes : List String
  revoked : Bool
  createdAt : ℤ
  expiresAt : ℤ
  deriving DecidableEq, Repr

structure RefreshTokenRecord where
  id : String
  accessTokenId : String
  revoked : Bool
  expiresAt : ℤ
  deriving DecidableEq, Repr

structure AuthCodeRecord where
  id : String
  userId : String
  clientId : String
  scopes : List String
  revoked : Bool
  expiresAt : ℤ
  deriving DecidableEq, Repr

structure RefreshTokenPayload where
  clientId : String
  refreshTokenId : String
  accessTokenId : String
  scopes : List String
  userId : Option String
  expireTime : ℤ
  deriving DecidableEq, Repr

structure AuthCodePayload where
  clientId : String
  redirectUri : Option String
  authCodeId : String
  scopes : List String
  userId : Option String
  expireTime : ℤ
  codeChallenge : Option String
  codeChallengeMethod : Option String
  deriving DecidableEq, Repr

/-- What a sealed text holds. Neither payload's JSON parses as the other: each lacks a
field the other requires. -/
inductive Sealed where
  | code (payload : AuthCodePayload)
  | refresh (payload : RefreshTokenPayload)
  deriving DecidableEq, Repr

/-- `DateTime::timestamp`: whole seconds from the epoch. -/
def timestamp (t : ℤ) : ℤ := t / 1000000000

/-- `chrono::Duration::from_std`, or the longest there is. -/
def chronoDuration (d : ℕ) : ℕ := (Duration.fromStd d).getD Duration.maxChrono

structure OAuthError where
  error : String
  description : String
  hint : Option String
  status : ℕ
  redirectUri : Option String
  deriving DecidableEq, Repr

namespace OAuthError

def new (error description : String) (status : ℕ) : OAuthError := ⟨error,description,none,status,none⟩

def withHint (e : OAuthError) (hint : String) : OAuthError := { e with hint := some hint }

def redirectingTo (e : OAuthError) (uri : String) : OAuthError := { e with redirectUri := some uri }

def unsupportedGrantType : OAuthError :=
  (new "unsupported_grant_type" "The authorization grant type is not supported by the authorization server."
    400).withHint "Check that all required parameters have been provided"

def invalidRequest (parameter : String) : OAuthError :=
  (new "invalid_request" ("The request is missing a required parameter, includes an invalid parameter value, " ++
    "includes a parameter more than once, or is otherwise malformed.") 400).withHint
      ("Check the `" ++ parameter ++ "` parameter")

def invalidClient : OAuthError := new "invalid_client" "Client authentication failed" 401

/-- The HTML escaping of a scope a client sent. -/
def escape (value : String) : String :=
  String.join (value.toList.map fun c =>
    if c = '&' then "&amp;"
    else if c.toNat = 34 then "&quot;"
    else if c.toNat = 39 then "&#039;"
    else if c = '<' then "&lt;"
    else if c = '>' then "&gt;"
    else String.singleton c)

def invalidScope (scope : String) : OAuthError :=
  (new "invalid_scope" "The requested scope is invalid, unknown, or malformed" 400).withHint
    (if scope = "" then "Specify a scope in the request or set a default scope"
      else "Check the `" ++ escape scope ++ "` scope")

def invalidCredentials : OAuthError := new "invalid_grant" "The user credentials were incorrect." 400

def invalidRefreshToken (hint : String) : OAuthError :=
  (new "invalid_grant" "The refresh token is invalid." 400).withHint hint

def invalidGrant (hint : String) : OAuthError :=
  (new "invalid_grant" ("The provided authorization grant (e.g., authorization code, resource owner " ++
    "credentials) or refresh token is invalid, expired, revoked, does not match the " ++
    "redirection URI used in the authorization request, or was issued to another client.") 400).withHint hint

def unauthorizedClient : OAuthError :=
  new "unauthorized_client" "The authenticated client is not authorized to use this authorization grant type." 400

def serverError : OAuthError :=
  new "server_error" ("The authorization server encountered an unexpected condition which prevented it " ++
    "from fulfilling the request.") 500

end OAuthError
end Rainier.OAuth
