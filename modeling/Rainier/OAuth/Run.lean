import Rainier.OAuth.Server
import Rainier.Support.Trace

/-! # The server at work

Any number of requests are under way at once, each a task that makes its calls to the
store one at a time, between those of the others. The sealer is its vault: a sealed
text opens to what was sealed under it, and no other text opens. A choice gives what
the server draws or is told from outside when a task moves: an identifier, the text of
a seal, whether the signer signs, and the user the resource owners name. The logs hold
the authorization requests accepted and approved so far and the access tokens issued.
-/
namespace Rainier.OAuth
open Rainier

/-- An authorization request `validate_authorization_request` accepted, with the client
it found. -/
structure Accepted where
  request : Request
  client : Client
  authorization : AuthorizationRequest
  deriving DecidableEq

/-- One a user approved, and the code it was answered with. -/
structure Approval where
  accepted : Accepted
  user : String
  codeId : String
  expiresAt : ℤ
  deriving DecidableEq

/-- What an access token is issued for. -/
inductive Source where
  | code (payload : AuthCodePayload)
  | refresh (old : RefreshTokenPayload)
  | password
  | clientCredentials
  deriving DecidableEq, Repr

/-- A token request that has passed its checks, and when. -/
structure Pending where
  request : Request
  client : Client
  source : Source
  userId : Option String
  scopes : List String
  checkedAt : ℤ
  deriving DecidableEq

/-- An access token stored for a task's request. -/
structure Issue where
  task : ℕ
  pending : Pending
  access : AccessTokenRecord
  deriving DecidableEq

/-- A revocation in the store. -/
inductive Revoke where
  | access (id : String)
  | refresh (id : String)
  | refreshFor (accessTokenId : String)
  | code (id : String)
  deriving DecidableEq, Repr

inductive Phase where
  | idle
  | approving (a : Accepted) (user : String)
  | coding (a : Accepted) (user : String) (client : Client)
  | authenticating (r : Request) (grant : Grant) (clientId secret : String)
  | checking (r : Request) (grant : Grant) (client : Client)
  | spending (p : Pending)
  | retiring (p : Pending)
  | issuing (p : Pending)
  | refreshing (p : Pending) (access : AccessTokenRecord)
  | answered (p : Pending) (access : AccessTokenRecord) (refresh : Option String)
  | refused (e : OAuthError)
  | revocation (r : Request) (clientId secret : String) (verified : Option (String × String))
  | revoking (calls : List Revoke)
  | done
  deriving DecidableEq

structure State where
  store : MemoryStore
  now : ℤ
  vault : String → Option Sealed
  used : List String
  tasks : ℕ → Phase
  accepted : List Accepted
  approvals : List Approval
  issued : List Issue

structure Choice where
  id : String
  text : Option String
  signed : Bool
  owner : Option String
  deriving DecidableEq, Repr

inductive Label where
  | clock (now : ℤ)
  | insertClient (client : Client)
  | validate (r : Request)
  | approve (w : ℕ) (a : Accepted) (user : String)
  | token (w : ℕ) (r : Request)
  | revocation (w : ℕ) (r : Request) (verified : Option (String × String))
  | revoke (w : ℕ) (calls : List Revoke)
  | purge (options : PurgeOptions)
  | move (w : ℕ) (choice : Choice)
  deriving DecidableEq

def init : State := ⟨.empty,0,fun _ => none,[],fun _ => .idle,[],[],[]⟩

def State.goto (s : State) (w : ℕ) (p : Phase) : State := { s with tasks := Function.update s.tasks w p }

@[simp] theorem tasks_goto_same (s : State) (w : ℕ) (p : Phase) : (s.goto w p).tasks w = p := Function.update_self ..

theorem tasks_goto_of_ne (s : State) {w w' : ℕ} (h : w' ≠ w) (p : Phase) : (s.goto w p).tasks w' = s.tasks w' :=
  Function.update_of_ne h ..

/-- What holds of the new phase, and of the phase each task had, holds of every task's. -/
theorem tasks_goto_elim {P : Phase → Prop} {s : State} {w₁ w : ℕ} {phase : Phase} (hphase : P phase)
    (hold : P (s.tasks w)) : P ((s.goto w₁ phase).tasks w) := by
  by_cases hw : w = w₁
  · subst hw
    rw [tasks_goto_same]
    exact hphase
  · rw [tasks_goto_of_ne _ hw]
    exact hold

/-- The vault with a payload sealed under a text, where one was sealed. -/
def keep (vault : String → Option Sealed) (text : Option String) (payload : Sealed) : String → Option Sealed :=
  match text with
  | some text => Function.update vault text (some payload)
  | none => vault

def Revoke.apply (store : MemoryStore) : Revoke → MemoryStore
  | .access id => (store.revokeAccessToken id).2
  | .refresh id => (store.revokeRefreshToken id).2
  | .refreshFor id => store.revokeRefreshTokensFor id
  | .code id => (store.revokeAuthCode id).2

namespace AuthorizationServer
variable (srv : AuthorizationServer)

/-- `revoke`: an access token and every refresh token issued with it. -/
def revoke (accessTokenId : String) : List Revoke := [.access accessTokenId,.refreshFor accessTokenId]

/-- The calls of `respond_to_revocation_request`, with what the store found and what the
verifier made of the token. -/
def revocationCalls (r : Request) (secret : String) (verified : Option (String × String))
    (opened : String → Option Sealed) (found : Option Client) : Except OAuthError (List Revoke) :=
  match activeClient found with
  | none => .error .invalidClient
  | some client =>
    if client.isConfidential && !srv.verify secret (client.secretHash.getD "") then .error .invalidClient
    else match srv.param r "token" with
      | none => .error (.invalidRequest "token")
      | some token => match verified with
        | some (id,clientId) => .ok (if clientId = client.id then revoke id else [])
        | none => match opened token with
          | some (.refresh refresh) => .ok (if refresh.clientId = client.id
              then .refresh refresh.refreshTokenId :: revoke refresh.accessTokenId else [])
          | _ => .ok []

/-- What `purge` asks of the store. -/
def purgeOptions (now : ℤ) (retention : ℕ) : PurgeOptions := ⟨true,some (now - chronoDuration retention)⟩

/-- The checks of a token request. -/
def check (now : ℤ) (opened : String → Option Sealed) (r : Request) (client : Client) (owner : Option String) :
    Grant → Except OAuthError Pending
  | .authorizationCode => do
    let (payload,scopes) ← srv.checkCode now opened r client
    return ⟨r,client,.code payload,payload.userId,scopes,now⟩
  | .refreshToken => do
    let (old,scopes) ← srv.checkRefresh now opened r client
    return ⟨r,client,.refresh old,old.userId,scopes,now⟩
  | .password => do
    let (user,scopes) ← srv.checkPassword r client owner
    return ⟨r,client,.password,some user,scopes,now⟩
  | .clientCredentials => do
    let scopes ← srv.checkClientCredentials r client
    return ⟨r,client,.clientCredentials,none,scopes,now⟩
  | .personalAccess => .error .unsupportedGrantType

/-- Spend what the token is issued for: whether that succeeded, and the store. Without
rotation a refresh token is not spent, but it still has to be live. -/
def spend (store : MemoryStore) : Source → Bool × MemoryStore
  | .code payload => store.revokeAuthCode payload.authCodeId
  | .refresh old =>
    if srv.rotateRefreshTokens then store.revokeRefreshToken old.refreshTokenId
    else ((store.refresh old.refreshTokenId).any (!·.revoked),store)
  | .password | .clientCredentials => (true,store)

/-- The answer when it did not. -/
def spentError : Source → OAuthError
  | .code _ => .invalidGrant "Authorization code has been revoked"
  | _ => .invalidRefreshToken "Token has been revoked"

def withRefresh (p : Pending) : Bool := p.source ≠ .clientCredentials && p.client.supportsGrant .refreshToken

def accessRecord (now : ℤ) (p : Pending) (id : String) : AccessTokenRecord :=
  ⟨id,p.userId,p.client.id,p.scopes,false,now,now + chronoDuration srv.lifetimes.accessToken⟩

/-- The row of a refresh token, timed from the instant its access token was. -/
def refreshRecord (access : AccessTokenRecord) (id : String) : RefreshTokenRecord :=
  ⟨id,access.id,false,access.createdAt + chronoDuration srv.lifetimes.refreshToken⟩

def refreshPayload (p : Pending) (access : AccessTokenRecord) (row : RefreshTokenRecord) : RefreshTokenPayload :=
  ⟨p.client.id,row.id,access.id,p.scopes,p.userId,timestamp row.expiresAt⟩

def codeScopes (a : Accepted) (client : Client) : List String :=
  srv.scopes.finalize a.authorization.scopes .authorizationCode client

def codeRecord (now : ℤ) (a : Accepted) (user : String) (client : Client) (id : String) : AuthCodeRecord :=
  ⟨id,user,client.id,srv.codeScopes a client,false,now + chronoDuration srv.lifetimes.authCode⟩

def codePayload (a : Accepted) (user : String) (client : Client) (row : AuthCodeRecord) : AuthCodePayload :=
  ⟨client.id,a.authorization.redirectUri,row.id,srv.codeScopes a client,some user,timestamp row.expiresAt,
    a.authorization.codeChallenge,a.authorization.codeChallengeMethod⟩

/-- What follows the checks: codes and refresh tokens are spent first. -/
def checked (p : Pending) : Phase :=
  match p.source with
  | .code _ | .refresh _ => .spending p
  | .password | .clientCredentials => .issuing p

/-- What follows the spending: a refresh also retires the access token it replaces. -/
def spent (p : Pending) : Phase :=
  match p.source with
  | .refresh _ => .retiring p
  | .code _ | .password | .clientCredentials => .issuing p

/-- `create_auth_code`, and the code sealed. -/
def createCode (s : State) (w : ℕ) (a : Accepted) (user : String) (client : Client) (choice : Choice) : State :=
  let row := srv.codeRecord s.now a user client choice.id
  { s with
    store := s.store.createAuthCode row
    vault := keep s.vault choice.text (.code (srv.codePayload a user client row))
    used := choice.id :: s.used
    approvals := ⟨a,user,choice.id,row.expiresAt⟩ :: s.approvals }.goto w .done

/-- `create_access_token`, and the token signed. -/
def createAccess (s : State) (w : ℕ) (p : Pending) (choice : Choice) : State :=
  let row := srv.accessRecord s.now p choice.id
  { s with
    store := s.store.createAccessToken row
    used := choice.id :: s.used
    issued := ⟨w,p,row⟩ :: s.issued }.goto w
      (if !choice.signed then .refused .serverError
        else if withRefresh p then .refreshing p row
        else .answered p row none)

/-- `create_refresh_token`, and the token sealed. -/
def createRefresh (s : State) (w : ℕ) (p : Pending) (access : AccessTokenRecord) (choice : Choice) : State :=
  let row := srv.refreshRecord access choice.id
  { s with
    store := s.store.createRefreshToken row
    vault := keep s.vault choice.text (.refresh (refreshPayload p access row))
    used := choice.id :: s.used }.goto w
      (match choice.text with
        | some text => .answered p access (some text)
        | none => .refused .serverError)

/-- The task's next call, with what was chosen for it. -/
def moveTask (s : State) (w : ℕ) (choice : Choice) : State :=
  match s.tasks w with
  | .approving a user => match activeClient (s.store.clients a.authorization.clientId) with
    | some client => s.goto w (.coding a user client)
    | none => s.goto w (.refused .invalidClient)
  | .coding a user client => srv.createCode s w a user client choice
  | .authenticating r grant clientId secret =>
    match srv.authenticateClient grant secret (s.store.clients clientId) with
    | .ok client => s.goto w (.checking r grant client)
    | .error e => s.goto w (.refused e)
  | .checking r grant client => match srv.check s.now s.vault r client choice.owner grant with
    | .ok p => s.goto w (checked p)
    | .error e => s.goto w (.refused e)
  | .spending p =>
    let (answer,store) := srv.spend s.store p.source
    let s := { s with store := store }
    if answer then s.goto w (spent p)
    else s.goto w (.refused (spentError p.source))
  | .retiring p => match p.source with
    | .refresh old =>
      { s with store := (s.store.revokeAccessToken old.accessTokenId).2 }.goto w (.issuing p)
    | _ => s
  | .issuing p => srv.createAccess s w p choice
  | .refreshing p access => srv.createRefresh s w p access choice
  | .revocation r clientId secret verified =>
    match srv.revocationCalls r secret verified s.vault (s.store.clients clientId) with
    | .ok calls => s.goto w (.revoking calls)
    | .error e => s.goto w (.refused e)
  | .revoking (call :: rest) => { s with store := call.apply s.store }.goto w (.revoking rest)
  | .revoking [] | .idle | .answered _ _ _ | .refused _ | .done => s

/-- A request for a task that has none yet. -/
def begin (s : State) (w : ℕ) (p : Phase) : State :=
  match s.tasks w with
  | .idle => s.goto w p
  | _ => s

def step (s : State) : Label → State
  | .clock now => { s with now := now }
  | .insertClient client => { s with store := s.store.insertClient client }
  | .validate r =>
    match srv.validateAuthorizationRequest r s.store.clients,
      (srv.query r "client_id").bind s.store.clients with
    | .ok a, some client => { s with accepted := ⟨r,client,a⟩ :: s.accepted }
    | _, _ => s
  | .approve w a user => if a ∈ s.accepted then begin s w (.approving a user) else s
  | .token w r => match srv.grantOf r with
    | .error e => begin s w (.refused e)
    | .ok grant => match srv.credentials r with
      | .error e => begin s w (.refused e)
      | .ok (clientId,secret) => begin s w (.authenticating r grant clientId secret)
  | .revocation w r verified => match srv.credentials r with
    | .error e => begin s w (.refused e)
    | .ok (clientId,secret) => begin s w (.revocation r clientId secret verified)
  | .revoke w calls => begin s w (.revoking calls)
  | .purge options => { s with store := s.store.purge options }
  | .move w choice => srv.moveTask s w choice

end AuthorizationServer

/-- An identifier is drawn once, and so is the text of a seal. -/
def Fresh (s : State) : Label → Prop
  | .move _ choice => choice.id ∉ s.used ∧ ∀ text ∈ choice.text, s.vault text = none
  | _ => True

instance (s : State) : (a : Label) → Decidable (Fresh s a)
  | .move _ choice =>
    inferInstanceAs (Decidable (choice.id ∉ s.used ∧ ∀ text ∈ choice.text, s.vault text = none))
  | .clock _ | .insertClient _ | .validate _ | .approve _ _ _ | .token _ _ | .revocation _ _ _ | .revoke _ _
  | .purge _ => inferInstanceAs (Decidable True)

/-! A server with one public client, to try runs on. -/

namespace Small

def server (default : List String) : AuthorizationServer where
  numberText _ := ""
  verify _ _ := false
  s256 verifier := verifier
  scopes := ⟨["account","vehicles"],default⟩
  requirePkceForPublicClients := false

def client (scopes : Option (List String)) : Client :=
  ⟨"app","App",none,["https://app.test/cb"],["authorization_code","refresh_token"],scopes,false⟩

def authorize (scope : String) : Request :=
  ⟨[],[("response_type",.string "code"),("client_id",.string "app"),("scope",.string scope)],none⟩

def exchange (code : String) : Request :=
  ⟨[("grant_type",.string "authorization_code"),("client_id",.string "app"),("code",.string code)],[],none⟩

def accepted (scopes : Option (List String)) (scope : String) : Accepted :=
  ⟨authorize scope,client scopes,⟨"app","App",none,"https://app.test/cb",none,[scope],none,none⟩⟩

/-- A request is approved by `user` and answered with the code `code-text`. -/
def approved (scopes : Option (List String)) (scope : String) : List Label :=
  [.insertClient (client scopes),.validate (authorize scope),.approve 0 (accepted scopes scope) "user",
    .move 0 ⟨"",none,true,none⟩,.move 0 ⟨"c1",some "code-text",true,none⟩]

/-- The task `w` exchanges that code, up to the storing of the access token. -/
def redeemed (w : ℕ) (id : String) : List Label :=
  [.token w (exchange "code-text"),.move w ⟨"",none,true,none⟩,.move w ⟨"",none,true,none⟩,
    .move w ⟨"",none,true,none⟩,.move w ⟨id,none,true,none⟩]

/-- Two tasks come with the same code and take turns; a purge runs before the slower of
them is told that the code is gone. -/
def race : List Label :=
  approved none "account" ++ [.token 1 (exchange "code-text"),.token 2 (exchange "code-text")] ++
    [1,2,1,2,1].map (.move · ⟨"",none,true,none⟩) ++ [.purge ⟨true,none⟩] ++
    [.move 2 ⟨"",none,true,none⟩,.move 1 ⟨"a1",none,true,none⟩]

end Small

end Rainier.OAuth
