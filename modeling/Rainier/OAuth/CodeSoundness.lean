import Rainier.OAuth.Provenance

/-! # Tokens for codes are backed by approvals

A token request for a code is answered only if a user approved an authorization request
of the same client, and what it presents lines up with what that request said. The log
of approvals leads from the sealed payload to the approval, and the run itself from
there to the step that accepted the authorization request.
-/
namespace Rainier.OAuth
open Rainier AuthorizationServer

/-- The approval stands behind a token issued on its code. -/
structure Authorizes (srv : AuthorizationServer) (a : Approval) (p : Pending) (access : AccessTokenRecord) : Prop where
  active : p.client.revoked = false
  client : p.client.id = a.accepted.authorization.clientId
  holder : access.clientId = a.accepted.authorization.clientId
  user : access.userId = some a.user
  unexpired : timestamp p.checkedAt ≤ timestamp a.expiresAt
  redirectUri : srv.param p.request "redirect_uri" = a.accepted.authorization.redirectUri
  verifier : ∀ challenge, a.accepted.authorization.codeChallenge = some challenge → ∃ verifier,
    srv.param p.request "code_verifier" = some verifier ∧
      srv.computeChallenge (a.accepted.authorization.codeChallengeMethod.getD "plain") verifier = .ok challenge

variable {srv : AuthorizationServer} {s : State}

theorem Traced.authorizes (h : Traced srv s) {i : Issue} (hi : i ∈ s.issued)
    (hgrant : srv.grantOf i.pending.request = .ok .authorizationCode) :
    ∃ a ∈ s.approvals, Authorizes srv a i.pending i.access := by
  obtain ⟨hpassed,now,haccess⟩ := h.issued i hi
  obtain ⟨payload,hsource⟩ := hpassed.exchange hgrant
  obtain ⟨huser,hchecked⟩ := hpassed.code payload hsource
  obtain ⟨text,_,hopened⟩ := hchecked.opens
  obtain ⟨a,ha,hseals⟩ := h.codes text payload hopened
  refine ⟨a,ha,?_⟩
  exact {
    active := hpassed.active
    client := by rw [← hchecked.holder,hseals.client]
    holder := by
      rw [haccess,← hseals.client,hchecked.holder]
      rfl
    user := by
      rw [haccess,← hseals.user,← huser]
      rfl
    unexpired := by
      rw [← hseals.expires]
      exact hchecked.unexpired
    redirectUri := by rw [hchecked.redirectUri,hseals.redirectUri]
    verifier := by
      rw [← hseals.challenge,← hseals.method]
      exact hchecked.verifier }

theorem accepted_begin (s : State) (w : ℕ) (p : Phase) : (AuthorizationServer.begin s w p).accepted = s.accepted := by
  unfold AuthorizationServer.begin
  split <;> rfl

theorem accepted_moveTask (srv : AuthorizationServer) (s : State) (w : ℕ) (choice : Choice) :
    (srv.moveTask s w choice).accepted = s.accepted := by
  unfold moveTask
  dsimp only
  split <;> first | rfl | split <;> rfl

/-- The log of accepted requests grows by validating one. -/
theorem step_accepts {label : Label} {a : Accepted} (hold : a ∉ s.accepted) (hnew : a ∈ (srv.step s label).accepted) :
    label = .validate a.request ∧ srv.validateAuthorizationRequest a.request s.store.clients = .ok a.authorization ∧
      (srv.query a.request "client_id").bind s.store.clients = some a.client := by
  unfold AuthorizationServer.step at hnew
  cases label with
  | validate r =>
    dsimp only at hnew
    split at hnew
    · rename_i authorization client hvalid hclient
      rcases List.mem_cons.mp hnew with rfl | hnew
      · exact ⟨rfl,hvalid,hclient⟩
      · exact absurd hnew hold
    · exact absurd hnew hold
  | approve w b user =>
    dsimp only at hnew
    split at hnew
    · exact absurd (accepted_begin _ _ _ ▸ hnew) hold
    · exact absurd hnew hold
  | token w r =>
    dsimp only at hnew
    repeat' split at hnew
    all_goals exact absurd (accepted_begin _ _ _ ▸ hnew) hold
  | revocation w r verified =>
    dsimp only at hnew
    repeat' split at hnew
    all_goals exact absurd (accepted_begin _ _ _ ▸ hnew) hold
  | revoke w calls => exact absurd (accepted_begin _ _ _ ▸ hnew) hold
  | move w choice => exact absurd (accepted_moveTask srv _ _ _ ▸ hnew) hold
  | clock now => exact absurd hnew hold
  | insertClient client => exact absurd hnew hold
  | purge options => exact absurd hnew hold

/-- The step that validated the request of an entry of that log. -/
theorem accepted_validated {labels : List Label} {a : Accepted} (ha : a ∈ (Trace.run srv.step init labels).accepted) :
    ∃ before after, labels = before ++ .validate a.request :: after ∧
      srv.validateAuthorizationRequest a.request (Trace.run srv.step init before).store.clients =
        .ok a.authorization ∧
      Validated srv a.request (Trace.run srv.step init before).store.clients a.client a.authorization := by
  obtain ⟨before,label,after,rfl,hold,hnew⟩ :=
    Trace.exists_turn (P := fun s : State => a ∈ s.accepted) List.not_mem_nil ha
  obtain ⟨rfl,hvalid,hclient⟩ := step_accepts hold hnew
  obtain ⟨client,hvalidated⟩ := validateAuthorizationRequest_eq_ok hvalid
  obtain rfl : client = a.client := Option.some.inj (hvalidated.found.symm.trans hclient)
  exact ⟨before,after,rfl,hvalid,hvalidated⟩

/-- A token request for a code that is answered with an access token has an approval
behind it, and before that a request the authorization endpoint accepted, for the same
client and with the redirect URI and the challenge the approval has on record. -/
theorem run_code_sound (srv : AuthorizationServer) (labels : List Label)
    (hfresh : Trace.Along srv.step Fresh init labels) (w : ℕ) (p : Pending) (access : AccessTokenRecord)
    (refresh : Option String) (hanswered : (Trace.run srv.step init labels).tasks w = .answered p access refresh)
    (hgrant : srv.grantOf p.request = .ok .authorizationCode) :
    ∃ a ∈ (Trace.run srv.step init labels).approvals, Authorizes srv a p access ∧
      ∃ before after, labels = before ++ .validate a.accepted.request :: after ∧
        srv.validateAuthorizationRequest a.accepted.request (Trace.run srv.step init before).store.clients =
          .ok a.accepted.authorization ∧
        Validated srv a.accepted.request (Trace.run srv.step init before).store.clients a.accepted.client
          a.accepted.authorization := by
  have htraced := (Trace.always_of_along (fun s a h hf => Traced.step h (step_moves srv hf)) (traced_init srv)
    hfresh).last
  obtain ⟨i,hi,rfl,rfl⟩ := htraced.task hanswered
  obtain ⟨a,ha,hauthorizes⟩ := htraced.authorizes hi hgrant
  obtain ⟨before,after,hlabels,hvalidated⟩ := accepted_validated (htraced.approvals a ha)
  exact ⟨a,ha,hauthorizes,before,after,hlabels,hvalidated⟩

namespace Small

/-- An authorization request with a redirect URI and a plain challenge. -/
def authorizeGuarded : Request :=
  ⟨[],[("response_type",.string "code"),("client_id",.string "app"),("redirect_uri",.string "https://app.test/cb"),
    ("code_challenge",.string "0123456789-0123456789-0123456789-0123456789")],none⟩

def exchangeGuarded : Request :=
  ⟨[("grant_type",.string "authorization_code"),("client_id",.string "app"),("code",.string "code-text"),
    ("redirect_uri",.string "https://app.test/cb"),
    ("code_verifier",.string "0123456789-0123456789-0123456789-0123456789")],[],none⟩

def acceptedGuarded : Accepted :=
  ⟨authorizeGuarded,client none,⟨"app","App",some "https://app.test/cb","https://app.test/cb",none,[],
    some "0123456789-0123456789-0123456789-0123456789",some "plain"⟩⟩

def guarded : List Label :=
  [.insertClient (client none),.validate authorizeGuarded,.approve 0 acceptedGuarded "user",
    .move 0 ⟨"",none,true,none⟩,.move 0 ⟨"c1",some "code-text",true,none⟩,.token 1 exchangeGuarded,
    .move 1 ⟨"",none,true,none⟩,.move 1 ⟨"",none,true,none⟩,.move 1 ⟨"",none,true,none⟩,
    .move 1 ⟨"a1",none,true,none⟩,.move 1 ⟨"r1",some "refresh-text",true,none⟩]

def guardedServer : AuthorizationServer := { server [] with requirePkceForPublicClients := true }

def redeemedGuarded : Pending :=
  ⟨exchangeGuarded,client none,.code ⟨"app",some "https://app.test/cb","c1",[],some "user",600,
    some "0123456789-0123456789-0123456789-0123456789",some "plain"⟩,some "user",[],0⟩

end Small

theorem guarded_sound : ∃ a ∈ (Trace.run Small.guardedServer.step init Small.guarded).approvals,
    Authorizes Small.guardedServer a Small.redeemedGuarded
      (Small.guardedServer.accessRecord 0 Small.redeemedGuarded "a1") := by
  obtain ⟨a,ha,hauthorizes,_⟩ := run_code_sound Small.guardedServer Small.guarded (by decide) 1
    Small.redeemedGuarded (Small.guardedServer.accessRecord 0 Small.redeemedGuarded "a1") (some "refresh-text")
    (by decide) (by decide)
  exact ⟨a,ha,hauthorizes⟩

end Rainier.OAuth
