import Rainier.Support.Error
import Rainier.OAuth.Server

/-! # What the checks establish

One lemma for each function a request has to pass: what an answer other than a refusal
says of the request, of the client, and of the payload that was opened.
-/
namespace Rainier.OAuth
open Rainier AuthorizationServer
variable {srv : AuthorizationServer} {now : ℤ} {opened : String → Option Sealed} {r : Request} {client : Client}

theorem activeClient_eq_some {found : Option Client} (h : activeClient found = some client) :
    found = some client ∧ client.revoked = false := by
  obtain ⟨hfound,hactive⟩ := Option.filter_eq_some_iff.mp h
  exact ⟨hfound,by simpa using hactive⟩

theorem authenticateClient_eq_ok {grant : Grant} {secret : String} {found : Option Client}
    (h : srv.authenticateClient grant secret found = .ok client) :
    activeClient found = some client ∧ client.supportsGrant grant = true := by
  unfold authenticateClient at h
  cases hfound : activeClient found with
  | none => simp [hfound] at h
  | some found =>
    simp only [hfound] at h
    split at h
    · cases h
    · rename_i hgrant
      have hclient : found = client := by
        repeat' split at h
        all_goals first | exact Except.ok.inj h | cases h
      subst hclient
      exact ⟨rfl,by simpa using hgrant⟩

/-! The exchange of a code. -/

/-- The redirect URI is given exactly as it was recorded, or not at all if none was. -/
theorem checkRedirectUri_eq_ok {recorded given : Option String} (h : checkRedirectUri recorded given = .ok ()) :
    given = recorded := by
  unfold checkRedirectUri at h
  split at h
  · cases h
  · split at h
    · cases h
    · rename_i hsame
      exact (not_not.mp hsame).symm
  · rfl

theorem checkVerifier_eq_ok {payload : AuthCodePayload} {verifier : Option String}
    (h : srv.checkVerifier payload verifier = .ok ()) {challenge : String}
    (hchallenge : payload.codeChallenge = some challenge) :
    ∃ text, verifier = some text ∧
      srv.computeChallenge (payload.codeChallengeMethod.getD "plain") text = .ok challenge := by
  unfold checkVerifier at h
  rw [hchallenge] at h
  cases verifier with
  | none => cases h
  | some text =>
    obtain ⟨text',htext,h⟩ := bind_eq_ok.mp h
    cases htext
    dsimp only at h
    split at h
    · cases h
    · obtain ⟨computed,hcomputed,h⟩ := bind_eq_ok.mp h
      split at h
      · cases h
      · rename_i hsame
        exact ⟨text,rfl,by rw [hcomputed,not_not.mp hsame]⟩

structure CodeChecked (srv : AuthorizationServer) (now : ℤ) (opened : String → Option Sealed) (r : Request)
    (client : Client) (payload : AuthCodePayload) (scopes : List String) : Prop where
  opens : ∃ text, srv.param r "code" = some text ∧ opened text = some (.code payload)
  unexpired : timestamp now ≤ payload.expireTime
  holder : payload.clientId = client.id
  redirectUri : srv.param r "redirect_uri" = payload.redirectUri
  verifier : ∀ challenge, payload.codeChallenge = some challenge → ∃ verifier,
    srv.param r "code_verifier" = some verifier ∧
      srv.computeChallenge (payload.codeChallengeMethod.getD "plain") verifier = .ok challenge
  scopes : ∃ named, srv.scopes.validate (some (joinSpaces payload.scopes)) = .ok named ∧
    scopes = srv.scopes.finalize named .authorizationCode client

theorem checkCode_eq_ok {payload : AuthCodePayload} {scopes : List String}
    (h : srv.checkCode now opened r client = .ok (payload,scopes)) :
    CodeChecked srv now opened r client payload scopes := by
  unfold checkCode at h
  cases hcode : srv.param r "code" with
  | none =>
    rw [hcode] at h
    cases h
  | some text =>
    rw [hcode] at h
    obtain ⟨text',htext,h⟩ := bind_eq_ok.mp h
    cases htext
    dsimp only at h
    split at h
    · rename_i payload' hopened
      obtain ⟨payload'',hpayload,h⟩ := bind_eq_ok.mp h
      cases hpayload
      split at h
      · cases h
      · rename_i hexpire
        split at h
        · cases h
        · rename_i hclient
          obtain ⟨_,hredirect,h⟩ := bind_eq_ok.mp h
          obtain ⟨_,hverifier,h⟩ := bind_eq_ok.mp h
          obtain ⟨named,hnamed,h⟩ := bind_eq_ok.mp h
          cases h
          exact {
            opens := ⟨text,hcode,hopened⟩
            unexpired := not_lt.mp hexpire
            holder := not_not.mp hclient
            redirectUri := checkRedirectUri_eq_ok hredirect
            verifier := fun challenge => checkVerifier_eq_ok hverifier
            scopes := ⟨named,hnamed,rfl⟩ }
    · cases h

/-! The refreshing of a token. -/

structure RefreshChecked (srv : AuthorizationServer) (opened : String → Option Sealed) (r : Request)
    (old : RefreshTokenPayload) (scopes : List String) : Prop where
  opens : ∃ text, srv.param r "refresh_token" = some text ∧ opened text = some (.refresh old)
  scopes : ∀ x ∈ scopes, x ∈ old.scopes

theorem checkRefresh_eq_ok {old : RefreshTokenPayload} {scopes : List String}
    (h : srv.checkRefresh now opened r client = .ok (old,scopes)) : RefreshChecked srv opened r old scopes := by
  unfold checkRefresh at h
  cases htoken : srv.param r "refresh_token" with
  | none =>
    rw [htoken] at h
    cases h
  | some text =>
    rw [htoken] at h
    obtain ⟨text',htext,h⟩ := bind_eq_ok.mp h
    cases htext
    dsimp only at h
    split at h
    · rename_i old' hopened
      obtain ⟨old'',hold,h⟩ := bind_eq_ok.mp h
      cases hold
      split at h
      · cases h
      · split at h
        · cases h
        · obtain ⟨named,hnamed,h⟩ := bind_eq_ok.mp h
          split at h
          · cases h
          · rename_i hnone
            cases h
            refine ⟨⟨text,htoken,hopened⟩,fun x hx => ?_⟩
            have hmem := srv.scopes.finalize_subset _ _ _ x hx
            simpa using List.find?_eq_none.mp hnone x hmem
    · cases h

/-! The authorization request. -/

/-- What an accepted request says: the client it names was active, and the redirect URI and
the challenge on record are those of the request. -/
structure Validated (srv : AuthorizationServer) (r : Request) (find : String → Option Client) (client : Client)
    (a : AuthorizationRequest) : Prop where
  found : (srv.query r "client_id").bind find = some client
  active : client.revoked = false
  clientId : a.clientId = client.id
  redirectUri : a.redirectUri = srv.query r "redirect_uri"
  challenge : a.codeChallenge = srv.query r "code_challenge"
  method : a.codeChallenge ≠ none →
    a.codeChallengeMethod = some ((srv.query r "code_challenge_method").getD "plain")
  required : srv.requirePkceForPublicClients = true → client.isConfidential = false → a.codeChallenge ≠ none

theorem challengeOf_eq_ok {challenge method : Option String} (h : srv.challengeOf r client = .ok (challenge,method)) :
    challenge = srv.query r "code_challenge" ∧
      (challenge ≠ none → method = some ((srv.query r "code_challenge_method").getD "plain")) ∧
      (srv.requirePkceForPublicClients = true → client.isConfidential = false → challenge ≠ none) := by
  unfold challengeOf at h
  cases hgiven : srv.query r "code_challenge" with
  | some given =>
    simp only [hgiven] at h
    split at h
    · cases h
    · split at h
      · cases h
      · cases h
        exact ⟨rfl,fun _ => rfl,fun _ _ => nofun⟩
  | none =>
    simp only [hgiven] at h
    split at h
    · cases h
    · rename_i hrequired
      cases h
      refine ⟨rfl,fun h => absurd rfl h,fun hrequire hpublic => ?_⟩
      simp [hrequire,hpublic] at hrequired

theorem validateAuthorizationRequest_eq_ok {find : String → Option Client} {a : AuthorizationRequest}
    (h : srv.validateAuthorizationRequest r find = .ok a) : ∃ client, Validated srv r find client a := by
  unfold validateAuthorizationRequest at h
  split at h
  · cases h
  · cases hid : srv.query r "client_id" with
    | none =>
      rw [hid] at h
      cases h
    | some id =>
      rw [hid] at h
      obtain ⟨id',heq,h⟩ := bind_eq_ok.mp h
      cases heq
      dsimp only at h
      split at h
      · rename_i client hactive
        obtain ⟨client',heq,h⟩ := bind_eq_ok.mp h
        cases heq
        split at h
        · cases h
        · obtain ⟨final,hfinal,h⟩ := bind_eq_ok.mp h
          obtain ⟨scopes,hscopes,h⟩ := bind_eq_ok.mp h
          obtain ⟨⟨challenge,method⟩,hchallenge,h⟩ := bind_eq_ok.mp h
          obtain ⟨hgiven,hmethod,hrequired⟩ := challengeOf_eq_ok (mapError_eq_ok.mp hchallenge)
          obtain ⟨hfind,hrevoked⟩ := activeClient_eq_some hactive
          cases h
          exact ⟨client,{
            found := by rw [hid,Option.bind_some,hfind]
            active := hrevoked
            clientId := rfl
            redirectUri := rfl
            challenge := hgiven
            method := hmethod
            required := hrequired }⟩
      · cases h

end Rainier.OAuth
