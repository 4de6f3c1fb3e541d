import Mathlib.Data.Set.Function
import Rainier.Mfa.Passkey

/-! # One response, one ceremony

A signature is over the authenticator data and the digest of the client data. A digest has 32 bytes, so that
the two come apart again, and no two of the texts that were ever hashed have the same one.
-/
namespace Rainier.Mfa
open Cbor Json

variable {c : Crates}

/-- What is taken of the crates: the texts that anybody hashed do not collide, and a signature verifies for what
the holder of the key signed. -/
structure Ideal (c : Crates) where
  hashed : Set (List UInt8)
  signed : CoseKey → List UInt8 → List UInt8 → Prop
  injOn_hashed : Set.InjOn c.sha256 hashed
  hashed_of_signed : ∀ key authData clientData, signed key authData clientData → clientData ∈ hashed
  unforgeable : ∀ key message signature, CoseKey.verify c.toSignatures key message signature = .ok () →
    ∃ authData clientData, signed key authData clientData ∧ message = authData ++ c.sha256 clientData

inductive Ceremony where
  | registration (state : RegistrationState)
  | authentication (state : AuthenticationState)
  deriving DecidableEq, Repr

namespace Ceremony

def challenge : Ceremony → List UInt8
  | .registration state => state.challenge
  | .authentication state => state.challenge

def kind : Ceremony → String
  | .registration _ => "webauthn.create"
  | .authentication _ => "webauthn.get"

end Ceremony

/-! ## What the checks let through -/

def NamesOrigin (rp : RelyingParty) (data : Json) : Prop := ∃ origin ∈ rp.origins, stringField data "origin" = some origin

/-- Client data without an origin has the empty one. -/
def PassesOrigin (rp : RelyingParty) (data : Json) : Prop :=
  NamesOrigin rp data ∨ (stringField data "origin" = none ∧ "" ∈ rp.origins)

/-- Authenticator data and client data are for one relying party and one ceremony. -/
structure Binds (c : Crates) (origin : RelyingParty → Json → Prop) (rp : RelyingParty) (ceremony : Ceremony)
    (authData clientData : List UInt8) : Prop where
  site : authData.take 32 = c.sha256 (Text.asBytes rp.id)
  told : ∃ data text, c.parseJson clientData = some data ∧ stringField data "type" = some ceremony.kind ∧
    stringField data "challenge" = some text ∧ decode c text "challenge" = .ok ceremony.challenge ∧ origin rp data

theorem checkClientData_ok {rp : RelyingParty} {clientData challenge : List UInt8} {kind : String}
    (h : rp.checkClientData c clientData kind challenge = .ok ()) :
    ∃ data text, c.parseJson clientData = some data ∧ stringField data "type" = some kind ∧
      stringField data "challenge" = some text ∧ decode c text "challenge" = .ok challenge ∧ PassesOrigin rp data := by
  obtain ⟨data,hdata,h⟩ := bind_eq_ok.1 h
  obtain ⟨_,htype,h⟩ := bind_eq_ok.1 h
  obtain ⟨text,htext,h⟩ := bind_eq_ok.1 h
  obtain ⟨echoed,hechoed,h⟩ := bind_eq_ok.1 h
  obtain ⟨_,hchallenge,h⟩ := bind_eq_ok.1 h
  obtain ⟨_,horigin,-⟩ := bind_eq_ok.1 h
  have hsame : echoed = challenge := by simpa using ensure_eq_ok.1 hchallenge
  have hmem : (stringField data "origin").getD "" ∈ rp.origins := by
    obtain ⟨origin,hmem,heq⟩ := List.any_eq_true.1 (ensure_eq_ok.1 horigin)
    have hsame : origin = (stringField data "origin").getD "" := of_decide_eq_true heq
    rw [← hsame]
    exact hmem
  refine ⟨data,text,okOr_eq_ok.1 hdata,by simpa using ensure_eq_ok.1 htype,okOr_eq_ok.1 htext,?_,?_⟩
  · rw [← hsame]
    exact hechoed
  · cases hnamed : stringField data "origin" with
    | none =>
      rw [hnamed] at hmem
      exact .inr ⟨hnamed,hmem⟩
    | some origin =>
      rw [hnamed] at hmem
      exact .inl ⟨origin,hmem,hnamed⟩

theorem rpIdHash_parse {bytes : List UInt8} {data : AuthenticatorData} (h : AuthenticatorData.parse c bytes = .ok data) :
    data.rpIdHash = bytes.take 32 := by
  obtain ⟨-,-,h⟩ := bind_eq_ok.1 h
  dsimp only at h
  split_ifs at h
  · obtain ⟨attested,-,h⟩ := bind_eq_ok.1 h
    obtain ⟨-,-,h⟩ := bind_eq_ok.1 h
    cases h
    rfl
  · obtain ⟨-,-,h⟩ := bind_eq_ok.1 h
    cases h
    rfl

theorem checkAuthData_ok {rp : RelyingParty} {data : AuthenticatorData} {uv : UserVerification}
    (h : rp.checkAuthData c data uv = .ok ()) : data.rpIdHash = c.sha256 (Text.asBytes rp.id) := by
  obtain ⟨_,hsite,-⟩ := bind_eq_ok.1 h
  simpa using ensure_eq_ok.1 hsite

/-- The authenticator data and the client data of a response. -/
def AuthenticationResponse.parts (c : Crates) (response : AuthenticationResponse) : Except Error (List UInt8 × List UInt8) := do
  let clientData ← decode c response.clientDataJson "clientDataJSON"
  let authData ← decode c response.authenticatorData "authenticatorData"
  return (authData,clientData)

def RegistrationResponse.parts (c : Crates) (response : RegistrationResponse) : Except Error (List UInt8 × List UInt8) := do
  let clientData ← decode c response.clientDataJson "clientDataJSON"
  let object ← decode c response.attestationObject "attestationObject"
  let attestation ← Cbor.decode object
  let authData ← okOr (malformed "an attestation object with no authenticator data")
    ((attestation.getText "authData").bind Value.asBytes)
  return (authData,clientData)

theorem AuthenticationResponse.decode_of_parts {response : AuthenticationResponse} {authData clientData : List UInt8}
    (h : response.parts c = .ok (authData,clientData)) : decode c response.clientDataJson "clientDataJSON" = .ok clientData := by
  obtain ⟨read,hread,h⟩ := bind_eq_ok.1 h
  obtain ⟨bytes,-,h⟩ := bind_eq_ok.1 h
  cases h
  exact hread

theorem RegistrationResponse.decode_of_parts {response : RegistrationResponse} {authData clientData : List UInt8}
    (h : response.parts c = .ok (authData,clientData)) : decode c response.clientDataJson "clientDataJSON" = .ok clientData := by
  obtain ⟨read,hread,h⟩ := bind_eq_ok.1 h
  obtain ⟨object,-,h⟩ := bind_eq_ok.1 h
  obtain ⟨attestation,-,h⟩ := bind_eq_ok.1 h
  obtain ⟨bytes,-,h⟩ := bind_eq_ok.1 h
  cases h
  exact hread

/-- What a sign-in has gone through. -/
structure SignsIn (c : Crates) (rp : RelyingParty) (state : AuthenticationState) (response : AuthenticationResponse)
    (credential : PasskeyCredential) (verified : VerifiedAssertion) (key : CoseKey) (authData clientData : List UInt8) : Prop where
  parts : response.parts c = .ok (authData,clientData)
  binds : Binds c PassesOrigin rp (.authentication state) authData clientData
  stored : CoseKey.fromBytes c.toSignatures credential.publicKey = .ok key
  verifies : ∃ signature, key.verify c.toSignatures (authData ++ c.sha256 clientData) signature = .ok ()
  counts : (credential.signCount = 0 ∧ verified.signCount = 0) ∨ credential.signCount < verified.signCount

theorem finishAuthentication_ok {rp : RelyingParty} {now : ℕ} {state : AuthenticationState} {response : AuthenticationResponse}
    {credential : PasskeyCredential} {verified : VerifiedAssertion}
    (h : rp.finishAuthentication c now state response credential = .ok verified) :
    ∃ key authData clientData, SignsIn c rp state response credential verified key authData clientData := by
  obtain ⟨-,-,h⟩ := bind_eq_ok.1 h
  obtain ⟨rawId,-,h⟩ := bind_eq_ok.1 h
  obtain ⟨-,-,h⟩ := bind_eq_ok.1 h
  obtain ⟨-,-,h⟩ := bind_eq_ok.1 h
  obtain ⟨-,-,h⟩ := bind_eq_ok.1 h
  obtain ⟨clientData,hclientData,h⟩ := bind_eq_ok.1 h
  obtain ⟨_,htold,h⟩ := bind_eq_ok.1 h
  obtain ⟨authDataBytes,hbytes,h⟩ := bind_eq_ok.1 h
  obtain ⟨authData,hparse,h⟩ := bind_eq_ok.1 h
  obtain ⟨_,hsite,h⟩ := bind_eq_ok.1 h
  obtain ⟨signature,-,h⟩ := bind_eq_ok.1 h
  obtain ⟨key,hkey,h⟩ := bind_eq_ok.1 h
  obtain ⟨_,hverify,h⟩ := bind_eq_ok.1 h
  obtain ⟨_,hcount,h⟩ := bind_eq_ok.1 h
  cases h
  refine ⟨key,authDataBytes,clientData,?_,⟨?_,checkClientData_ok htold⟩,hkey,⟨signature,hverify⟩,?_⟩
  · rw [AuthenticationResponse.parts,hclientData,hbytes]
    rfl
  · rw [← rpIdHash_parse hparse]
    exact checkAuthData_ok hsite
  · have hadvanced := ensure_eq_ok.1 hcount
    simp only [Bool.not_eq_true',Bool.and_eq_false_iff,Bool.or_eq_false_iff,decide_eq_false_iff_not,not_not] at hadvanced
    rcases hadvanced with ⟨hnew,hold⟩ | hmore
    · exact .inl ⟨hold,hnew⟩
    · exact .inr (not_le.1 hmore)

theorem checkStatement_packed {rp : RelyingParty} {format : String} {statement : Value} {authData hash : List UInt8}
    {key : CoseKey} (h : rp.checkStatement c format statement authData hash key = .ok "packed") :
    ∃ signature, key.verify c.toSignatures (authData ++ hash) signature = .ok () := by
  simp only [RelyingParty.checkStatement] at h
  split_ifs at h
  · obtain ⟨-,-,h⟩ := bind_eq_ok.1 h
    exact absurd (Except.ok.inj h) (by decide)
  · obtain ⟨-,-,h⟩ := bind_eq_ok.1 h
    obtain ⟨signature,-,h⟩ := bind_eq_ok.1 h
    cases hverify : key.verify c.toSignatures (authData ++ hash) signature with
    | ok u => exact ⟨signature,hverify⟩
    | error e =>
      rw [hverify] at h
      cases h
  · cases hpolicy : rp.attestation with
    | strict =>
      rw [hpolicy] at h
      cases h
    | lenient =>
      rw [hpolicy] at h
      have hlist := congrArg String.toList (Except.ok.inj h)
      rw [String.toList_append] at hlist
      exact absurd (congrArg List.head? hlist) (by simp)

/-- What a registration has gone through. -/
structure Registers (c : Crates) (rp : RelyingParty) (state : RegistrationState) (response : RegistrationResponse)
    (credential : PasskeyCredential) (key : CoseKey) (authData clientData : List UInt8) : Prop where
  parts : response.parts c = .ok (authData,clientData)
  binds : Binds c PassesOrigin rp (.registration state) authData clientData
  attests : credential.attestation = "packed" →
    ∃ signature, key.verify c.toSignatures (authData ++ c.sha256 clientData) signature = .ok ()

theorem finishRegistration_ok {rp : RelyingParty} {now : ℕ} {state : RegistrationState} {response : RegistrationResponse}
    {credential : PasskeyCredential} (h : rp.finishRegistration c now state response = .ok credential) :
    ∃ key authData clientData, Registers c rp state response credential key authData clientData := by
  obtain ⟨-,-,h⟩ := bind_eq_ok.1 h
  obtain ⟨rawId,-,h⟩ := bind_eq_ok.1 h
  obtain ⟨clientData,hclientData,h⟩ := bind_eq_ok.1 h
  obtain ⟨_,htold,h⟩ := bind_eq_ok.1 h
  obtain ⟨object,hobject,h⟩ := bind_eq_ok.1 h
  obtain ⟨attestation,hattestation,h⟩ := bind_eq_ok.1 h
  obtain ⟨format,-,h⟩ := bind_eq_ok.1 h
  obtain ⟨statement,-,h⟩ := bind_eq_ok.1 h
  obtain ⟨authDataBytes,hbytes,h⟩ := bind_eq_ok.1 h
  obtain ⟨authData,hparse,h⟩ := bind_eq_ok.1 h
  obtain ⟨_,hsite,h⟩ := bind_eq_ok.1 h
  obtain ⟨attested,-,h⟩ := bind_eq_ok.1 h
  obtain ⟨-,-,h⟩ := bind_eq_ok.1 h
  obtain ⟨-,-,h⟩ := bind_eq_ok.1 h
  obtain ⟨recorded,hstatement,h⟩ := bind_eq_ok.1 h
  cases h
  refine ⟨attested.key,authDataBytes,clientData,?_,⟨?_,checkClientData_ok htold⟩,?_⟩
  · rw [RegistrationResponse.parts,hclientData]
    refine bind_eq_ok.2 ⟨clientData,rfl,bind_eq_ok.2 ⟨object,hobject,bind_eq_ok.2 ⟨attestation,hattestation,?_⟩⟩⟩
    exact bind_eq_ok.2 ⟨authDataBytes,hbytes,rfl⟩
  · rw [← rpIdHash_parse hparse]
    exact checkAuthData_ok hsite
  · intro hpacked
    rw [show recorded = "packed" from hpacked] at hstatement
    exact checkStatement_packed hstatement

/-! ## One ceremony -/

/-- A browser's response. What kind it is of is told by the fields that are there. -/
structure Posted where
  id : String
  rawId : String
  kind : String
  clientDataJson : String
  attestationObject : Option String
  transports : List String
  authenticatorData : Option String
  signature : Option String
  userHandle : Option String

namespace Posted

def registration (posted : Posted) : Option RegistrationResponse :=
  posted.attestationObject.map fun object =>
    ⟨posted.id,posted.rawId,posted.kind,posted.clientDataJson,object,posted.transports⟩

def authentication (posted : Posted) : Option AuthenticationResponse := do
  let authenticatorData ← posted.authenticatorData
  let signature ← posted.signature
  return ⟨posted.id,posted.rawId,posted.kind,posted.clientDataJson,authenticatorData,signature,posted.userHandle⟩

/-- A response is accepted for a ceremony, with these data. -/
inductive Accepted (c : Crates) (rp : RelyingParty) (posted : Posted) : Ceremony → List UInt8 → List UInt8 → Prop where
  | registration {now state response credential authData clientData} :
    posted.registration = some response → rp.finishRegistration c now state response = .ok credential →
      response.parts c = .ok (authData,clientData) → Accepted c rp posted (.registration state) authData clientData
  | authentication {now state response credential verified authData clientData} :
    posted.authentication = some response → rp.finishAuthentication c now state response credential = .ok verified →
      response.parts c = .ok (authData,clientData) → Accepted c rp posted (.authentication state) authData clientData

end Posted

theorem Posted.Accepted.binds {rp : RelyingParty} {posted : Posted} {ceremony : Ceremony} {authData clientData : List UInt8}
    (h : Accepted c rp posted ceremony authData clientData) : Binds c PassesOrigin rp ceremony authData clientData := by
  cases h with
  | registration hresponse hfinish hparts =>
    obtain ⟨_,_,_,hregisters⟩ := finishRegistration_ok hfinish
    cases hparts.symm.trans hregisters.parts
    exact hregisters.binds
  | authentication hresponse hfinish hparts =>
    obtain ⟨_,_,_,hsignsIn⟩ := finishAuthentication_ok hfinish
    cases hparts.symm.trans hsignsIn.parts
    exact hsignsIn.binds

theorem Posted.Accepted.clientData {rp : RelyingParty} {posted : Posted} {ceremony : Ceremony} {authData clientData : List UInt8}
    (h : Accepted c rp posted ceremony authData clientData) :
    decode c posted.clientDataJson "clientDataJSON" = .ok clientData := by
  cases h with
  | registration hresponse hfinish hparts =>
    obtain ⟨object,-,rfl⟩ := Option.map_eq_some_iff.1 hresponse
    have hread := RegistrationResponse.decode_of_parts hparts
    exact hread
  | authentication hresponse hfinish hparts =>
    obtain ⟨authenticatorData,-,hresponse⟩ := Option.bind_eq_some_iff.1 hresponse
    obtain ⟨signature,-,hresponse⟩ := Option.bind_eq_some_iff.1 hresponse
    cases hresponse
    have hread := AuthenticationResponse.decode_of_parts hparts
    exact hread

section

variable {origin : RelyingParty → Json → Prop} {rp rp' : RelyingParty} {ceremony ceremony' : Ceremony}
  {authData authData' clientData clientData' : List UInt8}

/-- Client data is for one ceremony. -/
theorem Binds.one_ceremony (h : Binds c origin rp ceremony authData clientData) (h' : Binds c origin rp' ceremony' authData' clientData) :
    ceremony.kind = ceremony'.kind ∧ ceremony.challenge = ceremony'.challenge := by
  obtain ⟨data,text,hdata,htype,htext,hchallenge,-⟩ := h.told
  obtain ⟨data',text',hdata',htype',htext',hchallenge',-⟩ := h'.told
  cases hdata.symm.trans hdata'
  cases htext.symm.trans htext'
  exact ⟨Option.some.inj (htype.symm.trans htype'),Except.ok.inj (hchallenge.symm.trans hchallenge')⟩

/-- Authenticator data is for one site. -/
theorem Binds.one_site (w : Ideal c) (hrp : Text.asBytes rp.id ∈ w.hashed) (hrp' : Text.asBytes rp'.id ∈ w.hashed)
    (h : Binds c origin rp ceremony authData clientData) (h' : Binds c origin rp' ceremony' authData clientData') :
    rp.id = rp'.id := by
  have hdigest := h.site.symm.trans h'.site
  exact Text.asBytes_injective (w.injOn_hashed hrp hrp' hdigest)

end

/-- A signed message comes apart into what it is of. -/
theorem Ideal.parts_of_message (w : Ideal c) {authData authData' clientData clientData' : List UInt8} (hhashed : clientData ∈ w.hashed)
    (hhashed' : clientData' ∈ w.hashed) (h : authData ++ c.sha256 clientData = authData' ++ c.sha256 clientData') :
    authData = authData' ∧ clientData = clientData' := by
  have hlength : (c.sha256 clientData).length = (c.sha256 clientData').length := by
    rw [c.length_sha256,c.length_sha256]
  obtain ⟨hauthData,hdigest⟩ := List.append_inj' h hlength
  exact ⟨hauthData,w.injOn_hashed hhashed hhashed' hdigest⟩

theorem Ideal.signed_of_verifies (w : Ideal c) {key : CoseKey} {authData clientData signature : List UInt8} (hhashed : clientData ∈ w.hashed)
    (h : key.verify c.toSignatures (authData ++ c.sha256 clientData) signature = .ok ()) : w.signed key authData clientData := by
  obtain ⟨authData',clientData',hsigned,hmessage⟩ := w.unforgeable _ _ _ h
  obtain ⟨rfl,rfl⟩ := w.parts_of_message hhashed (w.hashed_of_signed _ _ _ hsigned) hmessage
  exact hsigned

/-! ## Counters -/

structure SignIn where
  rp : RelyingParty
  now : ℕ
  state : AuthenticationState
  response : AuthenticationResponse

/-- The counters that are stored along sign-ins, each of which is accepted and applied. -/
def signCounts (c : Crates) (credential : PasskeyCredential) : List SignIn → Except Error (List ℕ)
  | [] => .ok [credential.signCount]
  | s :: rest => do
    let verified ← s.rp.finishAuthentication c s.now s.state s.response credential
    let counts ← signCounts c (verified.applyTo credential) rest
    return credential.signCount :: counts

def Advances (count count' : ℕ) : Prop := (count = 0 ∧ count' = 0) ∨ count < count'

theorem signCounts_head {credential : PasskeyCredential} {signIns : List SignIn} {counts : List ℕ}
    (h : signCounts c credential signIns = .ok counts) : ∃ rest, counts = credential.signCount :: rest := by
  cases signIns with
  | nil =>
    cases h
    exact ⟨[],rfl⟩
  | cons s signIns =>
    obtain ⟨verified,-,h⟩ := bind_eq_ok.1 h
    obtain ⟨rest,-,h⟩ := bind_eq_ok.1 h
    cases h
    exact ⟨rest,rfl⟩

theorem signCounts_advance {credential : PasskeyCredential} {signIns : List SignIn} {counts : List ℕ}
    (h : signCounts c credential signIns = .ok counts) : counts.IsChain Advances := by
  induction signIns generalizing credential counts with
  | nil =>
    cases h
    exact List.IsChain.singleton _
  | cons s signIns ih =>
    obtain ⟨verified,hverified,h⟩ := bind_eq_ok.1 h
    obtain ⟨rest,hrest,h⟩ := bind_eq_ok.1 h
    cases h
    obtain ⟨_,_,_,hsignsIn⟩ := finishAuthentication_ok hverified
    obtain ⟨tail,rfl⟩ := signCounts_head hrest
    exact List.isChain_cons_cons.2 ⟨hsignsIn.counts,ih hrest⟩

/-! ## All of it -/

/-- The client data of a response is among the texts that are hashed. -/
def Ideal.Hashes (w : Ideal c) (clientDataJson : String) : Prop :=
  ∀ clientData, decode c clientDataJson "clientDataJSON" = .ok clientData → clientData ∈ w.hashed

/-- A response answers one ceremony, of ceremonies with challenges of their own. -/
structure Ideal.Sound (w : Ideal c) (origin : RelyingParty → Json → Prop) (states : Set Ceremony) : Prop where
  /-- A sign-in was signed by the holder of the stored key, for this relying party and this ceremony. -/
  signIns : ∀ rp now state response credential verified, w.Hashes response.clientDataJson →
    RelyingParty.finishAuthentication c rp now state response credential = .ok verified →
      ∃ key authData clientData, CoseKey.fromBytes c.toSignatures credential.publicKey = .ok key ∧
        response.parts c = .ok (authData,clientData) ∧ w.signed key authData clientData ∧
          Binds c origin rp (.authentication state) authData clientData
  /-- So was a self-attestation, with the key it brings. -/
  selfAttestations : ∀ rp now state response credential, w.Hashes response.clientDataJson →
    RelyingParty.finishRegistration c rp now state response = .ok credential → credential.attestation = "packed" →
      ∃ key authData clientData, response.parts c = .ok (authData,clientData) ∧ w.signed key authData clientData ∧
        Binds c origin rp (.registration state) authData clientData
  responses : ∀ rp rp' posted, Text.asBytes rp.id ∈ w.hashed → Text.asBytes rp'.id ∈ w.hashed →
    ∀ ceremony ∈ states, ∀ ceremony' ∈ states, ∀ authData clientData authData' clientData',
      Posted.Accepted c rp posted ceremony authData clientData → Posted.Accepted c rp' posted ceremony' authData' clientData' →
        ceremony = ceremony' ∧ rp.id = rp'.id
  /-- Neither is what was signed for one ceremony taken for another, be it in another response. -/
  messages : ∀ rp rp' posted posted', Text.asBytes rp.id ∈ w.hashed → Text.asBytes rp'.id ∈ w.hashed →
    w.Hashes posted.clientDataJson → w.Hashes posted'.clientDataJson →
      ∀ ceremony ∈ states, ∀ ceremony' ∈ states, ∀ authData clientData authData' clientData',
        Posted.Accepted c rp posted ceremony authData clientData → Posted.Accepted c rp' posted' ceremony' authData' clientData' →
          authData ++ c.sha256 clientData = authData' ++ c.sha256 clientData' → ceremony = ceremony' ∧ rp.id = rp'.id
  counters : ∀ credential signIns counts, signCounts c credential signIns = .ok counts → counts.IsChain Advances

theorem Posted.Accepted.authData_eq {rp rp' : RelyingParty} {posted : Posted} {ceremony : Ceremony}
    {authData clientData authData' clientData' : List UInt8} (h : Accepted c rp posted ceremony authData clientData)
    (h' : Accepted c rp' posted ceremony authData' clientData') : authData = authData' := by
  cases h with
  | registration hresponse hfinish hparts =>
    cases h' with
    | registration hresponse' hfinish' hparts' =>
      cases hresponse.symm.trans hresponse'
      cases hparts.symm.trans hparts'
      rfl
  | authentication hresponse hfinish hparts =>
    cases h' with
    | authentication hresponse' hfinish' hparts' =>
      cases hresponse.symm.trans hresponse'
      cases hparts.symm.trans hparts'
      rfl

theorem Ideal.sound (w : Ideal c) {states : Set Ceremony} (hstates : states.InjOn Ceremony.challenge) :
    w.Sound PassesOrigin states := by
  constructor
  · intro rp now state response credential verified hhashes h
    obtain ⟨key,authData,clientData,hsignsIn⟩ := finishAuthentication_ok h
    obtain ⟨signature,hverify⟩ := hsignsIn.verifies
    have hhashed := hhashes _ (AuthenticationResponse.decode_of_parts hsignsIn.parts)
    exact ⟨key,authData,clientData,hsignsIn.stored,hsignsIn.parts,w.signed_of_verifies hhashed hverify,hsignsIn.binds⟩
  · intro rp now state response credential hhashes h hpacked
    obtain ⟨key,authData,clientData,hregisters⟩ := finishRegistration_ok h
    obtain ⟨signature,hverify⟩ := hregisters.attests hpacked
    have hhashed := hhashes _ (RegistrationResponse.decode_of_parts hregisters.parts)
    exact ⟨key,authData,clientData,hregisters.parts,w.signed_of_verifies hhashed hverify,hregisters.binds⟩
  · intro rp rp' posted hrp hrp' ceremony hceremony ceremony' hceremony' authData clientData authData' clientData' h h'
    cases h.clientData.symm.trans h'.clientData
    obtain ⟨-,hchallenge⟩ := h.binds.one_ceremony h'.binds
    obtain rfl := hstates hceremony hceremony' hchallenge
    obtain rfl := h.authData_eq h'
    exact ⟨rfl,h.binds.one_site w hrp hrp' h'.binds⟩
  · intro rp rp' posted posted' hrp hrp' hhashes hhashes' ceremony hceremony ceremony' hceremony'
      authData clientData authData' clientData' h h' hmessage
    obtain ⟨rfl,rfl⟩ := w.parts_of_message (hhashes _ h.clientData) (hhashes' _ h'.clientData) hmessage
    obtain ⟨-,hchallenge⟩ := h.binds.one_ceremony h'.binds
    exact ⟨hstates hceremony hceremony' hchallenge,h.binds.one_site w hrp hrp' h'.binds⟩
  · intro credential signIns counts h
    exact signCounts_advance h

/-! ## A sign-in on fixed bytes

The key, the digests and the signatures are of Ed25519 and SHA-256.
-/

def demoKey : List UInt8 :=
  [181,228,219,128,28,89,118,41,237,126,77,152,203,231,159,48,3,91,201,225,105,57,94,231,118,192,234,126,2,142,4,
   8]

/-- The digest of `example.com`. -/
def demoSite : List UInt8 :=
  [163,121,166,246,238,175,185,165,94,55,140,17,128,52,226,117,30,104,47,171,159,45,48,171,19,210,18,85,134,206,
   25,71]

def demoAuthData : List UInt8 := demoSite ++ [0x05,0,0,0,1]

/-- Client data with what the crates say of it: its JSON, its digest, and a signature of both data. -/
structure Demo where
  text : String
  json : Json
  digest : List UInt8
  signature : List UInt8
  length_digest : digest.length = 32
  digest_ne : digest ≠ demoSite
  text_ne : Text.asBytes text ≠ Text.asBytes "example.com"

def demo : Demo where
  text := "\x7b\"type\":\"webauthn.get\",\"challenge\":\"AQIDBA\",\"origin\":\"https://example.com\"\x7d"
  json := .object [("challenge",.string "AQIDBA"),("origin",.string "https://example.com"),("type",.string "webauthn.get")]
  digest :=
    [153,52,202,68,215,219,24,222,30,245,140,83,17,7,29,69,22,46,95,98,201,195,15,54,249,135,190,201,127,145,21,
     169]
  signature :=
    [17,136,161,144,243,81,94,47,32,108,246,4,135,189,21,135,27,50,131,175,239,37,35,213,64,87,128,54,150,194,144,
     177,67,155,133,188,48,104,140,168,7,194,5,177,201,139,64,183,189,96,208,145,157,120,203,208,64,105,33,213,133,
     140,103,6]
  length_digest := rfl
  digest_ne := by decide
  text_ne := by decide

/-- Client data that has no origin. -/
def originless : Demo where
  text := "\x7b\"type\":\"webauthn.get\",\"challenge\":\"AQIDBA\"\x7d"
  json := .object [("challenge",.string "AQIDBA"),("type",.string "webauthn.get")]
  digest :=
    [160,100,6,148,112,143,225,254,47,176,18,17,53,120,42,13,69,158,212,127,9,40,219,217,85,149,106,85,178,241,130,
     85]
  signature :=
    [82,81,147,77,129,103,18,126,244,20,249,54,76,236,36,72,128,128,117,117,71,44,118,187,36,222,85,74,152,18,8,
     199,172,193,80,12,217,62,98,34,187,76,41,194,1,3,90,200,205,22,94,40,100,125,226,18,189,27,103,90,66,49,160,
     11]
  length_digest := rfl
  digest_ne := by decide
  text_ne := by decide

namespace Demo

variable (d : Demo)

def crates : Crates where
  p256Point _ := false
  p256Verifies _ _ _ := false
  ed25519Point x := x = demoKey
  ed25519Verifies x message signature := x = demoKey && message = demoAuthData ++ d.digest && signature = d.signature
  rsaSize _ _ := none
  rsaVerifies _ _ _ _ := false
  sha256 bytes := if bytes = Text.asBytes d.text then d.digest else demoSite
  length_sha256 bytes := by
    split_ifs
    · exact d.length_digest
    · rfl
  base64 := Base64.standard
  parseJson bytes := if bytes = Text.asBytes d.text then some d.json else none

theorem sha256_text : d.crates.sha256 (Text.asBytes d.text) = d.digest := if_pos rfl

theorem parseJson_text : d.crates.parseJson (Text.asBytes d.text) = some d.json := if_pos rfl

theorem sha256_site : d.crates.sha256 (Text.asBytes "example.com") = demoSite := if_neg d.text_ne.symm

/-- The one key signs once. -/
def ideal : Ideal d.crates where
  hashed := {Text.asBytes d.text,Text.asBytes "example.com"}
  signed _ authData clientData := authData = demoAuthData ∧ clientData = Text.asBytes d.text
  injOn_hashed := by
    rintro _ (rfl | rfl) _ (rfl | rfl) heq
    · rfl
    · rw [d.sha256_text,d.sha256_site] at heq
      exact absurd heq d.digest_ne
    · rw [d.sha256_text,d.sha256_site] at heq
      exact absurd heq.symm d.digest_ne
    · rfl
  hashed_of_signed _ _ _ h := .inl h.2
  unforgeable key message signature h := by
    refine ⟨demoAuthData,Text.asBytes d.text,⟨rfl,rfl⟩,?_⟩
    rw [d.sha256_text]
    rw [CoseKey.verify] at h
    split_ifs at h with hverified
    cases key with
    | es256 x y => simp [CoseKey.verified,crates] at hverified
    | rs256 n e => simp [CoseKey.verified,crates,CoseKey.rsaKey,Except.isOk,Except.toBool] at hverified
    | ed25519 x =>
      simp only [CoseKey.verified,crates,Bool.and_eq_true,decide_eq_true_eq] at hverified
      exact hverified.2.1.2

def state : AuthenticationState := ⟨[1,2,3,4],[],.required,300⟩

def credential : PasskeyCredential where
  id := [7,7]
  publicKey := [0xa4,0x01,0x01,0x03,0x27,0x20,0x06,0x21,0x58,0x20] ++ demoKey
  signCount := 0
  userHandle := [9]
  transports := []
  backupEligible := false
  backedUp := false
  aaguid := List.replicate 16 0
  attestation := "none"

def response : AuthenticationResponse where
  id := "Bwc"
  rawId := "Bwc="
  kind := "public-key"
  clientDataJson := Base64.standard.encode (Text.asBytes d.text)
  authenticatorData := Base64.standard.encode demoAuthData
  signature := Base64.standard.encode d.signature
  userHandle := some "CQ"

end Demo

def demoParty (origins : List String) : RelyingParty := ⟨"example.com","Example",origins,.required,false,.lenient,CoseAlgorithm.all⟩

/-- Base64 of the URL-safe alphabet has nothing to normalise. -/
theorem normalised_encode (bytes : List UInt8) : normalised (c.base64.encode bytes) = c.base64.encode bytes := by
  have hsymbols := List.all_eq_true.1 (c.base64.isSymbol_encode bytes)
  have hne : ∀ symbol ∈ (c.base64.encode bytes).toList, symbol ≠ '=' ∧ symbol ≠ '+' ∧ symbol ≠ '/' := by
    intro symbol hmem
    have hsymbol := hsymbols symbol hmem
    refine ⟨?_,?_,?_⟩ <;> (rintro rfl; exact absurd hsymbol (by decide))
  have htrim : (c.base64.encode bytes).toList.reverse.dropWhile (· = '=') = (c.base64.encode bytes).toList.reverse := by
    cases hrev : (c.base64.encode bytes).toList.reverse with
    | nil => rfl
    | cons symbol rest =>
      have hmem : symbol ∈ (c.base64.encode bytes).toList := List.mem_reverse.1 (hrev ▸ List.mem_cons_self)
      rw [List.dropWhile_cons_of_neg (by simpa using (hne symbol hmem).1)]
  have hmap : (c.base64.encode bytes).toList.map (fun symbol => if symbol = '+' then '-' else if symbol = '/' then '_' else symbol) =
      (c.base64.encode bytes).toList := by
    refine (List.map_congr_left fun symbol hmem => ?_).trans (List.map_id _)
    rw [if_neg (hne symbol hmem).2.1,if_neg (hne symbol hmem).2.2]
    rfl
  rw [normalised,htrim,List.reverse_reverse,hmap,String.ofList_toList]

theorem decode_encode (bytes : List UInt8) (field : String) : decode c (c.base64.encode bytes) field = .ok bytes := by
  rw [decode,normalised_encode,c.base64.decode_encode]

theorem demo_signs_in : (demoParty ["https://example.com"]).finishAuthentication demo.crates 0 Demo.state demo.response
    Demo.credential = .ok ⟨[7,7],1,true,false,false⟩ := by
  have hclientData : decode demo.crates demo.response.clientDataJson "clientDataJSON" = .ok (Text.asBytes demo.text) :=
    decode_encode _ _
  have htold : (demoParty ["https://example.com"]).checkClientData demo.crates (Text.asBytes demo.text) "webauthn.get"
      Demo.state.challenge = .ok () := by
    decide +kernel
  have hauthData : decode demo.crates demo.response.authenticatorData "authenticatorData" = .ok demoAuthData :=
    decode_encode _ _
  refine bind_eq_ok.2 ⟨(),by decide +kernel,bind_eq_ok.2 ⟨[7,7],by decide +kernel,?_⟩⟩
  refine bind_eq_ok.2 ⟨(),by decide +kernel,bind_eq_ok.2 ⟨(),by decide +kernel,?_⟩⟩
  refine bind_eq_ok.2 ⟨(),by decide +kernel,bind_eq_ok.2 ⟨_,hclientData,?_⟩⟩
  refine bind_eq_ok.2 ⟨(),htold,bind_eq_ok.2 ⟨_,hauthData,?_⟩⟩
  decide +kernel

theorem demo_sound : demo.ideal.Sound PassesOrigin {.authentication Demo.state} ∧
    (demoParty ["https://example.com"]).finishAuthentication demo.crates 0 Demo.state demo.response Demo.credential =
      .ok ⟨[7,7],1,true,false,false⟩ :=
  ⟨demo.ideal.sound (Set.injOn_singleton _ _),demo_signs_in⟩

theorem originless_accepted : ¬ ∀ (c : Crates) (w : Ideal c) (states : Set Ceremony), states.InjOn Ceremony.challenge →
    w.Sound NamesOrigin states := by
  intro h
  have hsound := h originless.crates originless.ideal {.authentication Demo.state} (Set.injOn_singleton _ _)
  have hclientData : decode originless.crates originless.response.clientDataJson "clientDataJSON" =
      .ok (Text.asBytes originless.text) := by
    decide
  have haccepted : (demoParty [""]).finishAuthentication originless.crates 0 Demo.state originless.response Demo.credential =
      .ok ⟨[7,7],1,true,false,false⟩ := by
    decide
  have hhashes : originless.ideal.Hashes originless.response.clientDataJson := by
    intro clientData hread
    cases hclientData.symm.trans hread
    exact .inl rfl
  obtain ⟨key,authData,clientData,-,hparts,-,hbinds⟩ := hsound.signIns _ _ _ _ _ _ hhashes haccepted
  cases hclientData.symm.trans (AuthenticationResponse.decode_of_parts hparts)
  obtain ⟨data,text,hdata,-,-,-,origin,-,horigin⟩ := hbinds.told
  cases originless.parseJson_text.symm.trans hdata
  have hnone : stringField originless.json "origin" = none := by decide
  rw [hnone] at horigin
  cases horigin

end Rainier.Mfa
