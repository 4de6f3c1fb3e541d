import Rainier.OAuth.Checks
import Rainier.OAuth.Steps

/-! # Where codes and tokens come from

The two endpoints speak to each other through sealed texts only, so what the token
endpoint reads back has to be traced to what the other wrote. In every reachable state
a code that opens was sealed for an approval, a refresh token that opens was sealed for
an access token that had been issued, and a request past its checks passed them on texts
that still open.
-/
namespace Rainier.OAuth
open Rainier AuthorizationServer

/-- What was sealed stays sealed. -/
def Keeps (vault vault' : String → Option Sealed) : Prop := ∀ text x, vault text = some x → vault' text = some x

theorem keeps_keep {vault : String → Option Sealed} {text : Option String} {payload : Sealed}
    (h : ∀ t, text = some t → vault t = none) : Keeps vault (keep vault text payload) := by
  intro t x hx
  cases text with
  | none => exact hx
  | some new =>
    have hne : t ≠ new := by
      rintro rfl
      rw [h t rfl] at hx
      cases hx
    exact (Function.update_of_ne hne ..).trans hx

theorem keep_eq_some {vault : String → Option Sealed} {text : Option String} {payload x : Sealed} {t : String}
    (h : keep vault text payload t = some x) : vault t = some x ∨ x = payload := by
  cases text with
  | none => exact .inl h
  | some new =>
    unfold keep at h
    dsimp only at h
    by_cases ht : t = new
    · subst ht
      rw [Function.update_self] at h
      exact .inr (Option.some.inj h).symm
    · rw [Function.update_of_ne ht] at h
      exact .inl h

theorem CodeChecked.mono {srv : AuthorizationServer} {now : ℤ} {vault vault' : String → Option Sealed} {r : Request}
    {client : Client} {payload : AuthCodePayload} {scopes : List String} (hv : Keeps vault vault')
    (h : CodeChecked srv now vault r client payload scopes) : CodeChecked srv now vault' r client payload scopes := by
  obtain ⟨text,htext,hopened⟩ := h.opens
  exact { h with opens := ⟨text,htext,hv text _ hopened⟩ }

theorem RefreshChecked.mono {srv : AuthorizationServer} {vault vault' : String → Option Sealed} {r : Request}
    {old : RefreshTokenPayload} {scopes : List String} (hv : Keeps vault vault')
    (h : RefreshChecked srv vault r old scopes) : RefreshChecked srv vault' r old scopes := by
  obtain ⟨text,htext,hopened⟩ := h.opens
  exact { h with opens := ⟨text,htext,hv text _ hopened⟩ }

/-- A request past its checks, as the vault bears it out. -/
structure Pending.Passed (srv : AuthorizationServer) (vault : String → Option Sealed) (p : Pending) : Prop where
  active : p.client.revoked = false
  exchange : srv.grantOf p.request = .ok .authorizationCode → ∃ payload, p.source = .code payload
  code : ∀ payload, p.source = .code payload → p.userId = payload.userId ∧
    CodeChecked srv p.checkedAt vault p.request p.client payload p.scopes
  refresh : ∀ old, p.source = .refresh old → RefreshChecked srv vault p.request old p.scopes

theorem Pending.Passed.mono {srv : AuthorizationServer} {vault vault' : String → Option Sealed} {p : Pending}
    (hv : Keeps vault vault') (h : p.Passed srv vault) : p.Passed srv vault' where
  active := h.active
  exchange := h.exchange
  code payload hp := ⟨(h.code payload hp).1,(h.code payload hp).2.mono hv⟩
  refresh old hp := (h.refresh old hp).mono hv

theorem check_passed {srv : AuthorizationServer} {now : ℤ} {vault : String → Option Sealed} {r : Request}
    {client : Client} {owner : Option String} {grant : Grant} {p : Pending} (hgrant : srv.grantOf r = .ok grant)
    (hactive : client.revoked = false) (h : srv.check now vault r client owner grant = .ok p) :
    p.Passed srv vault := by
  cases grant with
  | authorizationCode =>
    obtain ⟨⟨payload,scopes⟩,hcheck,h⟩ := bind_eq_ok.mp h
    cases h
    refine ⟨hactive,fun _ => ⟨payload,rfl⟩,fun payload' hp => ?_,nofun⟩
    cases hp
    exact ⟨rfl,checkCode_eq_ok hcheck⟩
  | refreshToken =>
    obtain ⟨⟨old,scopes⟩,hcheck,h⟩ := bind_eq_ok.mp h
    cases h
    refine ⟨hactive,fun hcode => ?_,nofun,fun old' hp => ?_⟩
    · rw [hgrant] at hcode
      cases hcode
    · cases hp
      exact checkRefresh_eq_ok hcheck
  | password =>
    obtain ⟨⟨user,scopes⟩,hcheck,h⟩ := bind_eq_ok.mp h
    cases h
    refine ⟨hactive,fun hcode => ?_,nofun,nofun⟩
    rw [hgrant] at hcode
    cases hcode
  | clientCredentials =>
    obtain ⟨scopes,hcheck,h⟩ := bind_eq_ok.mp h
    cases h
    refine ⟨hactive,fun hcode => ?_,nofun,nofun⟩
    rw [hgrant] at hcode
    cases hcode
  | personalAccess => cases h

/-- The payload sealed in the code an approval was answered with. -/
structure Approval.Seals (a : Approval) (payload : AuthCodePayload) : Prop where
  id : payload.authCodeId = a.codeId
  client : payload.clientId = a.accepted.authorization.clientId
  user : payload.userId = some a.user
  expires : payload.expireTime = timestamp a.expiresAt
  redirectUri : payload.redirectUri = a.accepted.authorization.redirectUri
  challenge : payload.codeChallenge = a.accepted.authorization.codeChallenge
  method : payload.codeChallengeMethod = a.accepted.authorization.codeChallengeMethod
  scopes : ∀ x ∈ payload.scopes, x ∈ a.accepted.authorization.scopes

def Phase.Traced (srv : AuthorizationServer) (s : State) : Phase → Prop
  | .approving a _ => a ∈ s.accepted
  | .coding a _ client => a ∈ s.accepted ∧ client.id = a.authorization.clientId
  | .authenticating r grant _ _ => srv.grantOf r = .ok grant
  | .checking r grant client => srv.grantOf r = .ok grant ∧ client.revoked = false
  | .spending p | .retiring p | .issuing p => p.Passed srv s.vault
  | .refreshing p access | .answered p access _ => ∃ i ∈ s.issued, i.pending = p ∧ i.access = access
  | .idle | .refused _ | .revocation _ _ _ _ | .revoking _ | .done => True

structure Traced (srv : AuthorizationServer) (s : State) : Prop where
  clients : KeyedClients s.store
  tasks : ∀ w, (s.tasks w).Traced srv s
  approvals : ∀ a ∈ s.approvals, a.accepted ∈ s.accepted
  issued : ∀ i ∈ s.issued, i.pending.Passed srv s.vault ∧ ∃ now, i.access = srv.accessRecord now i.pending i.access.id
  codes : ∀ text payload, s.vault text = some (.code payload) → ∃ a ∈ s.approvals, a.Seals payload
  refreshes : ∀ text old, s.vault text = some (.refresh old) →
    ∃ i ∈ s.issued, old.accessTokenId = i.access.id ∧ old.scopes = i.access.scopes

theorem traced_init (srv : AuthorizationServer) : Traced srv init where
  clients _ _ h := by cases h
  tasks _ := trivial
  approvals _ h := by cases h
  issued _ h := by cases h
  codes _ _ h := by cases h
  refreshes _ _ h := by cases h

variable {srv : AuthorizationServer} {s s' : State}

/-- Nothing is taken out of the logs or of the vault. -/
structure Grew (s s' : State) : Prop where
  accepted : ∀ a ∈ s.accepted, a ∈ s'.accepted
  approvals : ∀ a ∈ s.approvals, a ∈ s'.approvals
  issued : ∀ i ∈ s.issued, i ∈ s'.issued
  vault : Keeps s.vault s'.vault

theorem Moves.grew (h : Moves srv s s') : Grew s s' := by
  cases h with
  | quiet h => exact ⟨h.accepted ▸ fun _ => id,h.approvals ▸ fun _ => id,h.issued ▸ fun _ => id,h.vault ▸ fun _ _ => id⟩
  | accept r client a hvalid hclient =>
    exact ⟨fun _ => List.mem_cons_of_mem _,fun _ => id,fun _ => id,fun _ _ => id⟩
  | code w a user client choice hw hid htext =>
    exact ⟨fun _ => id,fun _ => List.mem_cons_of_mem _,fun _ => id,keeps_keep htext⟩
  | issue w p choice hw hid => exact ⟨fun _ => id,fun _ => id,fun _ => List.mem_cons_of_mem _,fun _ _ => id⟩
  | refresh w p access choice hw hid htext => exact ⟨fun _ => id,fun _ => id,fun _ => id,keeps_keep htext⟩
  | _ => exact ⟨fun _ => id,fun _ => id,fun _ => id,fun _ _ => id⟩

theorem Phase.Traced.mono {phase : Phase} (hg : Grew s s') (h : phase.Traced srv s) : phase.Traced srv s' := by
  cases phase with
  | approving a user => exact hg.accepted a h
  | coding a user client => exact ⟨hg.accepted a h.1,h.2⟩
  | spending p => exact Pending.Passed.mono hg.vault h
  | retiring p => exact Pending.Passed.mono hg.vault h
  | issuing p => exact Pending.Passed.mono hg.vault h
  | refreshing p access =>
    obtain ⟨i,hi,h⟩ := h
    exact ⟨i,hg.issued i hi,h⟩
  | answered p access refresh =>
    obtain ⟨i,hi,h⟩ := h
    exact ⟨i,hg.issued i hi,h⟩
  | _ => exact h

theorem Traced.task (h : Traced srv s) {w : ℕ} {phase : Phase} (hw : s.tasks w = phase) : phase.Traced srv s :=
  hw ▸ h.tasks w

theorem Traced.step_clients (h : Traced srv s) (hm : Moves srv s s') : KeyedClients s'.store := by
  cases hm with
  | quiet hq => exact hq.clients h.clients
  | spend w p hw hspend =>
    intro id c hc
    exact h.clients id c (clients_spend srv s.store p.source ▸ hc)
  | _ => exact h.clients

theorem Traced.step_approvals (h : Traced srv s) (hm : Moves srv s s') :
    ∀ a ∈ s'.approvals, a.accepted ∈ s'.accepted := by
  intro a ha
  cases hm with
  | quiet hq => exact hq.accepted ▸ h.approvals a (hq.approvals ▸ ha)
  | accept r client b hvalid hclient => exact List.mem_cons_of_mem _ (h.approvals a ha)
  | code w b user client choice hw hid htext =>
    rcases List.mem_cons.mp ha with rfl | ha
    · have hphase := h.task hw
      exact hphase.1
    · exact h.approvals a ha
  | _ => exact h.approvals a ha

theorem Traced.step_codes (h : Traced srv s) (hm : Moves srv s s') :
    ∀ text payload, s'.vault text = some (.code payload) → ∃ a ∈ s'.approvals, a.Seals payload := by
  intro text payload ht
  cases hm with
  | quiet hq =>
    rw [hq.approvals]
    exact h.codes text payload (hq.vault ▸ ht)
  | code w b user client choice hw hid htext =>
    rcases keep_eq_some ht with ht | heq
    · obtain ⟨a,ha,hseals⟩ := h.codes text payload ht
      exact ⟨a,List.mem_cons_of_mem _ ha,hseals⟩
    · cases heq
      have hphase := h.task hw
      exact ⟨_,List.mem_cons_self,rfl,hphase.2,rfl,rfl,rfl,rfl,rfl,srv.scopes.finalize_subset _ _ _⟩
  | refresh w p access choice hw hid htext =>
    rcases keep_eq_some ht with ht | heq
    · exact h.codes text payload ht
    · cases heq
  | _ => exact h.codes text payload ht

theorem Traced.step_refreshes (h : Traced srv s) (hm : Moves srv s s') :
    ∀ text old, s'.vault text = some (.refresh old) →
      ∃ i ∈ s'.issued, old.accessTokenId = i.access.id ∧ old.scopes = i.access.scopes := by
  intro text old ht
  cases hm with
  | quiet hq =>
    rw [hq.issued]
    exact h.refreshes text old (hq.vault ▸ ht)
  | code w b user client choice hw hid htext =>
    rcases keep_eq_some ht with ht | heq
    · exact h.refreshes text old ht
    · cases heq
  | issue w p choice hw hid =>
    obtain ⟨i,hi,hold⟩ := h.refreshes text old ht
    exact ⟨i,List.mem_cons_of_mem _ hi,hold⟩
  | refresh w p access choice hw hid htext =>
    rcases keep_eq_some ht with ht | heq
    · exact h.refreshes text old ht
    · cases heq
      have hphase := h.task hw
      obtain ⟨i,hi,hp,haccess⟩ := hphase
      obtain ⟨_,now,hrow⟩ := h.issued i hi
      refine ⟨i,hi,by rw [haccess]; rfl,?_⟩
      rw [hrow,hp]
      rfl
  | _ => exact h.refreshes text old ht

theorem Traced.step_issued (h : Traced srv s) (hm : Moves srv s s') :
    ∀ i ∈ s'.issued, i.pending.Passed srv s'.vault ∧ ∃ now, i.access = srv.accessRecord now i.pending i.access.id := by
  intro i hi
  have hold : ∀ i ∈ s.issued,
      i.pending.Passed srv s'.vault ∧ ∃ now, i.access = srv.accessRecord now i.pending i.access.id := fun i hi =>
    ⟨(h.issued i hi).1.mono hm.grew.vault,(h.issued i hi).2⟩
  rcases hm.issued_cases with heq | ⟨j,hj⟩
  · exact hold i (heq ▸ hi)
  · rw [hj.issued] at hi
    rcases List.mem_cons.mp hi with rfl | hi
    · have hphase := h.task hj.task
      exact ⟨Pending.Passed.mono hm.grew.vault hphase,s.now,hj.access⟩
    · exact hold i hi

theorem Phase.Inert.traced {phase : Phase} (h : phase.Inert srv) (s : State) : phase.Traced srv s := by
  cases phase <;> first | exact h | exact h.elim

theorem Traced.step_tasks (h : Traced srv s) (hm : Moves srv s s') : ∀ w, (s'.tasks w).Traced srv s' := by
  intro w
  have hg := hm.grew
  have hold := (h.tasks w).mono hg
  cases hm with
  | quiet hq =>
    rcases hq.tasks w with heq | ⟨hinert,_⟩
    · rw [heq]
      exact hold
    · exact hinert.traced s'
  | accept r client a hvalid hclient => exact hold
  | approve w₁ a user ha hw => exact tasks_goto_elim (P := Phase.Traced srv _) ha hold
  | identify w₁ a user client hw hclient =>
    have hphase := h.task hw
    obtain ⟨hfound,_⟩ := activeClient_eq_some hclient
    exact tasks_goto_elim (P := Phase.Traced srv _) ⟨hphase,h.clients _ _ hfound⟩ hold
  | code w₁ a user client choice hw hid htext => exact tasks_goto_elim (P := Phase.Traced srv _) trivial hold
  | authenticate w₁ r grant clientId secret client hw hclient =>
    have hphase := h.task hw
    obtain ⟨_,hactive⟩ := activeClient_eq_some (authenticateClient_eq_ok hclient).1
    exact tasks_goto_elim (P := Phase.Traced srv _) ⟨hphase,hactive⟩ hold
  | check w₁ r grant client choice p hw hcheck =>
    have hphase := h.task hw
    have hpassed := check_passed hphase.1 hphase.2 hcheck
    refine tasks_goto_elim (P := Phase.Traced srv _) ?_ hold
    unfold checked
    split <;> exact hpassed
  | spend w₁ p hw hspend =>
    have hphase := h.task hw
    refine tasks_goto_elim (P := Phase.Traced srv _) ?_ hold
    unfold spent
    split <;> exact hphase
  | retire w₁ p old hw hsource =>
    have hphase := h.task hw
    exact tasks_goto_elim (P := Phase.Traced srv _) hphase hold
  | issue w₁ p choice hw hid =>
    refine tasks_goto_elim (P := Phase.Traced srv _) ?_ hold
    split
    · trivial
    · split
      · exact ⟨_,List.mem_cons_self,rfl,rfl⟩
      · exact ⟨_,List.mem_cons_self,rfl,rfl⟩
  | refresh w₁ p access choice hw hid htext =>
    have hphase := h.task hw
    refine tasks_goto_elim (P := Phase.Traced srv _) ?_ hold
    split
    · exact hphase
    · trivial

theorem Traced.step (h : Traced srv s) (hm : Moves srv s s') : Traced srv s' :=
  ⟨h.step_clients hm,h.step_tasks hm,h.step_approvals hm,h.step_issued hm,h.step_codes hm,h.step_refreshes hm⟩

end Rainier.OAuth
