import Rainier.OAuth.Provenance

/-! # Scopes along a chain of tokens

The exchange of a code reads the sealed scopes back through their text, and an empty list
reads back as the default: a client that was approved for nothing it may have is then
issued the default scopes. Where that does not happen, and the names are single words, a
token has no more scopes than the approval it descends from, and a refresh has no more
than the token it replaces.
-/
namespace Rainier.OAuth
open Rainier AuthorizationServer

/-- A token issued on a refresh token of another. -/
def Issue.Follows (i j : Issue) : Prop := ∃ old, i.pending.source = .refresh old ∧ old.accessTokenId = j.access.id

/-- A token issued on the approval's code, or on a refresh token of one that descends from
the approval. -/
inductive Descends (s : State) (a : Approval) : Issue → Prop where
  | exchange {i : Issue} (hi : i ∈ s.issued) (payload : AuthCodePayload) (hsource : i.pending.source = .code payload)
      (hcode : payload.authCodeId = a.codeId) : Descends s a i
  | refresh {i j : Issue} (hj : Descends s a j) (hi : i ∈ s.issued) (hfollows : i.Follows j) : Descends s a i

/-- No token has a scope that its approval or its predecessor lacks. -/
structure NoneWiden (s : State) : Prop where
  approved : ∀ a ∈ s.approvals, ∀ i, Descends s a i → ∀ x ∈ i.access.scopes, x ∈ a.accepted.authorization.scopes
  predecessor : ∀ a ∈ s.approvals, ∀ i j, Descends s a j → i ∈ s.issued → i.Follows j →
    ∀ x ∈ i.access.scopes, x ∈ j.access.scopes

/-- The default scopes leave the client nothing at an exchange: each is `*` or not allowed
to it, or one of them is unknown and the exchange is refused. -/
def AuthorizationServer.DefaultsNothing (srv : AuthorizationServer) (client : Client) : Prop :=
  (∃ x ∈ srv.scopes.default, srv.scopes.exists' x = false) ∨
    ∀ x ∈ srv.scopes.default, x = everything ∨ client.allowsScope x = false

/-- A sealed list that reads back as itself, or as nothing. -/
def ReadsBack (srv : AuthorizationServer) (client : Client) (scopes : List String) : Prop :=
  (scopes = [] → srv.DefaultsNothing client) ∧ ∀ x ∈ scopes, IsWord x

/-- The code a task is about to check, and the client that presents it. -/
def AuthorizationServer.presented (srv : AuthorizationServer) (s : State) (w : ℕ) : Option (Client × AuthCodePayload) :=
  match s.tasks w with
  | .checking r .authorizationCode client => match (srv.param r "code").bind s.vault with
    | some (.code payload) => some (client,payload)
    | _ => none
  | _ => none

/-- A code that is checked in this step reads back. -/
def Clean (srv : AuthorizationServer) (s : State) : Label → Prop
  | .move w _ => ∀ e ∈ srv.presented s w, ReadsBack srv e.1 e.2.scopes
  | _ => True

instance (srv : AuthorizationServer) (client : Client) : Decidable (srv.DefaultsNothing client) :=
  inferInstanceAs (Decidable (_ ∨ _))

instance (srv : AuthorizationServer) (client : Client) (scopes : List String) : Decidable (ReadsBack srv client scopes) :=
  inferInstanceAs (Decidable (_ ∧ _))

instance (srv : AuthorizationServer) (s : State) : (a : Label) → Decidable (Clean srv s a)
  | .move w _ => inferInstanceAs (Decidable (∀ e ∈ srv.presented s w, ReadsBack srv e.1 e.2.scopes))
  | .clock _ | .insertClient _ | .validate _ | .approve _ _ _ | .token _ _ | .revocation _ _ _ | .revoke _ _
  | .purge _ => inferInstanceAs (Decidable True)

variable {srv : AuthorizationServer} {s s' : State}

theorem CodeChecked.narrow {now : ℤ} {opened : String → Option Sealed} {r : Request} {client : Client}
    {payload : AuthCodePayload} {scopes : List String} (h : CodeChecked srv now opened r client payload scopes)
    (hreads : ReadsBack srv client payload.scopes) : ∀ x ∈ scopes, x ∈ payload.scopes := by
  intro x hx
  obtain ⟨named,hnamed,rfl⟩ := h.scopes
  obtain ⟨hmem,hallowed,heverything⟩ := Scopes.mem_finalize hx
  obtain ⟨hrequested,hknown⟩ := Scopes.validate_eq_ok hnamed
  rw [hrequested] at hmem hknown
  by_cases hempty : payload.scopes = []
  · -- the text of an empty list is empty, and `validate` takes the default in its place
    have hdefault : srv.scopes.requested (some (joinSpaces payload.scopes)) = srv.scopes.default := by
      rw [hempty]
      rfl
    rw [hdefault] at hmem hknown
    rcases hreads.1 hempty with ⟨y,hy,hunknown⟩ | hnothing
    · rw [hknown y hy] at hunknown
      cases hunknown
    · rcases hnothing x hmem with hx | hx
      · cases heverything hx
      · rw [hallowed] at hx
        cases hx
  · rwa [Scopes.requested_joinSpaces srv.scopes hempty hreads.2] at hmem

/-! Requests past their checks. -/

/-- An exchange that asks for no more than its code holds. -/
def Pending.Narrow (p : Pending) : Prop := ∀ payload, p.source = .code payload → ∀ x ∈ p.scopes, x ∈ payload.scopes

theorem pending_begin {s : State} {w w₁ : ℕ} {phase : Phase} {p : Pending} (hphase : phase.pending = none)
    (h : ((AuthorizationServer.begin s w₁ phase).tasks w).pending = some p) : (s.tasks w).pending = some p := by
  unfold AuthorizationServer.begin at h
  split at h
  · exact tasks_goto_elim (P := fun ph => ph.pending = some p → (s.tasks w).pending = some p)
      (by rw [hphase]; nofun) id h
  · exact h

theorem check_narrow {r : Request} {client : Client} {owner : Option String} {grant : Grant} {p : Pending}
    {w : ℕ} {choice : Choice} (hw : s.tasks w = .checking r grant client)
    (hclean : Clean srv s (.move w choice)) (hcheck : srv.check s.now s.vault r client owner grant = .ok p) :
    p.Narrow := by
  intro payload hp
  cases grant with
  | authorizationCode =>
    obtain ⟨⟨payload',scopes⟩,hcode,h⟩ := bind_eq_ok.mp hcheck
    cases h
    cases hp
    have hchecked := checkCode_eq_ok hcode
    obtain ⟨text,htext,hopened⟩ := hchecked.opens
    exact hchecked.narrow (hclean (client,payload) (by simp [presented,hw,htext,hopened]))
  | refreshToken =>
    obtain ⟨⟨old,scopes⟩,_,h⟩ := bind_eq_ok.mp hcheck
    cases h
    cases hp
  | password =>
    obtain ⟨⟨user,scopes⟩,_,h⟩ := bind_eq_ok.mp hcheck
    cases h
    cases hp
  | clientCredentials =>
    obtain ⟨scopes,_,h⟩ := bind_eq_ok.mp hcheck
    cases h
    cases hp
  | personalAccess => cases hcheck

theorem tasks_moveTask_of_ne (srv : AuthorizationServer) (s : State) {w w₁ : ℕ} (hw : w ≠ w₁) (choice : Choice) :
    (srv.moveTask s w₁ choice).tasks w = s.tasks w := by
  unfold moveTask
  dsimp only
  repeat' split
  all_goals first | rfl | exact tasks_goto_of_ne _ hw _

theorem pending_checked (p : Pending) : (checked p).pending = some p := by
  unfold checked
  split <;> rfl

theorem pending_spent (p : Pending) : (spent p).pending = some p := by
  unfold spent
  split <;> rfl

theorem pending_moveTask {w : ℕ} {choice : Choice} {p : Pending}
    (h : ((srv.moveTask s w choice).tasks w).pending = some p) :
    (s.tasks w).pending = some p ∨ ∃ r grant client, s.tasks w = .checking r grant client ∧
      srv.check s.now s.vault r client choice.owner grant = .ok p := by
  unfold moveTask at h
  dsimp only at h
  split at h
  · -- approving
    split at h <;> (rw [tasks_goto_same] at h; cases h)
  · -- coding
    cases (tasks_goto_same _ w _ ▸ h)
  · -- authenticating
    split at h <;> (rw [tasks_goto_same] at h; cases h)
  · rename_i r grant client hw
    split at h
    · rename_i q hcheck
      rw [tasks_goto_same,pending_checked] at h
      cases h
      exact .inr ⟨r,grant,client,hw,hcheck⟩
    · rw [tasks_goto_same] at h
      cases h
  · rename_i q hw
    split at h
    · rw [tasks_goto_same,pending_spent] at h
      rw [hw]
      exact .inl h
    · rw [tasks_goto_same] at h
      cases h
  · rename_i q hw
    split at h
    · rw [tasks_goto_same] at h
      rw [hw]
      exact .inl h
    · exact .inl h
  · rename_i q hw
    unfold createAccess at h
    rw [tasks_goto_same] at h
    rw [hw]
    repeat' split at h
    · cases h
    · exact .inl h
    · exact .inl h
  · rename_i q access hw
    unfold createRefresh at h
    rw [tasks_goto_same] at h
    rw [hw]
    split at h
    · exact .inl h
    · cases h
  · -- revocation
    split at h <;> (rw [tasks_goto_same] at h; cases h)
  · -- revoking
    rw [tasks_goto_same] at h
    cases h
  all_goals exact .inl h

/-- A request past its checks was so before the step, or the step made them. -/
theorem step_pending {label : Label} {w : ℕ} {p : Pending} (h : ((srv.step s label).tasks w).pending = some p) :
    (s.tasks w).pending = some p ∨ ∃ choice r grant client, label = .move w choice ∧
      s.tasks w = .checking r grant client ∧ srv.check s.now s.vault r client choice.owner grant = .ok p := by
  unfold AuthorizationServer.step at h
  cases label with
  | move w₁ choice =>
    by_cases hw : w = w₁
    · subst hw
      rcases pending_moveTask h with hold | ⟨r,grant,client,hchecking,hcheck⟩
      · exact .inl hold
      · exact .inr ⟨choice,r,grant,client,rfl,hchecking,hcheck⟩
    · rw [tasks_moveTask_of_ne srv s hw] at h
      exact .inl h
  | validate r =>
    dsimp only at h
    split at h <;> exact .inl h
  | approve w₁ a user =>
    dsimp only at h
    split at h
    · exact .inl (pending_begin rfl h)
    · exact .inl h
  | token w₁ r =>
    dsimp only at h
    repeat' split at h
    all_goals exact .inl (pending_begin rfl h)
  | revocation w₁ r verified =>
    dsimp only at h
    repeat' split at h
    all_goals exact .inl (pending_begin rfl h)
  | revoke w₁ calls => exact .inl (pending_begin rfl h)
  | clock now => exact .inl h
  | insertClient client => exact .inl h
  | purge options => exact .inl h

structure Narrowed (s : State) : Prop where
  tasks : ∀ w p, (s.tasks w).pending = some p → p.Narrow
  issued : ∀ i ∈ s.issued, i.pending.Narrow

theorem narrowed_init : Narrowed init where
  tasks _ _ h := by cases h
  issued _ h := by cases h

theorem Narrowed.step (h : Narrowed s) {label : Label} (hfresh : Fresh s label) (hclean : Clean srv s label) :
    Narrowed (srv.step s label) where
  tasks w p hp := by
    rcases step_pending hp with hold | ⟨choice,r,grant,client,rfl,hw,hcheck⟩
    · exact h.tasks w p hold
    · exact check_narrow hw hclean hcheck
  issued i hi := by
    rcases (step_moves srv hfresh).issued_cases with heq | ⟨j,hj⟩
    · exact h.issued i (heq ▸ hi)
    · rw [hj.issued] at hi
      rcases List.mem_cons.mp hi with rfl | hi
      · exact h.tasks i.task i.pending (by rw [hj.task]; rfl)
      · exact h.issued i hi

/-! Identifiers name one approval and one token each. -/

structure Distinct (s : State) : Prop where
  codes : ∀ a ∈ s.approvals, a.codeId ∈ s.used
  access : ∀ i ∈ s.issued, i.access.id ∈ s.used
  code_inj : ∀ a ∈ s.approvals, ∀ b ∈ s.approvals, a.codeId = b.codeId → a = b
  access_inj : ∀ i ∈ s.issued, ∀ j ∈ s.issued, i.access.id = j.access.id → i = j

theorem distinct_init : Distinct init where
  codes _ h := by cases h
  access _ h := by cases h
  code_inj _ h := by cases h
  access_inj _ h := by cases h

/-- A new entry under an identifier that was not used keeps a log one to one. -/
theorem inj_cons {α : Type} {id : α → String} {used : List String} {log : List α} {new : α}
    (hused : ∀ a ∈ log, id a ∈ used) (hnew : id new ∉ used) (hinj : ∀ a ∈ log, ∀ b ∈ log, id a = id b → a = b) :
    ∀ a ∈ new :: log, ∀ b ∈ new :: log, id a = id b → a = b := by
  intro a ha b hb hab
  rcases List.mem_cons.mp ha with rfl | hold
  · rcases List.mem_cons.mp hb with rfl | hold
    · rfl
    · exact absurd (hab ▸ hused b hold) hnew
  · rcases List.mem_cons.mp hb with rfl | hold'
    · exact absurd (hab ▸ hused a hold) hnew
    · exact hinj a hold b hold' hab

theorem Distinct.step (h : Distinct s) (hm : Moves srv s s') : Distinct s' := by
  cases hm with
  | quiet hq =>
    exact ⟨hq.approvals ▸ hq.used ▸ h.codes,hq.issued ▸ hq.used ▸ h.access,hq.approvals ▸ h.code_inj,
      hq.issued ▸ h.access_inj⟩
  | code w a user client choice hw hid htext =>
    exact {
      codes := List.forall_mem_cons.mpr ⟨List.mem_cons_self,fun b hb => List.mem_cons_of_mem _ (h.codes b hb)⟩
      access := fun i hi => List.mem_cons_of_mem _ (h.access i hi)
      code_inj := inj_cons h.codes hid h.code_inj
      access_inj := h.access_inj }
  | issue w p choice hw hid =>
    exact {
      codes := fun a ha => List.mem_cons_of_mem _ (h.codes a ha)
      access := List.forall_mem_cons.mpr ⟨List.mem_cons_self,fun i hi => List.mem_cons_of_mem _ (h.access i hi)⟩
      code_inj := h.code_inj
      access_inj := inj_cons h.access hid h.access_inj }
  | refresh w p access choice hw hid htext =>
    exact {
      codes := fun a ha => List.mem_cons_of_mem _ (h.codes a ha)
      access := fun i hi => List.mem_cons_of_mem _ (h.access i hi)
      code_inj := h.code_inj
      access_inj := h.access_inj }
  | _ => exact ⟨h.codes,h.access,h.code_inj,h.access_inj⟩

/-! Down the chain. -/

/-- Refreshing never widens, whatever the codes hold. -/
theorem Traced.follows (h : Traced srv s) (hd : Distinct s) {i j : Issue} (hi : i ∈ s.issued) (hj : j ∈ s.issued)
    (hfollows : i.Follows j) : ∀ x ∈ i.access.scopes, x ∈ j.access.scopes := by
  intro x hx
  obtain ⟨old,hsource,hid⟩ := hfollows
  obtain ⟨hpassed,now,haccess⟩ := h.issued i hi
  have hchecked := hpassed.refresh old hsource
  obtain ⟨text,_,hopened⟩ := hchecked.opens
  obtain ⟨k,hk,hkid,hscopes⟩ := h.refreshes text old hopened
  obtain rfl : k = j := hd.access_inj k hk j hj (hkid.symm.trans hid)
  rw [haccess] at hx
  exact hscopes ▸ hchecked.scopes x hx

theorem Descends.mem {a : Approval} {i : Issue} (h : Descends s a i) : i ∈ s.issued := by
  cases h with
  | exchange hi payload hsource hcode => exact hi
  | refresh hj hi hfollows => exact hi

theorem Traced.noneWiden (h : Traced srv s) (hd : Distinct s) (hn : Narrowed s) : NoneWiden s where
  approved a ha i hdesc := by
    induction hdesc with
    | @exchange i hi payload hsource hcode =>
      intro x hx
      obtain ⟨hpassed,now,haccess⟩ := h.issued i hi
      obtain ⟨_,hchecked⟩ := hpassed.code payload hsource
      obtain ⟨text,_,hopened⟩ := hchecked.opens
      obtain ⟨b,hb,hseals⟩ := h.codes text payload hopened
      obtain rfl : b = a := hd.code_inj b hb a ha (hseals.id.symm.trans hcode)
      rw [haccess] at hx
      exact hseals.scopes x (hn.issued i hi payload hsource x hx)
    | @refresh i j hj hi hfollows ih =>
      intro x hx
      exact ih x (h.follows hd hi hj.mem hfollows x hx)
  predecessor a _ i j hdesc hi hfollows := h.follows hd hi hdesc.mem hfollows

/-- In a run whose exchanges all read codes that read back, no token along a chain has a
scope the user did not approve, or one its predecessor lacked. -/
theorem run_none_widen (srv : AuthorizationServer) (labels : List Label)
    (h : Trace.Along srv.step (fun s a => Fresh s a ∧ Clean srv s a) init labels) :
    Trace.Always srv.step NoneWiden init labels := by
  have hinv : Trace.Always srv.step (fun s => Traced srv s ∧ Distinct s ∧ Narrowed s) init labels := by
    refine Trace.always_of_along ?_ ⟨traced_init srv,distinct_init,narrowed_init⟩ h
    rintro s a ⟨htraced,hdistinct,hnarrowed⟩ ⟨hfresh,hclean⟩
    have hm := step_moves srv hfresh
    exact ⟨htraced.step hm,hdistinct.step hm,hnarrowed.step hfresh hclean⟩
  exact hinv.mono fun s hs => hs.1.noneWiden hs.2.1 hs.2.2

namespace Small

def refreshing (text scope : String) : Request :=
  ⟨[("grant_type",.string "refresh_token"),("client_id",.string "app"),("refresh_token",.string text),
    ("scope",.string scope)],[],none⟩

/-- A code is exchanged, and the token it gave is refreshed. -/
def refreshed : List Label :=
  approved none "account" ++ redeemed 1 "a1" ++ [.move 1 ⟨"r1",some "refresh-text",true,none⟩,
    .token 2 (refreshing "refresh-text" "account"),.move 2 ⟨"",none,true,none⟩,.move 2 ⟨"",none,true,none⟩,
    .move 2 ⟨"",none,true,none⟩,.move 2 ⟨"",none,true,none⟩,.move 2 ⟨"a2",none,true,none⟩]

/-- The client may have `vehicles` only, and the user approved `account`. -/
def unasked : List Label := approved (some ["vehicles"]) "account" ++ redeemed 1 "a1"

end Small

theorem refreshed_none_widen :
    NoneWiden (Trace.run (Small.server ["vehicles"]).step init Small.refreshed) ∧
      (Trace.run (Small.server ["vehicles"]).step init Small.refreshed).issued.length = 2 :=
  ⟨(run_none_widen _ _ (by decide)).last,by decide⟩

/-- The token has `vehicles`, which is the default and nobody approved. -/
theorem unasked_widens :
    Trace.Along (Small.server ["vehicles"]).step Fresh init Small.unasked ∧
      ¬ NoneWiden (Trace.run (Small.server ["vehicles"]).step init Small.unasked) := by
  refine ⟨by decide,fun h => ?_⟩
  let payload : AuthCodePayload := ⟨"app",none,"c1",[],some "user",600,none,none⟩
  let pending : Pending := ⟨Small.exchange "code-text",Small.client (some ["vehicles"]),.code payload,some "user",
    ["vehicles"],0⟩
  have happroved := h.approved ⟨Small.accepted (some ["vehicles"]) "account","user","c1",600000000000⟩ (by decide)
    ⟨1,pending,(Small.server ["vehicles"]).accessRecord 0 pending "a1"⟩ (.exchange (by decide) payload rfl rfl)
    "vehicles" (by decide)
  revert happroved
  decide

end Rainier.OAuth
