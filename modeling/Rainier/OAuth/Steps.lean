import Rainier.OAuth.Run

/-! # What a step can do

`Moves` says everything a step changes, one case for each kind of step that matters to
the logs, the vault or a request past its checks. The rest are quiet: they begin or
refuse requests, set the clock, register clients, and revoke or purge rows.
-/
namespace Rainier.OAuth
open Rainier MemoryStore

/-- The request past its checks that a phase carries. -/
def Phase.pending : Phase → Option Pending
  | .spending p | .retiring p | .issuing p | .refreshing p _ | .answered p _ _ => some p
  | _ => none

/-- The one whose code or token has been spent and whose access token is not yet stored. -/
def Phase.claimed : Phase → Option Pending
  | .retiring p | .issuing p => some p
  | _ => none

/-- A phase without an authorization, a client or a request past its checks. -/
def Phase.Inert (srv : AuthorizationServer) : Phase → Prop
  | .authenticating r grant _ _ => srv.grantOf r = .ok grant
  | .idle | .refused _ | .revocation _ _ _ _ | .revoking _ | .done => True
  | _ => False

/-- No code and no refresh token that was not live has become so. -/
structure Faded (store store' : MemoryStore) : Prop where
  codes : NoneRevived AuthCodeRecord.revoked store.codes store'.codes
  refresh : NoneRevived RefreshTokenRecord.revoked store.refresh store'.refresh

theorem Faded.refl (store : MemoryStore) : Faded store store := ⟨.refl _ _,.refl _ _⟩

/-- A client is kept under its own identifier. -/
def KeyedClients (store : MemoryStore) : Prop := ∀ id c, store.clients id = some c → c.id = id

structure Quiet (srv : AuthorizationServer) (s s' : State) : Prop where
  store : Faded s.store s'.store
  clients : KeyedClients s.store → KeyedClients s'.store
  vault : s'.vault = s.vault
  used : s'.used = s.used
  tasks : ∀ w, s'.tasks w = s.tasks w ∨ ((s'.tasks w).Inert srv ∧ s'.tasks w ≠ .idle)
  accepted : s'.accepted = s.accepted
  approvals : s'.approvals = s.approvals
  issued : s'.issued = s.issued

inductive Moves (srv : AuthorizationServer) (s : State) : State → Prop where
  | quiet {s' : State} (h : Quiet srv s s') : Moves srv s s'
  | accept (r : Request) (client : Client) (a : AuthorizationRequest)
      (hvalid : srv.validateAuthorizationRequest r s.store.clients = .ok a)
      (hclient : (srv.query r "client_id").bind s.store.clients = some client) :
      Moves srv s { s with accepted := ⟨r,client,a⟩ :: s.accepted }
  | approve (w : ℕ) (a : Accepted) (user : String) (ha : a ∈ s.accepted) (hw : s.tasks w = .idle) :
      Moves srv s (s.goto w (.approving a user))
  | identify (w : ℕ) (a : Accepted) (user : String) (client : Client) (hw : s.tasks w = .approving a user)
      (hclient : AuthorizationServer.activeClient (s.store.clients a.authorization.clientId) = some client) :
      Moves srv s (s.goto w (.coding a user client))
  | code (w : ℕ) (a : Accepted) (user : String) (client : Client) (choice : Choice)
      (hw : s.tasks w = .coding a user client) (hid : choice.id ∉ s.used)
      (htext : ∀ text, choice.text = some text → s.vault text = none) :
      Moves srv s (srv.createCode s w a user client choice)
  | authenticate (w : ℕ) (r : Request) (grant : Grant) (clientId secret : String) (client : Client)
      (hw : s.tasks w = .authenticating r grant clientId secret)
      (hclient : srv.authenticateClient grant secret (s.store.clients clientId) = .ok client) :
      Moves srv s (s.goto w (.checking r grant client))
  | check (w : ℕ) (r : Request) (grant : Grant) (client : Client) (choice : Choice) (p : Pending)
      (hw : s.tasks w = .checking r grant client)
      (hcheck : srv.check s.now s.vault r client choice.owner grant = .ok p) :
      Moves srv s (s.goto w (AuthorizationServer.checked p))
  | spend (w : ℕ) (p : Pending) (hw : s.tasks w = .spending p) (hspend : (srv.spend s.store p.source).1 = true) :
      Moves srv s ({ s with store := (srv.spend s.store p.source).2 }.goto w (AuthorizationServer.spent p))
  | retire (w : ℕ) (p : Pending) (old : RefreshTokenPayload) (hw : s.tasks w = .retiring p)
      (hsource : p.source = .refresh old) :
      Moves srv s ({ s with store := (s.store.revokeAccessToken old.accessTokenId).2 }.goto w (.issuing p))
  | issue (w : ℕ) (p : Pending) (choice : Choice) (hw : s.tasks w = .issuing p) (hid : choice.id ∉ s.used) :
      Moves srv s (srv.createAccess s w p choice)
  | refresh (w : ℕ) (p : Pending) (access : AccessTokenRecord) (choice : Choice)
      (hw : s.tasks w = .refreshing p access) (hid : choice.id ∉ s.used)
      (htext : ∀ text, choice.text = some text → s.vault text = none) :
      Moves srv s (srv.createRefresh s w p access choice)

/-! The store's calls are quiet. -/

theorem faded_revoke (store : MemoryStore) (call : Revoke) : Faded store (call.apply store) := by
  cases call with
  | access id => exact ⟨.refl _ _,.refl _ _⟩
  | refresh id => exact ⟨.refl _ _,claim_noneRevived (fun _ => rfl) _ _⟩
  | refreshFor id =>
    refine ⟨.refl _ _,map_noneRevived (fun row h => ?_) _⟩
    split at h
    · cases h
    · exact h
  | code id => exact ⟨claim_noneRevived (fun _ => rfl) _ _,.refl _ _⟩

theorem clients_revoke (store : MemoryStore) (call : Revoke) : (call.apply store).clients = store.clients := by
  cases call <;> rfl

theorem faded_purge (store : MemoryStore) (o : PurgeOptions) : Faded store (store.purge o) :=
  ⟨filter_noneRevived _ _,filter_noneRevived _ _⟩

theorem faded_spend (srv : AuthorizationServer) (store : MemoryStore) (source : Source) :
    Faded store (srv.spend store source).2 := by
  cases source with
  | code payload => exact ⟨claim_noneRevived (fun _ => rfl) _ _,.refl _ _⟩
  | refresh old =>
    unfold AuthorizationServer.spend
    dsimp only
    split
    · exact ⟨.refl _ _,claim_noneRevived (fun _ => rfl) _ _⟩
    · exact .refl store
  | password => exact .refl store
  | clientCredentials => exact .refl store

theorem clients_spend (srv : AuthorizationServer) (store : MemoryStore) (source : Source) :
    (srv.spend store source).2.clients = store.clients := by
  cases source with
  | refresh old =>
    unfold AuthorizationServer.spend
    dsimp only
    split <;> rfl
  | code payload => rfl
  | password => rfl
  | clientCredentials => rfl

theorem keyed_insertClient {store : MemoryStore} (h : KeyedClients store) (c : Client) :
    KeyedClients (store.insertClient c) := by
  intro id c' hc
  unfold MemoryStore.insertClient at hc
  dsimp only at hc
  by_cases hid : id = c.id
  · subst hid
    rw [Function.update_self] at hc
    cases hc
    rfl
  · rw [Function.update_of_ne hid] at hc
    exact h id c' hc

/-- A task moves to a phase that carries nothing, and at most rows fade. -/
theorem quiet_goto {srv : AuthorizationServer} {s : State} {store : MemoryStore} (hstore : Faded s.store store)
    (hclients : store.clients = s.store.clients) (w : ℕ) {phase : Phase} (hphase : phase.Inert srv)
    (hne : phase ≠ .idle) : Quiet srv s ({ s with store := store }.goto w phase) where
  store := hstore
  clients h := by
    intro id c hc
    exact h id c (hclients ▸ hc)
  vault := rfl
  used := rfl
  tasks w' := tasks_goto_elim (P := fun ph => ph = s.tasks w' ∨ (ph.Inert srv ∧ ph ≠ .idle)) (.inr ⟨hphase,hne⟩) (.inl rfl)
  accepted := rfl
  approvals := rfl
  issued := rfl

theorem quiet_refl (srv : AuthorizationServer) (s : State) : Quiet srv s s where
  store := .refl _
  clients h := h
  vault := rfl
  used := rfl
  tasks _ := .inl rfl
  accepted := rfl
  approvals := rfl
  issued := rfl

theorem quiet_begin {srv : AuthorizationServer} (s : State) (w : ℕ) {phase : Phase} (hphase : phase.Inert srv)
    (hne : phase ≠ .idle) : Quiet srv s (AuthorizationServer.begin s w phase) := by
  unfold AuthorizationServer.begin
  split
  · exact quiet_goto (.refl _) rfl w hphase hne
  · exact quiet_refl srv s

theorem moveTask_moves (srv : AuthorizationServer) {s : State} {w : ℕ} {choice : Choice} (hid : choice.id ∉ s.used)
    (htext : ∀ text, choice.text = some text → s.vault text = none) : Moves srv s (srv.moveTask s w choice) := by
  unfold AuthorizationServer.moveTask
  split
  · rename_i a user hw
    split
    · rename_i client hclient
      exact .identify w a user client hw hclient
    · exact .quiet (quiet_goto (.refl _) rfl w trivial nofun)
  · rename_i a user client hw
    exact .code w a user client choice hw hid htext
  · rename_i r grant clientId secret hw
    split
    · rename_i client hclient
      exact .authenticate w r grant clientId secret client hw hclient
    · exact .quiet (quiet_goto (.refl _) rfl w trivial nofun)
  · rename_i r grant client hw
    split
    · rename_i p hcheck
      exact .check w r grant client choice p hw hcheck
    · exact .quiet (quiet_goto (.refl _) rfl w trivial nofun)
  · rename_i p hw
    dsimp only
    split
    · rename_i hspend
      exact .spend w p hw hspend
    · exact .quiet (quiet_goto (faded_spend srv _ _) (clients_spend srv _ _) w trivial nofun)
  · rename_i p hw
    split
    · rename_i old hsource
      exact .retire w p old hw hsource
    · exact .quiet (quiet_refl srv s)
  · rename_i p hw
    exact .issue w p choice hw hid
  · rename_i p access hw
    exact .refresh w p access choice hw hid htext
  · split
    · exact .quiet (quiet_goto (.refl _) rfl w trivial nofun)
    · exact .quiet (quiet_goto (.refl _) rfl w trivial nofun)
  · rename_i call rest hw
    exact .quiet (quiet_goto (faded_revoke _ call) (clients_revoke _ call) w trivial nofun)
  all_goals exact .quiet (quiet_refl srv s)

/-- Every step is one of the moves. -/
theorem step_moves (srv : AuthorizationServer) {s : State} {a : Label} (h : Fresh s a) :
    Moves srv s (srv.step s a) := by
  cases a with
  | clock now => exact .quiet ⟨.refl _,id,rfl,rfl,fun _ => .inl rfl,rfl,rfl,rfl⟩
  | insertClient client =>
    exact .quiet ⟨⟨.refl _ _,.refl _ _⟩,fun h => keyed_insertClient h client,rfl,rfl,fun _ => .inl rfl,rfl,rfl,rfl⟩
  | validate r =>
    unfold AuthorizationServer.step
    dsimp only
    split
    · rename_i a client hvalid hclient
      exact .accept r client a hvalid hclient
    · exact .quiet (quiet_refl srv s)
  | approve w a user =>
    unfold AuthorizationServer.step
    dsimp only
    split
    · rename_i ha
      unfold AuthorizationServer.begin
      split
      · rename_i hw
        exact .approve w a user ha hw
      · exact .quiet (quiet_refl srv s)
    · exact .quiet (quiet_refl srv s)
  | token w r =>
    unfold AuthorizationServer.step
    dsimp only
    split
    · exact .quiet (quiet_begin s w trivial nofun)
    · rename_i grant hgrant
      split
      · exact .quiet (quiet_begin s w trivial nofun)
      · exact .quiet (quiet_begin s w hgrant nofun)
  | revocation w r verified =>
    unfold AuthorizationServer.step
    dsimp only
    split
    · exact .quiet (quiet_begin s w trivial nofun)
    · exact .quiet (quiet_begin s w trivial nofun)
  | revoke w calls => exact .quiet (quiet_begin s w trivial nofun)
  | purge options =>
    exact .quiet ⟨faded_purge _ _,fun h => h,rfl,rfl,fun _ => .inl rfl,rfl,rfl,rfl⟩
  | move w choice => exact moveTask_moves srv h.1 h.2

/-! What the moves mean for the logs and for the requests past their checks. -/

section Views
variable {srv : AuthorizationServer} {s s' : State}

theorem Phase.Inert.claimed {phase : Phase} (h : phase.Inert srv) : phase.claimed = none := by
  cases phase <;> first | rfl | exact h.elim

/-- A token is issued by one task, for the request it carries, and by no other step. -/
structure Issues (srv : AuthorizationServer) (s s' : State) (i : Issue) : Prop where
  issued : s'.issued = i :: s.issued
  task : s.tasks i.task = .issuing i.pending
  after : (s'.tasks i.task).claimed = none
  busy : s'.tasks i.task ≠ .idle
  others : ∀ w, w ≠ i.task → s'.tasks w = s.tasks w
  access : i.access = srv.accessRecord s.now i.pending i.access.id
  fresh : i.access.id ∉ s.used
  used : s'.used = i.access.id :: s.used

theorem createAccess_issues (srv : AuthorizationServer) {s : State} {w : ℕ} {p : Pending} {choice : Choice}
    (hw : s.tasks w = .issuing p) (hid : choice.id ∉ s.used) :
    Issues srv s (srv.createAccess s w p choice) ⟨w,p,srv.accessRecord s.now p choice.id⟩ where
  issued := rfl
  task := hw
  after := by
    unfold AuthorizationServer.createAccess
    rw [tasks_goto_same]
    split
    · rfl
    · split <;> rfl
  busy := by
    unfold AuthorizationServer.createAccess
    rw [tasks_goto_same]
    split
    · nofun
    · split <;> nofun
  others w' hw' := tasks_goto_of_ne _ hw' _
  access := rfl
  fresh := hid
  used := rfl

theorem Moves.issued_cases (h : Moves srv s s') : s'.issued = s.issued ∨ ∃ i, Issues srv s s' i := by
  cases h with
  | quiet h => exact .inl h.issued
  | issue w p choice hw hid => exact .inr ⟨_,createAccess_issues srv hw hid⟩
  | _ => exact .inl rfl

/-- A request is claimed by spending what it is for, unless there is nothing to spend. -/
structure Claims (srv : AuthorizationServer) (s s' : State) (w : ℕ) (p : Pending) : Prop where
  task : s.tasks w = .spending p
  answer : (srv.spend s.store p.source).1 = true
  store : s'.store = (srv.spend s.store p.source).2
  used : s'.used = s.used
  issued : s'.issued = s.issued
  others : ∀ w', w' ≠ w → s'.tasks w' = s.tasks w'

def Source.needsSpending : Source → Prop
  | .code _ | .refresh _ => True
  | .password | .clientCredentials => False

theorem Moves.claimed_cases (h : Moves srv s s') {w : ℕ} {p : Pending} (hp : (s'.tasks w).claimed = some p) :
    (s.tasks w).claimed = some p ∨ ¬ p.source.needsSpending ∨ Claims srv s s' w p := by
  -- a task that moves to a phase that claims nothing leaves the claims of the others
  have hgoto : ∀ {s₁ : State} {w₁ : ℕ} {phase : Phase}, s₁.tasks = s.tasks → phase.claimed = none →
      ((s₁.goto w₁ phase).tasks w).claimed = some p → (s.tasks w).claimed = some p := by
    intro s₁ w₁ phase hs hphase
    refine tasks_goto_elim (P := fun ph => ph.claimed = some p → (s.tasks w).claimed = some p) ?_ ?_
    · rw [hphase]
      nofun
    · rw [hs]
      exact id
  cases h with
  | quiet h =>
    rcases h.tasks w with heq | ⟨hinert,_⟩
    · exact .inl (heq ▸ hp)
    · rw [hinert.claimed] at hp
      cases hp
  | accept r client a hvalid hclient => exact .inl hp
  | approve w₁ a user ha hw => exact .inl (hgoto rfl rfl hp)
  | identify w₁ a user client hw hclient => exact .inl (hgoto rfl rfl hp)
  | code w₁ a user client choice hw hid htext => exact .inl (hgoto rfl rfl hp)
  | authenticate w₁ r grant clientId secret client hw hclient => exact .inl (hgoto rfl rfl hp)
  | check w₁ r grant client choice q hw hcheck =>
    by_cases hsame : w = w₁
    · subst hsame
      rw [tasks_goto_same] at hp
      unfold AuthorizationServer.checked at hp
      split at hp
      · cases hp
      · cases hp
      · rename_i hsource
        cases hp
        exact .inr (.inl (by rw [hsource]; exact id))
      · rename_i hsource
        cases hp
        exact .inr (.inl (by rw [hsource]; exact id))
    · rw [tasks_goto_of_ne _ hsame] at hp
      exact .inl hp
  | spend w₁ q hw hspend =>
    by_cases hsame : w = w₁
    · subst hsame
      have hq : q = p := by
        rw [tasks_goto_same] at hp
        unfold AuthorizationServer.spent at hp
        split at hp <;> exact Option.some.inj hp
      subst hq
      exact .inr (.inr ⟨hw,hspend,rfl,rfl,rfl,fun w' hw' => tasks_goto_of_ne _ hw' _⟩)
    · rw [tasks_goto_of_ne _ hsame] at hp
      exact .inl hp
  | retire w₁ q old hw hsource =>
    by_cases hsame : w = w₁
    · subst hsame
      rw [tasks_goto_same] at hp
      rw [hw]
      exact .inl hp
    · rw [tasks_goto_of_ne _ hsame] at hp
      exact .inl hp
  | issue w₁ q choice hw hid =>
    refine .inl (hgoto rfl ?_ hp)
    repeat' split
    all_goals rfl
  | refresh w₁ q access choice hw hid htext =>
    refine .inl (hgoto rfl ?_ hp)
    split <;> rfl

/-- A task that has a request never loses it. -/
theorem Moves.busy (h : Moves srv s s') {w : ℕ} (hbusy : s.tasks w ≠ .idle) : s'.tasks w ≠ .idle := by
  cases h with
  | quiet h =>
    rcases h.tasks w with heq | ⟨_,hne⟩
    · rw [heq]
      exact hbusy
    · exact hne
  | accept r client a hvalid hclient => exact hbusy
  | check w₁ r grant client choice q hw hcheck =>
    refine tasks_goto_elim (P := (· ≠ .idle)) ?_ hbusy
    unfold AuthorizationServer.checked
    split <;> nofun
  | spend w₁ q hw hspend =>
    refine tasks_goto_elim (P := (· ≠ .idle)) ?_ hbusy
    unfold AuthorizationServer.spent
    split <;> nofun
  | issue w₁ q choice hw hid =>
    refine tasks_goto_elim (P := (· ≠ .idle)) ?_ hbusy
    repeat' split
    all_goals nofun
  | refresh w₁ q access choice hw hid htext =>
    refine tasks_goto_elim (P := (· ≠ .idle)) ?_ hbusy
    split <;> nofun
  | _ => exact tasks_goto_elim (P := (· ≠ .idle)) nofun hbusy

end Views

end Rainier.OAuth
