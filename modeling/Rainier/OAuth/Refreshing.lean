import Rainier.OAuth.Rereading
import Rainier.OAuth.ScopeChain

/-! # Refreshing without a scope parameter

A pair of tokens should give the next one as long as its refresh token is live. The scopes
of the old token are taken from their text, so that it depends on whether they are read
back.
-/
namespace Rainier.OAuth
open Rainier AuthorizationServer MemoryStore
variable {srv : AuthorizationServer} {s s' : State}

/-! ## What an issued token holds -/

/-- The scopes of a request past its checks are ones its client may have. -/
def Pending.Finalized (srv : AuthorizationServer) (p : Pending) : Prop :=
  ∃ named grant, p.scopes = srv.scopes.finalize named grant p.client

/-- The scopes of a refresh: those named, or else the old ones, read from their text. -/
theorem checkRefresh_named {now : ℤ} {opened : String → Option Sealed} {r : Request} {client : Client}
    {old : RefreshTokenPayload} {scopes : List String} (h : srv.checkRefresh now opened r client = .ok (old,scopes)) :
    ∃ named, srv.scopes.validate (some ((srv.param r "scope").getD (joinSpaces old.scopes))) = .ok named ∧
      (∀ x ∈ named, x ∈ old.scopes) ∧ srv.scopes.finalize named .refreshToken client = scopes := by
  obtain ⟨text,htext,hopened⟩ := (checkRefresh_eq_ok h).opens
  unfold checkRefresh at h
  rw [htext] at h
  obtain ⟨_,heq,h⟩ := bind_eq_ok.mp h
  cases heq
  dsimp only at h
  rw [hopened] at h
  obtain ⟨_,heq,h⟩ := bind_eq_ok.mp h
  cases heq
  split at h
  · cases h
  · split at h
    · cases h
    · obtain ⟨named,hnamed,h⟩ := bind_eq_ok.mp h
      split at h
      · cases h
      · next hnone =>
        cases h
        exact ⟨named,hnamed,fun x hx => by simpa using List.find?_eq_none.mp hnone x hx,rfl⟩

theorem check_finalized {now : ℤ} {opened : String → Option Sealed} {r : Request} {client : Client} {owner : Option String}
    {grant : Grant} {p : Pending} (h : srv.check now opened r client owner grant = .ok p) : p.Finalized srv := by
  cases grant with
  | authorizationCode =>
    obtain ⟨⟨payload,scopes⟩,hcode,h⟩ := bind_eq_ok.mp h
    cases h
    obtain ⟨named,-,hscopes⟩ := (checkCode_eq_ok hcode).scopes
    exact ⟨named,.authorizationCode,hscopes⟩
  | refreshToken =>
    obtain ⟨⟨old,scopes⟩,hrefresh,h⟩ := bind_eq_ok.mp h
    cases h
    obtain ⟨named,-,-,hscopes⟩ := checkRefresh_named hrefresh
    exact ⟨named,.refreshToken,hscopes.symm⟩
  | password =>
    obtain ⟨⟨user,scopes⟩,hpassword,h⟩ := bind_eq_ok.mp h
    cases h
    unfold checkPassword at hpassword
    obtain ⟨named,_,hpassword⟩ := bind_eq_ok.mp hpassword
    repeat' split at hpassword
    all_goals cases hpassword
    exact ⟨named,.password,rfl⟩
  | clientCredentials =>
    obtain ⟨scopes,hscopes,h⟩ := bind_eq_ok.mp h
    cases h
    unfold checkClientCredentials at hscopes
    split at hscopes
    · cases hscopes
    · obtain ⟨named,_,hscopes⟩ := bind_eq_ok.mp hscopes
      cases hscopes
      exact ⟨named,.clientCredentials,rfl⟩
  | personalAccess => cases h

/-- Tokens are issued with scopes their clients may have, and a refresh token that opens is
for the client of its access token. -/
structure Held (srv : AuthorizationServer) (s : State) : Prop where
  tasks : ∀ w p, (s.tasks w).pending = some p → p.Finalized srv
  issued : ∀ i ∈ s.issued, i.pending.Finalized srv
  clients : ∀ text old, s.vault text = some (.refresh old) →
    ∃ i ∈ s.issued, old.accessTokenId = i.access.id ∧ old.clientId = i.access.clientId

theorem held_init (srv : AuthorizationServer) : Held srv init where
  tasks _ _ h := by cases h
  issued _ h := by cases h
  clients _ _ h := by cases h

theorem Held.step_clients (h : Held srv s) (ht : Traced srv s) (hm : Moves srv s s') :
    ∀ text old, s'.vault text = some (.refresh old) →
      ∃ i ∈ s'.issued, old.accessTokenId = i.access.id ∧ old.clientId = i.access.clientId := by
  intro text old hold
  cases hm with
  | quiet hq =>
    rw [hq.issued]
    exact h.clients text old (hq.vault ▸ hold)
  | code w a user client choice hw hid htext =>
    rcases keep_eq_some hold with hold | heq
    · exact h.clients text old hold
    · cases heq
  | issue w p choice hw hid =>
    obtain ⟨i,hi,hpair⟩ := h.clients text old hold
    exact ⟨i,List.mem_cons_of_mem _ hi,hpair⟩
  | refresh w p access choice hw hid htext =>
    rcases keep_eq_some hold with hold | heq
    · exact h.clients text old hold
    · cases heq
      obtain ⟨i,hi,hp,haccess⟩ := ht.task hw
      obtain ⟨_,now,hrow⟩ := ht.issued i hi
      refine ⟨i,hi,by rw [haccess]; rfl,?_⟩
      rw [hrow,hp]
      rfl
  | _ => exact h.clients text old hold

theorem Held.step (h : Held srv s) (ht : Traced srv s) {label : Label} (hfresh : Fresh s label) :
    Held srv (srv.step s label) where
  tasks w p hp := by
    rcases step_pending hp with hold | ⟨choice,r,grant,client,rfl,hw,hcheck⟩
    · exact h.tasks w p hold
    · exact check_finalized hcheck
  issued i hi := by
    rcases (step_moves srv hfresh).issued_cases with heq | ⟨j,hj⟩
    · exact h.issued i (heq ▸ hi)
    · rw [hj.issued] at hi
      rcases List.mem_cons.mp hi with rfl | hi
      · exact h.tasks i.task i.pending (by rw [hj.task]; rfl)
      · exact h.issued i hi
  clients := h.step_clients ht (step_moves srv hfresh)

/-- What is known in every state a run comes to. -/
theorem run_held (srv : AuthorizationServer) (labels : List Label) (h : Trace.Along srv.step Fresh init labels) :
    Trace.Always srv.step (fun s => Traced srv s ∧ Distinct s ∧ Held srv s) init labels := by
  refine Trace.always_of_along ?_ ⟨traced_init srv,distinct_init,held_init srv⟩ h
  rintro s a ⟨htraced,hdistinct,hheld⟩ hfresh
  have hm := step_moves srv hfresh
  exact ⟨htraced.step hm,hdistinct.step hm,hheld.step htraced hfresh⟩

/-! ## The refresh -/

section Refresh
variable {w : ℕ} {r : Request} {client : Client} {old : RefreshTokenPayload} {text : String}

/-- The checks of a refresh without a scope parameter come down to its scopes. -/
theorem checkRefresh_iff {now : ℤ} {opened : String → Option Sealed} (htext : srv.param r "refresh_token" = some text)
    (hopened : opened text = some (.refresh old)) (hclient : client.id = old.clientId) (hexpire : timestamp now ≤ old.expireTime)
    (hscope : srv.param r "scope" = none) {scopes : List String} : srv.checkRefresh now opened r client = .ok (old,scopes) ↔
      ∃ named, srv.scopes.validate (some (joinSpaces old.scopes)) = .ok named ∧ (∀ x ∈ named, x ∈ old.scopes) ∧
        srv.scopes.finalize named .refreshToken client = scopes := by
  constructor
  · intro h
    obtain ⟨named,hnamed,hkept⟩ := checkRefresh_named h
    rw [hscope] at hnamed
    exact ⟨named,hnamed,hkept⟩
  · rintro ⟨named,hnamed,hsub,hkept⟩
    have hnone : named.find? (!old.scopes.contains ·) = none := List.find?_eq_none.mpr fun x hx => by simp [hsub x hx]
    unfold checkRefresh
    rw [htext]
    refine bind_eq_ok.mpr ⟨text,rfl,?_⟩
    dsimp only
    rw [hopened]
    refine bind_eq_ok.mpr ⟨old,rfl,?_⟩
    rw [if_neg (not_not.mpr hclient.symm),if_neg (not_lt.mpr hexpire),hscope]
    refine bind_eq_ok.mpr ⟨named,hnamed,?_⟩
    rw [hnone,hkept]
    rfl

theorem spend_of_live {store : MemoryStore} (h : Live RefreshTokenRecord.revoked store.refresh old.refreshTokenId) :
    (srv.spend store (.refresh old)).1 = true := by
  obtain ⟨row,hrow,hflag⟩ := h
  unfold spend
  dsimp only
  split
  · simp [revokeRefreshToken,claim,hrow,hflag]
  · simp [hrow,hflag]

/-- The task's moves, one behind the other. -/
def movesOf (w : ℕ) (choices : List Choice) : List Label := choices.map (.move w ·)

/-- A refused request stays refused. -/
theorem run_refused {e : OAuthError} (h : s.tasks w = .refused e) (choices : List Choice) :
    Trace.run srv.step s (movesOf w choices) = s := by
  induction choices with
  | nil => rfl
  | cons choice rest ih =>
    have hstay : srv.step s (.move w choice) = s := by
      rw [AuthorizationServer.step,moveTask,h]
    rw [movesOf,List.map_cons,Trace.run_cons,hstay]
    exact ih

variable {p : Pending} {choice issuing sealing : Choice}

/-- From the issuing on. -/
theorem run_issuing (hw : s.tasks w = .issuing p) (hsigned : issuing.signed = true) (hsealed : sealing.text ≠ none) :
    ∃ refresh, (Trace.run srv.step s (movesOf w [issuing,sealing])).tasks w =
        .answered p (srv.accessRecord s.now p issuing.id) refresh ∧
      (Trace.run srv.step s (movesOf w [issuing,sealing])).issued = ⟨w,p,srv.accessRecord s.now p issuing.id⟩ :: s.issued := by
  have hissued : srv.step s (.move w issuing) = srv.createAccess s w p issuing := by
    rw [AuthorizationServer.step,moveTask,hw]
  have hafter : (srv.createAccess s w p issuing).tasks w =
      if withRefresh p then .refreshing p (srv.accessRecord s.now p issuing.id)
      else .answered p (srv.accessRecord s.now p issuing.id) none := by
    rw [createAccess,tasks_goto_same,hsigned]
    rfl
  rw [movesOf,List.map_cons,List.map_cons,List.map_nil,Trace.run_cons,Trace.run_cons,Trace.run_nil,hissued]
  by_cases hrefresh : withRefresh p = true
  · rw [if_pos hrefresh] at hafter
    obtain ⟨text,htext⟩ := Option.ne_none_iff_exists'.mp hsealed
    have hstep : srv.step (srv.createAccess s w p issuing) (.move w sealing) =
        srv.createRefresh (srv.createAccess s w p issuing) w p (srv.accessRecord s.now p issuing.id) sealing := by
      rw [AuthorizationServer.step,moveTask,hafter]
    rw [hstep,createRefresh,tasks_goto_same,htext]
    exact ⟨some text,rfl,rfl⟩
  · rw [if_neg hrefresh] at hafter
    have hstep : srv.step (srv.createAccess s w p issuing) (.move w sealing) = srv.createAccess s w p issuing := by
      rw [AuthorizationServer.step,moveTask,hafter]
    rw [hstep]
    exact ⟨none,hafter,rfl⟩

/-- A refresh past its checks is answered when its token is live. -/
theorem run_refreshed (spending retiring : Choice) (hw : s.tasks w = .checking r .refreshToken client)
    (hcheck : srv.check s.now s.vault r client choice.owner .refreshToken = .ok p) (hsource : p.source = .refresh old)
    (hlive : Live RefreshTokenRecord.revoked s.store.refresh old.refreshTokenId) (hsigned : issuing.signed = true)
    (hsealed : sealing.text ≠ none) :
    ∃ refresh, (Trace.run srv.step s (movesOf w [choice,spending,retiring,issuing,sealing])).tasks w =
        .answered p (srv.accessRecord s.now p issuing.id) refresh ∧
      (Trace.run srv.step s (movesOf w [choice,spending,retiring,issuing,sealing])).issued =
        ⟨w,p,srv.accessRecord s.now p issuing.id⟩ :: s.issued := by
  have hchecked : srv.step s (.move w choice) = s.goto w (.spending p) := by
    rw [AuthorizationServer.step,moveTask,hw]
    simp only [hcheck,checked,hsource]
  have hspent : srv.step (s.goto w (.spending p)) (.move w spending) =
      { s.goto w (.spending p) with store := (srv.spend s.store p.source).2 }.goto w (.retiring p) := by
    have hanswer : (srv.spend s.store (.refresh old)).1 = true := spend_of_live hlive
    rw [AuthorizationServer.step,moveTask,tasks_goto_same]
    simp only [State.goto,hsource,hanswer,if_true,spent]
  have hretired (s : State) (hw : s.tasks w = .retiring p) : srv.step s (.move w retiring) =
      { s with store := (s.store.revokeAccessToken old.accessTokenId).2 }.goto w (.issuing p) := by
    rw [AuthorizationServer.step,moveTask,hw]
    simp only [hsource]
  have hmoves : movesOf w [choice,spending,retiring,issuing,sealing] =
      [.move w choice,.move w spending,.move w retiring] ++ movesOf w [issuing,sealing] := rfl
  rw [hmoves,Trace.run_append,Trace.run_cons,Trace.run_cons,Trace.run_cons,Trace.run_nil,hchecked,hspent,
    hretired _ (tasks_goto_same ..)]
  exact run_issuing (tasks_goto_same ..) hsigned hsealed

end Refresh

/-- A task that refreshes a pair of tokens without a scope parameter: it comes as the client
the pair was issued to, with the refresh token, which is neither expired nor revoked. -/
structure Renews (srv : AuthorizationServer) (s : State) (w : ℕ) (r : Request) (client : Client) (old : RefreshTokenPayload)
    (i : Issue) : Prop where
  task : s.tasks w = .checking r .refreshToken client
  token : ∃ text, srv.param r "refresh_token" = some text ∧ s.vault text = some (.refresh old)
  scope : srv.param r "scope" = none
  issue : i ∈ s.issued
  pair : old.accessTokenId = i.access.id
  holder : client.id = i.access.clientId
  allowed : client.scopes = i.pending.client.scopes
  unexpired : timestamp s.now ≤ old.expireTime
  live : Live RefreshTokenRecord.revoked s.store.refresh old.refreshTokenId

/-- The task is answered with a token that has the old scopes other than `*`. -/
def Renewed (s s' : State) (w : ℕ) (i : Issue) : Prop :=
  ∃ p access refresh, s'.tasks w = .answered p access refresh ∧ s'.issued = ⟨w,p,access⟩ :: s.issued ∧
    access.scopes = i.access.scopes.filter (· ≠ everything)

theorem renewed_iff {w : ℕ} {r : Request} {client : Client} {old : RefreshTokenPayload} {i : Issue} (ht : Traced srv s)
    (hd : Distinct s) (hh : Held srv s) (h : Renews srv s w r client old i) {choice spending retiring issuing sealing : Choice}
    (hsigned : issuing.signed = true) (hsealed : sealing.text ≠ none) :
    Renewed s (Trace.run srv.step s (movesOf w [choice,spending,retiring,issuing,sealing])) w i ↔
      Rereads srv.scopes.default i.access.scopes := by
  obtain ⟨text,htext,hopened⟩ := h.token
  obtain ⟨j,hj,hpair,hscopes⟩ := ht.refreshes text old hopened
  obtain rfl : j = i := hd.access_inj j hj i h.issue (hpair.symm.trans h.pair)
  obtain ⟨k,hk,hpair',hclient⟩ := hh.clients text old hopened
  obtain rfl : k = j := hd.access_inj k hk j hj (hpair'.symm.trans hpair)
  have hfinal : k.access.scopes.Nodup ∧ ∀ x ∈ k.access.scopes, srv.scopes.exists' x = true ∧ client.allowsScope x = true := by
    obtain ⟨_,now,haccess⟩ := ht.issued k hk
    obtain ⟨named,grant,hnamed⟩ := hh.issued k hk
    have hsound := finalize_sound srv.scopes named grant k.pending.client
    rw [haccess]
    have hallows (x : String) : client.allowsScope x = k.pending.client.allowsScope x := by
      rw [Client.allowsScope,Client.allowsScope,h.allowed]
    simp only [accessRecord,hallows]
    rw [hnamed]
    exact hsound
  rw [← reissue_iff hfinal.1 hfinal.2,← hscopes,
    ← checkRefresh_iff htext hopened (h.holder.trans hclient.symm) h.unexpired h.scope]
  constructor
  · rintro ⟨p,access,refresh,htask,-,haccess⟩
    cases hcheck : srv.check s.now s.vault r client choice.owner .refreshToken with
    | error e =>
      have hrefused : srv.step s (.move w choice) = s.goto w (.refused e) := by
        rw [AuthorizationServer.step,moveTask,h.task]
        simp only [hcheck]
      have hmoves : movesOf w [choice,spending,retiring,issuing,sealing] =
          .move w choice :: movesOf w [spending,retiring,issuing,sealing] := rfl
      rw [hmoves,Trace.run_cons,hrefused,run_refused (tasks_goto_same ..),tasks_goto_same] at htask
      cases htask
    | ok checked =>
      obtain ⟨⟨opened,scopes⟩,hrefresh,heq⟩ := bind_eq_ok.mp hcheck
      cases heq
      obtain ⟨text',htext',hopened'⟩ := (checkRefresh_eq_ok hrefresh).opens
      rw [htext] at htext'
      cases htext'
      rw [hopened] at hopened'
      cases hopened'
      obtain ⟨refresh',hanswered,-⟩ := run_refreshed spending retiring h.task hcheck rfl h.live hsigned hsealed
      rw [hanswered] at htask
      cases htask
      have hkept : scopes = k.access.scopes.filter (· ≠ everything) := haccess
      rw [hscopes,← hkept]
      exact hrefresh
  · intro hrefresh
    have hcheck : srv.check s.now s.vault r client choice.owner .refreshToken =
        .ok ⟨r,client,.refresh old,old.userId,old.scopes.filter (· ≠ everything),s.now⟩ := bind_eq_ok.mpr ⟨_,hrefresh,rfl⟩
    obtain ⟨refresh,hanswered,hissued⟩ := run_refreshed spending retiring h.task hcheck rfl h.live hsigned hsealed
    exact ⟨_,_,refresh,hanswered,hissued,by rw [← hscopes]; rfl⟩

/-- In every state a run comes to, a pair of tokens can be refreshed without a scope
parameter just when the text of its scopes is read back as they are. -/
theorem run_renewed_iff (srv : AuthorizationServer) (labels : List Label) (hfresh : Trace.Along srv.step Fresh init labels)
    {w : ℕ} {r : Request} {client : Client} {old : RefreshTokenPayload} {i : Issue}
    (h : Renews srv (Trace.run srv.step init labels) w r client old i) {choice spending retiring issuing sealing : Choice}
    (hsigned : issuing.signed = true) (hsealed : sealing.text ≠ none) :
    Renewed (Trace.run srv.step init labels)
        (Trace.run srv.step init (labels ++ movesOf w [choice,spending,retiring,issuing,sealing])) w i ↔
      Rereads srv.scopes.default i.access.scopes := by
  obtain ⟨ht,hd,hh⟩ := (run_held srv labels hfresh).last
  rw [Trace.run_append]
  exact renewed_iff ht hd hh h hsigned hsealed

namespace Small

/-- A refresh without a scope parameter. -/
def renewing (text : String) : Request :=
  ⟨[("grant_type",.string "refresh_token"),("client_id",.string "app"),("refresh_token",.string text)],[],none⟩

def quiet : Choice := ⟨"",none,true,none⟩

/-- The task `w` refreshes with `text`, and is answered with the refresh token `next`. -/
def renewed (w : ℕ) (text access refresh next : String) : List Label :=
  [.token w (renewing text),.move w quiet] ++
    movesOf w [quiet,quiet,quiet,⟨access,none,true,none⟩,⟨refresh,some next,true,none⟩]

/-- A pair of tokens for `account`, and a task that comes to refresh it. -/
def account : List Label :=
  approved none "account" ++ redeemed 1 "a1" ++ [.move 1 ⟨"r1",some "one",true,none⟩,.token 2 (renewing "one"),.move 2 quiet]

def accountIssue : Issue :=
  ⟨1,⟨exchange "code-text",client none,.code ⟨"app",none,"c1",["account"],some "user",600,none,none⟩,some "user",["account"],0⟩,
    ⟨"a1",some "user","app",["account"],false,0,3600000000000⟩⟩

/-- A server with the password grant, and a client that may use it. -/
def passwordServer (default : List String) : AuthorizationServer := { server default with passwordGrant := true }

def passwordClient : Client := { client none with grantTypes := ["password","refresh_token"] }

def login (scope : String) : Request :=
  ⟨[("grant_type",.string "password"),("client_id",.string "app"),("scope",.string scope),("username",.string "user"),
    ("password",.string "secret")],[],none⟩

/-- A user logs in for everything, and the pair is refreshed; a task comes to refresh the
next pair. -/
def star : List Label :=
  [.insertClient passwordClient,.token 1 (login "*"),.move 1 quiet,.move 1 ⟨"",none,true,some "user"⟩,
    .move 1 ⟨"a1",none,true,none⟩,.move 1 ⟨"r1",some "one",true,none⟩] ++ renewed 2 "one" "a2" "r2" "two" ++
    [.token 3 (renewing "two"),.move 3 quiet]

def starPayload : RefreshTokenPayload := ⟨"app","r2","a2",[],some "user",2592000⟩

def starIssue : Issue :=
  ⟨2,⟨renewing "one",passwordClient,.refresh ⟨"app","r1","a1",["*"],some "user",2592000⟩,some "user",[],0⟩,
    ⟨"a2",some "user","app",[],false,0,3600000000000⟩⟩

end Small

theorem account_renewed_iff :
    Renewed (Trace.run (Small.server ["vehicles"]).step init Small.account)
        (Trace.run (Small.server ["vehicles"]).step init (Small.account ++
          movesOf 2 [Small.quiet,Small.quiet,Small.quiet,⟨"a2",none,true,none⟩,⟨"r2",some "two",true,none⟩]))
        2 Small.accountIssue ↔
      Rereads ["vehicles"] ["account"] := by
  have h : Renews (Small.server ["vehicles"]) (Trace.run (Small.server ["vehicles"]).step init Small.account) 2 (Small.renewing "one")
      (Small.client none) ⟨"app","r1","a1",["account"],some "user",2592000⟩ Small.accountIssue := {
    task := by decide
    token := ⟨"one",by decide,by decide⟩
    scope := by decide
    issue := by decide
    pair := rfl
    holder := rfl
    allowed := rfl
    unexpired := by decide
    live := ⟨⟨"r1","a1",false,2592000000000000⟩,by decide,rfl⟩ }
  exact run_renewed_iff (Small.server ["vehicles"]) Small.account (by decide) h rfl (by decide)

/-- After a refresh that dropped `*` the scopes are none, which read as the default. -/
theorem star_stuck :
    Trace.Along (Small.passwordServer ["vehicles"]).step Fresh init Small.star ∧
      Renews (Small.passwordServer ["vehicles"]) (Trace.run (Small.passwordServer ["vehicles"]).step init Small.star) 3
        (Small.renewing "two") Small.passwordClient Small.starPayload Small.starIssue ∧
      (Trace.run (Small.passwordServer ["vehicles"]).step init (Small.star ++ [.move 3 Small.quiet])).tasks 3 =
        .refused (.invalidScope "vehicles") := by
  refine ⟨by decide,?_,by decide⟩
  exact {
    task := by decide
    token := ⟨"two",by decide,by decide⟩
    scope := by decide
    issue := by decide
    pair := rfl
    holder := rfl
    allowed := rfl
    unexpired := by decide
    live := ⟨⟨"r2","a2",false,2592000000000000⟩,by decide,rfl⟩ }

end Rainier.OAuth
