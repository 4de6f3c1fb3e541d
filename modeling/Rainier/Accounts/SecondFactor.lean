import Rainier.Accounts.Outcomes
import Rainier.Support.Trace

/-! # No login without the second factor

A user with a confirmed enrolment comes in by two requests that the session joins: a login
with the right password leaves a pending login there, and a challenge with a code or a
recovery code turns it into a session. Below logins, challenges, logouts and changes of the
enrolment are served one after the other, over any number of sessions and users, and what
each came to is written down, newest first.
-/
namespace Rainier.Accounts.SecondFactor
open Auth Trace

inductive Kind where
  | login
  | twoFactorChallenge
  | logout
  | enableTwoFactor
  | confirmTwoFactor
  | disableTwoFactor
  | regenerateRecoveryCodes
  deriving DecidableEq

variable {U Secret : Type} [AccountUser U] (verifies : String → String → Bool) (accounts : Accounts Secret)

def flow (request : Request) : Kind → Flow U Response
  | .login => login accounts request
  | .twoFactorChallenge => twoFactorChallenge accounts request
  | .logout => logout accounts request
  | .enableTwoFactor => enableTwoFactor accounts request
  | .confirmTwoFactor => confirmTwoFactor accounts request
  | .disableTwoFactor => disableTwoFactor accounts request
  | .regenerateRecoveryCodes => regenerateRecoveryCodes accounts request

/-- A request that was served, and what came of it. -/
structure Visit (U : Type) where
  before : World
  kind : Kind
  request : Request
  result : Except Refusal Response
  entries : Trace U
  after : World

structure State (U : Type) where
  world : World
  visits : List (Visit U)

def serve (w : World) (kind : Kind) (request : Request) (xs : ℕ → Outside U) : Visit U :=
  let done := Program.exec (handle verifies) (flow accounts request kind) xs w
  ⟨w,kind,request,done.1,done.2.2,done.2.1⟩

def step (s : State U) (a : (Kind × Request) × (ℕ → Outside U)) : State U :=
  let visit := serve verifies accounts s.world a.1.1 a.1.2 a.2
  ⟨visit.after,visit :: s.visits⟩

def start (w : World) : State U := ⟨w,[]⟩

/-- The password of the request is that of the user who was found under its address. -/
def Proven (request : Request) (entries : Trace U) (user : U) : Prop :=
  ⟨.findByEmail (normaliseEmail accounts (string accounts (input accounts request) "email")),.ok (some user)⟩ ∈ entries ∧
    ∃ hash, authPasswordHash user = some hash ∧ verifies (string accounts (input accounts request) "password") hash = true

/-- The visit is a login with the right password of this user, and has left this login pending
on the session. -/
structure Wrote (visit : Visit U) (session : ℕ) (pending : Pending) : Prop where
  kind : visit.kind = .login
  on : visit.request.session = session
  password : ∃ user, authIdentifier user = pending.id ∧ Proven verifies accounts visit.request visit.entries user
  left : ∃ held, visit.after.sessions session = some held ∧ pendingIn held = some pending

/-- The user was logged in by a challenge, for a login of theirs that was pending and had not
expired, and with a factor of theirs. -/
structure Passed (visit : Visit U) (earlier : List (Visit U)) (user : U) : Prop where
  kind : visit.kind = .twoFactorChallenge
  pending : ∃ pending seen, Waiting visit.request visit.before visit.after pending seen ∧ pending.id = authIdentifier user ∧
    ∃ wrote ∈ earlier, Wrote verifies accounts wrote visit.request.session pending
  factor : ∃ record, visit.before.records (authIdentifier user) = some record ∧ record.confirmed = true ∧
    Factor accounts visit.request (authIdentifier user) record visit.before visit.after visit.entries

/-- Who the session of the visit is logged in as, before and after. -/
def loggedIn (w : World) (session : ℕ) : Option String :=
  (w.sessions session).bind fun s => s.string accounts.formats.numberText authKey

structure Guarded (visit : Visit U) (earlier : List (Visit U)) : Prop where
  logins : ∀ user ∈ logins visit.entries, (visit.before.records (authIdentifier user)).any TwoFactorRecord.confirmed = true →
    Passed verifies accounts visit earlier user
  /-- A challenge with any other answer logs nobody in. -/
  rejected : visit.kind = .twoFactorChallenge → visit.result ≠ .ok (authenticated accounts visit.request) →
    Accounts.logins visit.entries = [] ∧
      loggedIn accounts visit.after visit.request.session = loggedIn accounts visit.before visit.request.session

/-- Every request so far was guarded by those before it. -/
def AllGuarded (s : State U) : Prop :=
  ∀ later visit earlier, s.visits = later ++ visit :: earlier → Guarded verifies accounts visit earlier

/-! ## Login -/

section Login
variable {verifies} {w : World} (request : Request)

/-- Nobody is logged in, and the session of the request is as it was. -/
structure Idle (request : Request) (w w' : World) (entries : Trace U) : Prop where
  left : Leaves request w w' (w.sessions request.session)
  announced : logins entries = []

omit [AccountUser U] in
theorem idle_of_still {w' : World} {entries : Trace U} (h : Still w w') (hentries : logins entries = []) :
    Idle request w w' entries := ⟨h.leaves request,hentries⟩

/-- The password was right, and a second factor is asked for. -/
structure Asked (request : Request) (w w' : World) (entries : Trace U) (user : U) : Prop where
  left : ∃ session fresh expiresAt, w.sessions request.session = some session ∧
    Leaves request w w' (some ((session.regenerate fresh).put pendingKey (Pending.toJson ⟨authIdentifier user,expiresAt⟩)))
  announced : logins entries = []

/-- The password was right, and no second factor is set up. -/
structure Admitted (request : Request) (w w' : World) (entries : Trace U) (user : U) : Prop where
  unenrolled : (w.records (authIdentifier user)).any TwoFactorRecord.confirmed = false
  left : ∃ session fresh, w.sessions request.session = some session ∧
    Leaves request w w' (some ((session.regenerate fresh).put authKey (.string (authIdentifier user))))
  announced : logins entries = [user]

/-- What comes of a login, once it is known who wants to come in. -/
inductive Outcome (request : Request) (w w' : World) (entries : Trace U) (user : U) : Prop
  | idle (h : Idle request w w' entries)
  | asked (h : Asked request w w' entries user)
  | admitted (h : Admitted request w w' entries user)

variable {request} in
theorem Outcome.after {v w' : World} {entries : Trace U} {user : U} (before : Trace U) (h : Outcome request v w' entries user)
    (hv : Still w v) (hbefore : logins before = []) : Outcome request w w' (before ++ entries) user := by
  have hlogins : logins (before ++ entries) = logins entries := by
    rw [logins_append,hbefore]
    rfl
  cases h with
  | idle h =>
    have hleft := h.left
    rw [hv.sessions] at hleft
    exact .idle ⟨(hv.leaves request).trans hleft,hlogins.trans h.announced⟩
  | asked h =>
    obtain ⟨session,fresh,expiresAt,hsession,hleft⟩ := h.left
    rw [hv.sessions] at hsession
    exact .asked ⟨⟨session,fresh,expiresAt,hsession,(hv.leaves request).trans hleft⟩,hlogins.trans h.announced⟩
  | admitted h =>
    obtain ⟨session,fresh,hsession,hleft⟩ := h.left
    have hrecord := h.unenrolled
    rw [hv.records] at hrecord
    rw [hv.sessions] at hsession
    exact .admitted ⟨hrecord,⟨session,fresh,hsession,(hv.leaves request).trans hleft⟩,hlogins.trans h.announced⟩

variable (hfeature : accounts.features.twoFactor = true)
include hfeature

theorem beginTwoFactor_spec (user : U) : Program.Ensures (handle verifies) (beginTwoFactor accounts request user) w
    fun r w' entries =>
      (∃ e, r = .error e) ∧ Idle request w w' entries ∨
      r = .ok none ∧ Still w w' ∧ logins entries = [] ∧ (w.records (authIdentifier user)).any TwoFactorRecord.confirmed = false ∨
      (∃ response, r = .ok (some response)) ∧ Asked request w w' entries user := by
  unfold beginTwoFactor configured
  rw [hfeature]
  dsimp only [Bool.not_true]
  rw [if_neg (by simp)]
  split
  · refine ensures_still trivial ?_ fun e w₁ hw₁ => .inl ⟨⟨e,rfl⟩,idle_of_still request hw₁ rfl⟩
    intro record w₁ hw₁ hrecord
    have hstored : w.records (authIdentifier user) = record := by
      rw [← hw₁.records]
      exact hrecord.symm
    split
    · next hnot =>
      refine Program.ensures_ok (.inr (.inl ⟨rfl,hw₁,rfl,?_⟩))
      rw [hstored]
      simpa using hnot
    · refine ensures_sure trivial ?_
      rintro (_ | session) w₂ hw₂ hsession
      · exact Program.ensures_error (.inl ⟨⟨_,rfl⟩,idle_of_still request (hw₁.trans hw₂) rfl⟩)
      · have hheld : w.sessions request.session = some session := by
          rw [← (hw₁.trans hw₂).sessions]
          exact hsession.symm
        refine ensures_sure trivial fun fresh w₃ hw₃ _ => ?_
        refine ensures_sure trivial fun t w₄ hw₄ _ => ?_
        refine ensures_store request fun w₅ hw₅ _ => ?_
        refine ensures_sure (by simp [SureOp]) fun _ w₆ hw₆ _ => ?_
        have hleft := ((((hw₁.trans hw₂).trans hw₃).trans hw₄).leaves request).trans (hw₅.trans (hw₆.leaves request))
        rw [hw₅.own] at hleft
        exact Program.ensures_ok (.inr (.inr ⟨⟨_,rfl⟩,⟨session,fresh,_,hheld,hleft⟩,rfl⟩))
  · exact Program.ensures_error (.inl ⟨⟨_,rfl⟩,idle_of_still request (Still.refl w) rfl⟩)

omit hfeature in
theorem uses_upgradeHash (user : U) (password : String) : Program.Uses StillOp (upgradeHash accounts user password) := by
  unfold upgradeHash
  split
  · trivial
  · exact Program.uses_perform trivial fun _ => Program.uses_perform trivial fun _ => trivial

theorem passwordProven_spec (key : String) (user : U) (password : String) :
    Program.Ensures (handle verifies) (passwordProven accounts request key user password) w
      fun _ w' entries => Outcome request w w' entries user := by
  refine (ensures_part ((uses_clear loginLimiter key).mono LimiterOp.still)).bind ?_ ?_
  · rintro _ w₁ before ⟨hw₁,hbefore⟩
    refine (ensures_part (uses_upgradeHash accounts user password)).bind ?_ ?_
    · rintro _ w₂ before' ⟨hw₂,hbefore'⟩
      have hafter : ∀ {w' entries}, Outcome request w₂ w' entries user → Outcome request w w' (before ++ (before' ++ entries)) user :=
        fun houtcome => (houtcome.after before' hw₂ hbefore').after before hw₁ hbefore
      refine (beginTwoFactor_spec accounts request hfeature user).bind ?_ ?_
      · rintro _ w₃ before'' (⟨⟨e,he⟩,_⟩ | ⟨he,hw₃,hbefore'',hrecord⟩ | ⟨⟨response,he⟩,hasked⟩)
        · cases he
        · cases he
          refine (completeLogin_spec accounts request user).mono ?_
          rintro r w₄ entries ⟨_,⟨hentries,hnone,hw₄⟩ | ⟨hentries,_,session,fresh,hsession,hw₄⟩⟩
          · have hidle : Idle request w₃ w₄ entries := ⟨hnone.symm ▸ hw₄,hentries⟩
            exact hafter ((Outcome.idle hidle).after before'' hw₃ hbefore'')
          · rw [← hw₃.records] at hrecord
            exact hafter ((Outcome.admitted ⟨hrecord,⟨session,fresh,hsession,hw₄⟩,hentries⟩).after before'' hw₃ hbefore'')
        · cases he
          apply Program.ensures_ok
          rw [List.append_nil]
          exact hafter (.asked hasked)
      · rintro e w₃ entries (⟨_,hidle⟩ | ⟨he,_⟩ | ⟨⟨_,he⟩,_⟩)
        · exact hafter (.idle hidle)
        · cases he
        · cases he
    · rintro e w₂ entries ⟨hw₂,hentries⟩
      exact (Outcome.idle (idle_of_still request hw₂ hentries)).after before hw₁ hbefore
  · rintro e w₁ entries ⟨hw₁,hentries⟩
    exact .idle (idle_of_still request hw₁ hentries)

omit hfeature in
theorem checkPassword_spec (user : Option U) (password : String) :
    Program.Ensures (handle verifies) (checkPassword user password) w fun r w' entries => Still w w' ∧ logins entries = [] ∧
      (r = .ok true → ∃ u hash, user = some u ∧ authPasswordHash u = some hash ∧ verifies password hash = true) := by
  unfold checkPassword
  split
  · next hash hhash =>
    refine ensures_sure trivial fun verified w' hw hverified => ?_
    refine Program.ensures_ok ⟨hw,rfl,?_⟩
    intro heq
    obtain ⟨u,hu,hpassword⟩ := Option.bind_eq_some_iff.mp hhash
    cases heq
    exact ⟨u,hash,hu,hpassword,hverified.symm⟩
  · exact ensures_sure trivial fun _ w' hw _ => Program.ensures_ok ⟨hw,rfl,by simp⟩

variable (verifies w) in
theorem login_spec : Program.Ensures (handle verifies) (login accounts request : Flow U Response) w
    fun _ w' entries => Idle request w w' entries ∨
      ∃ user, Proven verifies accounts request entries user ∧ Outcome request w w' entries user := by
  refine (validate_spec accounts _ _).bind ?_ ?_
  · rintro _ v _ ⟨hv,rfl⟩
    rw [hv]
    refine (ensures_part ((uses_peek loginLimiter _).mono LimiterOp.still)).bind ?_ ?_
    · rintro hit w₁ before ⟨hw₁,hbefore⟩
      have hidle : ∀ {w' : World} {entries : Trace U}, Still w₁ w' → logins entries = [] → Idle request w w' ([] ++ (before ++ entries)) := by
        intro w' entries hw' hentries
        refine idle_of_still request (hw₁.trans hw') ?_
        rw [List.nil_append,logins_append,hbefore,hentries]
        rfl
      split
      · refine ensures_sure (by simp [SureOp]) fun _ w₂ hw₂ _ => ?_
        exact Program.ensures_ok (.inl (hidle hw₂ rfl))
      · refine ensures_still trivial ?_ fun e w₂ hw₂ => .inl (hidle hw₂ rfl)
        intro user w₂ hw₂ _
        refine (checkPassword_spec user _).bind ?_ ?_
        · rintro verified w₃ before' ⟨hw₃,hbefore',hverified⟩
          split
          · refine (ensures_part ((uses_hit loginLimiter _ _).mono LimiterOp.still)).bind ?_ ?_
            · rintro _ w₄ before'' ⟨hw₄,hbefore''⟩
              refine ensures_sure (by simp [SureOp]) fun _ w₅ hw₅ _ => ?_
              refine Program.ensures_error (.inl (hidle (((hw₂.trans hw₃).trans hw₄).trans hw₅) ?_))
              change logins (before' ++ (before'' ++ _)) = []
              rw [logins_append,logins_append,hbefore',hbefore'']
              rfl
            · rintro e w₄ entries ⟨hw₄,hentries⟩
              refine .inl (hidle ((hw₂.trans hw₃).trans hw₄) ?_)
              change logins (before' ++ entries) = []
              rw [logins_append,hbefore',hentries]
              rfl
          · next found hfound =>
            obtain ⟨huser,hright⟩ := Option.filter_eq_some_iff.mp hfound
            cases hright
            obtain ⟨u,hash,hu,hhash,hverifies⟩ := hverified rfl
            cases hu.symm.trans huser
            refine (passwordProven_spec accounts request hfeature _ found _).mono ?_
            intro r w₄ entries houtcome
            refine .inr ⟨found,⟨?_,hash,hhash,hverifies⟩,?_⟩
            · rw [huser]
              exact List.mem_append_right before List.mem_cons_self
            · have hfirst := houtcome.after before' hw₃ hbefore'
              exact (hfirst.after [_] hw₂ rfl).after before hw₁ hbefore
        · rintro e w₃ entries ⟨hw₃,hentries,_⟩
          exact .inl (hidle (hw₂.trans hw₃) hentries)
    · rintro e w₁ entries ⟨hw₁,hentries⟩
      exact .inl (idle_of_still request hw₁ hentries)
  · rintro e v _ ⟨hv,rfl⟩
    rw [hv]
    exact .inl (idle_of_still request (Still.refl w) rfl)

end Login

/-! ## Logout and enrolment -/

section Enrolment
variable {verifies} {w : World} (request : Request)

variable (verifies w) in
theorem logout_spec : Program.Ensures (handle verifies) (logout accounts request : Flow U Response) w
    fun _ w' entries => logins entries = [] ∧ (Leaves request w w' (w.sessions request.session) ∨
      ∃ fresh, Leaves request w w' ((w.sessions request.session).map fun s => s.invalidate fresh)) := by
  refine (ensures_part (uses_guardUser request accounts (fun _ => trivial) fun _ => trivial)).bind ?_ ?_
  · rintro user w₁ before ⟨hw₁,hbefore⟩
    have hlogout : Program.Ensures (handle verifies) (guardLogout request : Flow U Unit) w₁ fun r w' entries => logins entries = [] ∧
        ∃ fresh, Leaves request w₁ w' ((w₁.sessions request.session).map fun s => s.invalidate fresh) := by
      refine ensures_sure trivial fun fresh w₂ hw₂ _ => ?_
      refine ensures_sure trivial ?_
      rintro (_ | session) w₃ hw₃ hsession
      · have hnone : w₁.sessions request.session = none := by
          rw [← (hw₂.trans hw₃).sessions]
          exact hsession.symm
        have hleft := (hw₂.trans hw₃).leaves request
        rw [hnone] at hleft ⊢
        exact Program.ensures_ok ⟨rfl,fresh,hleft⟩
      · have hsome : w₁.sessions request.session = some session := by
          rw [← (hw₂.trans hw₃).sessions]
          exact hsession.symm
        rw [hsome]
        refine ensures_store request fun w₄ hw₄ _ => ?_
        exact Program.ensures_ok ⟨rfl,fresh,((hw₂.trans hw₃).leaves request).trans hw₄⟩
    refine hlogout.bind ?_ ?_
    · rintro _ w₂ before' ⟨hbefore',fresh,hw₂⟩
      rw [hw₁.sessions] at hw₂
      have hleft := (hw₁.leaves request).trans hw₂
      cases user with
      | none =>
        refine Program.ensures_ok ⟨?_,.inr ⟨fresh,hleft⟩⟩
        rw [List.append_nil,logins_append,hbefore,hbefore']
        rfl
      | some user =>
        refine ensures_sure (by simp [SureOp]) fun _ w₃ hw₃ _ => ?_
        refine Program.ensures_ok ⟨?_,.inr ⟨fresh,?_⟩⟩
        · rw [logins_append,logins_append,hbefore,hbefore']
          rfl
        · have hlast := hleft.trans (hw₃.leaves request)
          rwa [hleft.own] at hlast
    · rintro e w₂ entries ⟨hentries,fresh,hw₂⟩
      rw [hw₁.sessions] at hw₂
      refine ⟨?_,.inr ⟨fresh,(hw₁.leaves request).trans hw₂⟩⟩
      rw [logins_append,hbefore,hentries]
      rfl
  · rintro e w₁ entries ⟨hw₁,hentries⟩
    exact ⟨hentries,.inl (hw₁.leaves request)⟩

variable (verifies w) in
/-- A flow that only changes the enrolment. -/
theorem enrolment_spec {m : Flow U Response} (h : Program.Uses EnrolmentOp m) :
    Program.Ensures (handle verifies) m w fun _ w' entries => Idle request w w' entries := by
  let Same (v v' : World) : Prop := v.clock ≤ v'.clock ∧ v'.sessions = v.sessions
  refine (h.ensures (R := Same) (fun _ => ⟨Nat.le_refl _,rfl⟩) ?_ ?_ w).mono ?_
  · rintro s t u ⟨hclock,hsame⟩ ⟨hclock',hsame'⟩
    exact ⟨hclock.trans hclock',hsame'.trans hsame⟩
  · intro x v o ho
    refine ⟨?_,?_⟩
    · rw [handle_clock]
      exact Nat.le_add_right _ _
    · apply handle_sessions
      rintro id session rfl
      exact ho.elim
  · rintro r w' entries ⟨⟨hclock,hsame⟩,hentries⟩
    exact ⟨⟨hclock,by rw [hsame],fun id _ => by rw [hsame]⟩,logins_of_enrolment hentries⟩

omit [AccountUser U] in
theorem uses_currentUser_enrolment : Program.Uses EnrolmentOp (currentUser accounts request : Flow U U) :=
  uses_currentUser request accounts (fun _ => trivial) fun _ => trivial

omit [AccountUser U] in
/-- A configured second factor, and what is done with it. -/
theorem uses_configured {α : Type} {f : Mfa.Totp Secret → Flow U α} (h : ∀ totp, Program.Uses EnrolmentOp (f totp)) :
    Program.Uses EnrolmentOp (configured accounts >>= f) := by
  unfold configured
  split
  · next totp _ => exact h totp
  · trivial

theorem uses_enableTwoFactor : Program.Uses EnrolmentOp (enableTwoFactor accounts request : Flow U Response) := by
  refine (uses_currentUser_enrolment accounts request).bind fun user => ?_
  refine (uses_requireConfirmedPassword request (fun _ => trivial) trivial).bind fun _ => ?_
  refine uses_configured accounts fun totp => ?_
  refine Program.uses_perform trivial fun record => ?_
  split
  · trivial
  · refine Program.uses_perform trivial fun secret => ?_
    refine Program.uses_perform trivial fun codes => ?_
    exact Program.uses_perform trivial fun _ => trivial

omit [AccountUser U] in
theorem uses_acceptCode (totp : Mfa.Totp Secret) (userId : String) (record : TwoFactorRecord) (code : String) :
    Program.Uses EnrolmentOp (acceptCode accounts totp userId record code : Flow U _) := by
  unfold acceptCode
  refine Program.Uses.bind ?_ fun secret => ?_
  · cases (accounts.fromBase32 record.secret).mapError Refusal.error <;> trivial
  · refine Program.uses_perform trivial fun t => ?_
    dsimp only [pure,Program.bind]
    split
    · trivial
    · refine Program.uses_perform trivial ?_
      rintro (e | (_ | _)) <;> trivial

theorem uses_confirmTwoFactor : Program.Uses EnrolmentOp (confirmTwoFactor accounts request : Flow U Response) := by
  refine (uses_currentUser_enrolment accounts request).bind fun user => ?_
  refine uses_configured accounts fun totp => ?_
  refine Program.uses_perform trivial ?_
  rintro (_ | record)
  · trivial
  · dsimp only
    split
    · trivial
    · refine (uses_acceptCode accounts totp _ record _).bind ?_
      rintro (_ | record)
      · trivial
      · exact Program.uses_perform trivial fun _ => Program.uses_perform trivial fun _ => trivial

omit [AccountUser U] in
theorem uses_disableTwoFactor : Program.Uses EnrolmentOp (disableTwoFactor accounts request : Flow U Response) := by
  refine (uses_currentUser_enrolment accounts request).bind fun user => ?_
  refine (uses_requireConfirmedPassword request (fun _ => trivial) trivial).bind fun _ => ?_
  refine uses_configured accounts fun totp => ?_
  refine Program.uses_perform trivial ?_
  rintro (_ | record)
  · trivial
  · exact Program.uses_perform trivial fun _ => Program.uses_perform trivial fun _ => trivial

omit [AccountUser U] in
theorem uses_regenerateRecoveryCodes :
    Program.Uses EnrolmentOp (regenerateRecoveryCodes accounts request : Flow U Response) := by
  refine (uses_currentUser_enrolment accounts request).bind fun user => ?_
  refine (uses_requireConfirmedPassword request (fun _ => trivial) trivial).bind fun _ => ?_
  refine uses_configured accounts fun totp => ?_
  refine Program.uses_perform trivial ?_
  rintro (_ | record)
  · trivial
  · refine Program.uses_perform trivial fun codes => ?_
    exact Program.uses_perform trivial fun _ => trivial

end Enrolment

/-! ## One request -/

structure Inv (s : State U) : Prop where
  guarded : AllGuarded verifies accounts s
  pending : ∀ id session pending, s.world.sessions id = some session → pendingIn session = some pending →
    ∃ wrote ∈ s.visits, Wrote verifies accounts wrote id pending

variable {verifies accounts} {s : State U} {visit : Visit U}

theorem Inv.visited (h : Inv verifies accounts s) (hguarded : Guarded verifies accounts visit s.visits)
    (hpending : ∀ id session pending, visit.after.sessions id = some session → pendingIn session = some pending →
      (∃ session', s.world.sessions id = some session' ∧ pendingIn session' = some pending) ∨ Wrote verifies accounts visit id pending) :
    Inv verifies accounts ⟨visit.after,visit :: s.visits⟩ := by
  constructor
  · intro later visit' earlier heq
    cases later with
    | nil =>
      cases heq
      exact hguarded
    | cons _ later => exact h.guarded later visit' earlier (List.cons.inj heq).2
  · intro id session pending hsession hp
    rcases hpending id session pending hsession hp with ⟨session',hsession',hp'⟩ | hwrote
    · obtain ⟨wrote,hmem,hwrote⟩ := h.pending id session' pending hsession' hp'
      exact ⟨wrote,List.mem_cons_of_mem _ hmem,hwrote⟩
    · exact ⟨visit,List.mem_cons_self,hwrote⟩

/-- A request after which the session of its own is another, or none. -/
theorem Inv.left {session : Option Session} (h : Inv verifies accounts s) (hguarded : Guarded verifies accounts visit s.visits)
    (hleft : Leaves visit.request s.world visit.after session)
    (hown : ∀ held pending, session = some held → pendingIn held = some pending →
      (∃ session', s.world.sessions visit.request.session = some session' ∧ pendingIn session' = some pending) ∨
        Wrote verifies accounts visit visit.request.session pending) :
    Inv verifies accounts ⟨visit.after,visit :: s.visits⟩ := by
  apply h.visited hguarded
  intro id held pending hheld hp
  by_cases hid : id = visit.request.session
  · subst hid
    exact hown held pending (hleft.own.symm.trans hheld) hp
  · rw [hleft.others id hid] at hheld
    exact .inl ⟨held,hheld,hp⟩

theorem Inv.idle (h : Inv verifies accounts s) (hidle : Idle visit.request s.world visit.after visit.entries)
    (hkind : visit.kind ≠ .twoFactorChallenge) : Inv verifies accounts ⟨visit.after,visit :: s.visits⟩ := by
  refine h.left ⟨?_,fun heq => absurd heq hkind⟩ hidle.left fun held pending hheld hp => .inl ⟨held,hheld,hp⟩
  rw [hidle.announced]
  simp

theorem pendingIn_forget (session : Session) : pendingIn (session.forget pendingKey) = none := by
  rw [pendingIn,Session.value_forget,if_pos rfl]
  rfl

theorem pendingIn_put (session : Session) (pending : Pending) : pendingIn (session.put pendingKey pending.toJson) = some pending := by
  rw [pendingIn,Session.value_put,if_pos rfl]
  rfl

theorem keys_ne : pendingKey ≠ authKey := by decide

theorem pendingIn_login (session : Session) (fresh : String) (user : Json) :
    pendingIn ((session.regenerate fresh).put authKey user) = pendingIn session := by
  rw [pendingIn,Session.value_put,if_neg keys_ne,Session.value_regenerate,pendingIn]

theorem Inv.login {user : U} (h : Inv verifies accounts s) (hbefore : visit.before = s.world) (hkind : visit.kind = .login)
    (hproven : Proven verifies accounts visit.request visit.entries user)
    (houtcome : Outcome visit.request s.world visit.after visit.entries user) :
    Inv verifies accounts ⟨visit.after,visit :: s.visits⟩ := by
  have hother : visit.kind ≠ .twoFactorChallenge := by simp [hkind]
  cases houtcome with
  | idle hidle => exact h.idle hidle hother
  | asked hasked =>
    obtain ⟨session,fresh,expiresAt,hsession,hleft⟩ := hasked.left
    refine h.left ⟨by simp [hasked.announced],fun heq => absurd heq hother⟩ hleft ?_
    intro held pending hheld hp
    cases hheld
    rw [pendingIn_put] at hp
    cases hp
    exact .inr ⟨hkind,rfl,⟨user,rfl,hproven⟩,_,hleft.own,pendingIn_put _ _⟩
  | admitted hadmitted =>
    obtain ⟨session,fresh,hsession,hleft⟩ := hadmitted.left
    refine h.left ⟨?_,fun heq => absurd heq hother⟩ hleft ?_
    · rw [hadmitted.announced,hbefore]
      intro user' huser' hconfirmed
      cases List.mem_singleton.mp huser'
      rw [hadmitted.unenrolled] at hconfirmed
      cases hconfirmed
    · intro held pending hheld hp
      cases hheld
      refine .inl ⟨session,hsession,?_⟩
      rwa [pendingIn_login] at hp

theorem Inv.rejected (h : Inv verifies accounts s) (hbefore : visit.before = s.world)
    (hrejected : Rejected visit.request s.world visit.after visit.entries) :
    Inv verifies accounts ⟨visit.after,visit :: s.visits⟩ := by
  have hguarded : loggedIn accounts visit.after visit.request.session = loggedIn accounts s.world visit.request.session →
      Guarded verifies accounts visit s.visits := by
    intro hsame
    refine ⟨by simp [hrejected.announced],fun _ _ => ⟨hrejected.announced,?_⟩⟩
    rw [hbefore]
    exact hsame
  rcases hrejected.left with hleft | hleft
  · refine h.left (hguarded ?_) hleft fun held pending hheld hp => .inl ⟨held,hheld,hp⟩
    rw [loggedIn,hleft.own,loggedIn]
  · refine h.left (hguarded ?_) hleft ?_
    · rw [loggedIn,hleft.own,loggedIn]
      cases s.world.sessions visit.request.session with
      | none => rfl
      | some session =>
        rw [Option.map_some,Option.bind_some,Option.bind_some,Session.string,Session.value_forget,if_neg keys_ne.symm,Session.string]
    · intro held pending hheld hp
      obtain ⟨session,_,rfl⟩ := Option.map_eq_some_iff.mp hheld
      rw [pendingIn_forget] at hp
      cases hp

theorem Inv.completed {user : U} {record : TwoFactorRecord} {pending : Pending} {seen : ℕ} (h : Inv verifies accounts s)
    (hbefore : visit.before = s.world) (hkind : visit.kind = .twoFactorChallenge)
    (hwaiting : Waiting visit.request s.world visit.after pending seen) (huser : authIdentifier user = pending.id)
    (hcompleted : Completed accounts visit.request user record s.world visit.result visit.after visit.entries) :
    Inv verifies accounts ⟨visit.after,visit :: s.visits⟩ := by
  obtain ⟨session,fresh,hsession,hleft⟩ := hcompleted.left
  refine h.left ⟨?_,fun _ hresult => absurd hcompleted.answer hresult⟩ hleft ?_
  · rw [hcompleted.announced]
    intro user' huser' _
    cases List.mem_singleton.mp huser'
    obtain ⟨held,hheld,hp⟩ := hwaiting.held
    obtain ⟨wrote,hmem,hwrote⟩ := h.pending _ held pending hheld hp
    refine ⟨hkind,⟨pending,seen,?_,huser.symm,wrote,hmem,hwrote⟩,record,?_,hcompleted.confirmed,?_⟩
    · rw [hbefore]
      exact hwaiting
    · rw [hbefore]
      exact hcompleted.stored
    · rw [hbefore]
      exact hcompleted.factor
  · intro held pending' hheld hp
    cases hheld
    rw [pendingIn_login,pendingIn_forget] at hp
    cases hp

theorem Inv.loggedOut (h : Inv verifies accounts s) (hkind : visit.kind = .logout) (hlogins : logins visit.entries = [])
    (hleft : Leaves visit.request s.world visit.after (s.world.sessions visit.request.session) ∨
      ∃ fresh, Leaves visit.request s.world visit.after ((s.world.sessions visit.request.session).map fun s => s.invalidate fresh)) :
    Inv verifies accounts ⟨visit.after,visit :: s.visits⟩ := by
  have hother : visit.kind ≠ .twoFactorChallenge := by simp [hkind]
  rcases hleft with hleft | ⟨fresh,hleft⟩
  · exact h.idle ⟨hleft,hlogins⟩ hother
  · refine h.left ⟨by simp [hlogins],fun heq => absurd heq hother⟩ hleft ?_
    intro held pending hheld hp
    obtain ⟨session,_,rfl⟩ := Option.map_eq_some_iff.mp hheld
    cases hp

/-! ## Every run -/

theorem Inv.step {a : (Kind × Request) × (ℕ → Outside U)} (hfeature : accounts.features.twoFactor = true)
    (h : Inv verifies accounts s) : Inv verifies accounts (SecondFactor.step verifies accounts s a) := by
  obtain ⟨⟨kind,request⟩,xs⟩ := a
  change Inv verifies accounts ⟨(serve verifies accounts s.world kind request xs).after,
    serve verifies accounts s.world kind request xs :: s.visits⟩
  cases kind with
  | login =>
    rcases login_spec verifies accounts s.world request hfeature xs with hidle | ⟨user,hproven,houtcome⟩
    · apply h.idle
      · exact hidle
      · simp [serve]
    · apply h.login
      · rfl
      · rfl
      · exact hproven
      · exact houtcome
  | twoFactorChallenge =>
    rcases twoFactorChallenge_spec verifies s.world accounts request xs with
      hrejected | ⟨pending,seen,user,record,hwaiting,huser,hcompleted⟩
    · apply h.rejected
      · rfl
      · exact hrejected
    · apply h.completed
      · rfl
      · rfl
      · exact hwaiting
      · exact huser
      · exact hcompleted
  | logout =>
    obtain ⟨hlogins,hleft⟩ := logout_spec verifies accounts s.world request xs
    apply h.loggedOut
    · rfl
    · exact hlogins
    · exact hleft
  | enableTwoFactor =>
    apply h.idle
    · exact enrolment_spec verifies s.world request (uses_enableTwoFactor accounts request) xs
    · simp [serve]
  | confirmTwoFactor =>
    apply h.idle
    · exact enrolment_spec verifies s.world request (uses_confirmTwoFactor accounts request) xs
    · simp [serve]
  | disableTwoFactor =>
    apply h.idle
    · exact enrolment_spec verifies s.world request (uses_disableTwoFactor accounts request) xs
    · simp [serve]
  | regenerateRecoveryCodes =>
    apply h.idle
    · exact enrolment_spec verifies s.world request (uses_regenerateRecoveryCodes accounts request) xs
    · simp [serve]

/-- With the second factor on, from sessions that wait for none, a user with a confirmed
enrolment is logged in by a challenge only, for a login of theirs with the right password that
has not expired, and with a factor of theirs; every other answer to a challenge leaves the
session's user as it was. -/
theorem guarded_by_second_factor (verifies : String → String → Bool) (accounts : Accounts Secret) (w : World)
    (requests : List ((Kind × Request) × (ℕ → Outside U))) (hfeature : accounts.features.twoFactor = true)
    (hw : ∀ id session, w.sessions id = some session → pendingIn session = none) :
    Always (SecondFactor.step verifies accounts) (AllGuarded verifies accounts) (start w) requests := by
  have hinv : Inv verifies accounts (start w : State U) := by
    constructor
    · intro later visit earlier heq
      simp [start] at heq
    · intro id session pending hsession hp
      rw [hw id session hsession] at hp
      cases hp
  exact (always_of_step (fun s a hs => hs.step hfeature) hinv requests).mono fun _ hs => hs.guarded

/-! Ada logs in with her password and a recovery code. -/

def ada : Account := ⟨"1",some "secret"⟩

def calm : ℕ → Outside Account := fun _ => ⟨0,none,some ada,"",[]⟩

def configuration : Accounts Unit := sample { Features.default with twoFactor := true }

def enrolled : World :=
  ⟨0,fun _ => some (Session.new ""),Cache.MemoryCache.empty,fun id => if id = "1" then some ⟨"",true,["a"],none⟩ else none⟩

def visits : List ((Kind × Request) × (ℕ → Outside Account)) :=
  [((.login,⟨0,.object [("email",.string "ada@example.com"),("password",.string "secret")],none,true⟩),calm),
    ((.twoFactorChallenge,⟨0,.object [("recovery_code",.string "b")],none,true⟩),calm),
    ((.twoFactorChallenge,⟨0,.object [("recovery_code",.string "a")],none,true⟩),calm)]

theorem guarded_by_second_factor_ada :
    Always (step (· == ·) configuration) (AllGuarded (· == ·) configuration) (start enrolled) visits ∧
      (run (step (· == ·) configuration) (start enrolled) visits).visits.map (fun visit => logins visit.entries) = [[ada],[],[]] := by
  refine ⟨guarded_by_second_factor (· == ·) configuration enrolled visits rfl ?_,?_⟩
  · intro id session hsession
    cases hsession
    rfl
  · decide

end Rainier.Accounts.SecondFactor
