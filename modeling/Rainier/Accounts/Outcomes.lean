import Rainier.Accounts.Footprints

/-! # What a request comes to

A request served alone, from its first operation to its last: which session it leaves, and
whom it has logged in.
-/
namespace Rainier.Accounts
open Auth Cache Mfa

variable {U Secret : Type}

/-- Whom a request has logged in. -/
def logins (entries : Trace U) : List U := entries.filterMap loginIn

theorem logins_append (before entries : Trace U) : logins (before ++ entries) = logins before ++ logins entries :=
  List.filterMap_append

theorem mem_logins {entries : Trace U} {user : U} : user ∈ logins entries ↔ ⟨.announce (.login user),.ok ()⟩ ∈ entries := by
  rw [logins,List.mem_filterMap]
  constructor
  · rintro ⟨e,he,hlogin⟩
    rwa [← loginIn_eq_some.mp hlogin]
  · intro h
    exact ⟨_,h,loginIn_eq_some.mpr rfl⟩

/-- Time has passed, and nothing else that matters here. -/
structure Still (w w' : World) : Prop where
  clock : w.clock ≤ w'.clock
  sessions : w'.sessions = w.sessions
  records : w'.records = w.records

theorem Still.refl (w : World) : Still w w := ⟨Nat.le_refl _,rfl,rfl⟩

theorem Still.trans {w w' w'' : World} (h : Still w w') (h' : Still w' w'') : Still w w'' :=
  ⟨Nat.le_trans h.clock h'.clock,h'.sessions.trans h.sessions,h'.records.trans h.records⟩

/-- Operations that write no session and log nobody in. -/
def EnrolmentOp : Op U → Prop
  | .store _ _ | .announce (.login _) => False
  | _ => True

/-- Those that write no enrolment either. -/
def StillOp : Op U → Prop
  | .saveTwoFactor _ _ => False
  | o => EnrolmentOp o

theorem StillOp.enrolment {o : Op U} (h : StillOp o) : EnrolmentOp o := by
  cases o with
  | saveTwoFactor user record => exact h.elim
  | _ => exact h

theorem loginIn_of_enrolment {e : Program.Entry (Op U) Op.Answer Refusal} (h : EnrolmentOp e.1) : loginIn e = none := by
  rcases e with ⟨o,r⟩
  cases o with
  | announce event =>
    cases event with
    | login user => exact h.elim
    | _ => rfl
  | _ => rfl

theorem logins_of_enrolment {entries : Trace U} (h : ∀ e ∈ entries, EnrolmentOp e.1) : logins entries = [] := by
  rw [logins,List.filterMap_eq_nil_iff]
  intro e he
  exact loginIn_of_enrolment (h e he)

theorem LimiterOp.still {l : CacheRateLimiter} {key : String} (o : Op U) (h : LimiterOp l key o) : StillOp o := by
  cases o with
  | store id session => exact h
  | saveTwoFactor user record => exact h
  | announce event => exact False.elim h
  | _ => trivial

section Rules
variable [AccountUser U] {verifies : String → String → Bool} {w : World} {α β : Type}

/-- What can be told of an answer. -/
def Answered (verifies : String → String → Bool) (w : World) : (o : Op U) → o.Answer → Prop
  | .session id, answer => answer = w.sessions id
  | .now, t => t = w.clock
  | .findById id, found => ∀ user, found = some user → authIdentifier user = id
  | .findTwoFactor user, record => record = w.records (authIdentifier user)
  | .verify password hash, verified => verified = verifies password hash
  | _, _ => True

theorem handle_sessions {o : Op U} {x : Outside U} (ho : ∀ id session, o ≠ .store id session) :
    (handle verifies x w o).2.sessions = w.sessions := by
  cases o with
  | store id session => exact absurd rfl (ho id session)
  | _ => simp only [handle,operate,Outside.attempt] <;> first | rfl | (split <;> rfl)

theorem handle_still {o : Op U} {x : Outside U} (ho : StillOp o) : Still w (handle verifies x w o).2 := by
  refine ⟨?_,?_,?_⟩
  · rw [handle_clock]
    exact Nat.le_add_right _ _
  · apply handle_sessions
    rintro id session rfl
    exact ho.elim
  · funext userId
    apply handle_records
    rintro user record rfl
    exact ho.elim

theorem handle_answered {o : Op U} {x : Outside U} {a : o.Answer} {w' : World} (h : handle verifies x w o = (.ok a,w')) :
    Answered verifies w' o a := by
  cases o with
  | session id =>
    cases h
    rfl
  | now =>
    cases h
    rfl
  | verify password hash =>
    cases h
    rfl
  | findById id =>
    simp only [handle,operate,Outside.attempt] at h
    split at h
    · cases h
    · cases h
      intro user huser
      obtain ⟨_,hid⟩ := Option.filter_eq_some_iff.mp huser
      exact of_decide_eq_true hid
  | findTwoFactor user =>
    simp only [handle,operate,Outside.attempt] at h
    split at h
    · cases h
    · cases h
      rfl
  | _ => trivial

/-- An operation that only looks, and what is done with its answer. -/
theorem ensures_still {o : Op U} {f : o.Answer → Flow U α} {Q : Except Refusal α → World → Trace U → Prop} (ho : StillOp o)
    (hok : ∀ a w', Still w w' → Answered verifies w' o a →
      Program.Ensures (handle verifies) (f a) w' fun r w entries => Q r w (⟨o,.ok a⟩ :: entries))
    (herror : ∀ e w', Still w w' → Q (.error e) w' [⟨o,.error e⟩]) :
    Program.Ensures (handle verifies) (Program.perform o >>= f) w Q := by
  have hstill : ∀ x r w', handle verifies x w o = (r,w') → Still w w' := by
    intro x r w' hh
    have hx : Still w (handle verifies x w o).2 := handle_still ho
    rwa [hh] at hx
  apply Program.ensures_call
  · intro x a w' hh
    exact hok a w' (hstill x _ w' hh) (handle_answered hh)
  · intro x e w' hh
    exact herror e w' (hstill x _ w' hh)

/-- The operations among them that answer in any case. -/
def SureOp : Op U → Prop
  | .session _ | .now | .generateSessionId | .setPasswordHash _ _ | .cacheAdd _ _ _ | .verify _ _ | .dummyVerify _ | .generateSecret
  | .generateCodes _ => True
  | .announce event => ∀ user, event ≠ .login user
  | _ => False

omit [AccountUser U] in
theorem SureOp.still {o : Op U} (h : SureOp o) : StillOp o := by
  cases o with
  | store id session => exact h
  | saveTwoFactor user record => exact h
  | announce event =>
    cases event with
    | login user => exact h user rfl
    | _ => trivial
  | _ => trivial

theorem ensures_sure {o : Op U} {f : o.Answer → Flow U α} {Q : Except Refusal α → World → Trace U → Prop} (ho : SureOp o)
    (hok : ∀ a w', Still w w' → Answered verifies w' o a →
      Program.Ensures (handle verifies) (f a) w' fun r w entries => Q r w (⟨o,.ok a⟩ :: entries)) :
    Program.Ensures (handle verifies) (Program.perform o >>= f) w Q := by
  apply Program.ensures_call
  · intro x a w' hh
    have hx : Still w (handle verifies x w o).2 := handle_still ho.still
    rw [hh] at hx
    exact hok a w' hx (handle_answered hh)
  · intro x e w' hh
    cases o with
    | findById id => exact ho.elim
    | findByEmail email => exact ho.elim
    | findTwoFactor user => exact ho.elim
    | saveTwoFactor user record => exact ho.elim
    | cacheGet key => exact ho.elim
    | cacheIncrement key by' => exact ho.elim
    | cacheForget key => exact ho.elim
    | hash password => exact ho.elim
    | _ => cases hh

/-- Parts that only look. -/
theorem ensures_part {m : Flow U α} (h : Program.Uses StillOp m) :
    Program.Ensures (handle verifies) m w fun _ w' entries => Still w w' ∧ logins entries = [] := by
  refine (h.ensures (Still.refl) (fun _ _ _ => Still.trans) (fun _ _ _ => handle_still) w).mono ?_
  rintro r w' entries ⟨hw,hentries⟩
  exact ⟨hw,logins_of_enrolment fun e he => (hentries e he).enrolment⟩

end Rules

/-! ## The session of a request -/

section Sessions
variable [AccountUser U] {verifies : String → String → Bool} {w : World} (accounts : Accounts Secret) (request : Request)

/-- Only the session of the request is another. -/
structure Leaves (request : Request) (w w' : World) (session : Option Session) : Prop where
  clock : w.clock ≤ w'.clock
  own : w'.sessions request.session = session
  others : ∀ id, id ≠ request.session → w'.sessions id = w.sessions id

theorem Still.leaves {w' : World} (h : Still w w') : Leaves request w w' (w.sessions request.session) :=
  ⟨h.clock,by rw [h.sessions],fun _ _ => by rw [h.sessions]⟩

variable {request} in
theorem Leaves.trans {w' w'' : World} {session session' : Option Session} (h : Leaves request w w' session)
    (h' : Leaves request w' w'' session') : Leaves request w w'' session' :=
  ⟨Nat.le_trans h.clock h'.clock,h'.own,fun id hid => (h'.others id hid).trans (h.others id hid)⟩

theorem ensures_store {session : Session} {α : Type} {f : Unit → Flow U α} {Q : Except Refusal α → World → Trace U → Prop}
    (h : ∀ w', Leaves request w w' (some session) → w'.records = w.records → Program.Ensures (handle verifies) (f ()) w'
      fun r w entries => Q r w (⟨.store request.session session,.ok ()⟩ :: entries)) :
    Program.Ensures (handle verifies) (store request.session session >>= f) w Q := by
  apply Program.ensures_call
  · intro x a w' hh
    cases hh
    apply h
    · exact ⟨Nat.le_add_right _ _,Function.update_self _ _ _,fun id hid => Function.update_of_ne hid _ _⟩
    · rfl
  · intro x e w' hh
    cases hh

theorem forgetPending_spec : Program.Ensures (handle verifies) (forgetPending request : Flow U Unit) w fun r w' entries =>
    r = .ok () ∧ Leaves request w w' ((w.sessions request.session).map fun s => s.forget pendingKey) ∧ w'.records = w.records ∧
      logins entries = [] := by
  refine ensures_sure trivial ?_
  rintro (_ | session) w' hw hsession
  · have hnone : w.sessions request.session = none := by
      rw [← hw.sessions]
      exact hsession.symm
    have hleaves := hw.leaves request
    rw [hnone] at hleaves ⊢
    exact Program.ensures_ok ⟨rfl,hleaves,hw.records,rfl⟩
  · have hsome : w.sessions request.session = some session := by
      rw [← hw.sessions]
      exact hsession.symm
    refine ensures_store request ?_
    intro w'' hleaves hrecords
    rw [hsome]
    exact Program.ensures_ok ⟨rfl,(hw.leaves request).trans hleaves,hrecords.trans hw.records,rfl⟩

/-- The guard logs the user in if there is a session to log them into. -/
theorem guardLogin_spec (user : U) : Program.Ensures (handle verifies) (guardLogin request user) w fun r w' entries =>
    logins entries = [] ∧ w'.records = w.records ∧
      (w.sessions request.session = none ∧ (∃ e, r = .error e) ∧ Leaves request w w' none ∨
        ∃ session fresh, w.sessions request.session = some session ∧ r = .ok () ∧
          Leaves request w w' (some ((session.regenerate fresh).put authKey (.string (authIdentifier user))))) := by
  refine ensures_sure trivial fun fresh w' hw _ => ?_
  refine ensures_sure trivial ?_
  rintro (_ | session) w'' hw' hsession
  · have hnone : w.sessions request.session = none := by
      rw [← hw.sessions,← hw'.sessions]
      exact hsession.symm
    have hleaves := (hw.trans hw').leaves request
    rw [hnone] at hleaves
    exact Program.ensures_error ⟨rfl,(hw.trans hw').records,.inl ⟨hnone,⟨_,rfl⟩,hleaves⟩⟩
  · have hsome : w.sessions request.session = some session := by
      rw [← hw.sessions,← hw'.sessions]
      exact hsession.symm
    refine ensures_store request ?_
    intro w''' hleaves hrecords
    refine Program.ensures_ok ⟨rfl,hrecords.trans (hw.trans hw').records,.inr ⟨session,fresh,hsome,rfl,?_⟩⟩
    exact ((hw.trans hw').leaves request).trans hleaves

/-- The answer of a completed login. -/
def authenticated : Response := respond request 200 [("authenticated",.bool true)] accounts.home

theorem completeLogin_spec (user : U) : Program.Ensures (handle verifies) (completeLogin accounts request user) w
    fun r w' entries => w'.records = w.records ∧
      (logins entries = [] ∧ w.sessions request.session = none ∧ Leaves request w w' none ∨
        logins entries = [user] ∧ r = .ok (authenticated accounts request) ∧
        ∃ session fresh, w.sessions request.session = some session ∧
          Leaves request w w' (some ((session.regenerate fresh).put authKey (.string (authIdentifier user))))) := by
  refine (guardLogin_spec request user).bind ?_ ?_
  · rintro _ w' before ⟨hbefore,hrecords,⟨_,⟨e,he⟩,_⟩ | ⟨session,fresh,hsession,_,hleaves⟩⟩
    · cases he
    · apply Program.ensures_call
      · intro x _ w'' hh
        cases hh
        apply Program.ensures_ok
        refine ⟨hrecords,.inr ⟨?_,rfl,session,fresh,hsession,hleaves.clock.trans (Nat.le_add_right _ _),hleaves.own,hleaves.others⟩⟩
        rw [logins_append,hbefore]
        rfl
      · intro x e w'' hh
        cases hh
  · rintro e w' entries ⟨hentries,hrecords,⟨hsession,_,hleaves⟩ | ⟨_,_,_,he,_⟩⟩
    · exact ⟨hrecords,.inl ⟨hentries,hsession,hleaves⟩⟩
    · cases he

end Sessions

/-! ## The second factor -/

section SecondFactor
variable [AccountUser U] {verifies : String → String → Bool} {w : World} (accounts : Accounts Secret) (request : Request)

/-- The request brings a code of a step that was free and is claimed now, or a recovery code
that is still there. -/
inductive Factor (accounts : Accounts Secret) (request : Request) (userId : String) (record : TwoFactorRecord) (w w' : World)
    (entries : Trace U) : Prop
  | code (totp : Totp Secret) (secret : Secret) (seen step : ℕ) (htotp : accounts.twoFactor = some totp)
    (hsecret : accounts.fromBase32 record.secret = .ok secret) (hfrom : w.clock ≤ seen) (hto : seen ≤ w'.clock)
    (hcode : totp.verifyAt secret (string accounts (input accounts request) "code") (seen / Duration.fromSecs 1) record.lastUsedStep =
      some step)
    (hclaim : ⟨.cacheAdd (claimKey userId step) "1" (some (Duration.fromSecs (5 * 60))),.ok (.ok true)⟩ ∈ entries)
  | recovery (hmem : Recovery.hash accounts.digest (string accounts (input accounts request) "recovery_code") ∈ record.recoveryCodes)

omit [AccountUser U] in
variable {accounts request} in
theorem Factor.widen {userId : String} {record : TwoFactorRecord} {v v' w' : World} {entries : Trace U} (before after : Trace U)
    (h : Factor accounts request userId record v v' entries) (hv : w.clock ≤ v.clock) (hv' : v'.clock ≤ w'.clock) :
    Factor accounts request userId record w w' (before ++ entries ++ after) := by
  cases h with
  | code totp secret seen step htotp hsecret hfrom hto hcode hclaim =>
    refine .code totp secret seen step htotp hsecret (hv.trans hfrom) (hto.trans hv') hcode ?_
    exact List.mem_append_left _ (List.mem_append_right _ hclaim)
  | recovery hmem => exact .recovery hmem

theorem acceptFactor_spec {totp : Totp Secret} (htotp : accounts.twoFactor = some totp) (userId : String) (record : TwoFactorRecord) :
    Program.Ensures (handle verifies) (acceptFactor accounts totp userId record (string accounts (input accounts request) "code")
        (string accounts (input accounts request) "recovery_code") : Flow U _) w
      fun r w' entries => Still w w' ∧ logins entries = [] ∧
        ∀ new, r = .ok (some new) → Factor accounts request userId record w w' entries := by
  unfold acceptFactor
  split
  · unfold acceptCode
    cases hsecret : accounts.fromBase32 record.secret with
    | error e => exact Program.ensures_error ⟨Still.refl w,rfl,by simp⟩
    | ok secret =>
      refine ensures_sure trivial fun t w' hw ht => ?_
      cases ht
      dsimp only [pure,Program.bind]
      split
      · exact Program.ensures_ok ⟨hw,rfl,by simp⟩
      · next step hstep =>
        refine ensures_sure trivial ?_
        rintro (e | (_ | _)) w'' hw' _
        · exact Program.ensures_error ⟨hw.trans hw',rfl,by simp⟩
        · exact Program.ensures_ok ⟨hw.trans hw',rfl,by simp⟩
        · refine Program.ensures_ok ⟨hw.trans hw',rfl,fun _ _ => ?_⟩
          exact .code totp secret w'.clock step htotp hsecret hw.clock hw'.clock hstep
            (List.mem_cons_of_mem _ List.mem_cons_self)
  · split
    · cases hconsume : Recovery.consume accounts.digest record.recoveryCodes
          (string accounts (input accounts request) "recovery_code") with
      | mk spent left =>
        cases spent with
        | false => exact Program.ensures_ok ⟨Still.refl w,rfl,by simp⟩
        | true =>
          refine ensures_sure (by simp [SureOp]) fun _ w' hw _ => ?_
          exact Program.ensures_ok ⟨hw,rfl,fun _ _ => .recovery (Recovery.consume_spent hconsume).1⟩
    · exact Program.ensures_ok ⟨Still.refl w,rfl,by simp⟩

/-- Nobody is logged in, and at most the pending login is gone. -/
structure Rejected (request : Request) (w w' : World) (entries : Trace U) : Prop where
  left : Leaves request w w' (w.sessions request.session) ∨
    Leaves request w w' ((w.sessions request.session).map fun s => s.forget pendingKey)
  announced : logins entries = []

/-- The user is logged in for one of their two factors. -/
structure Completed (accounts : Accounts Secret) (request : Request) (user : U) (record : TwoFactorRecord) (w : World)
    (r : Except Refusal Response) (w' : World) (entries : Trace U) : Prop where
  answer : r = .ok (authenticated accounts request)
  stored : w.records (authIdentifier user) = some record
  confirmed : record.confirmed = true
  factor : Factor accounts request (authIdentifier user) record w w' entries
  left : ∃ session fresh, w.sessions request.session = some session ∧
    Leaves request w w' (some (((session.forget pendingKey).regenerate fresh).put authKey (.string (authIdentifier user))))
  announced : logins entries = [user]

theorem ensures_save {user : U} {record : Option TwoFactorRecord} {α : Type} {f : Unit → Flow U α}
    {Q : Except Refusal α → World → Trace U → Prop}
    (hok : ∀ w', Leaves request w w' (w.sessions request.session) → Program.Ensures (handle verifies) (f ()) w'
      fun r w entries => Q r w (⟨.saveTwoFactor user record,.ok ()⟩ :: entries))
    (herror : ∀ e w', Leaves request w w' (w.sessions request.session) → Q (.error e) w' [⟨.saveTwoFactor user record,.error e⟩]) :
    Program.Ensures (handle verifies) (saveTwoFactor user record >>= f) w Q := by
  have hleaves : ∀ x r w', handle verifies x w (.saveTwoFactor user record) = (r,w') →
      Leaves request w w' (w.sessions request.session) := by
    intro x r w' hh
    simp only [handle,operate,Outside.attempt] at hh
    split at hh <;> cases hh <;> exact ⟨Nat.le_add_right _ _,rfl,fun _ _ => rfl⟩
  apply Program.ensures_call
  · intro x _ w' hh
    exact hok w' (hleaves x _ w' hh)
  · intro x e w' hh
    exact herror e w' (hleaves x _ w' hh)

/-- From a right factor on. -/
theorem factorAccepted_spec (user : U) (record : TwoFactorRecord) :
    Program.Ensures (handle verifies) (do
        saveTwoFactor user (some record)
        clear twoFactorLimiter (authIdentifier user)
        forgetPending request
        completeLogin accounts request user) w
      fun r w' entries => Rejected request w w' entries ∨ logins entries = [user] ∧ r = .ok (authenticated accounts request) ∧
        ∃ session fresh, w.sessions request.session = some session ∧
          Leaves request w w' (some (((session.forget pendingKey).regenerate fresh).put authKey (.string (authIdentifier user)))) := by
  refine ensures_save request ?_ fun e w' hw => .inl ⟨.inl hw,rfl⟩
  intro w₁ hw₁
  refine (ensures_part ((uses_clear twoFactorLimiter _).mono LimiterOp.still)).bind ?_ ?_
  · rintro _ w₂ before ⟨hw₂,hbefore⟩
    have hkept := hw₁.trans (hw₂.leaves request)
    rw [hw₁.own] at hkept
    refine (forgetPending_spec request).bind ?_ ?_
    · rintro _ w₃ before' ⟨_,hw₃,_,hbefore'⟩
      rw [hkept.own] at hw₃
      refine (completeLogin_spec accounts request user).mono ?_
      rintro r w₄ entries ⟨_,⟨hentries,hnone,hw₄⟩ | ⟨hentries,hr,session,fresh,hsession,hw₄⟩⟩
      · refine .inl ⟨.inl ?_,?_⟩
        · rw [hw₃.own,Option.map_eq_none_iff] at hnone
          rw [hnone]
          exact (hkept.trans hw₃).trans hw₄
        · change logins (before ++ (before' ++ entries)) = []
          rw [logins_append,logins_append,hbefore,hbefore',hentries]
          rfl
      · rw [hw₃.own,Option.map_eq_some_iff] at hsession
        obtain ⟨first,hfirst,rfl⟩ := hsession
        refine .inr ⟨?_,hr,first,fresh,hfirst,(hkept.trans hw₃).trans hw₄⟩
        change logins (before ++ (before' ++ entries)) = [user]
        rw [logins_append,logins_append,hbefore,hbefore',hentries]
        rfl
    · rintro e _ _ ⟨he,_⟩
      cases he
  · rintro e w₂ entries ⟨hw₂,hentries⟩
    have hkept := hw₁.trans (hw₂.leaves request)
    rw [hw₁.own] at hkept
    exact .inl ⟨.inl hkept,hentries⟩

theorem checkFactor_spec (user : U) {userId : String} (hid : authIdentifier user = userId) :
    Program.Ensures (handle verifies) (checkFactor accounts request user userId) w fun r w' entries =>
      Rejected request w w' entries ∨ ∃ record, Completed accounts request user record w r w' entries := by
  subst hid
  unfold checkFactor configured
  split
  · next totp htotp =>
    refine ensures_still trivial ?_ fun e w' hw => .inl ⟨.inl (hw.leaves request),rfl⟩
    intro found w₁ hw₁ hfound
    split
    · refine (forgetPending_spec request).bind ?_ ?_
      · rintro _ w₂ before ⟨_,hw₂,_,hbefore⟩
        rw [hw₁.sessions] at hw₂
        refine Program.ensures_error (.inl ⟨.inr ((hw₁.leaves request).trans hw₂),?_⟩)
        rw [List.append_nil]
        exact hbefore
      · rintro e _ _ ⟨he,_⟩
        cases he
    · next record hrecord =>
      obtain ⟨hread,hconfirmed⟩ := Option.filter_eq_some_iff.mp hrecord
      have hstored : w.records (authIdentifier user) = some record := by
        rw [← hw₁.records,← hread]
        exact hfound.symm
      refine (acceptFactor_spec accounts request htotp (authIdentifier user) record).bind ?_ ?_
      · rintro (_ | new) w₂ before ⟨hw₂,hbefore,hfactor⟩
        · refine (ensures_part ((uses_hit twoFactorLimiter _ _).mono LimiterOp.still)).bind ?_ ?_
          · rintro _ w₃ before' ⟨hw₃,hbefore'⟩
            refine ensures_sure (by simp [SureOp]) fun _ w₄ hw₄ _ => ?_
            refine Program.ensures_error (.inl ⟨.inl ((((hw₁.trans hw₂).trans hw₃).trans hw₄).leaves request),?_⟩)
            change logins (before ++ (before' ++ _)) = []
            rw [logins_append,logins_append,hbefore,hbefore']
            rfl
          · rintro e w₃ entries ⟨hw₃,hentries⟩
            refine .inl ⟨.inl (((hw₁.trans hw₂).trans hw₃).leaves request),?_⟩
            change logins (before ++ entries) = []
            rw [logins_append,hbefore,hentries]
            rfl
        · have hstill := hw₁.trans hw₂
          refine (factorAccepted_spec accounts request user new).mono ?_
          rintro r w₃ entries (⟨hleft,hentries⟩ | ⟨hentries,hr,session,fresh,hsession,hleft⟩)
          · refine .inl ⟨?_,?_⟩
            · rw [hstill.sessions] at hleft
              exact hleft.imp (hstill.leaves request).trans (hstill.leaves request).trans
            · change logins (before ++ entries) = []
              rw [logins_append,hbefore,hentries]
              rfl
          · refine .inr ⟨record,hr,hstored,hconfirmed,?_,?_,?_⟩
            · exact Factor.widen [_] entries (hfactor new rfl) hw₁.clock hleft.clock
            · rw [hstill.sessions] at hsession
              exact ⟨session,fresh,hsession,(hstill.leaves request).trans hleft⟩
            · change logins (before ++ entries) = [user]
              rw [logins_append,hbefore,hentries]
              rfl
      · rintro e w₂ entries ⟨hw₂,hentries,_⟩
        exact .inl ⟨.inl ((hw₁.trans hw₂).leaves request),hentries⟩
  · exact Program.ensures_error (.inl ⟨.inl ((Still.refl w).leaves request),rfl⟩)

/-- A login that waits on the session of the request. -/
structure Waiting (request : Request) (w w' : World) (pending : Pending) (seen : ℕ) : Prop where
  held : ∃ session, w.sessions request.session = some session ∧ pendingIn session = some pending
  since : w.clock ≤ seen
  until' : seen ≤ w'.clock
  live : seen / Duration.fromSecs 1 ≤ pending.expiresAt

variable {accounts request} in
theorem Completed.after {user : U} {record : TwoFactorRecord} {v w' : World} {r : Except Refusal Response} {entries : Trace U}
    (before : Trace U) (h : Completed accounts request user record v r w' entries) (hv : Still w v) (hbefore : logins before = []) :
    Completed accounts request user record w r w' (before ++ entries) := by
  obtain ⟨session,fresh,hsession,hleft⟩ := h.left
  refine ⟨h.answer,?_,h.confirmed,?_,⟨session,fresh,?_,(hv.leaves request).trans hleft⟩,?_⟩
  · rw [← hv.records]
    exact h.stored
  · have hfactor := Factor.widen before [] h.factor hv.clock (Nat.le_refl _)
    rwa [List.append_nil] at hfactor
  · rw [← hv.sessions]
    exact hsession
  · rw [logins_append,hbefore,h.announced]
    rfl

omit [AccountUser U] in
variable {request} in
theorem Rejected.after {v w' : World} {entries : Trace U} (before : Trace U) (h : Rejected request v w' entries) (hv : Still w v)
    (hbefore : logins before = []) : Rejected request w w' (before ++ entries) := by
  refine ⟨?_,?_⟩
  · have hleft := h.left
    rw [hv.sessions] at hleft
    exact hleft.imp (hv.leaves request).trans (hv.leaves request).trans
  · rw [logins_append,hbefore,h.announced]
    rfl

theorem livePending_spec (session : Session) : Program.Ensures (handle verifies) (livePending session : Flow U _) w
    fun r w' entries => Still w w' ∧ logins entries = [] ∧ ((∃ e, r = .error e) → False) ∧
      ∀ pending, r = .ok (some pending) → pendingIn session = some pending ∧ w'.clock / Duration.fromSecs 1 ≤ pending.expiresAt := by
  unfold livePending
  split
  · exact Program.ensures_ok ⟨Still.refl w,rfl,by simp,by simp⟩
  · next pending hpending =>
    refine ensures_sure trivial fun t w' hw ht => ?_
    cases ht
    dsimp only [pure,Program.bind]
    split
    · next hle =>
      refine Program.ensures_ok ⟨hw,rfl,by simp,?_⟩
      intro pending' heq
      cases heq
      exact ⟨hpending,hle⟩
    · exact Program.ensures_ok ⟨hw,rfl,by simp,by simp⟩

/-- The pending login is dropped and the request refused. -/
theorem forgotten_spec (e : Error) : Program.Ensures (handle verifies)
    (do
      forgetPending request
      refuse e : Flow U Response) w fun _ w' entries => Rejected request w w' entries := by
  refine (forgetPending_spec request).bind ?_ ?_
  · rintro _ w' before ⟨_,hw',_,hbefore⟩
    refine Program.ensures_error ⟨.inr hw',?_⟩
    rw [List.append_nil]
    exact hbefore
  · rintro e _ _ ⟨he,_⟩
    cases he

variable (verifies w) in
theorem twoFactorChallenge_spec : Program.Ensures (handle verifies) (twoFactorChallenge accounts request : Flow U Response) w
    fun r w' entries => Rejected request w w' entries ∨ ∃ pending seen user record, Waiting request w w' pending seen ∧
      authIdentifier user = pending.id ∧ Completed accounts request user record w r w' entries := by
  refine ensures_sure trivial ?_
  rintro (_ | session) w₁ hw₁ hsession
  · exact Program.ensures_error (.inl ⟨.inl (hw₁.leaves request),rfl⟩)
  · have hheld : w.sessions request.session = some session := by
      rw [← hw₁.sessions]
      exact hsession.symm
    refine (livePending_spec session).bind ?_ ?_
    · rintro (_ | pending) w₂ before ⟨hw₂,hbefore,_,hlive⟩
      · refine (forgotten_spec request _).mono ?_
        intro r w₃ entries hrejected
        exact .inl (Rejected.after (_ :: before) hrejected (hw₁.trans hw₂) hbefore)
      · obtain ⟨hpending,hle⟩ := hlive pending rfl
        have hlogins : logins (⟨.session request.session,.ok (some session)⟩ :: before) = [] := hbefore
        refine ensures_still trivial ?_ ?_
        · rintro (_ | user) w₃ hw₃ huser
          · refine (forgotten_spec request _).mono ?_
            intro r w₄ entries hrejected
            exact .inl ((hrejected.after [_] hw₃ rfl).after (_ :: before) (hw₁.trans hw₂) hlogins)
          · have hid := huser user rfl
            have hfound : ∀ before' : Trace U, logins before' = [] →
                logins (⟨.findById pending.id,.ok (some user)⟩ :: before') = [] := fun _ hbefore' => hbefore'
            refine (ensures_part ((uses_peek twoFactorLimiter _).mono LimiterOp.still)).bind ?_ ?_
            · rintro hit w₄ before' ⟨hw₄,hbefore'⟩
              split
              · have hrejected : Rejected request w₄ w₄ ([] : Trace U) := ⟨.inl ((Still.refl w₄).leaves request),rfl⟩
                apply Program.ensures_ok
                exact .inl ((hrejected.after (_ :: before') (hw₃.trans hw₄) (hfound before' hbefore')).after (_ :: before) (hw₁.trans hw₂) hlogins)
              · refine (checkFactor_spec accounts request user hid).mono ?_
                rintro r w₅ entries (hrejected | ⟨record,hcompleted⟩)
                · exact .inl ((hrejected.after (_ :: before') (hw₃.trans hw₄) (hfound before' hbefore')).after (_ :: before) (hw₁.trans hw₂) hlogins)
                · have hlast := (hcompleted.after (_ :: before') (hw₃.trans hw₄) (hfound before' hbefore')).after (_ :: before) (hw₁.trans hw₂) hlogins
                  obtain ⟨_,_,_,hleft⟩ := hcompleted.left
                  refine .inr ⟨pending,w₂.clock,user,record,⟨⟨session,hheld,hpending⟩,(hw₁.trans hw₂).clock,?_,hle⟩,hid,hlast⟩
                  exact (hw₃.trans hw₄).clock.trans hleft.clock
            · rintro e w₄ before' ⟨hw₄,hbefore'⟩
              have hrejected : Rejected request w₄ w₄ ([] : Trace U) := ⟨.inl ((Still.refl w₄).leaves request),rfl⟩
              have hlast := (hrejected.after (_ :: before') (hw₃.trans hw₄) (hfound before' hbefore')).after (_ :: before) (hw₁.trans hw₂) hlogins
              rw [List.append_nil] at hlast
              exact .inl hlast
        · intro e w₃ hw₃
          have hrejected : Rejected request w₃ w₃ ([] : Trace U) := ⟨.inl ((Still.refl w₃).leaves request),rfl⟩
          exact .inl ((hrejected.after [_] hw₃ rfl).after (_ :: before) (hw₁.trans hw₂) hlogins)
    · rintro e _ _ ⟨_,_,hnot,_⟩
      exact absurd ⟨e,rfl⟩ hnot

end SecondFactor

/-! ## The password -/

section Password
variable [AccountUser U] {verifies : String → String → Bool} {w : World} (accounts : Accounts Secret) (request : Request)

/-- The session is logged in as this user, and they were found. -/
structure Current (accounts : Accounts Secret) (request : Request) (w : World) (entries : Trace U) (user : U) : Prop where
  held : ∃ session, w.sessions request.session = some session ∧
    session.string accounts.formats.numberText authKey = some (authIdentifier user)
  found : ⟨.findById (authIdentifier user),.ok (some user)⟩ ∈ entries

theorem currentUser_spec : Program.Ensures (handle verifies) (currentUser accounts request : Flow U U) w fun r w' entries =>
    Still w w' ∧ logins entries = [] ∧ ∀ user, r = .ok user → Current accounts request w entries user := by
  have hguard : Program.Ensures (handle verifies) (guardUser accounts request : Flow U (Option U)) w fun r w' entries =>
      Still w w' ∧ logins entries = [] ∧ ∀ user, r = .ok (some user) → Current accounts request w entries user := by
    refine ensures_sure trivial ?_
    rintro (_ | session) w' hw hsession
    · exact Program.ensures_ok ⟨hw,rfl,by simp⟩
    · dsimp only
      split
      · exact Program.ensures_ok ⟨hw,rfl,by simp⟩
      · next id hid =>
        refine ensures_still trivial ?_ fun e w'' hw' => ⟨hw.trans hw',rfl,by simp⟩
        intro found w'' hw' hfound
        refine Program.ensures_ok ⟨hw.trans hw',rfl,?_⟩
        intro user heq
        cases heq
        have huser := hfound user rfl
        subst huser
        refine ⟨⟨session,?_,hid⟩,List.mem_cons_of_mem _ List.mem_cons_self⟩
        rw [← hw.sessions]
        exact hsession.symm
  refine hguard.bind ?_ ?_
  · rintro (_ | user) w' before ⟨hw,hbefore,hcurrent⟩
    · refine Program.ensures_error ⟨hw,?_,by simp⟩
      rw [List.append_nil]
      exact hbefore
    · apply Program.ensures_ok
      rw [List.append_nil]
      refine ⟨hw,hbefore,?_⟩
      intro user' heq
      cases heq
      exact hcurrent user rfl
  · rintro e w' entries ⟨hw,hentries,_⟩
    exact ⟨hw,hentries,by simp⟩

/-- The password of the user the session is logged in as was right, and the session says so. -/
structure Confirmed (verifies : String → String → Bool) (accounts : Accounts Secret) (request : Request) (w w' : World) (entries : Trace U)
    (user : U) (seen : ℕ) : Prop where
  current : Current accounts request w entries user
  right : ∃ hash, authPasswordHash user = some hash ∧ verifies ((scalar accounts request "password").getD "") hash = true
  until' : seen ≤ w'.clock
  left : ∃ session, w.sessions request.session = some session ∧
    Leaves request w w' (some (session.put confirmedAt (.number (.posInt (seen / Duration.fromSecs 1)))))

variable (verifies w) in
theorem confirmPassword_spec : Program.Ensures (handle verifies) (confirmPassword accounts request : Flow U Response) w
    fun r w' entries => Leaves request w w' (w.sessions request.session) ∨
      (∃ response, r = .ok response) ∧ ∃ user seen, Confirmed verifies accounts request w w' entries user seen := by
  refine (currentUser_spec accounts request).bind ?_ ?_
  · rintro user w₁ before ⟨hw₁,_,hcurrent⟩
    have hcurrent := hcurrent user rfl
    dsimp only
    split
    · exact Program.ensures_error (.inl (hw₁.leaves request))
    · next hash hhash =>
      refine ensures_sure trivial ?_
      rintro (_ | _) w₂ hw₂ hverified
      · exact Program.ensures_error (.inl ((hw₁.trans hw₂).leaves request))
      · have hstill := hw₁.trans hw₂
        refine ensures_sure trivial ?_
        rintro (_ | session) w₃ hw₃ hsession
        · exact Program.ensures_error (.inl ((hstill.trans hw₃).leaves request))
        · refine ensures_sure trivial fun t w₄ hw₄ ht => ?_
          cases ht
          refine ensures_store request fun w₅ hw₅ _ => ?_
          refine Program.ensures_ok (.inr ⟨⟨_,rfl⟩,user,w₄.clock,⟨hcurrent.held,?_⟩,⟨hash,hhash,hverified.symm⟩,hw₅.clock,session,?_,?_⟩)
          · exact List.mem_append_left _ hcurrent.found
          · rw [← (hstill.trans hw₃).sessions]
            exact hsession.symm
          · exact (((hstill.trans hw₃).trans hw₄).leaves request).trans hw₅
  · rintro e w₁ entries ⟨hw₁,_⟩
    exact .inl (hw₁.leaves request)

theorem validate_spec (rules : List (String × List (Validation.Rule Unit))) (input : Json) :
    Program.Ensures (handle verifies) (validate accounts rules input : Flow U Unit) w fun _ w' entries => w' = w ∧ entries = [] := by
  unfold validate
  split
  · exact Program.ensures_ok ⟨rfl,rfl⟩
  · exact Program.ensures_error ⟨rfl,rfl⟩

theorem currentPassword_spec (user : U) (password : String) :
    Program.Ensures (handle verifies) (currentPassword user password) w fun _ w' _ => Still w w' := by
  unfold currentPassword
  split
  · exact ensures_sure trivial fun _ w' hw _ => Program.ensures_ok hw
  · exact Program.ensures_ok (Still.refl w)

theorem regenerate_spec : Program.Ensures (handle verifies) (regenerate request : Flow U Unit) w fun _ w' _ =>
    ∃ fresh, Leaves request w w' ((w.sessions request.session).map fun s => s.regenerate fresh) := by
  refine ensures_sure trivial ?_
  rintro (_ | session) w₁ hw₁ hsession
  · have hnone : w.sessions request.session = none := by
      rw [← hw₁.sessions]
      exact hsession.symm
    have hleaves := hw₁.leaves request
    rw [hnone] at hleaves ⊢
    exact Program.ensures_ok ⟨"",hleaves⟩
  · have hsome : w.sessions request.session = some session := by
      rw [← hw₁.sessions]
      exact hsession.symm
    rw [hsome]
    refine ensures_sure trivial fun fresh w₂ hw₂ _ => ?_
    refine ensures_store request fun w₃ hw₃ _ => ?_
    exact Program.ensures_ok ⟨fresh,((hw₁.trans hw₂).leaves request).trans hw₃⟩

variable (verifies w) in
/-- A new password leaves the session with a new id, and otherwise as it was. -/
theorem updatePassword_spec : Program.Ensures (handle verifies) (updatePassword accounts request : Flow U Response) w
    fun _ w' _ => Leaves request w w' (w.sessions request.session) ∨
      ∃ fresh, Leaves request w w' ((w.sessions request.session).map fun s => s.regenerate fresh) := by
  refine (currentUser_spec accounts request).bind ?_ fun e w₁ _ hw₁ => .inl (hw₁.1.leaves request)
  rintro user w₁ _ ⟨hw₁,_,_⟩
  refine (validate_spec accounts _ _).bind ?_ ?_
  · rintro _ w₁ _ ⟨rfl,_⟩
    refine (currentPassword_spec user _).bind ?_ fun e w₂ _ hw₂ => .inl ((hw₁.trans hw₂).leaves request)
    rintro (_ | _) w₂ _ hw₂
    · exact Program.ensures_error (.inl ((hw₁.trans hw₂).leaves request))
    · have hstill := hw₁.trans hw₂
      refine ensures_still trivial ?_ fun e w₃ hw₃ => .inl ((hstill.trans hw₃).leaves request)
      intro hash w₃ hw₃ _
      refine ensures_sure trivial ?_
      rintro (e | _) w₄ hw₄ _
      · exact Program.ensures_error (.inl (((hstill.trans hw₃).trans hw₄).leaves request))
      · have hstill := (hstill.trans hw₃).trans hw₄
        refine ensures_still trivial ?_ fun e w₅ hw₅ => .inl ((hstill.trans hw₅).leaves request)
        intro _ w₅ hw₅ _
        have hstill := hstill.trans hw₅
        refine (regenerate_spec request).bind ?_ ?_
        · rintro _ w₆ _ ⟨fresh,hw₆⟩
          rw [hstill.sessions] at hw₆
          refine ensures_sure (by simp [SureOp]) fun _ w₇ hw₇ _ => ?_
          have hleft := ((hstill.leaves request).trans hw₆).trans (hw₇.leaves request)
          rw [hw₆.own] at hleft
          exact Program.ensures_ok (.inr ⟨fresh,hleft⟩)
        · rintro e w₆ _ ⟨fresh,hw₆⟩
          rw [hstill.sessions] at hw₆
          exact .inr ⟨fresh,(hstill.leaves request).trans hw₆⟩
  · rintro e _ _ ⟨rfl,_⟩
    exact .inl (hw₁.leaves request)

end Password

end Rainier.Accounts
