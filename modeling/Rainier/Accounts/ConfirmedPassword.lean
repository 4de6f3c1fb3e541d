import Rainier.Accounts.Outcomes
import Rainier.Auth.Impersonation

/-! # Whose password was confirmed

That the password was confirmed is a time in the session, and who the session is logged in
as is another of its values. A login, an impersonation and its end write the second and keep
the first, so a confirmation passes to whoever comes next. Below any of these calls and the
requests that read or write either value are made on one session, one after the other.
-/
namespace Rainier.Accounts.ConfirmedPassword
open Auth Impersonation Trace

inductive Call (U : Type) where
  | login (user : U) (fresh : String)
  | logout (fresh : String)
  | take (impersonator target : U) (fresh : String)
  | leave (fresh : String)
  | confirmPassword (request : Request)
  | updatePassword (request : Request)
  | twoFactorChallenge (request : Request)

/-- A request to confirm the password, and what came of it. -/
structure Visit (U : Type) where
  before : World
  request : Request
  result : Except Refusal Response
  entries : Trace U
  after : World

structure State (U : Type) where
  world : World
  visits : List (Visit U)

/-- The time that passes before a call, and what its operations meet. -/
structure Input (U : Type) where
  delay : ℕ
  outside : ℕ → Outside U

def replace (w : World) (id : ℕ) (session : Option Session) : World :=
  { w with sessions := Function.update w.sessions id session }

variable {U Secret : Type} [AccountUser U] (verifies : String → String → Bool) (accounts : Accounts Secret) (may : U → U → Bool) (id : ℕ)

/-- A request on the session, from its first operation to its last. -/
def serve (flow : Request → Flow U Response) (request : Request) (xs : ℕ → Outside U) (w : World) :
    Except Refusal Response × World × Trace U :=
  Program.exec (handle verifies) (flow { request with session := id }) xs w

def step (s : State U) (a : Call U × Input U) : State U :=
  let w := { s.world with clock := s.world.clock + a.2.delay }
  let float := accounts.formats.numberText
  match a.1 with
  | .login user fresh => { s with world := replace w id (SessionGuard.login user fresh (w.sessions id)).2 }
  | .logout fresh => { s with world := replace w id (SessionGuard.logout fresh (w.sessions id)) }
  | .take impersonator target fresh => { s with world := replace w id (take float may impersonator target fresh (w.sessions id)).2 }
  | .leave fresh => { s with world := replace w id (leave float fresh (w.sessions id)).2 }
  | .confirmPassword request =>
    let (result,after,entries) := serve verifies id (confirmPassword accounts) request a.2.outside w
    ⟨after,⟨w,request,result,entries,after⟩ :: s.visits⟩
  | .updatePassword request => { s with world := (serve verifies id (updatePassword accounts) request a.2.outside w).2.1 }
  | .twoFactorChallenge request => { s with world := (serve verifies id (twoFactorChallenge accounts) request a.2.outside w).2.1 }

def start (w : World) : State U := ⟨w,[]⟩

/-- Who the session is logged in as. -/
def loggedIn (w : World) : Option String := userId accounts.formats.numberText (w.sessions id)

/-- The visit succeeded with the password of this user, as whom the session was logged in. -/
structure Confirms (visit : Visit U) (user : String) : Prop where
  succeeded : ∃ response, visit.result = .ok response
  loggedIn : loggedIn accounts id visit.before = some user
  password : ∃ u hash, authIdentifier u = user ∧ ⟨.findById user,.ok (some u)⟩ ∈ visit.entries ∧ authPasswordHash u = some hash ∧
    verifies ((scalar accounts visit.request "password").getD "") hash = true

/-- Whoever the session is logged in as, a confirmation that counts is one of theirs, and no
older than the window; times are whole seconds and fit an `i64`. -/
def Honest (s : State U) : Prop :=
  ∀ window now user, s.world.clock ≤ now → now / Duration.fromSecs 1 < 2 ^ 63 → loggedIn accounts id s.world = some user →
    isConfirmed window (now / Duration.fromSecs 1) (s.world.sessions id) = true →
      ∃ visit ∈ s.visits, Confirms verifies accounts id visit user ∧ visit.after.clock ≤ now ∧
        Duration.fromSecs (now / Duration.fromSecs 1 - visit.after.clock / Duration.fromSecs 1) ≤ window

/-- The user a call is about to log the session in as. -/
def Call.passesTo (float : BitVec 64 → String) (session : Session) : Call U → Option String
  | .login user _ => some (authIdentifier user)
  | .take impersonator target _ =>
    if session.has impersonatorKey = false ∧ session.string float authKey = some (authIdentifier impersonator) ∧
      can may impersonator target then some (authIdentifier target) else none
  | .leave _ => session.string float impersonatorKey
  | .twoFactorChallenge _ => (pendingIn session).map Pending.id
  | _ => none

/-- A session that holds a confirmation does not pass to another user. -/
def Undisturbed (s : State U) (a : Call U × Input U) : Prop :=
  ∀ session user, s.world.sessions id = some session → session.value confirmedAt ≠ none →
    a.1.passesTo may accounts.formats.numberText session = some user → loggedIn accounts id s.world = some user

/-! ## One call -/

structure Inv (s : State U) : Prop where
  past : ∀ visit ∈ s.visits, visit.after.clock ≤ s.world.clock
  marked : ∀ session, s.world.sessions id = some session → session.value confirmedAt = none ∨
    ∃ visit ∈ s.visits, ∃ user seen, Confirms verifies accounts id visit user ∧ loggedIn accounts id s.world = some user ∧
      seen ≤ visit.after.clock ∧ session.value confirmedAt = some (.number (.posInt (seen / Duration.fromSecs 1)))

variable {verifies accounts may id} {s : State U}

/-- Between two times of an `i64` clock the difference is exact. -/
theorem ago_le {now after seen : ℕ} (hseen : seen ≤ after) (hfits : now < 2 ^ 63) :
    now - after ≤ (max (min Cache.MemoryCache.i64Max ((now : ℤ) - (seen : ℕ))) 0).toNat := by
  unfold Cache.MemoryCache.i64Max
  omega

theorem Inv.honest (h : Inv verifies accounts id s) : Honest verifies accounts id s := by
  intro window now user hnow hfits huser hconfirmed
  cases hsession : s.world.sessions id with
  | none =>
    rw [hsession] at hconfirmed
    cases hconfirmed
  | some session =>
    rw [hsession,isConfirmed,confirmedAgo,Option.bind_some] at hconfirmed
    rcases h.marked session hsession with hnone | ⟨visit,hvisit,user',seen,hconfirms,huser',hseen,hmark⟩
    · rw [hnone] at hconfirmed
      cases hconfirmed
    · cases huser.symm.trans huser'
      have hpast := h.past visit hvisit
      refine ⟨visit,hvisit,hconfirms,hpast.trans hnow,?_⟩
      have hmono : seen / Duration.fromSecs 1 ≤ visit.after.clock / Duration.fromSecs 1 := Nat.div_le_div_right hseen
      rw [hmark,i64Of] at hconfirmed
      split at hconfirmed
      · rw [Option.map_some,Option.any_some,decide_eq_true_eq] at hconfirmed
        refine Nat.le_trans (Nat.mul_le_mul_right _ ?_) hconfirmed
        exact ago_le hmono hfits
      · cases hconfirmed

/-- A call that writes neither value, or throws the confirmation away, or logs the session in
as who it is logged in as already. -/
theorem Inv.keep {w : World} (h : Inv verifies accounts id s) (hclock : s.world.clock ≤ w.clock)
    (hsession : ∀ session', w.sessions id = some session' → session'.value confirmedAt = none ∨
      ∃ session, s.world.sessions id = some session ∧ session'.value confirmedAt = session.value confirmedAt ∧
        (session.value confirmedAt ≠ none → loggedIn accounts id w = loggedIn accounts id s.world)) :
    Inv verifies accounts id ⟨w,s.visits⟩ := by
  constructor
  · intro visit hvisit
    exact (h.past visit hvisit).trans hclock
  · intro session' hsession'
    rcases hsession session' hsession' with hnone | ⟨session,hbefore,hvalue,hwho⟩
    · exact .inl hnone
    · rcases h.marked session hbefore with hnone | ⟨visit,hvisit,user,seen,hconfirms,huser,hseen,hmark⟩
      · exact .inl (hvalue.trans hnone)
      · refine .inr ⟨visit,hvisit,user,seen,hconfirms,?_,hseen,hvalue.trans hmark⟩
        rw [hwho (by simp [hmark])]
        exact huser

theorem confirmedAt_ne : confirmedAt ≠ authKey ∧ confirmedAt ≠ impersonatorKey ∧ confirmedAt ≠ pendingKey := by decide

theorem authKey_ne_pendingKey : authKey ≠ pendingKey := by decide

/-- The user of a session into which one has just been put. -/
theorem loggedIn_put {w : World} {session : Session} {user : String}
    (h : w.sessions id = some (session.put authKey (.string user))) : loggedIn accounts id w = some user := by
  rw [loggedIn,userId,h,Option.bind_some,Session.string,Session.value_put,if_pos rfl]
  rfl

/-- A login of this user, whatever else it does to the session but the confirmation. -/
theorem Inv.logsIn {w : World} {session session' : Session} {user : String} (h : Inv verifies accounts id s)
    (hclock : s.world.clock ≤ w.clock) (hbefore : s.world.sessions id = some session)
    (hw : w.sessions id = some (session'.put authKey (.string user))) (hvalue : session'.value confirmedAt = session.value confirmedAt)
    (hwho : session.value confirmedAt ≠ none → loggedIn accounts id s.world = some user) :
    Inv verifies accounts id ⟨w,s.visits⟩ := by
  apply h.keep hclock
  intro session'' hsession''
  cases hw.symm.trans hsession''
  refine .inr ⟨session,hbefore,?_,?_⟩
  · rw [Session.value_put,if_neg confirmedAt_ne.1]
    exact hvalue
  · intro hmark
    rw [hwho hmark]
    exact loggedIn_put hw

/-- A call that leaves the session as it was. -/
theorem Inv.unchanged {w : World} (h : Inv verifies accounts id s) (hclock : s.world.clock ≤ w.clock)
    (hw : w.sessions id = s.world.sessions id) : Inv verifies accounts id ⟨w,s.visits⟩ := by
  apply h.keep hclock
  intro session hsession
  refine .inr ⟨session,hw ▸ hsession,rfl,fun _ => ?_⟩
  rw [loggedIn,hw,loggedIn]

variable {input : Input U}

theorem Inv.login {user : U} {fresh : String} (h : Inv verifies accounts id s)
    (hok : Undisturbed accounts may id s (.login user fresh,input)) :
    Inv verifies accounts id (step verifies accounts may id s (.login user fresh,input)) := by
  have hclock : s.world.clock ≤ s.world.clock + input.delay := Nat.le_add_right _ _
  cases hsession : s.world.sessions id with
  | none =>
    apply h.unchanged hclock
    simp [replace,hsession,SessionGuard.login]
  | some session =>
    have hw : (replace { s.world with clock := s.world.clock + input.delay } id
        (SessionGuard.login user fresh (s.world.sessions id)).2).sessions id =
          some ((session.regenerate fresh).put authKey (.string (authIdentifier user))) := by
      simp only [replace,hsession,SessionGuard.login,Function.update_self]
    apply h.logsIn hclock hsession hw
    · rw [Session.value_regenerate]
    · intro hmark
      exact hok session _ hsession hmark rfl

theorem Inv.logout {fresh : String} (h : Inv verifies accounts id s) :
    Inv verifies accounts id (step verifies accounts may id s (.logout fresh,input)) := by
  apply h.keep (Nat.le_add_right _ _)
  intro session' hsession'
  simp only [replace,Function.update_self,SessionGuard.logout,Option.map_eq_some_iff] at hsession'
  obtain ⟨session,_,rfl⟩ := hsession'
  exact .inl rfl

theorem Inv.take {impersonator target : U} {fresh : String} (h : Inv verifies accounts id s)
    (hok : Undisturbed accounts may id s (.take impersonator target fresh,input)) :
    Inv verifies accounts id (step verifies accounts may id s (.take impersonator target fresh,input)) := by
  have hclock : s.world.clock ≤ s.world.clock + input.delay := Nat.le_add_right _ _
  rcases take_cases accounts.formats.numberText may impersonator target fresh (s.world.sessions id) with
    ⟨e,he⟩ | ⟨session,hsession,hfree,hwho,hne,hmay,htake⟩
  · apply h.unchanged hclock
    simp only [replace,Function.update_self,he]
  · have hw : (replace { s.world with clock := s.world.clock + input.delay } id
        (Impersonation.take accounts.formats.numberText may impersonator target fresh (s.world.sessions id)).2).sessions id =
          some (((session.regenerate fresh).put impersonatorKey (.string (authIdentifier impersonator))).put authKey
            (.string (authIdentifier target))) := by
      simp only [replace,Function.update_self,htake]
    apply h.logsIn hclock hsession hw
    · rw [Session.value_put,if_neg confirmedAt_ne.2.1,Session.value_regenerate]
    · intro hmark
      apply hok session _ hsession hmark
      rw [Call.passesTo,if_pos ⟨hfree,hwho,by simp [can,hne,hmay]⟩]

theorem Inv.leave {fresh : String} (h : Inv verifies accounts id s) (hok : Undisturbed accounts may id s (.leave fresh,input)) :
    Inv verifies accounts id (step verifies accounts may id s (.leave fresh,input)) := by
  have hclock : s.world.clock ≤ s.world.clock + input.delay := Nat.le_add_right _ _
  rcases leave_cases accounts.formats.numberText fresh (s.world.sessions id) with ⟨e,he⟩ | ⟨session,impersonator,hsession,himp,hleave⟩
  · apply h.unchanged hclock
    simp only [replace,Function.update_self,he]
  · have hw : (replace { s.world with clock := s.world.clock + input.delay } id
        (Impersonation.leave accounts.formats.numberText fresh (s.world.sessions id)).2).sessions id =
          some (((session.regenerate fresh).forget impersonatorKey).put authKey (.string impersonator)) := by
      simp only [replace,Function.update_self,hleave]
    apply h.logsIn hclock hsession hw
    · rw [Session.value_forget,if_neg confirmedAt_ne.2.1,Session.value_regenerate]
    · intro hmark
      apply hok session _ hsession hmark
      rw [impersonatorId,hsession,Option.bind_some] at himp
      exact himp

/-- A session of which neither value is touched. -/
theorem Inv.touched {w : World} {change : Session → Session} (h : Inv verifies accounts id s) (hclock : s.world.clock ≤ w.clock)
    (hw : w.sessions id = (s.world.sessions id).map change)
    (hkeeps : ∀ session, (change session).value confirmedAt = session.value confirmedAt ∧
      (change session).value authKey = session.value authKey) : Inv verifies accounts id ⟨w,s.visits⟩ := by
  apply h.keep hclock
  intro session' hsession'
  obtain ⟨session,hsession,rfl⟩ := Option.map_eq_some_iff.mp (hw.symm.trans hsession')
  refine .inr ⟨session,hsession,(hkeeps session).1,fun _ => ?_⟩
  rw [loggedIn,userId,hsession',Option.bind_some,Session.string,(hkeeps session).2,loggedIn,userId,hsession]
  rfl

theorem Inv.updatePassword {request : Request} (h : Inv verifies accounts id s) :
    Inv verifies accounts id (step verifies accounts may id s (.updatePassword request,input)) := by
  rcases updatePassword_spec verifies _ accounts { request with session := id } input.outside with hleft | ⟨fresh,hleft⟩
  · exact h.unchanged ((Nat.le_add_right _ _).trans hleft.clock) hleft.own
  · exact h.touched ((Nat.le_add_right _ _).trans hleft.clock) hleft.own fun session => ⟨rfl,rfl⟩

theorem Inv.challenge {request : Request} (h : Inv verifies accounts id s)
    (hok : Undisturbed accounts may id s (.twoFactorChallenge request,input)) :
    Inv verifies accounts id (step verifies accounts may id s (.twoFactorChallenge request,input)) := by
  rcases twoFactorChallenge_spec verifies _ accounts { request with session := id } input.outside with
    ⟨hleft | hleft,_⟩ | ⟨pending,seen,user,record,hwaiting,huser,hcompleted⟩
  · exact h.unchanged ((Nat.le_add_right _ _).trans hleft.clock) hleft.own
  · refine h.touched ((Nat.le_add_right _ _).trans hleft.clock) hleft.own fun session => ?_
    rw [Session.value_forget,if_neg confirmedAt_ne.2.2,Session.value_forget,if_neg authKey_ne_pendingKey]
    exact ⟨rfl,rfl⟩
  · obtain ⟨session,fresh,hsession,hleft⟩ := hcompleted.left
    obtain ⟨_,hheld,hpending⟩ := hwaiting.held
    cases hsession.symm.trans hheld
    apply h.logsIn ((Nat.le_add_right _ _).trans hleft.clock) hsession hleft.own
    · rw [Session.value_regenerate,Session.value_forget,if_neg confirmedAt_ne.2.2]
    · intro hmark
      apply hok session _ hsession hmark
      rw [Call.passesTo,hpending,Option.map_some,huser]

/-- One visit more. -/
theorem Inv.more {visit : Visit U} (h : Inv verifies accounts id s) (hpast : visit.after.clock ≤ s.world.clock) :
    Inv verifies accounts id ⟨s.world,visit :: s.visits⟩ := by
  constructor
  · exact List.forall_mem_cons.mpr ⟨hpast,h.past⟩
  · intro session hsession
    rcases h.marked session hsession with hnone | ⟨visit',hvisit,user,seen,hmarked⟩
    · exact .inl hnone
    · exact .inr ⟨visit',List.mem_cons_of_mem _ hvisit,user,seen,hmarked⟩

theorem Inv.confirmPassword {request : Request} (h : Inv verifies accounts id s) :
    Inv verifies accounts id (step verifies accounts may id s (.confirmPassword request,input)) := by
  have hclock : s.world.clock ≤ s.world.clock + input.delay := Nat.le_add_right _ _
  have hspec := confirmPassword_spec (U := U) verifies { s.world with clock := s.world.clock + input.delay } accounts
    { request with session := id } input.outside
  unfold step serve
  rcases hexec : Program.exec (handle verifies) (Accounts.confirmPassword accounts { request with session := id }) input.outside
    { s.world with clock := s.world.clock + input.delay } with ⟨result,after,entries⟩
  rw [hexec] at hspec
  dsimp only at hspec ⊢
  rw [hexec]
  rcases hspec with hleft | ⟨hresult,user,seen,hconfirmed⟩
  · exact (h.unchanged (hclock.trans hleft.clock) hleft.own).more (Nat.le_refl _)
  · obtain ⟨session,hsession,hleft⟩ := hconfirmed.left
    obtain ⟨_,hheld,hwho⟩ := hconfirmed.current.held
    obtain ⟨hash,hhash,hright⟩ := hconfirmed.right
    cases hsession.symm.trans hheld
    have hbefore : loggedIn accounts id { s.world with clock := s.world.clock + input.delay } = some (authIdentifier user) := by
      rw [loggedIn,userId,hsession,Option.bind_some]
      exact hwho
    constructor
    · refine List.forall_mem_cons.mpr ⟨Nat.le_refl _,fun visit hvisit => ?_⟩
      exact (h.past visit hvisit).trans (hclock.trans hleft.clock)
    · intro session' hsession'
      cases hleft.own.symm.trans hsession'
      refine .inr ⟨_,List.mem_cons_self,authIdentifier user,seen,⟨hresult,hbefore,user,hash,rfl,hconfirmed.current.found,hhash,hright⟩,
        ?_,hconfirmed.until',?_⟩
      · rw [loggedIn,userId,hsession',Option.bind_some,Session.string,Session.value_put,if_neg confirmedAt_ne.1.symm]
        exact hwho
      · rw [Session.value_put,if_pos rfl]

/-! ## Every run -/

theorem Inv.step {a : Call U × Input U} (h : Inv verifies accounts id s) (hok : Undisturbed accounts may id s a) :
    Inv verifies accounts id (ConfirmedPassword.step verifies accounts may id s a) := by
  obtain ⟨call,input⟩ := a
  cases call with
  | login user fresh => exact h.login hok
  | logout fresh => exact h.logout
  | take impersonator target fresh => exact h.take hok
  | leave fresh => exact h.leave hok
  | confirmPassword request => exact h.confirmPassword
  | updatePassword request => exact h.updatePassword
  | twoFactorChallenge request => exact h.challenge hok

/-- A session that never passes to another user while it holds a confirmation is confirmed
only by its own user. -/
theorem confirmed_by_own_of_undisturbed (verifies : String → String → Bool) (accounts : Accounts Secret) (may : U → U → Bool) (id : ℕ)
    (w : World) (calls : List (Call U × Input U)) (hw : ∀ session, w.sessions id = some session → session.value confirmedAt = none)
    (h : Along (ConfirmedPassword.step verifies accounts may id) (Undisturbed accounts may id) (start w) calls) :
    Always (ConfirmedPassword.step verifies accounts may id) (Honest verifies accounts id) (start w) calls := by
  have hinv : Inv verifies accounts id (start w : State U) := by
    refine ⟨?_,fun session hsession => .inl (hw session hsession)⟩
    intro visit hvisit
    cases hvisit
  exact (always_of_along (fun s a hs ha => hs.step ha) hinv h).mono fun _ hs => hs.honest

instance {a : Call U × Input U} : Decidable (Undisturbed accounts may id s a) :=
  decidable_of_iff (∀ session ∈ s.world.sessions id, session.value confirmedAt ≠ none →
      ∀ user ∈ a.1.passesTo may accounts.formats.numberText session, loggedIn accounts id s.world = some user) <| by
    constructor
    · intro h session user hsession hmark huser
      exact h session hsession hmark user huser
    · intro h session hsession hmark user huser
      exact h session user hsession hmark huser

/-! Two users share a browser. -/

def ada : Account := ⟨"1",some "secret"⟩

def bob : Account := ⟨"2",some "other"⟩

/-- Nothing fails, and the store of users finds Ada. -/
def calm : Input Account := ⟨0,fun _ => ⟨0,none,some ada,"",[]⟩⟩

def quiet : World := ⟨0,fun _ => some (Session.new ""),Cache.MemoryCache.empty,fun _ => none⟩

def confirm : Call Account := .confirmPassword ⟨0,.object [("password",.string "secret")],none,true⟩

theorem confirmed_by_own_of_undisturbed_visit :
    let calls := [(.login ada "",calm),(confirm,calm),(.login ada "",calm),(.logout "",calm),(.login bob "",calm)]
    Always (step (· == ·) (sample .default) (fun _ _ => false) 0) (Honest (· == ·) (sample .default) 0) (start quiet) calls ∧
      isConfirmed recently 0 ((run (step (· == ·) (sample .default) (fun _ _ => false) 0) (start quiet)
        (calls.take 3)).world.sessions 0) = true := by
  intro calls
  refine ⟨confirmed_by_own_of_undisturbed _ _ _ 0 quiet calls ?_ ?_,?_⟩
  · rintro session hsession
    cases hsession
    rfl
  · decide
  · decide

/-- Ada confirms her password and Bob logs in: the confirmation counts for him. -/
theorem confirmed_by_another :
    ¬ Honest (· == ·) (sample .default) 0 (run (step (· == ·) (sample .default) (fun _ _ => false) 0) (start quiet)
      [(.login ada "",calm),(confirm,calm),(.login bob "",calm)]) := by
  intro h
  have hwho : ∀ visit ∈ (run (step (· == ·) (sample .default) (fun _ _ => false) 0) (start quiet)
      [(.login ada "",calm),(confirm,calm),(.login bob "",calm)]).visits, loggedIn (sample .default) 0 visit.before ≠ some "2" := by
    decide
  obtain ⟨visit,hvisit,hconfirms,_⟩ := h recently 0 "2" (by decide) (by decide) (by decide) (by decide)
  exact hwho visit hvisit hconfirms.loggedIn

end Rainier.Accounts.ConfirmedPassword
