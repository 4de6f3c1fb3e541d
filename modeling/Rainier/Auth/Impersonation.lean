import Rainier.Auth.SessionGuard
import Rainier.Support.Trace

/-! # Acting as another user

`take` logs a session in as its target and keeps the impersonator under a second key,
`leave` goes back. The guard writes the first key only, so a login on a session that is
still impersonating leaves the impersonator where it is. Below any calls of both are made
on one session, and the changes of identity they make are written down, newest first.
-/
namespace Rainier.Auth.Impersonation
open Trace

/-- The session key holding the real user's identifier while impersonating. -/
def impersonatorKey : String := "_auth_impersonator"

variable {U : Type} [Authenticatable U] (float : BitVec 64 → String) (may : U → U → Bool)

def can (impersonator target : U) : Bool :=
  authIdentifier impersonator ≠ authIdentifier target && may impersonator target

def sessionOf : Option Session → Except Error Session
  | some session => .ok session
  | none => .error (.internal "impersonation needs the session middleware")

def take (impersonator target : U) (fresh : String) (request : Option Session) : Except Error Unit × Option Session :=
  match sessionOf request with
  | .error e => (.error e,request)
  | .ok session =>
    if session.has impersonatorKey then
      (.error (.conflict "already impersonating; leave the current impersonation first"),request)
    else if session.string float authKey ≠ some (authIdentifier impersonator) then
      (.error (.unauthenticated "the impersonator must be the user this session is logged in as"),request)
    else if authIdentifier impersonator = authIdentifier target then
      (.error (.unauthorized "you cannot impersonate yourself"),request)
    else if !may impersonator target then
      (.error (.unauthorized "you may not impersonate this user"),request)
    else
      (.ok (),some (((session.regenerate fresh).put impersonatorKey (.string (authIdentifier impersonator))).put authKey
        (.string (authIdentifier target))))

/-- The impersonator, and the identity that ends, for the hook. -/
def leave (fresh : String) (request : Option Session) : Except Error (String × String) × Option Session :=
  match sessionOf request with
  | .error e => (.error e,request)
  | .ok session =>
    match session.string float impersonatorKey with
    | none => (.error (.conflict "this session is not impersonating anybody"),request)
    | some impersonator =>
      (.ok (impersonator,(session.string float authKey).getD ""),
        some (((session.regenerate fresh).forget impersonatorKey).put authKey (.string impersonator)))

def impersonatorId (request : Option Session) : Option String := request.bind fun session => session.string float impersonatorKey

def isImpersonating (request : Option Session) : Bool := (impersonatorId float request).isSome

/-- Who the session is logged in as. -/
def userId (request : Option Session) : Option String := request.bind fun session => session.string float authKey

/-! ## Calls on one session -/

inductive Call (U : Type) where
  | login (user : U)
  | attempt (retrieved : Except Error (Option U)) (valid : Except Error Bool)
  | logout
  | take (impersonator target : U)
  | leave

/-- A change of identity. -/
inductive Change (U : Type) where
  | login (user : U)
  | logout
  | take (impersonator target : U)
  | leave (impersonator ended : String)

structure State (U : Type) where
  session : Option Session
  changes : List (Change U)

/-- What one call does, with the new id it may need. -/
def perform (session : Option Session) (fresh : String) : Call U → Option (Change U) × Option Session
  | .login user =>
    match SessionGuard.login user fresh session with
    | (.ok _,session) => (some (.login user),session)
    | (.error _,session) => (none,session)
  | .attempt retrieved valid =>
    match SessionGuard.attempt retrieved valid fresh session with
    | (.ok (some user),session) => (some (.login user),session)
    | (_,session) => (none,session)
  | .logout => (some .logout,SessionGuard.logout fresh session)
  | .take impersonator target =>
    match take float may impersonator target fresh session with
    | (.ok _,session) => (some (.take impersonator target),session)
    | (.error _,session) => (none,session)
  | .leave =>
    match leave float fresh session with
    | (.ok (impersonator,ended),session) => (some (.leave impersonator ended),session)
    | (.error _,session) => (none,session)

def step (s : State U) (a : Call U × String) : State U :=
  let done := perform float may s.session a.2 a.1
  ⟨done.2,done.1.toList ++ s.changes⟩

/-- A session that starts empty. -/
def start (id : String) : State U := ⟨some (Session.new id),[]⟩

/-- The newest change is a take the policy allows, by the one and to the other. -/
def Taken (impersonator target : String) (changes : List (Change U)) : Prop :=
  ∃ i t rest, changes = .take i t :: rest ∧ may i t = true ∧ authIdentifier i = impersonator ∧ authIdentifier t = target

/-- The newest change is what makes the session this user's: a login, a take the policy
allows, or a leave. -/
def Given (user : String) : List (Change U) → Prop
  | .login u :: _ => authIdentifier u = user
  | .take i t :: _ => may i t = true ∧ authIdentifier t = user
  | .leave i _ :: _ => i = user
  | _ => False

structure Guarantees (s : State U) : Prop where
  leaves : ∀ later impersonator ended earlier, s.changes = later ++ .leave impersonator ended :: earlier →
    Taken may impersonator ended earlier
  pair : ∀ impersonator user, impersonatorId float s.session = some impersonator → userId float s.session = some user →
    impersonator ≠ user ∧ Taken may impersonator user s.changes
  user : ∀ user, userId float s.session = some user → Given may user s.changes

/-- The user the call logs in, if it does. -/
def Call.logsIn : Call U → Option U
  | login user => some user
  | attempt (.ok (some user)) (.ok true) => some user
  | _ => none

/-- Nobody logs in on a session that is impersonating. -/
def Undisturbed (s : State U) (a : Call U × String) : Prop :=
  a.1.logsIn.isSome = true → impersonatorId float s.session = none

/-! ## What the two keys hold -/

/-- The value under a key. -/
def held (request : Option Session) (key : String) : Option Json := request.bind fun session => session.value key

variable {float may} {s : State U} {request : Option Session} {session : Session} {fresh : String}

theorem string_of_held {key text : String} (h : held request key = some (.string text)) :
    (request.bind fun session => session.string float key) = some text := by
  cases request with
  | none => cases h
  | some session =>
    change session.value key = _ at h
    change session.string float key = _
    rw [Session.string,h]
    rfl

theorem string_of_not_held {key : String} (h : held request key = none) :
    (request.bind fun session => session.string float key) = none := by
  cases request with
  | none => rfl
  | some session =>
    change session.value key = _ at h
    change session.string float key = _
    rw [Session.string,h]
    rfl

/-- Nobody is logged in, or somebody in their own name, or somebody as another. -/
inductive Who (may : U → U → Bool) (request : Option Session) (changes : List (Change U)) : Prop
  | nobody (hi : held request impersonatorKey = none) (hu : held request authKey = none)
  | own (user : String) (hi : held request impersonatorKey = none) (hu : held request authKey = some (.string user))
      (hgiven : Given may user changes)
  | acting (impersonator target : String) (hi : held request impersonatorKey = some (.string impersonator))
      (hu : held request authKey = some (.string target)) (hne : impersonator ≠ target)
      (htaken : Taken may impersonator target changes)

structure Inv (may : U → U → Bool) (s : State U) : Prop where
  who : Who may s.session s.changes
  leaves : ∀ later impersonator ended earlier, s.changes = later ++ .leave impersonator ended :: earlier →
    Taken may impersonator ended earlier

theorem Taken.given {impersonator target : String} {changes : List (Change U)} (h : Taken may impersonator target changes) :
    Given may target changes := by
  obtain ⟨i,t,rest,rfl,hmay,_,ht⟩ := h
  exact ⟨hmay,ht⟩

theorem Inv.guarantees (h : Inv may s) : Guarantees float may s := by
  refine ⟨h.leaves,?_,?_⟩
  · intro impersonator user himp huser
    cases h.who with
    | nobody hi hu =>
      rw [impersonatorId,string_of_not_held hi] at himp
      cases himp
    | own u hi hu hgiven =>
      rw [impersonatorId,string_of_not_held hi] at himp
      cases himp
    | acting i t hi hu hne htaken =>
      rw [impersonatorId,string_of_held hi] at himp
      rw [userId,string_of_held hu] at huser
      cases himp
      cases huser
      exact ⟨hne,htaken⟩
  · intro user huser
    cases h.who with
    | nobody hi hu =>
      rw [userId,string_of_not_held hu] at huser
      cases huser
    | own u hi hu hgiven =>
      rw [userId,string_of_held hu] at huser
      cases huser
      exact hgiven
    | acting i t hi hu hne htaken =>
      rw [userId,string_of_held hu] at huser
      cases huser
      exact htaken.given

/-! ## One call -/

/-- A change that is no leave. -/
theorem leaves_cons {change : Change U} {changes : List (Change U)}
    (h : ∀ later i ended earlier, changes = later ++ .leave i ended :: earlier → Taken may i ended earlier)
    (hnew : ∀ i ended, change = .leave i ended → Taken may i ended changes) :
    ∀ later i ended earlier, change :: changes = later ++ .leave i ended :: earlier → Taken may i ended earlier := by
  intro later i ended earlier heq
  cases later with
  | nil =>
    cases heq
    exact hnew i ended rfl
  | cons c later =>
    cases heq
    exact h later i ended earlier rfl

/-- A call that logs somebody in does nothing else than the guard's `login`. -/
theorem perform_logsIn {call : Call U} {user : U} (h : call.logsIn = some user) :
    perform float may (some session) fresh call =
      (some (.login user),some ((session.regenerate fresh).put authKey (.string (authIdentifier user)))) := by
  cases call with
  | login u =>
    cases h
    rfl
  | attempt retrieved valid =>
    rcases retrieved with e | (_ | u)
    · cases h
    · cases h
    · rcases valid with e | (_ | _)
      · cases h
      · cases h
      · cases h
        rfl
  | logout => cases h
  | take i t => cases h
  | leave => cases h

/-- An attempt that logs nobody in leaves the session as it was. -/
theorem perform_attempt {retrieved : Except Error (Option U)} {valid : Except Error Bool}
    (h : (Call.attempt retrieved valid).logsIn = none) :
    perform float may request fresh (.attempt retrieved valid) = (none,request) := by
  rcases retrieved with e | (_ | u)
  · rfl
  · rfl
  · rcases valid with e | (_ | _)
    · rfl
    · rfl
    · cases h

variable (float may) in
/-- A take is refused and changes nothing, or everything it asks for is there. -/
theorem take_cases (impersonator target : U) (fresh : String) (request : Option Session) :
    (∃ e, take float may impersonator target fresh request = (.error e,request)) ∨
      ∃ session, request = some session ∧ session.has impersonatorKey = false ∧
        session.string float authKey = some (authIdentifier impersonator) ∧
        authIdentifier impersonator ≠ authIdentifier target ∧ may impersonator target = true ∧
        take float may impersonator target fresh request = (.ok (),some (((session.regenerate fresh).put impersonatorKey
          (.string (authIdentifier impersonator))).put authKey (.string (authIdentifier target)))) := by
  cases request with
  | none => exact .inl ⟨_,rfl⟩
  | some session =>
    simp only [take,sessionOf]
    split
    · exact .inl ⟨_,rfl⟩
    · next hhas =>
      split
      · exact .inl ⟨_,rfl⟩
      · next huser =>
        split
        · exact .inl ⟨_,rfl⟩
        · next hne =>
          split
          · exact .inl ⟨_,rfl⟩
          · next hmay => exact .inr ⟨session,rfl,by simpa using hhas,by simpa using huser,hne,by simpa using hmay,rfl⟩

variable (float) in
theorem leave_cases (fresh : String) (request : Option Session) :
    (∃ e, leave float fresh request = (.error e,request)) ∨
      ∃ session impersonator, request = some session ∧ impersonatorId float request = some impersonator ∧
        leave float fresh request = (.ok (impersonator,(userId float request).getD ""),
          some (((session.regenerate fresh).forget impersonatorKey).put authKey (.string impersonator))) := by
  cases request with
  | none => exact .inl ⟨_,rfl⟩
  | some session =>
    simp only [leave,sessionOf]
    split
    · exact .inl ⟨_,rfl⟩
    · next impersonator h => exact .inr ⟨session,impersonator,rfl,h,rfl⟩

theorem authKey_ne : authKey ≠ impersonatorKey := by decide

theorem Inv.logsIn {call : Call U} {user : U} (h : Inv may s) (hcall : call.logsIn = some user)
    (hok : Undisturbed float s (call,fresh)) : Inv may (step float may s (call,fresh)) := by
  have himp : impersonatorId float s.session = none := hok (by rw [hcall]; rfl)
  cases hs : s.session with
  | none =>
    have hnone : perform float may none fresh call = (none,none) := by
      cases call with
      | login u => rfl
      | attempt retrieved valid =>
        rcases retrieved with e | (_ | u)
        · rfl
        · rfl
        · rcases valid with e | (_ | _) <;> rfl
      | logout => cases hcall
      | take i t => cases hcall
      | leave => cases hcall
    have hstep : step float may s (call,fresh) = s := by
      rw [step,hs,hnone,← hs]
      rfl
    rw [hstep]
    exact h
  | some session =>
    have hfree : session.value impersonatorKey = none := by
      have hwho := h.who
      rw [hs] at hwho
      cases hwho with
      | nobody hi hu => exact hi
      | own u hi hu hgiven => exact hi
      | acting i t hi hu hne htaken =>
        rw [hs,impersonatorId,string_of_held hi] at himp
        cases himp
    rw [step,hs,perform_logsIn hcall]
    constructor
    · apply Who.own (authIdentifier user)
      · change Session.value _ _ = _
        rw [Session.value_put,if_neg authKey_ne.symm,Session.value_regenerate,hfree]
      · change Session.value _ _ = _
        rw [Session.value_put,if_pos rfl]
      · rfl
    · exact leaves_cons h.leaves (by simp)

theorem Inv.logout (h : Inv may s) : Inv may (step float may s (.logout,fresh)) := by
  constructor
  · apply Who.nobody
    · cases hs : s.session <;> simp [step,perform,SessionGuard.logout,held,hs]
    · cases hs : s.session <;> simp [step,perform,SessionGuard.logout,held,hs]
  · exact leaves_cons h.leaves (by simp)

theorem Inv.take {impersonator target : U} (h : Inv may s) :
    Inv may (step float may s (.take impersonator target,fresh)) := by
  rcases take_cases float may impersonator target fresh s.session with
    ⟨e,he⟩ | ⟨session,hs,_,_,hne,hmay,htake⟩
  · have hstep : step float may s (.take impersonator target,fresh) = s := by
      simp only [step,perform,he]
      rfl
    rw [hstep]
    exact h
  · rw [step,perform,htake]
    constructor
    · apply Who.acting (authIdentifier impersonator) (authIdentifier target)
      · change Session.value _ _ = _
        rw [Session.value_put,if_neg authKey_ne.symm,Session.value_put,if_pos rfl]
      · change Session.value _ _ = _
        rw [Session.value_put,if_pos rfl]
      · exact hne
      · exact ⟨impersonator,target,s.changes,rfl,hmay,rfl,rfl⟩
    · exact leaves_cons h.leaves (by simp)

theorem Inv.leave (h : Inv may s) : Inv may (step float may s (.leave,fresh)) := by
  rcases leave_cases float fresh s.session with ⟨e,he⟩ | ⟨session,impersonator,hs,himp,hleave⟩
  · have hstep : step float may s (.leave,fresh) = s := by
      simp only [step,perform,he]
      rfl
    rw [hstep]
    exact h
  · have htaken : Taken may impersonator ((userId float s.session).getD "") s.changes := by
      cases h.who with
      | nobody hi hu =>
        rw [impersonatorId,string_of_not_held hi] at himp
        cases himp
      | own u hi hu hgiven =>
        rw [impersonatorId,string_of_not_held hi] at himp
        cases himp
      | acting i t hi hu hne htaken =>
        rw [impersonatorId,string_of_held hi] at himp
        rw [userId,string_of_held hu]
        cases himp
        exact htaken
    rw [step,perform,hleave]
    constructor
    · apply Who.own impersonator
      · change Session.value _ _ = _
        rw [Session.value_put,if_neg authKey_ne.symm,Session.value_forget,if_pos rfl]
      · change Session.value _ _ = _
        rw [Session.value_put,if_pos rfl]
      · rfl
    · apply leaves_cons h.leaves
      intro i ended heq
      cases heq
      exact htaken

theorem Inv.step {a : Call U × String} (h : Inv may s) (hok : Undisturbed float s a) : Inv may (step float may s a) := by
  obtain ⟨call,fresh⟩ := a
  cases hcall : call.logsIn with
  | some user => exact h.logsIn hcall hok
  | none =>
    cases call with
    | login u => cases hcall
    | attempt retrieved valid =>
      have hstep : Impersonation.step float may s (.attempt retrieved valid,fresh) = s := by
        simp only [Impersonation.step,perform_attempt hcall]
        rfl
      rw [hstep]
      exact h
    | logout => exact h.logout
    | take i t => exact h.take
    | leave => exact h.leave

/-! ## Every run -/

/-- As long as nobody logs in on a session that is impersonating, a leave ends the take
before it and goes back to the one who took, and the session is nobody's who has not logged
in, been taken with leave of the policy, or left. A take or a leave that fails changes
nothing. -/
theorem honest_of_undisturbed (float : BitVec 64 → String) (may : U → U → Bool) (id : String)
    (calls : List (Call U × String)) (h : Along (step float may) (Undisturbed float) (start id) calls) :
    Always (step float may) (Guarantees float may) (start id) calls ∧
      (∀ impersonator target fresh request e,
        (take float may impersonator target fresh request).1 = .error e →
          (take float may impersonator target fresh request).2 = request) ∧
      ∀ fresh request e, (leave float fresh request).1 = .error e → (leave float fresh request).2 = request := by
  have hinv : Inv may (start id : State U) := by
    refine ⟨.nobody rfl rfl,?_⟩
    intro later i ended earlier heq
    simp [start] at heq
  refine ⟨(always_of_along (fun s a hs ha => hs.step ha) hinv h).mono fun _ h => h.guarantees,?_,?_⟩
  · intro impersonator target fresh request e he
    rcases take_cases float may impersonator target fresh request with ⟨e',h⟩ | ⟨_,_,_,_,_,_,h⟩
    · rw [h]
    · rw [h] at he
      cases he
  · intro fresh request e he
    rcases leave_cases float fresh request with ⟨e',h⟩ | ⟨_,_,_,_,h⟩
    · rw [h]
    · rw [h] at he
      cases he

/-- Who may impersonate whom in the examples: the staff, and only customers. -/
def support (impersonator target : Account) : Bool := impersonator.id == "staff" && target.id != "staff"

/-- A member of staff logs in, looks at a customer's account and comes back. -/
theorem honest_of_undisturbed_visit :
    let calls : List (Call Account × String) := [(.login ⟨"staff",none⟩,"b"),(.take ⟨"staff",none⟩ ⟨"customer",none⟩,"c"),
      (.leave,"d"),(.login ⟨"customer",none⟩,"e")]
    Along (step (fun _ => "") support) (Undisturbed fun _ => "") (start "a") calls ∧
      Always (step (fun _ => "") support) (Guarantees (fun _ => "") support) (start "a") calls := by
  intro calls
  have h : Along (step (fun _ => "") support) (Undisturbed fun _ => "") (start "a") calls := by
    refine ⟨?_,?_,?_,?_,trivial⟩
    · intro _
      decide
    · intro hin
      cases hin
    · intro hin
      cases hin
    · intro _
      decide
  exact ⟨h,(honest_of_undisturbed _ _ _ _ h).1⟩

/-- Somebody else logs in while the member of staff is looking, leaves, and is staff. -/
theorem honest_broken :
    ¬ Guarantees (fun _ => "") support (run (step (fun _ => "") support) (start "a")
      [(.login ⟨"staff",none⟩,"b"),(.take ⟨"staff",none⟩ ⟨"customer",none⟩,"c"),(.login ⟨"other",none⟩,"d"),(.leave,"e")]) := by
  intro h
  obtain ⟨i,t,rest,heq,_⟩ := h.leaves [] "staff" "other" _ rfl
  cases heq

end Rainier.Auth.Impersonation
