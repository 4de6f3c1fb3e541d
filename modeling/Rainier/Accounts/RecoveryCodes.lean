import Rainier.Accounts.Footprints

/-! # A recovery code is good for one login

The record of an enrolment is read, changed in memory and written back as a whole, by a
login with a recovery code, by a login with a time code, which only means to change the last
step, and by a regeneration. Below any number of them are interleaved, one operation at a
time. A code is good once as long as no request writes the record back when it is no longer
what that request has read.
-/
namespace Rainier.Accounts.RecoveryCodes
open Auth Cache Mfa Trace

inductive Call where
  | challenge (request : Request)
  | regenerate (request : Request)

abbrev Entry (U : Type) := Program.Entry (Op U) Op.Answer Refusal

abbrev Run (U : Type) := Calls.State World (Flow U Response) (Entry U)

/-- What a request brings: a recovery code, by the digest it is stored under, or not. -/
inductive Kind where
  | code
  | recovery (hash : String)
  | regenerate
  deriving DecidableEq

variable {U Secret : Type} (accounts : Accounts Secret)

def kindOf : Call → Kind
  | .challenge request =>
    let input := input accounts request
    if string accounts input "code" = "" ∧ string accounts input "recovery_code" ≠ "" then
      .recovery (Recovery.hash accounts.digest (string accounts input "recovery_code"))
    else .code
  | .regenerate _ => .regenerate

section
variable [AccountUser U]

def start (w : World) (calls : ℕ → Call) : Run U :=
  ⟨w,fun i => match calls i with
    | .challenge request => twoFactorChallenge accounts request
    | .regenerate request => regenerateRecoveryCodes accounts request,[]⟩

variable (userId : String) (initial : List String)

/-- The digest has been among those stored for the user. -/
def Stored (log : List (ℕ × Entry U)) (hash : String) : Prop :=
  hash ∈ initial ∨ ∃ i user record, (i,⟨.saveTwoFactor user (some record),.ok ()⟩) ∈ log ∧
    authIdentifier user = userId ∧ hash ∈ record.recoveryCodes

/-- The request has logged the user in. -/
def Completed (log : List (ℕ × Entry U)) (i : ℕ) : Prop :=
  ∃ user, (i,⟨.announce (.login user),.ok ()⟩) ∈ log ∧ authIdentifier user = userId

/-- The entry is the end of a login with this code, or of a regeneration that has left it out. -/
inductive Ends (kinds : ℕ → Kind) (before : List (ℕ × Entry U)) (hash : String) : ℕ × Entry U → Prop
  | login (i : ℕ) (user : U) (hu : authIdentifier user = userId) (hi : kinds i = .recovery hash) :
    Ends kinds before hash (i,⟨.announce (.login user),.ok ()⟩)
  | regenerated (i : ℕ) (user : U) (record : TwoFactorRecord) (hu : authIdentifier user = userId) (hi : kinds i = .regenerate)
    (hold : Stored userId initial before hash) (hnew : hash ∉ record.recoveryCodes) :
    Ends kinds before hash (i,⟨.saveTwoFactor user (some record),.ok ()⟩)

/-- A code logs in once, and is not accepted from a request that starts when it is over. -/
structure SingleUse (kinds : ℕ → Kind) (s : Run U) : Prop where
  once : ∀ i j hash, kinds i = .recovery hash → kinds j = .recovery hash → Completed userId s.log i → Completed userId s.log j → i = j
  never : ∀ before e after hash, s.log = before ++ e :: after → Ends userId initial kinds before hash e →
    ∀ j remaining, kinds j = .recovery hash → (∀ e' ∈ before ++ [e], e'.1 ≠ j) →
      (j,⟨.announce (.recoveryCodeUsed userId remaining),.ok ()⟩) ∉ after

/-- The codes of a regeneration are new. -/
def Fresh (kinds : ℕ → Kind) (s : Run U) (a : ℕ × Outside U) : Prop :=
  ∀ user record next, s.calls a.1 = .call (.saveTwoFactor user (some record)) next → authIdentifier user = userId →
    kinds a.1 = .regenerate → record.recoveryCodes.Nodup ∧ ∀ hash ∈ record.recoveryCodes, ¬ Stored userId initial s.log hash

/-- A request writes the record back while it is still what the request has read. -/
def Undisturbed (s : Run U) (a : ℕ × Outside U) : Prop :=
  ∀ user record next, s.calls a.1 = .call (.saveTwoFactor user record) next → authIdentifier user = userId →
    ∀ user' read, (a.1,⟨.findTwoFactor user',.ok read⟩) ∈ s.log → authIdentifier user' = userId → s.cell.records userId = read

end

/-! ## The phases of a request -/

/-- A request that has not read the record, has read it, has found its code in it, has written
it back, is about another user, or was given a user who is not the one it asked for. -/
inductive Phase where
  | fresh (kind : Kind)
  | read (kind : Kind) (record : Option TwoFactorRecord)
  | spent (hash : String) (record : TwoFactorRecord)
  | saved (kind : Kind)
  | foreign
  | impossible

variable [AccountUser U]

/-- Operations that have nothing to do with the record of the user or with a login of theirs. -/
def Apart (userId : String) : Op U → Prop
  | .findTwoFactor user | .saveTwoFactor user _ | .announce (.login user) => authIdentifier user ≠ userId
  | .announce (.recoveryCodeUsed id _) => id ≠ userId
  | _ => True

def protocol (userId : String) : Program.Protocol (Op U) Op.Answer Phase where
  allows
    | .fresh _, .findTwoFactor _ => True
    | .fresh _, o => Apart userId o
    | .read kind (some record), .announce (.recoveryCodeUsed id _) =>
      id = userId ∧ ∃ hash ∈ record.recoveryCodes, kind = .recovery hash
    | .read kind (some record), .saveTwoFactor user saved =>
      authIdentifier user = userId ∧ ∃ new, saved = some new ∧
        (kind = .regenerate ∨ kind = .code ∧ new.recoveryCodes = record.recoveryCodes)
    | .read _ none, .saveTwoFactor _ _ => False
    | .read _ _, o => Apart userId o
    | .spent hash record, .saveTwoFactor user saved =>
      authIdentifier user = userId ∧ ∃ new, saved = some new ∧ new.recoveryCodes = record.recoveryCodes.erase hash
    | .saved _, .announce (.login _) => True
    | .saved _, o => Apart userId o
    | .foreign, o => Apart userId o
    | .impossible, _ => True
    | _, _ => False
  next
    | .fresh kind, .findById id, some user => if authIdentifier user = id then .fresh kind else .impossible
    | .fresh kind, .findTwoFactor user, record => if authIdentifier user = userId then .read kind record else .foreign
    | .read (.recovery hash) (some record), .announce (.recoveryCodeUsed _ _), _ => .spent hash record
    | .read kind _, .saveTwoFactor _ _, _ => .saved kind
    | .spent hash _, .saveTwoFactor _ _, _ => .saved (.recovery hash)
    | p, _, _ => p
  lapsed p := p
  mayEnd _ := True
  mayEnd_lapsed _ := trivial

variable {userId : String} {kind : Kind}

/-- Operations on the session and of the limiter go on in the same phase, except between
finding the code and writing the record back. -/
theorem meets_calm {α : Type} (l : CacheRateLimiter) (key : String) {p : Phase} (hp : ∀ hash record, p ≠ .spent hash record)
    {m : Flow U α} (h : Program.Uses (fun o => SessionOp o ∨ LimiterOp l key o) m) :
    Program.Meets (protocol userId) (fun p' _ => p' = p) p m := by
  have hcalm : ∀ o : Op U, SessionOp o ∨ LimiterOp l key o →
      (protocol userId).allows p o ∧ ∀ a, (protocol userId).next p o a = p := by
    intro o ho
    cases p with
    | spent hash record => exact absurd rfl (hp hash record)
    | fresh kind => rcases ho with ho | ho <;> cases o <;> first | exact False.elim ho | exact ⟨trivial,fun _ => rfl⟩
    | read kind record =>
      rcases record with _ | record <;> cases kind <;> rcases ho with ho | ho <;> cases o <;>
        first | exact False.elim ho | exact ⟨trivial,fun _ => rfl⟩
    | saved kind => rcases ho with ho | ho <;> cases o <;> first | exact False.elim ho | exact ⟨trivial,fun _ => rfl⟩
    | foreign => rcases ho with ho | ho <;> cases o <;> first | exact False.elim ho | exact ⟨trivial,fun _ => rfl⟩
    | impossible => rcases ho with ho | ho <;> cases o <;> first | exact False.elim ho | exact ⟨trivial,fun _ => rfl⟩
  refine h.meets (fun p' => p' = p) ?_ ?_ (fun _ _ => trivial) rfl
  · rintro _ o rfl ho
    exact (hcalm o ho).1
  · rintro _ o a rfl ho
    exact (hcalm o ho).2 a

theorem meets_impossible {α : Type} {Q : Phase → α → Prop} (hQ : ∀ a, Q .impossible a) (m : Flow U α) :
    Program.Meets (protocol userId) Q .impossible m := by
  apply Program.meets_of_free
  · intro o
    trivial
  · intro o a
    cases o <;> rfl
  · trivial
  · exact hQ

theorem meets_session {α : Type} {p : Phase} (hp : ∀ hash record, p ≠ .spent hash record) {m : Flow U α}
    (h : Program.Uses SessionOp m) : Program.Meets (protocol userId) (fun p' _ => p' = p) p m :=
  meets_calm twoFactorLimiter "" hp (h.mono fun _ => .inl)

theorem meets_limiter {α : Type} {key : String} {p : Phase} (hp : ∀ hash record, p ≠ .spent hash record) {m : Flow U α}
    (h : Program.Uses (LimiterOp twoFactorLimiter key) m) : Program.Meets (protocol userId) (fun p' _ => p' = p) p m :=
  meets_calm twoFactorLimiter key hp (h.mono fun _ => .inr)

/-- What a factor leaves of the record, and in which phase. -/
def Accepted (kind : Kind) (record : TwoFactorRecord) (p : Phase) : Option TwoFactorRecord → Prop
  | none => p = .read kind (some record)
  | some new => p = .read kind (some record) ∧ kind = .code ∧ new.recoveryCodes = record.recoveryCodes ∨
    ∃ hash, kind = .recovery hash ∧ p = .spent hash record ∧ new.recoveryCodes = record.recoveryCodes.erase hash

theorem meets_acceptCode (totp : Totp Secret) (id : String) (record : TwoFactorRecord) (code : String) :
    Program.Meets (protocol userId) (Accepted .code record) (.read .code (some record))
      (acceptCode accounts totp id record code : Flow U _) := by
  refine Program.Meets.bind (Q := fun p _ => p = .read .code (some record)) (Program.meets_lift trivial fun _ => rfl) ?_
  rintro _ secret rfl
  refine Program.meets_perform trivial fun t => ?_
  dsimp only [pure,Program.bind]
  split
  · rfl
  · refine Program.meets_perform trivial ?_
    rintro (e | (_ | _))
    · trivial
    · rfl
    · exact .inl ⟨rfl,rfl,rfl⟩

theorem meets_acceptFactor (totp : Totp Secret) (record : TwoFactorRecord) (request : Request) :
    Program.Meets (protocol userId) (Accepted (kindOf accounts (.challenge request)) record)
      (.read (kindOf accounts (.challenge request)) (some record))
      (acceptFactor accounts totp userId record (string accounts (input accounts request) "code")
        (string accounts (input accounts request) "recovery_code") : Flow U _) := by
  unfold acceptFactor
  by_cases hcode : string accounts (input accounts request) "code" = ""
  · rw [if_neg (by simpa using hcode)]
    by_cases hrecovery : string accounts (input accounts request) "recovery_code" = ""
    · rw [if_neg (by simpa using hrecovery)]
      rfl
    · rw [if_pos hrecovery]
      have hkind : kindOf accounts (.challenge request) =
          .recovery (Recovery.hash accounts.digest (string accounts (input accounts request) "recovery_code")) := by
        simp only [kindOf]
        rw [if_pos ⟨hcode,hrecovery⟩]
      cases hconsume : Recovery.consume accounts.digest record.recoveryCodes
          (string accounts (input accounts request) "recovery_code") with
      | mk spent left =>
        cases spent with
        | false => rfl
        | true =>
          obtain ⟨hmem,hleft⟩ := Recovery.consume_spent hconsume
          rw [hkind]
          exact Program.meets_perform ⟨rfl,_,hmem,rfl⟩ fun _ => .inr ⟨_,rfl,rfl,hleft⟩
  · rw [if_pos hcode]
    have hkind : kindOf accounts (.challenge request) = .code := by
      simp only [kindOf]
      rw [if_neg (by tauto)]
    rw [hkind]
    exact meets_acceptCode accounts totp userId record _

/-- A request about another user keeps away from the record. -/
theorem meets_apart {α : Type} {m : Flow U α} (h : Program.Uses (Apart userId) m) :
    Program.Meets (protocol userId) (fun _ _ => True) (.fresh kind) m := by
  refine (h.meets (fun p => p = .fresh kind ∨ p = .foreign ∨ p = .impossible) ?_ ?_ (fun _ _ => trivial) (.inl rfl)).mono
    fun _ _ _ => trivial
  · rintro _ o (rfl | rfl | rfl) ho
    · cases o <;> trivial
    · exact ho
    · trivial
  · rintro _ o a (rfl | rfl | rfl) ho
    · cases o with
      | findById id =>
        cases a with
        | none => exact .inl rfl
        | some user =>
          by_cases hid : authIdentifier user = id
          · exact .inl (if_pos hid)
          · exact .inr (.inr (if_neg hid))
      | findTwoFactor user => exact .inr (.inl (if_neg ho))
      | _ => exact .inl rfl
    · exact .inr (.inl (by cases o <;> rfl))
    · exact .inr (.inr (by cases o <;> rfl))

theorem sessionOp_apart (o : Op U) (h : SessionOp o) : Apart userId o := by
  cases o <;> trivial

theorem limiterOp_apart {l : CacheRateLimiter} {key : String} (o : Op U) (h : LimiterOp l key o) : Apart userId o := by
  cases o <;> trivial

theorem uses_completeLogin_apart (request : Request) {user : U} (hu : authIdentifier user ≠ userId) :
    Program.Uses (Apart userId) (completeLogin accounts request user) := by
  refine ((uses_guardLogin request user).mono sessionOp_apart).bind fun _ => ?_
  exact Program.uses_perform hu fun _ => trivial

theorem uses_acceptFactor_apart (totp : Totp Secret) {id : String} (hid : id ≠ userId) (record : TwoFactorRecord)
    (code recoveryCode : String) :
    Program.Uses (Apart userId) (acceptFactor accounts totp id record code recoveryCode : Flow U _) := by
  unfold acceptFactor
  split
  · refine Program.Uses.bind ?_ ?_
    · cases (accounts.fromBase32 record.secret).mapError Refusal.error <;> trivial
    · intro secret
      refine Program.uses_perform trivial fun t => ?_
      dsimp only [pure,Program.bind]
      split
      · trivial
      · refine Program.uses_perform trivial ?_
        rintro (e | (_ | _)) <;> trivial
  · split
    · dsimp only
      split
      · exact Program.uses_perform hid fun _ => trivial
      · trivial
    · trivial

theorem uses_checkFactor_apart (request : Request) {user : U} (hu : authIdentifier user ≠ userId) :
    Program.Uses (Apart userId) (checkFactor accounts request user (authIdentifier user)) := by
  unfold checkFactor configured
  split
  · next totp _ =>
    refine Program.uses_perform hu fun record => ?_
    split
    · exact ((uses_forgetPending request).mono sessionOp_apart).bind fun _ => trivial
    · next record _ =>
      refine (uses_acceptFactor_apart accounts totp hu record _ _).bind ?_
      rintro (_ | record)
      · refine ((uses_hit twoFactorLimiter _ _).mono limiterOp_apart).bind fun _ => ?_
        exact Program.uses_perform trivial fun _ => trivial
      · refine Program.uses_perform hu fun _ => ?_
        refine ((uses_clear twoFactorLimiter _).mono limiterOp_apart).bind fun _ => ?_
        refine ((uses_forgetPending request).mono sessionOp_apart).bind fun _ => ?_
        exact uses_completeLogin_apart accounts request hu
  · trivial

/-- The challenge once it has read the record of the user. -/
theorem meets_checkFactor (request : Request) {user : U} (hu : authIdentifier user = userId) :
    Program.Meets (protocol userId) (fun _ _ => True) (.fresh (kindOf accounts (.challenge request)))
      (checkFactor accounts request user userId) := by
  unfold checkFactor configured
  split
  · next totp _ =>
    refine Program.meets_perform trivial fun record => ?_
    rw [show (protocol userId).next (.fresh _) (.findTwoFactor user) record = .read _ record from if_pos hu]
    split
    · refine (meets_session (by simp) (uses_forgetPending request)).bind ?_
      rintro _ _ rfl
      trivial
    · next record hrecord =>
      rw [Option.eq_some_of_filter_eq_some hrecord]
      refine (meets_acceptFactor accounts totp record request).bind ?_
      rintro p (_ | new) hp
      · subst hp
        refine (meets_limiter (by simp) (uses_hit twoFactorLimiter userId _)).bind ?_
        rintro _ _ rfl
        exact Program.meets_perform trivial fun _ => trivial
      · have hsave : ∃ kind, (protocol userId).allows p (.saveTwoFactor user (some new)) ∧
            ∀ a, (protocol userId).next p (.saveTwoFactor user (some new)) a = .saved kind := by
          rcases hp with ⟨rfl,hkind,hcodes⟩ | ⟨hash,hkind,rfl,hcodes⟩
          · rw [hkind]
            exact ⟨.code,⟨hu,new,rfl,.inr ⟨rfl,hcodes⟩⟩,fun _ => rfl⟩
          · exact ⟨.recovery hash,⟨hu,new,rfl,hcodes⟩,fun _ => rfl⟩
        obtain ⟨kind,hallows,hnext⟩ := hsave
        refine Program.meets_perform hallows fun _ => ?_
        rw [hnext]
        refine (meets_limiter (by simp) (uses_clear twoFactorLimiter userId)).bind ?_
        rintro _ _ rfl
        refine (meets_session (by simp) (uses_forgetPending request)).bind ?_
        rintro _ _ rfl
        refine (meets_session (by simp) (uses_guardLogin request user)).bind ?_
        rintro _ _ rfl
        exact Program.meets_perform trivial fun _ => trivial
  · trivial

theorem meets_challenge (request : Request) : Program.Meets (protocol userId) (fun _ _ => True)
    (.fresh (kindOf accounts (.challenge request))) (twoFactorChallenge accounts request : Flow U Response) := by
  refine Program.meets_perform trivial ?_
  rintro (_ | session)
  · trivial
  · change Program.Meets (protocol userId) _ (Phase.fresh _) _
    refine (meets_session (by simp) (uses_livePending session)).bind ?_
    rintro _ (_ | pending) rfl
    · refine (meets_session (by simp) (uses_forgetPending request)).bind ?_
      rintro _ _ rfl
      trivial
    · refine Program.meets_perform trivial ?_
      rintro (_ | user)
      · change Program.Meets (protocol userId) _ (Phase.fresh _) _
        refine (meets_session (by simp) (uses_forgetPending request)).bind ?_
        rintro _ _ rfl
        trivial
      · by_cases hid : authIdentifier user = pending.id
        · rw [show (protocol userId).next (.fresh _) (.findById pending.id) (some user) = .fresh _ from if_pos hid]
          refine (meets_limiter (by simp) (uses_peek twoFactorLimiter pending.id)).bind ?_
          rintro _ hit rfl
          split
          · trivial
          · rw [← hid]
            by_cases hu : authIdentifier user = userId
            · rw [hu]
              exact meets_checkFactor accounts request hu
            · exact meets_apart (uses_checkFactor_apart accounts request hu)
        · rw [show (protocol userId).next (.fresh _) (.findById pending.id) (some user) = .impossible from if_neg hid]
          exact meets_impossible (fun _ => trivial) _

theorem meets_currentUser (request : Request) : Program.Meets (protocol userId)
    (fun p _ => p = .fresh kind ∨ p = .impossible) (.fresh kind) (currentUser accounts request : Flow U U) := by
  refine Program.Meets.bind (Q := fun p _ => p = .fresh kind ∨ p = .impossible) ?_ ?_
  · refine Program.meets_perform trivial ?_
    rintro (_ | session)
    · exact .inl rfl
    · dsimp only
      split
      · exact .inl rfl
      · next id _ =>
        refine ⟨trivial,?_⟩
        rintro (_ | user)
        · exact .inl rfl
        · by_cases hid : authIdentifier user = id
          · exact .inl (if_pos hid)
          · exact .inr (if_neg hid)
  · rintro p (_ | user) hp
    · trivial
    · exact hp

theorem meets_regenerate (request : Request) : Program.Meets (protocol userId) (fun _ _ => True) (.fresh .regenerate)
    (regenerateRecoveryCodes accounts request : Flow U Response) := by
  refine (meets_currentUser accounts request).bind ?_
  rintro _ user (rfl | rfl)
  · refine (meets_session (by simp) (uses_requireConfirmedPassword request (fun _ => trivial) trivial)).bind ?_
    rintro _ _ rfl
    unfold configured
    split
    · refine Program.meets_perform trivial ?_
      intro record
      by_cases hu : authIdentifier user = userId
      · rw [show (protocol userId).next (.fresh _) (.findTwoFactor user) record = .read _ record from if_pos hu]
        cases record with
        | none => trivial
        | some record =>
          refine Program.meets_perform trivial fun codes => ?_
          exact Program.meets_perform ⟨hu,_,rfl,.inl rfl⟩ fun _ => trivial
      · rw [show (protocol userId).next (.fresh _) (.findTwoFactor user) record = .foreign from if_neg hu]
        cases record with
        | none => trivial
        | some record =>
          refine Program.meets_perform trivial fun codes => ?_
          exact Program.meets_perform hu fun _ => trivial
    · trivial
  · exact meets_impossible (fun _ => trivial) _

/-! ## What the requests leave the codes in -/

/-- The phase of a request of this kind. -/
def Phase.Of (kind : Kind) : Phase → Prop
  | fresh k | read k _ | saved k => k = kind
  | spent hash record => kind = .recovery hash ∧ hash ∈ record.recoveryCodes
  | foreign => True
  | impossible => False

/-- The record the request works on. -/
def Phase.held : Phase → Option TwoFactorRecord
  | read _ record => record
  | spent _ record => some record
  | _ => none

def codesIn (userId : String) (w : World) : List String := (w.records userId).elim [] TwoFactorRecord.recoveryCodes

/-- The code is over. -/
def Dead (userId : String) (initial : List String) (s : Run U) (hash : String) : Prop :=
  Stored userId initial s.log hash ∧ hash ∉ codesIn userId s.cell

structure Inv (userId : String) (initial : List String) (kinds : ℕ → Kind) (phases : ℕ → Phase) (s : Run U) : Prop where
  kind : ∀ i, (phases i).Of (kinds i)
  reads : ∀ i record, (phases i).held = some record →
    ∃ user, (i,⟨.findTwoFactor user,.ok (some record)⟩) ∈ s.log ∧ authIdentifier user = userId
  nodup : (codesIn userId s.cell).Nodup
  stored : ∀ hash ∈ codesIn userId s.cell, Stored userId initial s.log hash
  saved : ∀ i hash, phases i = .saved (.recovery hash) → Dead userId initial s hash
  savedOnce : ∀ i j hash, phases i = .saved (.recovery hash) → phases j = .saved (.recovery hash) → i = j
  completed : ∀ i, Completed userId s.log i → ∃ k, phases i = .saved k
  ended : ∀ before e after hash, s.log = before ++ e :: after → Ends userId initial kinds before hash e →
    Dead userId initial s hash
  late : ∀ before e after hash, s.log = before ++ e :: after → Ends userId initial kinds before hash e →
    ∀ j record, (∀ e' ∈ before ++ [e], e'.1 ≠ j) → (phases j).held = some record → hash ∉ record.recoveryCodes
  never : ∀ before e after hash, s.log = before ++ e :: after → Ends userId initial kinds before hash e →
    ∀ j remaining, kinds j = .recovery hash → (∀ e' ∈ before ++ [e], e'.1 ≠ j) →
      (j,⟨.announce (.recoveryCodeUsed userId remaining),.ok ()⟩) ∉ after

variable {initial : List String} {kinds : ℕ → Kind} {phases : ℕ → Phase} {s : Run U} {i : ℕ} {cell : World}
variable {calls : ℕ → Flow U Response} {e : Entry U} {log : List (ℕ × Entry U)}

theorem Inv.singleUse (h : Inv userId initial kinds phases s) : SingleUse userId initial kinds s := by
  refine ⟨?_,h.never⟩
  intro i j hash hi hj hci hcj
  have hsaved : ∀ i, kinds i = .recovery hash → Completed userId s.log i → phases i = .saved (.recovery hash) := by
    intro i hi hci
    obtain ⟨k,hk⟩ := h.completed i hci
    have hkind := h.kind i
    rw [hk] at hkind
    rw [hk,show k = kinds i from hkind,hi]
  exact h.savedOnce i j hash (hsaved i hi hci) (hsaved j hj hcj)

theorem Stored.append {hash : String} (h : Stored userId initial log hash) (more : List (ℕ × Entry U)) :
    Stored userId initial (log ++ more) hash := by
  rcases h with h | ⟨i,user,record,hmem,hu,hhash⟩
  · exact .inl h
  · exact .inr ⟨i,user,record,List.mem_append_left _ hmem,hu,hhash⟩

omit [AccountUser U] in
/-- Where an entry stands in a log that has grown by one. -/
theorem split_append {before after : List (ℕ × Entry U)} {e e' : ℕ × Entry U} (h : log ++ [e'] = before ++ e :: after) :
    (∃ rest, after = rest ++ [e'] ∧ log = before ++ e :: rest) ∨ after = [] ∧ e = e' ∧ before = log := by
  rcases List.eq_nil_or_concat after with rfl | ⟨rest,last,rfl⟩
  · obtain ⟨hlog,he⟩ := List.append_inj' h rfl
    exact .inr ⟨rfl,(List.cons.inj he).1.symm,hlog.symm⟩
  · rw [List.concat_eq_append,← List.cons_append,← List.append_assoc] at h
    obtain ⟨hlog,he⟩ := List.append_inj' h rfl
    rw [(List.cons.inj he).1]
    exact .inl ⟨rest,by simp,hlog⟩

/-! ## One operation -/

/-- What has to be known of an operation of request `i`: the entry it leaves, the phase it leads
to and the world it leaves. -/
structure Move (userId : String) (initial : List String) (kinds : ℕ → Kind) (phases : ℕ → Phase) (s : Run U) (i : ℕ) (e : Entry U)
    (p : Phase) (cell : World) : Prop where
  kind : p.Of (kinds i)
  reads : ∀ record, p.held = some record →
    ∃ user, (i,⟨.findTwoFactor user,.ok (some record)⟩) ∈ s.log ++ [(i,e)] ∧ authIdentifier user = userId
  nodup : (codesIn userId cell).Nodup
  stored : ∀ hash ∈ codesIn userId cell, Stored userId initial (s.log ++ [(i,e)]) hash
  dead : ∀ hash, Dead userId initial s hash → hash ∉ codesIn userId cell
  saved : ∀ hash, p = .saved (.recovery hash) → Stored userId initial (s.log ++ [(i,e)]) hash ∧ hash ∉ codesIn userId cell ∧
    ∀ j, j ≠ i → phases j ≠ .saved (.recovery hash)
  was : ∀ k, phases i = .saved k → p = .saved k
  login : ∀ user, e = ⟨.announce (.login user),.ok ()⟩ → authIdentifier user = userId → ∃ k, p = .saved k
  ends : ∀ hash, Ends userId initial kinds s.log hash (i,e) → Dead userId initial ⟨cell,s.calls,s.log ++ [(i,e)]⟩ hash
  late : ∀ before e' after hash, s.log = before ++ e' :: after → Ends userId initial kinds before hash e' →
    (∀ e'' ∈ before ++ [e'], e''.1 ≠ i) → ∀ record, p.held = some record → hash ∉ record.recoveryCodes
  never : ∀ before e' after hash, s.log = before ++ e' :: after → Ends userId initial kinds before hash e' →
    (∀ e'' ∈ before ++ [e'], e''.1 ≠ i) → kinds i = .recovery hash →
      ∀ remaining, e ≠ ⟨.announce (.recoveryCodeUsed userId remaining),.ok ()⟩

theorem Inv.move (h : Inv userId initial kinds phases s) {p : Phase} (m : Move userId initial kinds phases s i e p cell) :
    Inv userId initial kinds (Function.update phases i p) ⟨cell,calls,s.log ++ [(i,e)]⟩ := by
  have hdead : ∀ hash, Dead userId initial s hash → Dead userId initial ⟨cell,calls,s.log ++ [(i,e)]⟩ hash :=
    fun hash hd => ⟨hd.1.append _,m.dead hash hd⟩
  have hsavedBefore : ∀ j hash, j ≠ i → Function.update phases i p j = .saved (.recovery hash) →
      phases j = .saved (.recovery hash) := by
    intro j hash hji hj
    rwa [Function.update_of_ne hji] at hj
  refine ⟨?_,?_,m.nodup,m.stored,?_,?_,?_,?_,?_,?_⟩
  · intro j
    by_cases hji : j = i
    · subst hji
      rw [Function.update_self]
      exact m.kind
    · rw [Function.update_of_ne hji]
      exact h.kind j
  · intro j record hj
    by_cases hji : j = i
    · subst hji
      rw [Function.update_self] at hj
      exact m.reads record hj
    · rw [Function.update_of_ne hji] at hj
      obtain ⟨user,hmem,hu⟩ := h.reads j record hj
      exact ⟨user,List.mem_append_left _ hmem,hu⟩
  · intro j hash hj
    by_cases hji : j = i
    · subst hji
      rw [Function.update_self] at hj
      obtain ⟨hstored,hnot,_⟩ := m.saved hash hj
      exact ⟨hstored,hnot⟩
    · exact hdead hash (h.saved j hash (hsavedBefore j hash hji hj))
  · intro j k hash hj hk
    by_cases hji : j = i
    · by_cases hki : k = i
      · rw [hji,hki]
      · subst hji
        rw [Function.update_self] at hj
        exact absurd (hsavedBefore k hash hki hk) ((m.saved hash hj).2.2 k hki)
    · by_cases hki : k = i
      · subst hki
        rw [Function.update_self] at hk
        exact absurd (hsavedBefore j hash hji hj) ((m.saved hash hk).2.2 j hji)
      · exact h.savedOnce j k hash (hsavedBefore j hash hji hj) (hsavedBefore k hash hki hk)
  · rintro j ⟨user,hmem,hu⟩
    by_cases hji : j = i
    · subst hji
      rw [Function.update_self]
      rcases List.mem_append.mp hmem with hmem | hmem
      · obtain ⟨k,hk⟩ := h.completed j ⟨user,hmem,hu⟩
        exact ⟨k,m.was k hk⟩
      · cases List.mem_singleton.mp hmem
        exact m.login user rfl hu
    · rw [Function.update_of_ne hji]
      rcases List.mem_append.mp hmem with hmem | hmem
      · exact h.completed j ⟨user,hmem,hu⟩
      · cases List.mem_singleton.mp hmem
        exact absurd rfl hji
  · intro before e' after hash hlog hends
    rcases split_append hlog with ⟨rest,_,hlog'⟩ | ⟨_,rfl,rfl⟩
    · exact hdead hash (h.ended before e' rest hash hlog' hends)
    · exact m.ends hash hends
  · intro before e' after hash hlog hends j record hj hheld
    rcases split_append hlog with ⟨rest,_,hlog'⟩ | ⟨_,rfl,rfl⟩
    · by_cases hji : j = i
      · subst hji
        rw [Function.update_self] at hheld
        exact m.late before e' rest hash hlog' hends hj record hheld
      · rw [Function.update_of_ne hji] at hheld
        exact h.late before e' rest hash hlog' hends j record hj hheld
    · -- whoever holds a record has read it, and has begun
      have hji : j ≠ i := by
        rintro rfl
        exact hj _ (List.mem_append_right _ List.mem_cons_self) rfl
      rw [Function.update_of_ne hji] at hheld
      obtain ⟨user,hmem,_⟩ := h.reads j record hheld
      exact absurd rfl (hj _ (List.mem_append_left _ hmem))
  · intro before e' after hash hlog hends j remaining hkind hj hmem
    rcases split_append hlog with ⟨rest,rfl,hlog'⟩ | ⟨rfl,rfl,rfl⟩
    · rcases List.mem_append.mp hmem with hmem | hmem
      · exact h.never before e' rest hash hlog' hends j remaining hkind hj hmem
      · cases List.mem_singleton.mp hmem
        exact m.never before e' rest hash hlog' hends hj hkind remaining rfl
    · cases hmem

/-- An operation that leaves the record as it is. -/
theorem Move.still (h : Inv userId initial kinds phases s) {p : Phase} (hrecords : cell.records userId = s.cell.records userId)
    (hsave : ∀ user record, e = ⟨.saveTwoFactor user (some record),.ok ()⟩ → authIdentifier user ≠ userId)
    (hlogin : ∀ user, e = ⟨.announce (.login user),.ok ()⟩ → authIdentifier user = userId → ∃ k, phases i = .saved k)
    (hused : ∀ remaining, e = ⟨.announce (.recoveryCodeUsed userId remaining),.ok ()⟩ →
      ∃ hash record, kinds i = .recovery hash ∧ (phases i).held = some record ∧ hash ∈ record.recoveryCodes)
    (hkind : p.Of (kinds i)) (hsaved : ∀ k, phases i = .saved k ↔ p = .saved k)
    (hheld : ∀ record, p.held = some record → (phases i).held = some record ∨
      s.cell.records userId = some record ∧ ∃ user, e = ⟨.findTwoFactor user,.ok (some record)⟩ ∧ authIdentifier user = userId) :
    Move userId initial kinds phases s i e p cell := by
  have hcodes : codesIn userId cell = codesIn userId s.cell := by rw [codesIn,hrecords,codesIn]
  refine ⟨hkind,?_,hcodes ▸ h.nodup,?_,?_,?_,fun k => (hsaved k).mp,?_,?_,?_,?_⟩
  · intro record hrecord
    rcases hheld record hrecord with hbefore | ⟨_,user,rfl,hu⟩
    · obtain ⟨user,hmem,hu⟩ := h.reads i record hbefore
      exact ⟨user,List.mem_append_left _ hmem,hu⟩
    · exact ⟨user,List.mem_append_right _ List.mem_cons_self,hu⟩
  · rw [hcodes]
    exact fun hash hhash => (h.stored hash hhash).append _
  · rw [hcodes]
    exact fun hash hdead => hdead.2
  · intro hash hp
    have hbefore := (hsaved _).mpr hp
    obtain ⟨hstored,hnot⟩ := h.saved i hash hbefore
    refine ⟨hstored.append _,hcodes ▸ hnot,?_⟩
    intro j hji hj
    exact hji (h.savedOnce j i hash hj hbefore)
  · intro user he hu
    obtain ⟨k,hk⟩ := hlogin user he hu
    exact ⟨k,(hsaved k).mp hk⟩
  · intro hash hends
    cases hends with
    | login _ user hu hi =>
      obtain ⟨k,hk⟩ := hlogin user rfl hu
      have hof := h.kind i
      rw [hk,Phase.Of,hi] at hof
      subst hof
      obtain ⟨hstored,hnot⟩ := h.saved i hash hk
      exact ⟨hstored.append _,hcodes ▸ hnot⟩
    | regenerated _ user record hu _ _ _ => exact absurd hu (hsave user record rfl)
  · intro before e' after hash hlog hends hi record hrecord
    rcases hheld record hrecord with hbefore | ⟨hcurrent,_⟩
    · exact h.late before e' after hash hlog hends i record hi hbefore
    · have hnot := (h.ended before e' after hash hlog hends).2
      rw [codesIn,hcurrent] at hnot
      exact hnot
  · intro before e' after hash hlog hends hi hkinds remaining he
    obtain ⟨hash',record,hkinds',hrecord,hmem⟩ := hused remaining he
    cases hkinds.symm.trans hkinds'
    exact h.late before e' after hash hlog hends i record hi hrecord hmem

/-- The record is written back. -/
theorem Move.save {user : U} {new : TwoFactorRecord} (hu : authIdentifier user = userId) (hcell : cell.records userId = some new)
    (hbefore : ∀ k, phases i ≠ .saved k) (hnodup : new.recoveryCodes.Nodup)
    (hdead : ∀ hash, Dead userId initial s hash → hash ∉ new.recoveryCodes)
    (hspent : ∀ hash, kinds i = .recovery hash → hash ∈ codesIn userId s.cell ∧ hash ∉ new.recoveryCodes)
    (h : Inv userId initial kinds phases s) :
    Move userId initial kinds phases s i ⟨.saveTwoFactor user (some new),.ok ()⟩ (.saved (kinds i)) cell := by
  have hcodes : codesIn userId cell = new.recoveryCodes := by rw [codesIn,hcell,Option.elim_some]
  refine ⟨rfl,?_,hcodes ▸ hnodup,?_,?_,?_,?_,?_,?_,?_,?_⟩
  · intro record hrecord
    cases hrecord
  · intro hash hhash
    rw [hcodes] at hhash
    exact .inr ⟨i,user,new,List.mem_append_right _ List.mem_cons_self,hu,hhash⟩
  · rw [hcodes]
    exact hdead
  · intro hash hp
    obtain ⟨hmem,hnot⟩ := hspent hash (Phase.saved.inj hp)
    refine ⟨(h.stored hash hmem).append _,hcodes ▸ hnot,?_⟩
    intro j _ hj
    exact (h.saved j hash hj).2 hmem
  · intro k hk
    exact absurd hk (hbefore k)
  · intro user he
    cases he
  · intro hash hends
    cases hends with
    | regenerated _ _ _ _ _ hold hnew => exact ⟨hold.append _,hcodes ▸ hnew⟩
  · intro _ _ _ _ _ _ _ record hrecord
    cases hrecord
  · intro _ _ _ _ _ _ _ _ remaining he
    cases he

variable {verifies : String → String → Bool} {x : Outside U} {o : Op U} {next : o.Answer → Flow U Response}

/-- An operation that has nothing to do with the record, in a phase that holds the same. -/
theorem Inv.apart (h : Inv userId initial kinds phases s) (ho : Apart userId o) {p : Phase} (hkind : p.Of (kinds i))
    (hsaved : ∀ k, phases i = .saved k ↔ p = .saved k) (hheld : p.held = (phases i).held) :
    Inv userId initial kinds (Function.update phases i p)
      ⟨(handle verifies x s.cell o).2,calls,s.log ++ [(i,⟨o,(handle verifies x s.cell o).1⟩)]⟩ := by
  refine h.move (Move.still h (handle_records ?_) ?_ ?_ ?_ hkind hsaved fun record hrecord => .inl (hheld ▸ hrecord))
  · rintro user record rfl
    exact ho
  · intro user record he
    obtain rfl := congrArg Sigma.fst he
    exact ho
  · intro user he hu
    obtain rfl := congrArg Sigma.fst he
    exact absurd hu ho
  · intro remaining he
    obtain rfl := congrArg Sigma.fst he
    exact absurd rfl ho

/-- The same in the phase the request is in. -/
theorem Inv.stay (h : Inv userId initial kinds phases s) (ho : Apart userId o) {p : Phase} (hp : p = phases i) :
    Inv userId initial kinds (Function.update phases i p)
      ⟨(handle verifies x s.cell o).2,calls,s.log ++ [(i,⟨o,(handle verifies x s.cell o).1⟩)]⟩ := by
  subst hp
  exact h.apart ho (h.kind i) (fun _ => Iff.rfl) rfl

/-- The record is read. -/
theorem Inv.find {kind : Kind} {user : U} (h : Inv userId initial kinds phases s) (hphase : phases i = .fresh kind) :
    Inv userId initial kinds
      (Function.update phases i ((protocol userId).after (.fresh kind) (.findTwoFactor user) (handle verifies x s.cell (.findTwoFactor user)).1))
      ⟨(handle verifies x s.cell (.findTwoFactor user)).2,calls,
        s.log ++ [(i,⟨.findTwoFactor user,(handle verifies x s.cell (.findTwoFactor user)).1⟩)]⟩ := by
  have hkind := h.kind i
  rw [hphase] at hkind
  have hstill : ∀ p r, p.Of (kinds i) → (∀ k, p ≠ .saved k) → (∀ record, p.held = some record →
      s.cell.records userId = some record ∧ r = .ok (some record) ∧ authIdentifier user = userId) →
      Inv userId initial kinds (Function.update phases i p)
        ⟨(handle verifies x s.cell (.findTwoFactor user)).2,calls,s.log ++ [(i,⟨.findTwoFactor user,r⟩)]⟩ := by
    intro p r hp hsaved hheld
    refine h.move (Move.still h (handle_records (by simp)) (by simp) (by simp) (by simp) hp ?_ ?_)
    · intro k
      rw [hphase]
      constructor
      · intro hk
        cases hk
      · intro hk
        exact absurd hk (hsaved k)
    · intro record hrecord
      obtain ⟨hcurrent,hr,hu⟩ := hheld record hrecord
      exact .inr ⟨hcurrent,user,by rw [hr],hu⟩
  cases hx : x.fails with
  | some error =>
    have hfails : (handle verifies x s.cell (.findTwoFactor user)).1 = .error (.error error) := by
      simp only [handle,operate,Outside.attempt,hx]
    rw [hfails]
    exact hstill (.fresh kind) _ hkind (by simp) (by simp [Phase.held])
  | none =>
    have hreads : (handle verifies x s.cell (.findTwoFactor user)).1 = .ok (s.cell.records (authIdentifier user)) := by
      simp only [handle,operate,Outside.attempt_of_none hx]
    rw [hreads]
    by_cases hu : authIdentifier user = userId
    · have hafter : (protocol userId).after (ε := Refusal) (.fresh kind) (.findTwoFactor user) (.ok (s.cell.records (authIdentifier user))) =
          .read kind (s.cell.records (authIdentifier user)) := if_pos hu
      rw [hafter,hu]
      refine hstill _ _ hkind (by simp) ?_
      intro record hrecord
      exact ⟨hrecord,congrArg _ hrecord,hu⟩
    · have hafter : (protocol userId).after (ε := Refusal) (.fresh kind) (.findTwoFactor user) (.ok (s.cell.records (authIdentifier user))) =
          .foreign := if_neg hu
      rw [hafter]
      exact hstill _ _ trivial (by simp) (by simp [Phase.held])

/-- A record that nobody has touched since it was read is written back. -/
theorem Inv.save {user : U} {record new : TwoFactorRecord} {next : Unit → Flow U Response} (h : Inv userId initial kinds phases s)
    (hok : Fresh userId initial kinds s (i,x) ∧ Undisturbed userId s (i,x))
    (hi : s.calls i = .call (.saveTwoFactor user (some new)) next) (hu : authIdentifier user = userId)
    (hbefore : ∀ k, phases i ≠ .saved k) (hheld : (phases i).held = some record)
    (hnext : (protocol userId).next (phases i) (.saveTwoFactor user (some new)) () = .saved (kinds i))
    (hnew : kinds i = .regenerate ∨ kinds i = .code ∧ new.recoveryCodes = record.recoveryCodes ∨
      ∃ hash ∈ record.recoveryCodes, kinds i = .recovery hash ∧ new.recoveryCodes = record.recoveryCodes.erase hash) :
    Inv userId initial kinds
      (Function.update phases i ((protocol userId).after (phases i) (.saveTwoFactor user (some new))
        (handle verifies x s.cell (.saveTwoFactor user (some new))).1))
      ⟨(handle verifies x s.cell (.saveTwoFactor user (some new))).2,calls,
        s.log ++ [(i,⟨.saveTwoFactor user (some new),(handle verifies x s.cell (.saveTwoFactor user (some new))).1⟩)]⟩ := by
  obtain ⟨user',hmem,hu'⟩ := h.reads i record hheld
  have hcurrent := hok.2 user (some new) next hi hu user' (some record) hmem hu'
  have hcodes : codesIn userId s.cell = record.recoveryCodes := by rw [codesIn,hcurrent,Option.elim_some]
  cases hx : x.fails with
  | some error =>
    simp only [handle,operate,Outside.attempt,hx]
    refine h.move (Move.still h rfl (by simp) (by simp) (by simp) (h.kind i) (fun _ => Iff.rfl) ?_)
    intro record hrecord
    exact .inl hrecord
  | none =>
    simp only [handle,operate,Outside.attempt_of_none hx]
    rw [show (protocol userId).after (phases i) (.saveTwoFactor user (some new)) (.ok ()) = .saved (kinds i) from hnext]
    have hcell : Function.update s.cell.records (authIdentifier user) (some new) userId = some new := by
      rw [hu,Function.update_self]
    rcases hnew with hkind | ⟨hkind,hsame⟩ | ⟨hash,hhash,hkind,herase⟩
    · obtain ⟨hnodup,hfresh⟩ := hok.1 user new next hi hu hkind
      refine h.move (Move.save hu hcell hbefore hnodup ?_ ?_ h)
      · intro hash hdead hmem
        exact hfresh hash hmem hdead.1
      · intro hash hrecovery
        cases hkind.symm.trans hrecovery
    · rw [← hcodes] at hsame
      refine h.move (Move.save hu hcell hbefore (hsame ▸ h.nodup) ?_ ?_ h)
      · intro hash hdead
        rw [hsame]
        exact hdead.2
      · intro hash hrecovery
        cases hkind.symm.trans hrecovery
    · rw [← hcodes] at herase hhash
      refine h.move (Move.save hu hcell hbefore (herase ▸ h.nodup.erase hash) ?_ ?_ h)
      · intro hash' hdead hmem
        rw [herase] at hmem
        exact hdead.2 (List.mem_of_mem_erase hmem)
      · intro hash' hrecovery
        cases hkind.symm.trans hrecovery
        rw [herase]
        exact ⟨hhash,h.nodup.not_mem_erase⟩

/-- The code of the request is in the record it has read. -/
theorem Inv.use {record : TwoFactorRecord} {hash id : String} {remaining : ℕ} (h : Inv userId initial kinds phases s)
    (hphase : phases i = .read (.recovery hash) (some record)) (hhash : hash ∈ record.recoveryCodes) :
    Inv userId initial kinds (Function.update phases i (.spent hash record))
      ⟨(handle verifies x s.cell (.announce (.recoveryCodeUsed id remaining))).2,calls,
        s.log ++ [(i,⟨.announce (.recoveryCodeUsed id remaining),.ok ()⟩)]⟩ := by
  have hkind := h.kind i
  rw [hphase] at hkind
  refine h.move (Move.still h rfl (by simp) (by simp) ?_ ⟨hkind.symm,hhash⟩ (by simp [hphase]) ?_)
  · intro _ _
    exact ⟨hash,record,hkind.symm,by rw [hphase,Phase.held],hhash⟩
  · intro record' hrecord'
    refine .inl ?_
    rw [hphase]
    exact hrecord'

/-- An operation whose answer does not lead out of the phase does not lead out of it. -/
theorem after_same {p : Phase} (h : ∀ a, (protocol userId).next p o a = p) (r : Except Refusal o.Answer) :
    (protocol userId).after p o r = p := by
  cases r with
  | ok a => exact h a
  | error _ => rfl

theorem Inv.operated (h : Inv userId initial kinds phases s) (hallows : (protocol userId).allows (phases i) o)
    (hok : Fresh userId initial kinds s (i,x) ∧ Undisturbed userId s (i,x)) (hi : s.calls i = .call o next) :
    Inv userId initial kinds (Function.update phases i ((protocol userId).after (phases i) o (handle verifies x s.cell o).1))
      ⟨(handle verifies x s.cell o).2,Function.update s.calls i (Program.resume next (handle verifies x s.cell o).1),
        s.log ++ [(i,⟨o,(handle verifies x s.cell o).1⟩)]⟩ := by
  have hkind := h.kind i
  cases hphase : phases i with
  | impossible =>
    rw [hphase] at hkind
    exact hkind.elim
  | fresh kind =>
    rw [hphase] at hallows
    cases o with
    | findTwoFactor user => exact h.find hphase
    | findById id =>
      apply h.stay
      · trivial
      · rw [hphase]
        simp only [handle,operate,Outside.attempt]
        split
        · rfl
        · cases huser : x.user.filter fun user => decide (authIdentifier user = id) with
          | none => rfl
          | some user =>
            obtain ⟨_,hid⟩ := Option.filter_eq_some_iff.mp huser
            exact if_pos (of_decide_eq_true hid)
    | _ =>
      apply h.stay
      · exact hallows
      · rw [hphase]
        exact after_same (fun _ => rfl) _
  | read kind record =>
    rw [hphase] at hallows hkind
    cases record with
    | none =>
      cases o with
      | saveTwoFactor user saved => exact False.elim hallows
      | _ =>
        apply h.stay
        · exact hallows
        · rw [hphase]
          exact after_same (fun _ => by cases kind <;> rfl) _
    | some record =>
      cases o with
      | saveTwoFactor user saved =>
        obtain ⟨hu,new,rfl,hnew⟩ := hallows
        rw [← hphase]
        refine h.save hok hi hu (by simp [hphase]) (by rw [hphase,Phase.held]) ?_ ?_
        · rw [hphase,← show kind = kinds i from hkind]
          rcases hnew with rfl | ⟨rfl,_⟩ <;> rfl
        · rw [← show kind = kinds i from hkind]
          exact hnew.imp_right .inl
      | announce event =>
        cases event with
        | recoveryCodeUsed id remaining =>
          obtain ⟨_,hash,hhash,rfl⟩ := hallows
          exact h.use hphase hhash
        | _ =>
          apply h.stay
          · exact hallows
          · rw [hphase]
            exact after_same (fun _ => by cases kind <;> rfl) _
      | _ =>
        apply h.stay
        · exact hallows
        · rw [hphase]
          exact after_same (fun _ => by cases kind <;> rfl) _
  | spent hash record =>
    rw [hphase] at hallows hkind
    cases o with
    | saveTwoFactor user saved =>
      obtain ⟨hu,new,rfl,hnew⟩ := hallows
      rw [← hphase]
      exact h.save hok hi hu (by simp [hphase]) (by rw [hphase,Phase.held]) (by rw [hphase,hkind.1]; rfl)
        (.inr (.inr ⟨hash,hkind.2,hkind.1,hnew⟩))
    | _ => exact False.elim hallows
  | saved kind =>
    rw [hphase] at hallows
    have hsame : (protocol userId).after (.saved kind) o (handle verifies x s.cell o).1 = phases i := by
      rw [hphase]
      apply after_same
      intro a
      cases o <;> rfl
    cases o with
    | announce event =>
      cases event with
      | login user =>
        rw [hsame]
        exact h.move (Move.still h rfl (by simp) (fun _ _ _ => ⟨kind,hphase⟩) (by simp) hkind (fun _ => Iff.rfl) fun _ => .inl)
      | _ =>
        apply h.stay
        · exact hallows
        · exact hsame
    | _ =>
      apply h.stay
      · exact hallows
      · exact hsame
  | foreign =>
    rw [hphase] at hallows
    apply h.stay
    · exact hallows
    · rw [hphase]
      apply after_same
      intro a
      cases o <;> rfl

/-! ## Every interleaving -/

/-- As long as every request writes the record back while it is still what the request has
read, and new codes are new, a code is good for one login. -/
theorem single_use_of_undisturbed (accounts : Accounts Secret) (verifies : String → String → Bool) (userId : String) (w : World)
    (record : TwoFactorRecord) (calls : ℕ → Call) (steps : List (ℕ × Outside U)) (hrecord : w.records userId = some record)
    (hnodup : record.recoveryCodes.Nodup)
    (h : Along (Calls.step (Program.advance (handle verifies)))
      (fun s a => Fresh userId record.recoveryCodes (fun i => kindOf accounts (calls i)) s a ∧ Undisturbed userId s a)
      (start accounts w calls) steps) :
    Always (Calls.step (Program.advance (handle verifies)))
      (SingleUse userId record.recoveryCodes fun i => kindOf accounts (calls i)) (start accounts w calls : Run U) steps := by
  have hcodes : codesIn userId w = record.recoveryCodes := by rw [codesIn,hrecord,Option.elim_some]
  have htracked : Program.Tracked (protocol userId) (fun i => .fresh (kindOf accounts (calls i))) (start accounts w calls : Run U) := by
    intro i
    unfold start
    dsimp only
    split
    · next request hcall =>
      rw [hcall]
      exact meets_challenge accounts request
    · next request hcall =>
      rw [hcall]
      exact meets_regenerate accounts request
  have hinv : Inv userId record.recoveryCodes (fun i => kindOf accounts (calls i)) (fun i => .fresh (kindOf accounts (calls i)))
      (start accounts w calls : Run U) := by
    refine ⟨fun _ => rfl,by simp [Phase.held],hcodes.symm ▸ hnodup,?_,by simp,by simp,?_,?_,?_,?_⟩
    · intro hash hhash
      exact .inl (hcodes ▸ hhash)
    · rintro i ⟨user,hmem,_⟩
      cases hmem
    all_goals
      intro before e after hash hlog
      cases List.append_eq_nil_iff.mp hlog.symm |>.2
  refine (Program.always_tracked ?_ htracked hinv h).mono ?_
  · intro phases s i x o next htracked hinv hok hi
    exact hinv.operated (htracked.allows hi) hok hi
  · rintro s ⟨phases,_,hinv⟩
    exact hinv.singleUse

/-! The conditions can be evaluated. -/

/-- What the request is about to write. -/
def writes (s : Run U) (i : ℕ) : Option (U × Option TwoFactorRecord) :=
  match s.calls i with
  | .call (.saveTwoFactor user record) _ => some (user,record)
  | _ => none

/-- What an entry says was read, and what was written. -/
def readIn : Entry U → Option (U × Option TwoFactorRecord)
  | ⟨.findTwoFactor user,.ok record⟩ => some (user,record)
  | _ => none

def savedIn : Entry U → Option (U × Option TwoFactorRecord)
  | ⟨.saveTwoFactor user record,.ok _⟩ => some (user,record)
  | _ => none

omit [AccountUser U] in
theorem writes_eq_some {user : U} {record : Option TwoFactorRecord} :
    writes s i = some (user,record) ↔ ∃ next, s.calls i = .call (.saveTwoFactor user record) next := by
  constructor
  · intro h
    unfold writes at h
    split at h
    · next next hcall =>
      cases h
      exact ⟨next,hcall⟩
    · cases h
  · rintro ⟨next,hcall⟩
    rw [writes,hcall]

omit [AccountUser U] in
theorem readIn_eq_some {user : U} {record : Option TwoFactorRecord} :
    readIn e = some (user,record) ↔ e = ⟨.findTwoFactor user,.ok record⟩ := by
  constructor
  · intro h
    unfold readIn at h
    split at h
    · cases h
      rfl
    · cases h
  · rintro rfl
    rfl

omit [AccountUser U] in
theorem savedIn_eq_some {user : U} {record : Option TwoFactorRecord} :
    savedIn e = some (user,record) ↔ e = ⟨.saveTwoFactor user record,.ok ()⟩ := by
  constructor
  · intro h
    unfold savedIn at h
    split at h
    · cases h
      rfl
    · cases h
  · rintro rfl
    rfl

instance : Decidable (Completed userId log i) :=
  decidable_of_iff (∃ e ∈ log, e.1 = i ∧ ∃ user ∈ loginIn e.2, authIdentifier user = userId) <| by
    constructor
    · rintro ⟨⟨_,e⟩,hmem,rfl,user,hlogin,hu⟩
      cases loginIn_eq_some.mp hlogin
      exact ⟨user,hmem,hu⟩
    · rintro ⟨user,hmem,hu⟩
      exact ⟨_,hmem,rfl,user,loginIn_eq_some.mpr rfl,hu⟩

instance {hash : String} : Decidable (Stored userId initial log hash) :=
  decidable_of_iff (hash ∈ initial ∨ ∃ e ∈ log, ∃ saved ∈ savedIn e.2, authIdentifier saved.1 = userId ∧
      ∃ record ∈ saved.2, hash ∈ record.recoveryCodes) <| by
    refine or_congr_right ?_
    constructor
    · rintro ⟨⟨j,e⟩,hmem,⟨user,_⟩,hsaved,hu,record,rfl,hhash⟩
      cases savedIn_eq_some.mp hsaved
      exact ⟨j,user,record,hmem,hu,hhash⟩
    · rintro ⟨j,user,record,hmem,hu,hhash⟩
      exact ⟨_,hmem,_,savedIn_eq_some.mpr rfl,hu,record,rfl,hhash⟩

instance {a : ℕ × Outside U} : Decidable (Undisturbed userId s a) :=
  decidable_of_iff (∀ written ∈ writes s a.1, authIdentifier written.1 = userId → ∀ e ∈ s.log, ∀ found ∈ readIn e.2,
      e.1 = a.1 → authIdentifier found.1 = userId → s.cell.records userId = found.2) <| by
    constructor
    · intro h user record next hcall hu user' read hmem hu'
      exact h (user,record) (writes_eq_some.mpr ⟨next,hcall⟩) hu _ hmem (user',read) (readIn_eq_some.mpr rfl) rfl hu'
    · rintro h ⟨user,record⟩ hwritten hu ⟨_,e⟩ hmem ⟨user',read⟩ hread rfl hu'
      obtain ⟨next,hcall⟩ := writes_eq_some.mp hwritten
      cases readIn_eq_some.mp hread
      exact h user record next hcall hu user' read hmem hu'

instance {a : ℕ × Outside U} : Decidable (Fresh userId initial kinds s a) :=
  decidable_of_iff (∀ written ∈ writes s a.1, ∀ record ∈ written.2, authIdentifier written.1 = userId → kinds a.1 = .regenerate →
      record.recoveryCodes.Nodup ∧ ∀ hash ∈ record.recoveryCodes, ¬ Stored userId initial s.log hash) <| by
    constructor
    · intro h user record next hcall
      exact h (user,some record) (writes_eq_some.mpr ⟨next,hcall⟩) record rfl
    · rintro h ⟨user,_⟩ hwritten record rfl
      obtain ⟨next,hcall⟩ := writes_eq_some.mp hwritten
      exact h user record next hcall

/-! Two requests come in with the same code, and a third asks for new ones. -/

def ada : Account := ⟨"1",none⟩

def calm : Outside Account := ⟨0,none,some ada,"",["c"]⟩

/-- Two sessions wait for a second factor; a third has just confirmed its password. -/
def enrolled : World :=
  ⟨0,fun i => some (if i = 2 then ((Session.new "").put authKey (.string "1")).put confirmedAt (.number (.posInt 0))
      else (Session.new "").put pendingKey (Pending.toJson ⟨"1",1000⟩)),
    MemoryCache.empty,fun id => if id = "1" then some ⟨"",true,["a","b"],none⟩ else none⟩

def answer (i : ℕ) : Call :=
  if i = 2 then .regenerate ⟨2,.object [],none,true⟩ else .challenge ⟨i,.object [("recovery_code",.string "a")],none,true⟩

theorem single_use_of_undisturbed_visit :
    let steps : List (ℕ × Outside Account) := List.replicate 15 (0,calm) ++ List.replicate 8 (2,calm) ++ List.replicate 15 (1,calm)
    let last := run (Calls.step (Program.advance (handle fun _ _ => false))) (start (sample .default) enrolled answer) steps
    Always (Calls.step (Program.advance (handle fun _ _ => false)))
        (SingleUse "1" ["a","b"] fun i => kindOf (sample .default) (answer i)) (start (sample .default) enrolled answer) steps ∧
      Completed "1" last.log 0 ∧ Stored "1" ["a","b"] last.log "c" := by
  intro steps last
  refine ⟨single_use_of_undisturbed (sample .default) (fun _ _ => false) "1" enrolled _ answer steps rfl (by decide) ?_,?_,?_⟩
  · decide
  · decide
  · decide

/-- Both have read the record before either writes it back. -/
theorem single_use_broken :
    ¬ SingleUse "1" ["a","b"] (fun i => kindOf (sample .default) (answer i))
      (run (Calls.step (Program.advance (handle fun _ _ => false))) (start (sample .default) enrolled answer)
        (List.replicate 6 (0,calm) ++ List.replicate 15 (1,calm) ++ List.replicate 9 (0,calm))) := by
  intro h
  exact absurd (h.once 0 1 "a" (by decide) (by decide) (by decide) (by decide)) (by decide)

end Rainier.Accounts.RecoveryCodes
