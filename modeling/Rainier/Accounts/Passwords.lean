import Rainier.Cache.MemoryCache
import Rainier.Support.Calls
import Mathlib.Logic.Equiv.Basic

/-! # Password reset tokens

The broker keeps one entry for an account: the digest of the live token and when it
was issued. `issue` reads the entry for the throttle and then overwrites it,
`consume` reads it, compares digests and then forgets whatever is under the key.
Any number of calls for one account are interleaved below, one cache operation at a
time. The store may drop the entry at any moment, as it does when its time is up.
-/
namespace Rainier.Accounts.PasswordBroker
open Calls Trace Function Cache

structure Pending where
  hash : String
  issuedAt : ℤ
  deriving DecidableEq, Repr

/-- The throttle in seconds, and the digest tokens are stored under. -/
structure Broker where
  throttle : ℕ
  digest : String → String

/-- What an operation finds outside: the clock in seconds, and whether the store has
dropped the entry meanwhile. -/
structure Reading where
  now : ℤ
  lapsed : Bool
  deriving DecidableEq, Repr

/-- What is left of the entry. -/
def Reading.sees (r : Reading) (cell : Option Pending) : Option Pending := if r.lapsed then none else cell

def saturatingSub (a b : ℤ) : ℤ := max MemoryCache.i64Min (min MemoryCache.i64Max (a - b))

/-- `as i64`. -/
def asI64 (n : ℕ) : ℤ := Int.bmod n (2 ^ 64)

inductive Answer where
  | issued (token : Option String)
  | found (live : Bool)
  | consumed (result : Except (List (String × List String)) Unit)
  | revoked

/-- A call before its first operation, before its second, and when it has returned. -/
inductive Call where
  | issue (token : String)
  | issuing (token : String)
  | probe (token : String)
  | consume (token : String)
  | consuming (token : String)
  | revoke
  | returned (answer : Answer)

inductive Event where
  | stored (token : String)
  | accepted (token : String)
  | revoked
  deriving DecidableEq, Repr

def invalid : List (String × List String) :=
  [("email",["This password reset link is invalid or has expired."])]

namespace Broker
variable (b : Broker)

/-- `matches` of the source, for an entry that may not be there. -/
def isLive (cell : Option Pending) (token : String) : Bool :=
  match cell with
  | some pending => pending.hash == b.digest token
  | none => false

def isThrottled (cell : Option Pending) (now : ℤ) : Bool :=
  match cell with
  | some existing => saturatingSub now existing.issuedAt < asI64 b.throttle
  | none => false

/-- The next cache operation of a call; `random_token` is the token a call to `issue`
comes with. -/
def advance (r : Reading) (held : Option Pending) (call : Call) : Option Pending × Call × List Event :=
  let cell := r.sees held
  match call with
  | .issue token =>
    if b.isThrottled cell r.now then (cell,.returned (.issued none),[]) else (cell,.issuing token,[])
  | .issuing token => (some ⟨b.digest token,r.now⟩,.returned (.issued (some token)),[.stored token])
  | .probe token => (cell,.returned (.found (b.isLive cell token)),[])
  | .consume token =>
    if b.isLive cell token then (cell,.consuming token,[])
    else (cell,.returned (.consumed (.error invalid)),[])
  | .consuming token => (none,.returned (.consumed (.ok ())),[.accepted token])
  | .revoke => (none,.returned .revoked,[.revoked])
  | .returned answer => (cell,.returned answer,[])

end Broker

abbrev Run := State (Option Pending) Call Event

/-- Calls none of which has begun, over an empty store. -/
def start (calls : ℕ → Call) : Run := ⟨none,calls,[]⟩

def Call.Unstarted : Call → Prop
  | issue _ | probe _ | consume _ | revoke => True
  | _ => False

/-- The calls of a run: none has begun, and no two `issue`s mint the same token. -/
structure Fresh (calls : ℕ → Call) : Prop where
  unstarted : ∀ i, (calls i).Unstarted
  distinct : ∀ i j token, calls i = .issue token → calls j = .issue token → i = j

/-! ## What a log says of a token -/

def Stored (token : String) (log : List (ℕ × Event)) : Prop := ∃ i, (i,Event.stored token) ∈ log

/-- `e` ends `token`: it is consumed, or it had been stored and is revoked or replaced. -/
def Ends (token : String) (log : List (ℕ × Event)) (e : Event) : Prop :=
  e = .accepted token ∨ Stored token log ∧ (e = .revoked ∨ ∃ later, later ≠ token ∧ e = .stored later)

def Ended (token : String) (log : List (ℕ × Event)) : Prop :=
  ∃ before e after, log = before ++ e :: after ∧ Ends token before e.2

/-- Nothing has happened since `token` was stored. -/
def Newest (token : String) (log : List (ℕ × Event)) : Prop := ∃ i, log.getLast? = some (i,.stored token)

variable {token : String} {log : List (ℕ × Event)}

theorem Stored.append (h : Stored token log) (e : ℕ × Event) : Stored token (log ++ [e]) := by
  obtain ⟨i,hi⟩ := h
  exact ⟨i,List.mem_append_left _ hi⟩

theorem Newest.stored (h : Newest token log) : Stored token log := by
  obtain ⟨i,hi⟩ := h
  exact ⟨i,List.mem_of_getLast? hi⟩

theorem newest_append {e : ℕ × Event} : Newest token (log ++ [e]) ↔ e.2 = .stored token := by
  obtain ⟨i,e⟩ := e
  simp [Newest]

theorem ended_append {e : ℕ × Event} : Ended token (log ++ [e]) ↔ Ended token log ∨ Ends token log e.2 := by
  constructor
  · rintro ⟨before,e',after,heq,hends⟩
    rcases List.append_eq_append_iff.mp heq with ⟨mid,hbefore,hlast⟩ | ⟨mid,hlog,hrest⟩
    · cases mid with
      | nil =>
        obtain ⟨rfl,_⟩ := List.cons.inj hlast
        rw [List.append_nil] at hbefore
        exact .inr (hbefore ▸ hends)
      | cons x xs => simp at hlast
    · cases mid with
      | nil =>
        obtain ⟨rfl,_⟩ := List.cons.inj hrest
        rw [List.append_nil] at hlog
        exact .inr (hlog ▸ hends)
      | cons x xs =>
        obtain ⟨rfl,_⟩ := List.cons.inj hrest
        exact .inl ⟨before,e',xs,hlog,hends⟩
  · rintro (⟨before,e',after,rfl,hends⟩ | hends)
    · exact ⟨before,e',after ++ [e],by simp,hends⟩
    · exact ⟨log,e,[],rfl,hends⟩

theorem ended_of_accepted {i : ℕ} (h : (i,Event.accepted token) ∈ log) : Ended token log := by
  obtain ⟨before,after,rfl⟩ := List.append_of_mem h
  exact ⟨before,_,after,rfl,.inl rfl⟩

/-! ## One operation -/

/-- The operations that leave no trace: a token is minted, a digest is found to match, a
call returns with nothing accepted, or it had returned already. -/
inductive Moves (b : Broker) (held : Option Pending) : Call → Call → Prop where
  | mint (token : String) : Moves b held (.issue token) (.issuing token)
  | enter (token : String) (h : b.isLive held token = true) : Moves b held (.consume token) (.consuming token)
  | leave (call : Call) (answer : Answer) (hcall : call.Unstarted) (h : answer ≠ .consumed (.ok ())) :
    Moves b held call (.returned answer)
  | stay (answer : Answer) : Moves b held (.returned answer) (.returned answer)

theorem Moves.minting {b : Broker} {held : Option Pending} {old call : Call} {token : String}
    (h : Moves b held old call) (hcall : call = .issue token ∨ call = .issuing token) : old = .issue token := by
  cases h <;> simp_all

theorem Moves.entering {b : Broker} {held : Option Pending} {old : Call} {token : String}
    (h : Moves b held old (.consuming token)) : old = .consume token ∧ b.isLive held token = true := by
  cases h with
  | enter _ h => exact ⟨rfl,h⟩

theorem Moves.returned {b : Broker} {held : Option Pending} {call : Call} {answer : Answer}
    (h : Moves b held (.returned answer) call) : call = .returned answer := by
  cases h with
  | leave _ _ hcall _ => exact hcall.elim
  | stay => rfl

/-- Everything one operation can do. -/
inductive Effect (b : Broker) (s : Run) (i : ℕ) (r : Reading) : Run → Prop where
  | silent (call : Call) (h : Moves b (r.sees s.cell) (s.calls i) call) :
    Effect b s i r ⟨r.sees s.cell,update s.calls i call,s.log⟩
  | stores (token : String) (now : ℤ) (h : s.calls i = .issuing token) :
    Effect b s i r ⟨some ⟨b.digest token,now⟩,update s.calls i (.returned (.issued (some token))),
      s.log ++ [(i,.stored token)]⟩
  | accepts (token : String) (h : s.calls i = .consuming token) :
    Effect b s i r ⟨none,update s.calls i (.returned (.consumed (.ok ()))),s.log ++ [(i,.accepted token)]⟩
  | revokes (h : s.calls i = .revoke) :
    Effect b s i r ⟨none,update s.calls i (.returned .revoked),s.log ++ [(i,.revoked)]⟩

theorem Reading.sees_eq_some {r : Reading} {cell : Option Pending} {p : Pending} (h : r.sees cell = some p) :
    cell = some p := by
  unfold Reading.sees at h
  split at h
  · cases h
  · exact h

theorem step_effect (b : Broker) (s : Run) (i : ℕ) (r : Reading) : Effect b s i r (step b.advance s (i,r)) := by
  -- an operation without a trace
  have hquiet : ∀ old call, s.calls i = old → b.advance r s.cell old = (r.sees s.cell,call,[]) →
      Moves b (r.sees s.cell) old call → Effect b s i r (step b.advance s (i,r)) := by
    rintro old call rfl hstep hmoves
    rw [step_eq (a := (i,r)) hstep,List.map_nil,List.append_nil]
    exact .silent call hmoves
  -- an operation that leaves one
  have hevent : ∀ old cell call e, s.calls i = old → b.advance r s.cell old = (cell,call,[e]) →
      step b.advance s (i,r) = ⟨cell,update s.calls i call,s.log ++ [(i,e)]⟩ := by
    rintro old cell call e rfl hstep
    exact step_event hstep
  cases hi : s.calls i with
  | issue token =>
    by_cases ht : b.isThrottled (r.sees s.cell) r.now = true
    · exact hquiet _ _ hi (if_pos ht) (.leave _ (.issued none) trivial nofun)
    · exact hquiet _ _ hi (if_neg ht) (.mint token)
  | issuing token =>
    rw [hevent _ _ _ _ hi rfl]
    exact .stores token r.now hi
  | probe token => exact hquiet _ _ hi rfl (.leave _ _ trivial nofun)
  | consume token =>
    by_cases hl : b.isLive (r.sees s.cell) token = true
    · exact hquiet _ _ hi (if_pos hl) (.enter token hl)
    · exact hquiet _ _ hi (if_neg hl) (.leave _ (.consumed (.error invalid)) trivial nofun)
  | consuming token =>
    rw [hevent _ _ _ _ hi rfl]
    exact .accepts token hi
  | revoke =>
    rw [hevent _ _ _ _ hi rfl]
    exact .revokes hi
  | returned answer => exact hquiet _ _ hi rfl (.stay answer)

/-! ## Where a live token comes from -/

/-- Every token in play is minted by one call, the entry is the newest token of the log,
and a token that has ended is not. -/
structure Sound (b : Broker) (calls : ℕ → Call) (s : Run) : Prop where
  minted : ∀ i token, s.calls i = .issue token ∨ s.calls i = .issuing token → calls i = .issue token
  storedBy : ∀ i token, (i,Event.stored token) ∈ s.log →
    calls i = .issue token ∧ ∃ answer, s.calls i = .returned answer
  held : ∀ p, s.cell = some p → ∃ token, Newest token s.log ∧ p.hash = b.digest token
  entered : ∀ i token, s.calls i = .consuming token → Stored token s.log
  dead : ∀ token, Ended token s.log → ¬ Newest token s.log ∧ Stored token s.log

variable {b : Broker} {calls : ℕ → Call} {s : Run} {i : ℕ}

theorem Sound.start (hfresh : Fresh calls) : Sound b calls (start calls) where
  minted i token h := by
    rcases h with h | h
    · exact h
    · have hi := hfresh.unstarted i
      rw [show calls i = .issuing token from h] at hi
      exact hi.elim
  storedBy i token h := nomatch h
  held p h := nomatch h
  entered i token h := by
    have hi := hfresh.unstarted i
    rw [show calls i = .consuming token from h] at hi
    exact hi.elim
  dead token h := by
    obtain ⟨before,e,after,heq,_⟩ := h
    exact absurd heq (by simp [PasswordBroker.start])

/-- An entry that matches a token is that token's, when digests do not collide. -/
theorem Sound.newest {r : Reading} (h : Sound b calls s) (hdigest : Function.Injective b.digest)
    (hlive : b.isLive (r.sees s.cell) token = true) : Newest token s.log := by
  cases hcell : r.sees s.cell with
  | none =>
    rw [hcell] at hlive
    cases hlive
  | some p =>
    rw [hcell] at hlive
    obtain ⟨owner,hnewest,hhash⟩ := h.held p (Reading.sees_eq_some hcell)
    have heq : b.digest owner = b.digest token := hhash ▸ by simpa [Broker.isLive] using hlive
    exact hdigest heq ▸ hnewest

/-- The token about to be stored has not been. -/
theorem Sound.not_stored (h : Sound b calls s) (hfresh : Fresh calls) (hi : s.calls i = .issuing token) :
    ¬ Stored token s.log := by
  rintro ⟨j,hj⟩
  obtain ⟨hcalls,answer,hanswer⟩ := h.storedBy j token hj
  obtain rfl := hfresh.distinct i j token (h.minted i token (.inr hi)) hcalls
  rw [hi] at hanswer
  cases hanswer

/-- A call that returns was none that had returned before. -/
theorem returned_update {old : Call} {answer answer' : Answer} {j : ℕ} (hi : s.calls i = old)
    (hold : ∀ answer, old ≠ .returned answer) (hj : s.calls j = .returned answer') :
    update s.calls i (.returned answer) j = .returned answer' := by
  have hne : j ≠ i := by
    rintro rfl
    exact hold answer' (hi.symm.trans hj)
  rw [update_of_ne hne,hj]

/-- The three operations that write end in a call that has returned and an event. -/
theorem Sound.of_write {cell : Option Pending} {old : Call} {answer : Answer} {e : Event} (h : Sound b calls s)
    (hi : s.calls i = old) (hold : ∀ answer, old ≠ .returned answer)
    (hstored : ∀ token, e = .stored token → old = .issuing token)
    (hcell : ∀ p, cell = some p → ∃ token, e = .stored token ∧ p.hash = b.digest token)
    (hdead : ∀ token, Ended token s.log ∨ Ends token s.log e → e ≠ .stored token ∧ Stored token s.log) :
    Sound b calls ⟨cell,update s.calls i (.returned answer),s.log ++ [(i,e)]⟩ where
  minted j token hj := by
    obtain ⟨_,hj⟩ := of_update (p := fun c => c = Call.issue token ∨ c = .issuing token) (by simp) hj
    exact h.minted j token hj
  storedBy j token hj := by
    rcases List.mem_append.mp hj with hj | hj
    · obtain ⟨hcalls,answer',hanswer⟩ := h.storedBy j token hj
      exact ⟨hcalls,answer',returned_update hi hold hanswer⟩
    · obtain ⟨rfl,rfl⟩ := Prod.mk.inj (List.mem_singleton.mp hj)
      rw [hstored token rfl] at hi
      exact ⟨h.minted j token (.inr hi),answer,update_self _ _ _⟩
  held p hp := by
    obtain ⟨token,rfl,hhash⟩ := hcell p hp
    exact ⟨token,newest_append.mpr rfl,hhash⟩
  entered j token hj := (h.entered j token (eq_of_update hj nofun).2).append _
  dead token hended := by
    obtain ⟨hne,hs⟩ := hdead token (ended_append.mp hended)
    exact ⟨fun hn => hne (newest_append.mp hn),hs.append _⟩

theorem Sound.step {s' : Run} {r : Reading} (h : Sound b calls s) (hfresh : Fresh calls)
    (hdigest : Function.Injective b.digest) (he : Effect b s i r s') : Sound b calls s' := by
  cases he with
  | silent call hm =>
    refine ⟨?_,?_,fun p hp => h.held p (Reading.sees_eq_some hp),?_,h.dead⟩
    · intro j token hj
      by_cases hji : j = i
      · subst hji
        simp only [update_self] at hj
        exact h.minted j token (.inl (hm.minting hj))
      · simp only [update_of_ne hji] at hj
        exact h.minted j token hj
    · intro j token hj
      obtain ⟨hcalls,answer,hanswer⟩ := h.storedBy j token hj
      refine ⟨hcalls,answer,?_⟩
      by_cases hji : j = i
      · subst hji
        rw [hanswer] at hm
        simp only [update_self,hm.returned]
      · simp only [update_of_ne hji,hanswer]
    · intro j token hj
      by_cases hji : j = i
      · subst hji
        simp only [update_self] at hj
        subst hj
        exact (h.newest hdigest hm.entering.2).stored
      · simp only [update_of_ne hji] at hj
        exact h.entered j token hj
  | stores token now hi =>
    have hnot := h.not_stored hfresh hi
    refine h.of_write hi nofun (fun later heq => ?_) (fun p hp => ⟨token,rfl,?_⟩) (fun other hother => ?_)
    · cases heq
      rfl
    · cases hp
      rfl
    · have hstored : Stored other s.log := by
        rcases hother with hother | hother | ⟨hother,_⟩
        · exact (h.dead other hother).2
        · cases hother
        · exact hother
      refine ⟨fun heq => ?_,hstored⟩
      cases heq
      exact hnot hstored
  | accepts token hi =>
    refine h.of_write hi nofun nofun nofun (fun other hother => ⟨nofun,?_⟩)
    rcases hother with hother | hother | ⟨hother,_⟩
    · exact (h.dead other hother).2
    · cases hother
      exact h.entered i token hi
    · exact hother
  | revokes hi =>
    refine h.of_write hi nofun nofun nofun (fun other hother => ⟨nofun,?_⟩)
    rcases hother with hother | hother | ⟨hother,_⟩
    · exact (h.dead other hother).2
    · cases hother
    · exact hother

/-! ## One consumption -/

/-- A `consume` that finds its token live finds no other one between finding that token
live and forgetting it. -/
def Undisturbed (b : Broker) (s : Run) (a : ℕ × Reading) : Prop :=
  ∀ token, s.calls a.1 = .consume token → b.isLive (a.2.sees s.cell) token = true →
    Alone (fun c => c = .consuming token) s a.1

/-- Each token is let through once, by one call. -/
def AcceptedOnce (s : Run) : Prop :=
  ∀ token i j, (i,Event.accepted token) ∈ s.log → (j,Event.accepted token) ∈ s.log → i = j

structure Exclusive (s : Run) : Prop where
  inside : ∀ token i j, s.calls i = .consuming token → s.calls j = .consuming token → i = j
  before : ∀ token i j, s.calls i = .consuming token → (j,Event.accepted token) ∉ s.log
  once : AcceptedOnce s

/-- A call that returns with an event that accepts nothing. -/
theorem Exclusive.of_write {cell : Option Pending} {answer : Answer} {e : Event} (h : Exclusive s)
    (he : ∀ token, e ≠ .accepted token) :
    Exclusive ⟨cell,update s.calls i (.returned answer),s.log ++ [(i,e)]⟩ := by
  have hlog : ∀ j token, (j,Event.accepted token) ∈ s.log ++ [(i,e)] → (j,Event.accepted token) ∈ s.log := by
    intro j token hj
    rcases List.mem_append.mp hj with hj | hj
    · exact hj
    · exact absurd (Prod.mk.inj (List.mem_singleton.mp hj)).2.symm (he token)
  refine ⟨fun token j k hj hk => ?_,fun token j k hj hk => ?_,fun token j k hj hk => ?_⟩
  · exact h.inside token j k (eq_of_update hj nofun).2 (eq_of_update hk nofun).2
  · exact h.before token j k (eq_of_update hj nofun).2 (hlog k token hk)
  · exact h.once token j k (hlog j token hj) (hlog k token hk)

theorem Exclusive.step {s' : Run} {r : Reading} (h : Exclusive s) (hsound : Sound b calls s)
    (hdigest : Function.Injective b.digest) (hok : Undisturbed b s (i,r)) (he : Effect b s i r s') :
    Exclusive s' := by
  cases he with
  | silent call hm =>
    -- the call that enters is alone, and nobody has been let through with its token
    have hnew : ∀ token, call = .consuming token →
        Alone (fun c => c = .consuming token) s i ∧ ∀ j, (j,Event.accepted token) ∉ s.log := by
      rintro token rfl
      obtain ⟨hi,hlive⟩ := hm.entering
      refine ⟨hok token hi hlive,fun j hj => ?_⟩
      exact (hsound.dead token (ended_of_accepted hj)).1 (hsound.newest hdigest hlive)
    have hold : ∀ token j, update s.calls i call j = .consuming token →
        j = i ∧ call = .consuming token ∨ j ≠ i ∧ s.calls j = .consuming token := by
      intro token j hj
      by_cases hji : j = i
      · subst hji
        exact .inl ⟨rfl,by simpa using hj⟩
      · rw [update_of_ne hji] at hj
        exact .inr ⟨hji,hj⟩
    refine ⟨fun token j k hj hk => ?_,fun token j k hj => ?_,h.once⟩
    · rcases hold token j hj with ⟨rfl,hcj⟩ | ⟨hji,hj⟩
      · rcases hold token k hk with ⟨rfl,_⟩ | ⟨hki,hk⟩
        · rfl
        · exact absurd hk ((hnew token hcj).1 k hki)
      · rcases hold token k hk with ⟨hki,hck⟩ | ⟨_,hk⟩
        · exact absurd hj ((hnew token hck).1 j hji)
        · exact h.inside token j k hj hk
    · rcases hold token j hj with ⟨_,hc⟩ | ⟨_,hj⟩
      · exact (hnew token hc).2 k
      · exact h.before token j k hj
  | stores token now hi => exact h.of_write nofun
  | revokes hi => exact h.of_write nofun
  | accepts token hi =>
    have hlog : ∀ other j, (j,Event.accepted other) ∈ s.log ++ [(i,.accepted token)] →
        (j,Event.accepted other) ∈ s.log ∨ j = i ∧ other = token := by
      intro other j hj
      rcases List.mem_append.mp hj with hj | hj
      · exact .inl hj
      · obtain ⟨rfl,heq⟩ := Prod.mk.inj (List.mem_singleton.mp hj)
        exact .inr ⟨rfl,Event.accepted.inj heq⟩
    refine ⟨fun other j k hj hk => ?_,fun other j k hj hk => ?_,fun other j k hj hk => ?_⟩
    · exact h.inside other j k (eq_of_update hj nofun).2 (eq_of_update hk nofun).2
    · obtain ⟨hji,hinside⟩ := eq_of_update hj nofun
      rcases hlog other k hk with hk | ⟨_,heq⟩
      · exact h.before other j k hinside hk
      · exact hji (h.inside other j i hinside (heq ▸ hi))
    · rcases hlog other j hj with hj | ⟨hji,heq⟩
      · rcases hlog other k hk with hk | ⟨_,heq⟩
        · exact h.once other j k hj hk
        · exact absurd hj (h.before other i j (heq ▸ hi))
      · rcases hlog other k hk with hk | ⟨hki,_⟩
        · exact absurd hk (h.before other i k (heq ▸ hi))
        · rw [hji,hki]

/-! ## Consumptions that come too late -/

/-- `j` has come after the end of `token`: it has yet to look, or has been turned away. -/
structure Late (token : String) (j : ℕ) (s : Run) : Prop where
  ended : Ended token s.log
  refused : s.calls j = .consume token ∨ ∃ answer, s.calls j = .returned answer ∧ answer ≠ .consumed (.ok ())

theorem Late.step {s' : Run} {r : Reading} {j : ℕ} (h : Late token j s) (hsound : Sound b calls s)
    (hdigest : Function.Injective b.digest) (he : Effect b s i r s') : Late token j s' := by
  -- a write belongs to another call, which leaves `j` where it was
  have hother : ∀ old call, s.calls i = old → (old ≠ .consume token ∧ ∀ answer, old ≠ .returned answer) →
      update s.calls i call j = .consume token ∨
        ∃ answer, update s.calls i call j = .returned answer ∧ answer ≠ .consumed (.ok ()) := by
    rintro old call rfl ⟨hne,hnot⟩
    have hji : j ≠ i := by
      rintro rfl
      rcases h.refused with hj | ⟨answer,hj,_⟩
      · exact hne hj
      · exact hnot answer hj
    rw [update_of_ne hji]
    exact h.refused
  cases he with
  | silent call hm =>
    refine ⟨h.ended,?_⟩
    by_cases hji : j = i
    · subst hji
      simp only [update_self]
      rcases h.refused with hj | ⟨answer,hj,hanswer⟩
      · rw [hj] at hm
        cases hm with
        | enter _ hlive => exact absurd (hsound.newest hdigest hlive) (hsound.dead token h.ended).1
        | leave _ answer _ hanswer => exact .inr ⟨answer,rfl,hanswer⟩
      · rw [hj] at hm
        exact .inr ⟨answer,hm.returned,hanswer⟩
    · simp only [update_of_ne hji]
      exact h.refused
  | stores _ _ hi => exact ⟨ended_append.mpr (.inl h.ended),hother _ _ hi ⟨nofun,nofun⟩⟩
  | accepts _ hi => exact ⟨ended_append.mpr (.inl h.ended),hother _ _ hi ⟨nofun,nofun⟩⟩
  | revokes hi => exact ⟨ended_append.mpr (.inl h.ended),hother _ _ hi ⟨nofun,nofun⟩⟩

/-! ## Every interleaving -/

theorem sound_run (hfresh : Fresh calls) (hdigest : Function.Injective b.digest) (steps : List (ℕ × Reading)) :
    Always (step b.advance) (Sound b calls) (start calls) steps :=
  always_of_step (fun s a hs => hs.step hfresh hdigest (step_effect b s a.1 a.2)) (.start hfresh) steps

theorem exclusive_start (hfresh : Fresh calls) : Exclusive (start calls) := by
  refine ⟨fun token i j hi _ => ?_,nofun,nofun⟩
  have hi' := hfresh.unstarted i
  rw [show calls i = .consuming token from hi] at hi'
  exact hi'.elim

/-- A `consume` that has not looked when its token ends is turned away, in every run. -/
theorem refused_run {j : ℕ} (hdigest : Function.Injective b.digest) (hfresh : Fresh calls)
    (hsound : Sound b calls s) (hlate : Late token j s) (steps : List (ℕ × Reading)) :
    (run (step b.advance) s steps).calls j ≠ .returned (.consumed (.ok ())) := by
  have h : Always (step b.advance) (fun s => Sound b calls s ∧ Late token j s) s steps := by
    refine always_of_step (fun s a hs => ?_) ⟨hsound,hlate⟩ steps
    have he := step_effect b s a.1 a.2
    exact ⟨hs.1.step hfresh hdigest he,hs.2.step hs.1 hdigest he⟩
  rcases h.last.2.refused with hj | ⟨answer,hj,hanswer⟩
  · rw [hj]
    nofun
  · rw [hj]
    exact fun heq => hanswer (Call.returned.inj heq)

/-- As long as no `consume` finds a token live that another has found and not yet
forgotten, each token is let through once; and a token that has been consumed, revoked or
replaced is refused to every `consume` that begins afterwards. -/
theorem accepted_once_of_undisturbed (b : Broker) (calls : ℕ → Call) (steps : List (ℕ × Reading))
    (hfresh : Fresh calls) (hdigest : Function.Injective b.digest)
    (h : Along (step b.advance) (Undisturbed b) (start calls) steps) :
    Always (step b.advance) AcceptedOnce (start calls) steps ∧
      ∀ before after token j, steps = before ++ after →
        Ended token (run (step b.advance) (start calls) before).log →
        (run (step b.advance) (start calls) before).calls j = .consume token →
        (run (step b.advance) (start calls) steps).calls j ≠ .returned (.consumed (.ok ())) := by
  constructor
  · have hinv : Always (step b.advance) (fun s => Sound b calls s ∧ Exclusive s) (start calls) steps := by
      refine always_of_along (fun s a hs ha => ?_) ⟨.start hfresh,exclusive_start hfresh⟩ h
      have he := step_effect b s a.1 a.2
      exact ⟨hs.1.step hfresh hdigest he,hs.2.step hs.1 hdigest ha he⟩
    exact hinv.mono (fun _ hs => hs.2.once)
  · rintro before after token j rfl hended hj
    rw [run_append]
    exact refused_run hdigest hfresh (sound_run hfresh hdigest before).last ⟨hended,.inl hj⟩ after

/-- A token in hexadecimal, as `random_token` mints it. -/
def sampleToken : String := "5f2b0c6d9e8a41737a1c4e5d6b7f809112233445566778899aabbccddeeff001"

/-- Its digest. -/
def sampleDigest : String := "5fbcaeda14f466ed341914fa2097d01717e6d27b693d2186936a2f39dbc31dc1"

/-- A broker whose digest takes the sample token to its own digest. -/
def sampleBroker : Broker := ⟨60,Equiv.swap sampleToken sampleDigest⟩

/-- One `issue`, then consumptions of its token. -/
def sampleCalls (i : ℕ) : Call := if i = 0 then .issue sampleToken else .consume sampleToken

theorem fresh_sampleCalls : Fresh sampleCalls where
  unstarted i := by
    unfold sampleCalls
    split <;> trivial
  distinct i j token hi hj := by
    unfold sampleCalls at hi hj
    split at hi
    · split at hj
      · omega
      · cases hj
    · cases hi

/-- The token is issued and consumed, and a second submission finds nothing. -/
theorem accepted_once_of_undisturbed_example :
    Along (step sampleBroker.advance) (Undisturbed sampleBroker) (start sampleCalls)
        [(0,⟨100,false⟩),(0,⟨100,false⟩),(1,⟨130,false⟩),(1,⟨130,false⟩),(2,⟨131,false⟩)] ∧
      Always (step sampleBroker.advance) AcceptedOnce (start sampleCalls)
        [(0,⟨100,false⟩),(0,⟨100,false⟩),(1,⟨130,false⟩),(1,⟨130,false⟩),(2,⟨131,false⟩)] := by
  have h : Along (step sampleBroker.advance) (Undisturbed sampleBroker) (start sampleCalls)
      [(0,⟨100,false⟩),(0,⟨100,false⟩),(1,⟨130,false⟩),(1,⟨130,false⟩),(2,⟨131,false⟩)] := by
    refine ⟨nofun,nofun,?_,nofun,?_,trivial⟩
    · intro token _ _ j _ hj
      obtain ⟨_,hj⟩ := eq_of_update hj nofun
      obtain ⟨_,hj⟩ := eq_of_update hj nofun
      have hfresh := fresh_sampleCalls.unstarted j
      rw [show sampleCalls j = .consuming token from hj] at hfresh
      exact hfresh
    · intro token _ hlive
      cases hlive
  exact ⟨h,(accepted_once_of_undisturbed sampleBroker sampleCalls _ fresh_sampleCalls (Equiv.injective _) h).1⟩

/-- Two submissions that both read the entry before either forgets it are both let
through. -/
theorem accepted_twice :
    Fresh sampleCalls ∧ Function.Injective sampleBroker.digest ∧
      ¬ AcceptedOnce (run (step sampleBroker.advance) (start sampleCalls)
        [(0,⟨100,false⟩),(0,⟨100,false⟩),(1,⟨130,false⟩),(2,⟨130,false⟩),(1,⟨130,false⟩),(2,⟨130,false⟩)]) := by
  refine ⟨fresh_sampleCalls,Equiv.injective _,fun h => ?_⟩
  exact absurd (h sampleToken 1 2 (by decide) (by decide)) (by decide)

end Rainier.Accounts.PasswordBroker
