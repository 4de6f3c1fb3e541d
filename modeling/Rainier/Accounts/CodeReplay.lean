import Rainier.Accounts.Footprints

/-! # A time step is accepted once

A code is checked against the clock and the record that was read, and its step is then
claimed in the cache for five minutes, in an operation of its own. Below any number of
challenges and confirmations are interleaved, one operation at a time, over a clock that
only goes forward. A claim outlives every moment at which the code of its step could still
be checked, but not every moment at which a code that has been checked could still be
claimed.
-/
namespace Rainier.Accounts.CodeReplay
open Auth Cache Mfa Trace

inductive Call where
  | challenge (request : Request)
  | confirm (request : Request)

abbrev Run (U : Type) := Calls.State World (Flow U Response) (Program.Entry (Op U) Op.Answer Refusal)

variable {U Secret : Type}

def start [AccountUser U] (accounts : Accounts Secret) (w : World) (calls : ℕ → Call) : Run U :=
  ⟨w,fun i => match calls i with
    | .challenge request => twoFactorChallenge accounts request
    | .confirm request => confirmTwoFactor accounts request,[]⟩

/-- The step of this user is claimed, and its code accepted. -/
def isAcceptance (userId : String) (step : ℕ) (e : Program.Entry (Op U) Op.Answer Refusal) : Bool :=
  match e with
  | ⟨.cacheAdd key _ _,.ok (.ok true)⟩ => key == claimKey userId step
  | _ => false

def acceptances (userId : String) (step : ℕ) (log : List (ℕ × Program.Entry (Op U) Op.Answer Refusal)) : ℕ :=
  log.countP fun e => isAcceptance userId step e.2

/-- The Unix time of a clock. -/
def unix (clock : ℕ) : ℕ := clock / Duration.fromSecs 1

/-- A step is claimed while its code is still in the window. -/
def Undisturbed (totp : Totp Secret) (userId : String) (s : Run U) (a : ℕ × Outside U) : Prop :=
  ∀ step value ttl next, s.calls a.1 = .call (.cacheAdd (claimKey userId step) value ttl) next →
    totp.stepAt (unix (s.cell.clock + a.2.delay)) ≤ step + totp.window

/-! ## What a request may do to the claims -/

/-- The phase is the last time the request has seen. -/
def protocol (totp : Totp Secret) (userId : String) : Program.Protocol (Op U) Op.Answer (Option ℕ) where
  allows
    | seen, .cacheAdd key _ ttl => ∀ step, key = claimKey userId step → ttl = some (Duration.fromSecs (5 * 60)) ∧
        ∃ t, seen = some t ∧ step ≤ totp.stepAt (unix t) + totp.window
    | _, .cacheIncrement key _ | _, .cacheForget key => ∀ step, key ≠ claimKey userId step
    | _, _ => True
  next
    | _, .now, t => some t
    | seen, _, _ => seen
  lapsed seen := seen
  mayEnd _ := True
  mayEnd_lapsed _ := trivial

variable {totp : Totp Secret} {userId : String} {seen : Option ℕ}

/-- The limiter's keys are of another kind. -/
theorem limiter_ne (rest userId : String) (step : ℕ) : "two-factor-attempts:" ++ rest ≠ claimKey userId step := by
  unfold claimKey
  intro heq
  have hchars := congrArg (fun text : String => text.toList.take 12) heq
  simp only [String.toList_append,List.append_assoc] at hchars
  rw [List.take_append_of_le_length (by decide),List.take_append_of_le_length (by decide)] at hchars
  exact absurd hchars (by decide)

theorem meets_limiter {α : Type} {key : String} {m : Flow U α} (h : Program.Uses (LimiterOp twoFactorLimiter key) m) :
    Program.Meets (protocol totp userId) (fun _ _ => True) seen m := by
  have hne : ∀ k, k = twoFactorLimiter.counter key ∨ k = twoFactorLimiter.deadline key → ∀ step, k ≠ claimKey userId step := by
    rintro k (rfl | rfl) step
    · exact limiter_ne key userId step
    · rw [CacheRateLimiter.deadline,String.append_assoc]
      exact limiter_ne (key ++ ":until") userId step
  refine h.meets (fun _ => True) ?_ (fun _ _ _ _ _ => trivial) (fun _ _ => trivial) trivial
  intro p o _ ho
  cases o with
  | cacheAdd k value ttl =>
    intro step hk
    exact absurd hk (hne k ho step)
  | cacheIncrement k by' => exact hne k ho
  | cacheForget k => exact hne k ho
  | _ => trivial

theorem meets_guard {α : Type} {m : Flow U α} (h : Program.Uses GuardOp m) :
    Program.Meets (protocol totp userId) (fun _ _ => True) seen m := by
  refine h.meets (fun _ => True) ?_ (fun _ _ _ _ _ => trivial) (fun _ _ => trivial) trivial
  intro p o _ ho
  cases o with
  | cacheAdd k value ttl => exact False.elim ho
  | cacheIncrement k by' => exact False.elim ho
  | cacheForget k => exact False.elim ho
  | _ => trivial

/-- The step can be read off a claim. -/
theorem claimKey_step {userId' : String} {step step' : ℕ} (h : claimKey userId' step' = claimKey userId step) : step' = step := by
  have hdigits : ∀ n : ℕ, ∀ c ∈ (Nat.toDigits 10 n).reverse, decide (c ≠ ':') = true := by
    intro n c hc
    have hdigit := Text.isDigit_of_mem_toDigits (List.mem_reverse.mp hc)
    have hne : c ≠ ':' := by
      rintro rfl
      exact absurd hdigit (by decide)
    simpa using hne
  have hread : ∀ (u : String) (n : ℕ), (claimKey u n).toList.reverse.takeWhile (fun c => decide (c ≠ ':')) =
      (Nat.toDigits 10 n).reverse := by
    intro u n
    unfold claimKey
    have htext : (toString n).toList = Nat.toDigits 10 n := Nat.toList_repr
    have hcolon : ":".toList = [':'] := by decide
    rw [String.toList_append,String.toList_append,htext,hcolon,List.reverse_append,List.reverse_append,
      List.takeWhile_append_of_pos (hdigits n)]
    simp
  have hsame : (Nat.toDigits 10 step').reverse = (Nat.toDigits 10 step).reverse := by
    rw [← hread userId' step',← hread userId step,h]
  have hback := congrArg Text.digits (List.reverse_injective hsame)
  rw [Text.digits_toDigits,Text.digits_toDigits] at hback
  exact Option.some.inj hback

variable [AccountUser U] (accounts : Accounts Secret)

theorem meets_acceptCode (user : String) (record : TwoFactorRecord) (code : String) :
    Program.Meets (protocol totp userId) (fun _ _ => True) seen (acceptCode accounts totp user record code : Flow U _) := by
  refine Program.Meets.bind (Q := fun _ _ => True) (Program.meets_lift trivial fun _ => trivial) ?_
  intro seen secret _
  refine Program.meets_perform trivial fun t => ?_
  change Program.Meets _ _ (some t) _
  dsimp only [pure,Program.bind]
  split
  · trivial
  · next step hstep =>
    have hwindow := (Totp.verifyAt_window hstep).2
    refine Program.meets_perform ?_ ?_
    · intro step' hkey
      rw [← claimKey_step hkey]
      exact ⟨rfl,t,rfl,hwindow⟩
    · rintro (e | (_ | _)) <;> trivial

theorem meets_acceptFactor (user : String) (record : TwoFactorRecord) (code recoveryCode : String) :
    Program.Meets (protocol totp userId) (fun _ _ => True) seen
      (acceptFactor accounts totp user record code recoveryCode : Flow U _) := by
  unfold acceptFactor
  split
  · exact meets_acceptCode accounts user record code
  · split
    · dsimp only
      split
      · exact Program.meets_perform trivial fun _ => trivial
      · trivial
    · trivial

variable {accounts} (htotp : accounts.twoFactor = some totp)
include htotp

theorem meets_checkFactor (request : Request) (user : U) (id : String) :
    Program.Meets (protocol totp userId) (fun _ _ => True) seen (checkFactor accounts request user id) := by
  unfold checkFactor configured
  rw [htotp]
  refine Program.meets_perform trivial fun record => ?_
  split
  · refine (meets_guard ((uses_forgetPending request).mono SessionOp.guardOp)).bind ?_
    intro _ _ _
    trivial
  · next record _ =>
    refine (meets_acceptFactor accounts id record _ _).bind ?_
    rintro seen (_ | record) _
    · refine (meets_limiter (uses_hit twoFactorLimiter id _)).bind ?_
      intro seen _ _
      exact Program.meets_perform trivial fun _ => trivial
    · refine Program.meets_perform trivial fun _ => ?_
      refine (meets_limiter (uses_clear twoFactorLimiter id)).bind ?_
      intro seen _ _
      refine (meets_guard ((uses_forgetPending request).mono SessionOp.guardOp)).bind ?_
      intro seen _ _
      exact meets_guard (uses_completeLogin request accounts user)

theorem meets_challenge (request : Request) :
    Program.Meets (protocol totp userId) (fun _ _ => True) seen (twoFactorChallenge accounts request : Flow U Response) := by
  refine Program.meets_perform trivial ?_
  rintro (_ | session)
  · trivial
  · refine (meets_guard ((uses_livePending session).mono SessionOp.guardOp)).bind ?_
    rintro seen (_ | pending) _
    · refine (meets_guard ((uses_forgetPending request).mono SessionOp.guardOp)).bind ?_
      intro _ _ _
      trivial
    · refine Program.meets_perform trivial ?_
      rintro (_ | user)
      · refine (meets_guard ((uses_forgetPending request).mono SessionOp.guardOp)).bind ?_
        intro _ _ _
        trivial
      · refine (meets_limiter (uses_peek twoFactorLimiter pending.id)).bind ?_
        intro seen hit _
        split
        · trivial
        · exact meets_checkFactor htotp request user pending.id

theorem meets_confirm (request : Request) :
    Program.Meets (protocol totp userId) (fun _ _ => True) seen (confirmTwoFactor accounts request : Flow U Response) := by
  refine (meets_guard (uses_currentUser request accounts (fun _ => trivial) fun _ => trivial)).bind ?_
  intro seen user _
  unfold configured
  rw [htotp]
  refine Program.meets_perform trivial ?_
  rintro (_ | record)
  · trivial
  · dsimp only
    split
    · trivial
    · refine (meets_acceptCode accounts _ record _).bind ?_
      rintro seen (_ | record) _
      · trivial
      · exact Program.meets_perform trivial fun _ => Program.meets_perform trivial fun _ => trivial

omit htotp

/-! ## One operation -/

/-- The step was claimed at a time when its code was not too far ahead, and the claim stands
until its five minutes are over. -/
structure Claimed (totp : Totp Secret) (userId : String) (w : World) (step at' : ℕ) : Prop where
  before : at' ≤ w.clock
  ahead : step ≤ totp.stepAt (unix at') + totp.window
  stands : w.clock < at' + Duration.fromSecs (5 * 60) →
    ∃ value, w.cache (claimKey userId step) = some ⟨value,some (at' + Duration.fromSecs (5 * 60))⟩

structure Inv (totp : Totp Secret) (userId : String) (seen : ℕ → Option ℕ) (s : Run U) : Prop where
  past : ∀ i t, seen i = some t → t ≤ s.cell.clock
  claims : ∀ step, acceptances userId step s.log = 0 ∨
    acceptances userId step s.log = 1 ∧ ∃ at', Claimed totp userId s.cell step at'

variable {w : World} {step at' : ℕ}

theorem Claimed.wait (h : Claimed totp userId w step at') (delay : ℕ) :
    Claimed totp userId { w with clock := w.clock + delay } step at' := by
  refine ⟨Nat.le_trans h.before (Nat.le_add_right _ _),h.ahead,fun hlt => h.stands ?_⟩
  dsimp only at hlt
  omega

theorem Claimed.of_eq {w' : World} (h : Claimed totp userId w step at') (hclock : w'.clock = w.clock)
    (hcache : w'.cache = w.cache) : Claimed totp userId w' step at' := by
  refine ⟨hclock ▸ h.before,h.ahead,?_⟩
  rw [hclock,hcache]
  exact h.stands

/-- The cache has changed, but not under this claim while it stands. -/
theorem Claimed.congr {cache : MemoryCache} (h : Claimed totp userId w step at')
    (hkey : w.clock < at' + Duration.fromSecs (5 * 60) → cache (claimKey userId step) = w.cache (claimKey userId step)) :
    Claimed totp userId { w with cache := cache } step at' := by
  refine ⟨h.before,h.ahead,fun hlt => ?_⟩
  obtain ⟨value,hvalue⟩ := h.stands hlt
  exact ⟨value,(hkey hlt).trans hvalue⟩

theorem Claimed.live (h : Claimed totp userId w step at') (hlt : w.clock < at' + Duration.fromSecs (5 * 60)) :
    (MemoryCache.live w.clock w.cache (claimKey userId step)).isSome = true := by
  obtain ⟨value,hvalue⟩ := h.stands hlt
  have hlive : MemoryCache.live w.clock w.cache (claimKey userId step) =
      some ⟨value,some (at' + Duration.fromSecs (5 * 60))⟩ :=
    MemoryCache.live_eq_some.mpr ⟨hvalue,decide_eq_true hlt⟩
  rw [hlive]
  rfl

/-- A read does not take a claim that stands. -/
theorem Claimed.get (h : Claimed totp userId w step at') (key : String) :
    Claimed totp userId { w with cache := (MemoryCache.get w.clock w.cache key).2 } step at' := by
  apply h.congr
  intro hlt
  by_cases hkey : claimKey userId step = key
  · obtain ⟨value,hvalue⟩ := h.stands hlt
    have hlive : Entry.isLive w.clock ⟨value,some (at' + Duration.fromSecs (5 * 60))⟩ = true := decide_eq_true hlt
    rw [← hkey,MemoryCache.get_of_live hvalue hlive]
  · exact MemoryCache.get_other hkey

/-- Nor does an `add`. -/
theorem Claimed.add (h : Claimed totp userId w step at') (key value : String) (ttl : Option ℕ) :
    Claimed totp userId { w with cache := (MemoryCache.add w.clock w.cache key value ttl).2 } step at' := by
  apply h.congr
  intro hlt
  unfold MemoryCache.add
  split
  · rfl
  · next hfree =>
    refine MemoryCache.insert_other ?_ _
    rintro rfl
    exact hfree (h.live hlt)

theorem expiry_claim (now : ℕ) :
    MemoryCache.expiry now (some (Duration.fromSecs (5 * 60))) = some (now + Duration.fromSecs (5 * 60)) := by
  rw [MemoryCache.expiry,Option.bind_some,Duration.fromStd,if_pos (by decide),Option.map_some]

theorem unix_lt {a b n : ℕ} (h : unix a < unix b + n) : a < b + Duration.fromSecs n := by
  unfold unix Duration.fromSecs at h
  unfold Duration.fromSecs
  omega

/-- Two moments at which the code of a step is not too far ahead and not too far behind are
less than a claim's lifetime apart. -/
theorem claim_outlives (htotp : (2 * totp.window + 1) * totp.period < 300) {earlier later : ℕ}
    (hahead : step ≤ totp.stepAt (unix earlier) + totp.window) (hbehind : totp.stepAt (unix later) ≤ step + totp.window) :
    later < earlier + Duration.fromSecs (5 * 60) := by
  have hsteps : totp.stepAt (unix later) ≤ totp.stepAt (unix earlier) + 2 * totp.window := by omega
  have hlater : unix later < (totp.stepAt (unix later) + 1) * totp.period :=
    (Nat.div_lt_iff_lt_mul totp.positive).mp (Nat.lt_succ_self _)
  have hearlier : totp.stepAt (unix earlier) * totp.period ≤ unix earlier := Nat.div_mul_le_self _ _
  have hspan : (totp.stepAt (unix later) + 1) * totp.period ≤
      totp.stepAt (unix earlier) * totp.period + (2 * totp.window + 1) * totp.period := by
    rw [← Nat.add_mul]
    exact Nat.mul_le_mul_right _ (by omega)
  apply unix_lt
  omega

section
variable {seen : ℕ → Option ℕ} {s : Run U} {i : ℕ} {cell : World} {calls : ℕ → Flow U Response}
variable {e : Program.Entry (Op U) Op.Answer Refusal}

omit [AccountUser U] in
theorem acceptances_append (step : ℕ) : acceptances userId step (s.log ++ [(i,e)]) =
    acceptances userId step s.log + if isAcceptance userId step e then 1 else 0 := by
  simp [acceptances,List.countP_append,List.countP_singleton]

omit [AccountUser U] in
/-- An operation that accepts nothing and leaves the claims standing. -/
theorem Inv.keep (h : Inv totp userId seen s) {p : Option ℕ} (hp : p = seen i ∨ p = some cell.clock)
    (hclock : s.cell.clock ≤ cell.clock)
    (hclaims : ∀ step at', Claimed totp userId s.cell step at' → Claimed totp userId cell step at')
    (he : ∀ step, isAcceptance userId step e = false) :
    Inv totp userId (Function.update seen i p) ⟨cell,calls,s.log ++ [(i,e)]⟩ := by
  constructor
  · intro j t hj
    by_cases hji : j = i
    · subst hji
      rw [Function.update_self] at hj
      rcases hp with hp | hp
      · exact Nat.le_trans (h.past j t (hp ▸ hj)) hclock
      · cases hp.symm.trans hj
        exact Nat.le_refl _
    · rw [Function.update_of_ne hji] at hj
      exact Nat.le_trans (h.past j t hj) hclock
  · intro step
    rw [acceptances_append,he step]
    rcases h.claims step with hzero | ⟨hone,at',hclaimed⟩
    · exact .inl hzero
    · exact .inr ⟨hone,at',hclaims step at' hclaimed⟩

theorem stepAt_mono (totp : Totp Secret) {a b : ℕ} (h : a ≤ b) : totp.stepAt (unix a) ≤ totp.stepAt (unix b) :=
  Nat.div_le_div_right (Nat.div_le_div_right h)

omit [AccountUser U] in
/-- An `add` that the cache answers: a step that is still in the window is accepted if nobody
has claimed it. -/
theorem Inv.add {key value : String} {ttl : Option ℕ} {w : World} (htotp : (2 * totp.window + 1) * totp.period < 300)
    (h : Inv totp userId seen s) (hallows : (protocol totp userId : Program.Protocol (Op U) _ _).allows (seen i) (.cacheAdd key value ttl))
    (hok : ∀ step, key = claimKey userId step → totp.stepAt (unix w.clock) ≤ step + totp.window)
    (hclock : s.cell.clock ≤ w.clock)
    (hclaims : ∀ step at', Claimed totp userId s.cell step at' → Claimed totp userId w step at') :
    Inv totp userId (Function.update seen i (seen i))
      ⟨{ w with cache := (MemoryCache.add w.clock w.cache key value ttl).2 },calls,
        s.log ++ [(i,⟨.cacheAdd key value ttl,.ok (.ok (MemoryCache.add w.clock w.cache key value ttl).1)⟩)]⟩ := by
  rw [Function.update_eq_self]
  refine ⟨fun j t hj => Nat.le_trans (h.past j t hj) hclock,?_⟩
  intro step
  rw [acceptances_append]
  by_cases hkey : key = claimKey userId step
  · subst hkey
    obtain ⟨rfl,t,ht,hwindow⟩ := hallows step rfl
    have hahead : step ≤ totp.stepAt (unix w.clock) + totp.window := by
      have hmono := stepAt_mono totp (Nat.le_trans (h.past i t ht) hclock)
      omega
    rcases h.claims step with hzero | ⟨hone,at',hclaimed⟩
    · rw [hzero]
      cases hadd : MemoryCache.add w.clock w.cache (claimKey userId step) value (some (Duration.fromSecs (5 * 60))) with
      | mk added cache =>
        cases added with
        | false => exact .inl rfl
        | true =>
          refine .inr ⟨by simp [isAcceptance],w.clock,Nat.le_refl _,hahead,fun _ => ⟨value,?_⟩⟩
          unfold MemoryCache.add at hadd
          split at hadd
          · cases hadd
          · cases hadd
            exact (MemoryCache.insert_same _).trans (by rw [expiry_claim])
    · have hclaimed' := hclaims step at' hclaimed
      have hlt := claim_outlives htotp hclaimed.ahead (hok step rfl)
      have hadd : MemoryCache.add w.clock w.cache (claimKey userId step) value (some (Duration.fromSecs (5 * 60))) =
          (false,w.cache) := by
        rw [MemoryCache.add,if_pos (hclaimed'.live hlt)]
      rw [hadd,hone]
      exact .inr ⟨rfl,at',hclaimed'⟩
  · have hnot : isAcceptance userId step (⟨.cacheAdd key value ttl,
        .ok (.ok (MemoryCache.add w.clock w.cache key value ttl).1)⟩ : Program.Entry (Op U) Op.Answer Refusal) = false := by
      cases (MemoryCache.add w.clock w.cache key value ttl).1 with
      | true => simpa [isAcceptance] using hkey
      | false => rfl
    rw [hnot]
    rcases h.claims step with hzero | ⟨hone,at',hclaimed⟩
    · exact .inl hzero
    · exact .inr ⟨hone,at',(hclaims step at' hclaimed).add key value ttl⟩

variable {verifies : String → String → Bool} {x : Outside U} {o : Op U} {next : o.Answer → Flow U Response}

theorem Inv.other (h : Inv totp userId seen s) (hcache : o.usesCache = false) (hnow : o ≠ .now) :
    Inv totp userId (Function.update seen i ((protocol totp userId).after (seen i) o (handle verifies x s.cell o).1))
      ⟨(handle verifies x s.cell o).2,calls,s.log ++ [(i,⟨o,(handle verifies x s.cell o).1⟩)]⟩ := by
  refine h.keep (.inl ?_) ?_ ?_ ?_
  · cases (handle verifies x s.cell o).1 with
    | error error => rfl
    | ok a =>
      cases o with
      | now => exact absurd rfl hnow
      | _ => rfl
  · rw [handle_clock]
    exact Nat.le_add_right _ _
  · intro step at' hc
    exact (hc.wait x.delay).of_eq handle_clock (handle_cache hcache)
  · intro step
    cases o with
    | cacheAdd key value ttl => cases hcache
    | _ => rfl

theorem Inv.operated (htotp : (2 * totp.window + 1) * totp.period < 300) (h : Inv totp userId seen s)
    (hallows : (protocol totp userId).allows (seen i) o) (hok : Undisturbed totp userId s (i,x)) (hi : s.calls i = .call o next) :
    Inv totp userId (Function.update seen i ((protocol totp userId).after (seen i) o (handle verifies x s.cell o).1))
      ⟨(handle verifies x s.cell o).2,Function.update s.calls i (Program.resume next (handle verifies x s.cell o).1),
        s.log ++ [(i,⟨o,(handle verifies x s.cell o).1⟩)]⟩ := by
  have hclock : s.cell.clock ≤ s.cell.clock + x.delay := Nat.le_add_right _ _
  have hwait : ∀ step at', Claimed totp userId s.cell step at' →
      Claimed totp userId { s.cell with clock := s.cell.clock + x.delay } step at' := fun _ _ hc => hc.wait x.delay
  cases o with
  | now => exact h.keep (.inr rfl) hclock hwait fun _ => rfl
  | cacheAdd key value ttl =>
    cases hx : x.fails with
    | some error =>
      simp only [handle,operate,Outside.attempt,hx]
      exact h.keep (.inl rfl) hclock hwait fun _ => rfl
    | none =>
      simp only [handle,operate,Outside.attempt_of_none hx]
      refine h.add htotp hallows ?_ hclock hwait
      intro step hkey
      subst hkey
      exact hok step value ttl next hi
  | cacheGet key =>
    cases hx : x.fails with
    | some error =>
      simp only [handle,operate,Outside.attempt,hx]
      exact h.keep (.inl rfl) hclock hwait fun _ => rfl
    | none =>
      simp only [handle,operate,Outside.attempt_of_none hx]
      exact h.keep (.inl rfl) hclock (fun step at' hc => (hwait step at' hc).get key) fun _ => rfl
  | cacheIncrement key by' =>
    have hframe : ∀ step at', Claimed totp userId s.cell step at' → Claimed totp userId
        { s.cell with
          clock := s.cell.clock + x.delay
          cache := (MemoryCache.increment (s.cell.clock + x.delay) s.cell.cache key by').2 } step at' := by
      intro step at' hc
      refine (hwait step at' hc).congr fun _ => ?_
      exact (MemoryCache.increment_local _ key by').frame s.cell.cache _ (hallows step).symm
    cases hx : x.fails with
    | some error =>
      simp only [handle,operate,Outside.attempt,hx]
      exact h.keep (.inl rfl) hclock hwait fun _ => rfl
    | none =>
      simp only [handle,operate,Outside.attempt_of_none hx]
      cases (MemoryCache.increment (s.cell.clock + x.delay) s.cell.cache key by').1 with
      | ok n => exact h.keep (.inl rfl) hclock hframe fun _ => rfl
      | error error => exact h.keep (.inl rfl) hclock hframe fun _ => rfl
  | cacheForget key =>
    cases hx : x.fails with
    | some error =>
      simp only [handle,operate,Outside.attempt,hx]
      exact h.keep (.inl rfl) hclock hwait fun _ => rfl
    | none =>
      simp only [handle,operate,Outside.attempt_of_none hx]
      refine h.keep (.inl rfl) hclock (fun step at' hc => (hwait step at' hc).congr fun _ => ?_) fun _ => rfl
      exact MemoryCache.remove_other (hallows step).symm
  | _ => exact h.other rfl (by simp)

end

/-! ## Every interleaving -/

/-- As long as a step is claimed while its code is still in the window, it is accepted once. -/
theorem step_once_of_undisturbed (accounts : Accounts Secret) (totp : Totp Secret) (verifies : String → String → Bool)
    (userId : String) (w : World) (calls : ℕ → Call) (steps : List (ℕ × Outside U)) (htotp : accounts.twoFactor = some totp)
    (hspan : (2 * totp.window + 1) * totp.period < 300)
    (h : Along (Calls.step (Program.advance (handle verifies))) (Undisturbed totp userId) (start accounts w calls) steps) :
    Always (Calls.step (Program.advance (handle verifies))) (fun s => ∀ step, acceptances userId step s.log ≤ 1)
      (start accounts w calls : Run U) steps := by
  have htracked : Program.Tracked (protocol totp userId) (fun _ => none) (start accounts w calls : Run U) := by
    intro i
    unfold start
    dsimp only
    split
    · exact meets_challenge htotp _
    · exact meets_confirm htotp _
  have hinv : Inv totp userId (fun _ => none) (start accounts w calls : Run U) := by
    refine ⟨?_,fun _ => .inl rfl⟩
    intro i t hi
    cases hi
  refine (Program.always_tracked ?_ htracked hinv h).mono ?_
  · intro seen s i x o next htracked hinv hok hi
    exact hinv.operated hspan (htracked.allows hi) hok hi
  · rintro s ⟨seen,_,hinv⟩ step
    rcases hinv.claims step with hzero | ⟨hone,_⟩
    · rw [hzero]
      exact Nat.zero_le 1
    · rw [hone]

/-! Two requests come in with the code of one step. -/

/-- At the beginning of time every step is in the window. -/
theorem along_at_zero {s : Run U} {verifies : String → String → Bool} {steps : List (ℕ × Outside U)} (hs : s.cell.clock = 0)
    (hsteps : ∀ a ∈ steps, a.2.delay = 0) :
    Along (Calls.step (Program.advance (handle verifies))) (Undisturbed totp userId) s steps := by
  induction steps generalizing s with
  | nil => trivial
  | cons a steps ih =>
    obtain ⟨i,x⟩ := a
    have hdelay : x.delay = 0 := hsteps (i,x) List.mem_cons_self
    refine ⟨?_,ih ?_ fun b hb => hsteps b (List.mem_cons_of_mem _ hb)⟩
    · intro step value ttl next _
      rw [hs,hdelay,unix,Totp.stepAt,Nat.zero_div,Nat.zero_div]
      exact Nat.zero_le _
    · cases hi : s.calls i with
      | ok a =>
        rw [Program.step_finished (hi ▸ trivial)]
        exact hs
      | error e =>
        rw [Program.step_finished (hi ▸ trivial)]
        exact hs
      | call o next =>
        rw [Program.step_call hi]
        dsimp only
        rw [handle_clock,hs,hdelay]

def waiting : Session := (Session.new "").put pendingKey (Pending.toJson ⟨"1",1000⟩)

def enrolled : World :=
  ⟨0,fun _ => some waiting,MemoryCache.empty,fun id => if id = "1" then some ⟨"",true,[],none⟩ else none⟩

def answer (i : ℕ) : Call := .challenge ⟨i,.object [("code",.string "000000")],none,true⟩

def calm (delay : ℕ) : Outside Account := ⟨delay,none,some ⟨"1",none⟩,"",[]⟩

theorem step_once_of_undisturbed_race :
    let steps := List.replicate 6 (1,calm 0) ++ List.replicate 7 (0,calm 0) ++ [(1,calm 0)]
    Always (Calls.step (Program.advance (handle fun _ _ => false))) (fun s => ∀ step, acceptances "1" step s.log ≤ 1)
        (start (sample .default) enrolled answer) steps ∧
      acceptances "1" 0 (run (Calls.step (Program.advance (handle fun _ _ => false)))
        (start (sample .default) enrolled answer) steps).log = 1 := by
  intro steps
  refine ⟨step_once_of_undisturbed (sample .default) _ (fun _ _ => false) "1" enrolled answer steps rfl (by decide) ?_,?_⟩
  · exact along_at_zero rfl (by decide)
  · decide

/-- One request is held up for five minutes between checking the code and claiming its step,
and another is let in with the same code meanwhile. -/
theorem step_accepted_twice :
    ¬ acceptances "1" 0 (run (Calls.step (Program.advance (handle fun _ _ => false))) (start (sample .default) enrolled answer)
      (List.replicate 6 (1,calm 0) ++ List.replicate 7 (0,calm 0) ++ [(1,calm (Duration.fromSecs 300))])).log ≤ 1 := by
  decide

end Rainier.Accounts.CodeReplay
