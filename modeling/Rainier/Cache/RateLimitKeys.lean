import Rainier.Cache.RateLimit
import Mathlib.Logic.Function.Iterate

/-! # Calls on different keys of one limiter

Every caller has a key of its own, and the callers share one cache. What a call
answers is compared between a run and the same run with the calls on another key
left out. The two entries of a key are named by concatenation, and `:until` after
a key makes the deadline of that key and the counter of a longer one the same
entry, so a key reaches every key that is it followed by some number of `:until`.
-/
namespace Rainier.Cache.CacheRateLimiter
open Rainier
variable {n : ℕ}

/-- What a caller goes on with, what it answers if it is done, and the cache it leaves. -/
def operate (l : CacheRateLimiter) (key : String) (now : ℕ) (c : MemoryCache) :
    Call → (Call × Option Answer) × MemoryCache
  | .idle => ((.idle,none),c)
  | .hitAdd window =>
    let r := c.add now (l.counter key) "0" (some window)
    ((if r.1 then .hitAddDeadline window else .hitGetDeadline window,none),r.2)
  | .hitAddDeadline window =>
    let endsAt := (nowMillis now + Duration.asMillis window % 2 ^ 64) % 2 ^ 64
    let r := c.add now (l.deadline key) (toString endsAt) (some window)
    ((.hitIncrement window (some endsAt),none),r.2)
  | .hitGetDeadline window =>
    let r := c.get now (l.deadline key)
    ((.hitIncrement window (readMillis r.1),none),r.2)
  | .hitIncrement window endsAt =>
    let r := c.increment now (l.counter key) 1
    ((.idle,some (match r.1 with
      | .ok count => .hit ⟨(max count 0).toNat % 2 ^ 32,remaining now endsAt window⟩
      | .error e => .refused e)),r.2)
  | .peekGet =>
    let r := c.get now (l.counter key)
    (match r.1 with
      | none => (.idle,some (.peeked none))
      | some text => (.peekGetDeadline ((Text.parseUInt (2 ^ 32 - 1) (Text.trim text)).getD 0),none),r.2)
  | .peekGetDeadline count =>
    let r := c.get now (l.deadline key)
    ((.idle,some (.peeked (some ⟨count,remaining now (readMillis r.1) 0⟩))),r.2)
  | .clearCounter => ((.clearDeadline,none),(c.forget (l.counter key)).2)
  | .clearDeadline => ((.idle,some .cleared),(c.forget (l.deadline key)).2)

/-- The entry the next operation of a call is on. -/
def Call.entry (l : CacheRateLimiter) (key : String) : Call → String
  | .idle | .hitAdd _ | .hitIncrement _ _ | .peekGet | .clearCounter => l.counter key
  | .hitAddDeadline _ | .hitGetDeadline _ | .peekGetDeadline _ | .clearDeadline => l.deadline key

theorem operate_local (l : CacheRateLimiter) (key : String) (now : ℕ) (call : Call) :
    Keyed.Local (call.entry l key) (fun c : MemoryCache => l.operate key now c call) := by
  cases call with
  | idle => exact .pure _ _
  | hitAdd window => exact (MemoryCache.add_local now _ "0" _).map fun opened =>
      (if opened then Call.hitAddDeadline window else .hitGetDeadline window,none)
  | hitAddDeadline window => exact (MemoryCache.add_local now _ _ _).map fun _ => (_,none)
  | hitGetDeadline window => exact (MemoryCache.get_local now _).map fun stored =>
      (Call.hitIncrement window (readMillis stored),none)
  | hitIncrement window endsAt => exact (MemoryCache.increment_local now _ 1).map fun result =>
      (Call.idle,some (match result with
        | .ok count => Answer.hit ⟨(max count 0).toNat % 2 ^ 32,remaining now endsAt window⟩
        | .error e => Answer.refused e))
  | peekGet => exact (MemoryCache.get_local now _).map fun raw => match raw with
      | none => (Call.idle,some (Answer.peeked none))
      | some text => (.peekGetDeadline ((Text.parseUInt (2 ^ 32 - 1) (Text.trim text)).getD 0),none)
  | peekGetDeadline count => exact (MemoryCache.get_local now _).map fun stored =>
      (Call.idle,some (Answer.peeked (some ⟨count,remaining now (readMillis stored) 0⟩)))
  | clearCounter => exact (MemoryCache.forget_local _).map fun _ => (_,none)
  | clearDeadline => exact (MemoryCache.forget_local _).map fun _ => (_,some Answer.cleared)

/-- A step of caller `w` is its next operation, and nothing else. -/
theorem advance_eq_operate (l : CacheRateLimiter) (key : String) (s : State n) (w : Fin n) :
    (l.advance key s w).cache = (l.operate key s.clock s.cache (s.calls w)).2 ∧
      (l.advance key s w).clock = s.clock ∧
      (l.advance key s w).calls =
        Function.update s.calls w (l.operate key s.clock s.cache (s.calls w)).1.1 ∧
      (l.advance key s w).answers =
        s.answers ++ ((l.operate key s.clock s.cache (s.calls w)).1.2.map (fun a => (w,a))).toList := by
  unfold advance
  cases hw : s.calls w with
  | idle => simp [operate,← hw]
  | hitAdd window =>
    unfold hitAdd operate
    dsimp only
    split <;> simp [State.goto]
  | hitIncrement window endsAt =>
    unfold hitIncrement operate
    dsimp only
    split <;> simp_all [State.finish,State.goto]
  | peekGet =>
    unfold peekGet operate
    dsimp only
    split <;> simp_all [State.finish,State.goto]
  | hitAddDeadline window => simp [operate,hitAddDeadline,State.goto]
  | hitGetDeadline window => simp [operate,hitGetDeadline,State.goto]
  | peekGetDeadline count => simp [operate,peekGetDeadline,State.finish,State.goto]
  | clearCounter => simp [operate,clearCounter,State.goto]
  | clearDeadline => simp [operate,clearDeadline,State.finish,State.goto]

/-! ## Runs of callers on their own keys -/

section Keys
variable (l : CacheRateLimiter) (keys : Fin n → String)

def stepOn (s : State n) : Label n → State n
  | .tick d => { s with clock := s.clock + d }
  | .start w r => if s.calls w = .idle then s.goto w r.first else s
  | .advance w => l.advance (keys w) s w

/-- The step is one of a call on `key`. -/
def Label.isOn (key : String) : Label n → Bool
  | .tick _ => false
  | .start w _ | .advance w => keys w == key

/-- The run with every step of the calls on `key` left out; time passes as before. -/
def without (key : String) (labels : List (Label n)) : List (Label n) :=
  labels.filter (fun a => !a.isOn keys key)

/-- What the calls on `key` have answered so far. -/
def reports (key : String) (s : State n) : List (Fin n × Answer) :=
  s.answers.filter (fun p => keys p.1 == key)

/-- The calls on `key` never change what a call on `other` answers, whatever else is called. -/
def Independent (key other : String) : Prop :=
  ∀ (n : ℕ) (keys : Fin n → String) (labels : List (Label n)),
    reports keys other (Trace.run (l.stepOn keys) (init n) labels) =
      reports keys other (Trace.run (l.stepOn keys) (init n) (without keys key labels))

end Keys

/-- The key followed by `m` times `:until`. -/
def untils (key : String) : ℕ → String
  | 0 => key
  | m + 1 => untils key m ++ ":until"

/-- An entry a call on `key` can have an effect on: its own two, and through the calls on
longer keys theirs. -/
def Reached (l : CacheRateLimiter) (key entry : String) : Prop := ∃ m, entry = l.counter (untils key m)

variable {l : CacheRateLimiter} {key other : String}

theorem counter_inj (h : l.counter key = l.counter other) : key = other := by
  have := congrArg String.toList h
  simpa [counter,String.toList_append,String.toList_inj] using this

theorem deadline_eq_counter (l : CacheRateLimiter) (key : String) :
    l.deadline key = l.counter (key ++ ":until") := by
  simp [deadline,counter,String.append_assoc]

theorem append_until_inj (h : key ++ ":until" = other ++ ":until") : key = other := by
  have := congrArg String.toList h
  simpa [String.toList_append,String.toList_inj] using this

theorem reached_counter_iff : l.Reached key (l.counter other) ↔ ∃ m, other = untils key m := by
  constructor
  · rintro ⟨m,h⟩
    exact ⟨m,counter_inj h⟩
  · rintro ⟨m,rfl⟩
    exact ⟨m,rfl⟩

theorem Reached.deadline (h : l.Reached key (l.counter other)) : l.Reached key (l.deadline other) := by
  obtain ⟨m,rfl⟩ := reached_counter_iff.mp h
  exact ⟨m + 1,l.deadline_eq_counter _⟩

/-- Of a key that is not reached, the deadline is only if the key is one `:until` short. -/
theorem not_reached_deadline (hkey : ∀ m, other ≠ untils key m) (hshort : key ≠ other ++ ":until") :
    ¬ l.Reached key (l.deadline other) := by
  rw [deadline_eq_counter,reached_counter_iff]
  rintro ⟨m,h⟩
  cases m with
  | zero => exact hshort h.symm
  | succ m => exact hkey m (append_until_inj h)

/-! ## A key that is not reached is not disturbed -/

/-- A call up to the deadline it has read. -/
def Call.blur : Call → Call
  | .hitIncrement window _ => .hitIncrement window none
  | c => c

theorem Call.blur_eq {a b : Call} (h : a.blur = b.blur) :
    a = b ∨ ∃ window e e', a = .hitIncrement window e ∧ b = .hitIncrement window e' := by
  cases a <;> cases b <;> simp_all [Call.blur]

theorem Call.blur_eq_idle {a b : Call} (h : a.blur = b.blur) : a = .idle ↔ b = .idle := by
  rcases Call.blur_eq h with rfl | ⟨window,e,e',rfl,rfl⟩
  · exact Iff.rfl
  · simp

/-- The deadline a call has read does not change what it does to the cache. -/
theorem operate_cache {a b : Call} (h : a.blur = b.blur) (now : ℕ) (c : MemoryCache) :
    (l.operate key now c a).2 = (l.operate key now c b).2 := by
  rcases Call.blur_eq h with rfl | ⟨window,e,e',rfl,rfl⟩
  · rfl
  · rfl

/-- Where a call goes on depends on the counter alone, up to the deadline it has read. -/
theorem operate_blur {a b : Call} (h : a.blur = b.blur) (now : ℕ) {c c' : MemoryCache}
    (hc : c (l.counter key) = c' (l.counter key)) :
    (l.operate key now c a).1.1.blur = (l.operate key now c' b).1.1.blur := by
  rcases Call.blur_eq h with rfl | ⟨window,e,e',rfl,rfl⟩
  · have hl := operate_local l key now a
    cases a with
    | idle | hitAdd window | hitIncrement window endsAt | peekGet | clearCounter =>
      exact congrArg (fun r => r.1.blur) (hl.answer c c' hc)
    | hitAddDeadline window | hitGetDeadline window | peekGetDeadline count | clearDeadline => rfl
  · rfl

/-- Two states that a call on `key` may have set apart: the entries it reaches may differ,
and with them the calls on the keys they belong to. -/
structure Alike (l : CacheRateLimiter) (keys : Fin n → String) (key : String) (s t : State n) : Prop where
  clock : s.clock = t.clock
  cache : Keyed.Agree (l.Reached key) s.cache t.cache
  blurred : ∀ w, ¬ l.Reached key (l.counter (keys w)) → (s.calls w).blur = (t.calls w).blur
  calls : ∀ w, ¬ l.Reached key (l.deadline (keys w)) → s.calls w = t.calls w
  answers : ∀ other, ¬ l.Reached key (l.deadline other) → reports keys other s = reports keys other t

variable {keys : Fin n → String} {s t : State n} {w : Fin n}

theorem Alike.refl (l : CacheRateLimiter) (keys : Fin n → String) (key : String) (s : State n) :
    Alike l keys key s s := ⟨rfl,.refl _ _,fun _ _ => rfl,fun _ _ => rfl,fun _ _ => rfl⟩

theorem Alike.symm (h : Alike l keys key s t) : Alike l keys key t s :=
  ⟨h.clock.symm,h.cache.symm,fun w hw => (h.blurred w hw).symm,fun w hw => (h.calls w hw).symm,
    fun other ho => (h.answers other ho).symm⟩

theorem reached_entry (hw : l.Reached key (l.counter (keys w))) (call : Call) :
    l.Reached key (call.entry l (keys w)) := by
  cases call with
  | idle | hitAdd window | hitIncrement window endsAt | peekGet | clearCounter => exact hw
  | hitAddDeadline window | hitGetDeadline window | peekGetDeadline count | clearDeadline => exact hw.deadline

theorem reports_advance (other : String) :
    reports keys other (l.advance (keys w) s w) = reports keys other s ++
      if keys w = other then ((l.operate (keys w) s.clock s.cache (s.calls w)).1.2.map (fun a => (w,a))).toList
      else [] := by
  rw [reports,(advance_eq_operate l (keys w) s w).2.2.2,List.filter_append,reports]
  cases (l.operate (keys w) s.clock s.cache (s.calls w)).1.2 with
  | none => simp
  | some a => by_cases ho : keys w = other <;> simp [ho]

/-- A call on a key that is reached may go on in one of the states only. -/
theorem Alike.advance_left (h : Alike l keys key s t) (hw : l.Reached key (l.counter (keys w))) :
    Alike l keys key (l.advance (keys w) s w) t := by
  obtain ⟨hcache,hclock,hcalls,-⟩ := advance_eq_operate l (keys w) s w
  refine ⟨hclock.trans h.clock,?_,?_,?_,?_⟩
  · rw [hcache]
    exact h.cache.left (operate_local l (keys w) s.clock (s.calls w)) (reached_entry hw _)
  · intro w' hw'
    have hne : w' ≠ w := fun he => hw' (he ▸ hw)
    rw [hcalls,Function.update_of_ne hne]
    exact h.blurred w' hw'
  · intro w' hw'
    have hne : w' ≠ w := fun he => hw' (he ▸ hw.deadline)
    rw [hcalls,Function.update_of_ne hne]
    exact h.calls w' hw'
  · intro other ho
    have hne : keys w ≠ other := fun he => ho (he ▸ hw.deadline)
    rw [reports_advance,if_neg hne,List.append_nil]
    exact h.answers other ho

/-- A call on a key that is not reached goes on alike in both states. -/
theorem Alike.advance_both (h : Alike l keys key s t) (hw : ¬ l.Reached key (l.counter (keys w))) :
    Alike l keys key (l.advance (keys w) s w) (l.advance (keys w) t w) := by
  obtain ⟨hcache,hclock,hcalls,-⟩ := advance_eq_operate l (keys w) s w
  obtain ⟨hcache',hclock',hcalls',-⟩ := advance_eq_operate l (keys w) t w
  have hblur := h.blurred w hw
  have hsame : ¬ l.Reached key (l.deadline (keys w)) →
      (l.operate (keys w) s.clock s.cache (s.calls w)).1 =
        (l.operate (keys w) t.clock t.cache (t.calls w)).1 := by
    intro hd
    rw [h.clock,h.calls w hd]
    refine (operate_local l (keys w) t.clock (t.calls w)).answer _ _ (h.cache _ ?_)
    cases t.calls w with
    | idle | hitAdd window | hitIncrement window endsAt | peekGet | clearCounter => exact hw
    | hitAddDeadline window | hitGetDeadline window | peekGetDeadline count | clearDeadline => exact hd
  refine ⟨hclock.trans (h.clock.trans hclock'.symm),?_,?_,?_,?_⟩
  · rw [hcache,hcache',h.clock,operate_cache hblur]
    exact h.cache.both (operate_local l (keys w) t.clock (t.calls w))
  · intro w' hw'
    rw [hcalls,hcalls']
    by_cases he : w' = w
    · subst he
      rw [Function.update_self,Function.update_self,h.clock]
      exact operate_blur hblur _ (h.cache _ hw)
    · rw [Function.update_of_ne he,Function.update_of_ne he]
      exact h.blurred w' hw'
  · intro w' hw'
    rw [hcalls,hcalls']
    by_cases he : w' = w
    · subst he
      rw [Function.update_self,Function.update_self,hsame hw']
    · rw [Function.update_of_ne he,Function.update_of_ne he]
      exact h.calls w' hw'
  · intro other ho
    rw [reports_advance,reports_advance,h.answers other ho]
    by_cases he : keys w = other
    · rw [hsame (he ▸ ho)]
    · rw [if_neg he,if_neg he]

theorem Alike.start_left (h : Alike l keys key s t) (hw : l.Reached key (l.counter (keys w))) (r : Request) :
    Alike l keys key (l.stepOn keys s (.start w r)) t := by
  simp only [stepOn]
  split
  · refine ⟨h.clock,h.cache,?_,?_,h.answers⟩
    · intro w' hw'
      have hne : w' ≠ w := fun he => hw' (he ▸ hw)
      simpa only [State.goto,Function.update_of_ne hne] using h.blurred w' hw'
    · intro w' hw'
      have hne : w' ≠ w := fun he => hw' (he ▸ hw.deadline)
      simpa only [State.goto,Function.update_of_ne hne] using h.calls w' hw'
  · exact h

theorem Alike.start_both (h : Alike l keys key s t) (hw : ¬ l.Reached key (l.counter (keys w))) (r : Request) :
    Alike l keys key (l.stepOn keys s (.start w r)) (l.stepOn keys t (.start w r)) := by
  have hidle := Call.blur_eq_idle (h.blurred w hw)
  by_cases hi : s.calls w = .idle
  · simp only [stepOn,if_pos hi,if_pos (hidle.mp hi)]
    refine ⟨h.clock,h.cache,?_,?_,h.answers⟩
    · intro w' hw'
      by_cases he : w' = w
      · simp only [State.goto,he,Function.update_self]
      · simpa only [State.goto,Function.update_of_ne he] using h.blurred w' hw'
    · intro w' hw'
      by_cases he : w' = w
      · simp only [State.goto,he,Function.update_self]
      · simpa only [State.goto,Function.update_of_ne he] using h.calls w' hw'
  · simpa only [stepOn,if_neg hi,if_neg (fun ht => hi (hidle.mpr ht))] using h

theorem Alike.step_both (h : Alike l keys key s t) (a : Label n) :
    Alike l keys key (l.stepOn keys s a) (l.stepOn keys t a) := by
  cases a with
  | tick d => exact ⟨congrArg (· + d) h.clock,h.cache,h.blurred,h.calls,h.answers⟩
  | start w r =>
    by_cases hw : l.Reached key (l.counter (keys w))
    · exact ((h.start_left hw r).symm.start_left hw r).symm
    · exact h.start_both hw r
  | advance w =>
    by_cases hw : l.Reached key (l.counter (keys w))
    · exact ((h.advance_left hw).symm.advance_left hw).symm
    · exact h.advance_both hw

/-- A step of a call on `key` itself may be left out. -/
theorem Alike.step_left (h : Alike l keys key s t) {a : Label n} (ha : a.isOn keys key = true) :
    Alike l keys key (l.stepOn keys s a) t := by
  cases a with
  | tick d => cases ha
  | start w r => exact h.start_left ⟨0,by rw [beq_iff_eq.mp ha]; rfl⟩ r
  | advance w => exact h.advance_left ⟨0,by rw [beq_iff_eq.mp ha]; rfl⟩

theorem Alike.run (h : Alike l keys key s t) (labels : List (Label n)) :
    Alike l keys key (Trace.run (l.stepOn keys) s labels)
      (Trace.run (l.stepOn keys) t (without keys key labels)) := by
  induction labels generalizing s t with
  | nil => exact h
  | cons a rest ih =>
    cases ha : a.isOn keys key with
    | true => simpa [without,ha] using ih (h.step_left ha)
    | false => simpa [without,ha] using ih (h.step_both a)

theorem independent_of_not_reached (hkey : ∀ m, other ≠ untils key m) (hshort : key ≠ other ++ ":until") :
    l.Independent key other := by
  intro n keys labels
  exact ((Alike.refl l keys key (init n)).run labels).answers other (not_reached_deadline hkey hshort)

/-! ## A key that is reached is disturbed -/

/-- A whole hit of caller `w`, with nothing in between. -/
def wholeHit (window : ℕ) (w : Fin n) : List (Label n) :=
  [.start w (.hit window),.advance w,.advance w,.advance w]

theorem advance_calls_of_ne {w' : Fin n} (h : w' ≠ w) : (l.advance key s w).calls w' = s.calls w' := by
  rw [(advance_eq_operate l key s w).2.2.1,Function.update_of_ne h]

variable {window : ℕ}

theorem expiry_live (now : ℕ) (value : String) (h0 : 0 < window) (hmax : window ≤ Duration.maxChrono) :
    Entry.isLive now ⟨value,MemoryCache.expiry now (some window)⟩ = true := by
  simp [MemoryCache.expiry,Duration.fromStd,hmax,Entry.isLive,h0]

/-- The next operation of caller `w`, when it is known where it is. -/
theorem advance_at (l : CacheRateLimiter) (key : String) {call : Call} (hw : s.calls w = call) :
    (l.advance key s w).cache = (l.operate key s.clock s.cache call).2 ∧
      (l.advance key s w).clock = s.clock ∧
      (l.advance key s w).calls w = (l.operate key s.clock s.cache call).1.1 := by
  obtain ⟨hcache,hclock,hcalls,-⟩ := advance_eq_operate l key s w
  rw [hw] at hcache hcalls
  exact ⟨hcache,hclock,by rw [hcalls,Function.update_self]⟩

theorem advance_cache_of_ne {e : String} (hc : e ≠ l.counter key) (hd : e ≠ l.deadline key) :
    (l.advance key s w).cache e = s.cache e := by
  rw [(advance_eq_operate l key s w).1]
  refine (operate_local l key s.clock (s.calls w)).frame s.cache e ?_
  cases s.calls w with
  | idle | hitAdd window | hitIncrement window endsAt | peekGet | clearCounter => exact hc
  | hitAddDeadline window | hitGetDeadline window | peekGetDeadline count | clearDeadline => exact hd

/-- A hit that finds a live counter and no deadline leaves the deadline alone. -/
theorem hit_joins (hw : s.calls w = .hitAdd window) (hd : s.cache (l.deadline key) = none)
    (hl : (MemoryCache.live s.clock s.cache (l.counter key)).isSome = true) {s' : State n}
    (hs' : l.advance key (l.advance key (l.advance key s w) w) w = s') :
    s'.calls w = .idle ∧ MemoryCache.live s.clock s'.cache (l.deadline key) = none := by
  obtain ⟨hc₁,hk₁,hw₁⟩ := advance_at l key hw
  simp only [operate,MemoryCache.add,if_pos hl,Bool.false_eq_true,↓reduceIte] at hc₁ hw₁
  obtain ⟨hc₂,hk₂,hw₂⟩ := advance_at l key hw₁
  simp only [operate,hc₁,MemoryCache.get,hd] at hc₂ hw₂
  obtain ⟨hc₃,-,hw₃⟩ := advance_at l key hw₂
  rw [hs'] at hc₃ hw₃
  refine ⟨hw₃,?_⟩
  have hframe := (MemoryCache.increment_local (l.advance key (l.advance key s w) w).clock (l.counter key) 1).frame
    (l.advance key (l.advance key s w) w).cache _ (l.deadline_ne_counter key)
  have hentry : s'.cache (l.deadline key) = none := by
    rw [hc₃]
    exact hframe.trans (by rw [hc₂,hd])
  simp [MemoryCache.live,hentry]

/-- A hit that finds no live counter and no deadline writes both. -/
theorem hit_opens (h0 : 0 < window) (hmax : window ≤ Duration.maxChrono) (hw : s.calls w = .hitAdd window)
    (hd : s.cache (l.deadline key) = none)
    (hl : (MemoryCache.live s.clock s.cache (l.counter key)).isSome = false) {s' : State n}
    (hs' : l.advance key (l.advance key (l.advance key s w) w) w = s') :
    s'.calls w = .idle ∧
      s'.cache (l.deadline key) = some ⟨toString ((nowMillis s.clock + Duration.asMillis window % 2 ^ 64) % 2 ^ 64),
        MemoryCache.expiry s.clock (some window)⟩ ∧
      ∃ value, s'.cache (l.counter key) = some ⟨value,MemoryCache.expiry s.clock (some window)⟩ := by
  have hne := l.deadline_ne_counter key
  obtain ⟨hc₁,hk₁,hw₁⟩ := advance_at l key hw
  simp only [operate,MemoryCache.add,hl,Bool.false_eq_true,↓reduceIte] at hc₁ hw₁
  obtain ⟨hc₂,hk₂,hw₂⟩ := advance_at l key hw₁
  have hnone : MemoryCache.live s.clock (l.advance key s w).cache (l.deadline key) = none := by
    simp [MemoryCache.live,hc₁,MemoryCache.insert_other hne,hd]
  simp only [operate,hk₁,MemoryCache.add,hnone,Option.isSome_none,Bool.false_eq_true,↓reduceIte] at hc₂ hw₂
  obtain ⟨hc₃,-,hw₃⟩ := advance_at l key hw₂
  rw [hs'] at hc₃ hw₃
  refine ⟨hw₃,?_,?_⟩
  · have hframe := (MemoryCache.increment_local (l.advance key (l.advance key s w) w).clock (l.counter key) 1).frame
      (l.advance key (l.advance key s w) w).cache _ hne
    rw [hc₃]
    refine hframe.trans ?_
    rw [hc₂,MemoryCache.insert_same]
  · have hlive : MemoryCache.live (l.advance key (l.advance key s w) w).clock
        (l.advance key (l.advance key s w) w).cache (l.counter key) =
        some ⟨"0",MemoryCache.expiry s.clock (some window)⟩ := by
      rw [hk₂,hk₁,MemoryCache.live_eq_some,hc₂,hc₁,MemoryCache.insert_other hne.symm,MemoryCache.insert_same]
      exact ⟨rfl,expiry_live _ _ h0 hmax⟩
    rw [hc₃]
    exact MemoryCache.increment_of_live hlive 1

theorem run_wholeHit (l : CacheRateLimiter) (keys : Fin n → String) (window : ℕ) (hw : s.calls w = .idle) :
    Trace.run (l.stepOn keys) s (wholeHit window w) =
      l.advance (keys w) (l.advance (keys w) (l.advance (keys w) (s.goto w (.hitAdd window)) w) w) w := by
  simp only [wholeHit,Trace.run_cons,Trace.run_nil,stepOn,hw,↓reduceIte,Request.first]

/-- A whole hit writes the deadline exactly if it finds no live counter. -/
theorem wholeHit_spec (h0 : 0 < window) (hmax : window ≤ Duration.maxChrono) (hw : s.calls w = .idle)
    (hd : s.cache (l.deadline (keys w)) = none) {s' : State n}
    (hs' : Trace.run (l.stepOn keys) s (wholeHit window w) = s') :
    s'.clock = s.clock ∧ s'.calls = s.calls ∧
      (∀ e, e ≠ l.counter (keys w) → e ≠ l.deadline (keys w) → s'.cache e = s.cache e) ∧
      (MemoryCache.live s.clock s'.cache (l.deadline (keys w))).isSome =
        !(MemoryCache.live s.clock s.cache (l.counter (keys w))).isSome ∧
      ∀ other, keys w ≠ other → reports keys other s' = reports keys other s := by
  have hrun := (run_wholeHit l keys window hw).symm.trans hs'
  have hat : (s.goto w (.hitAdd window)).calls w = .hitAdd window := Function.update_self ..
  have hother : ∀ w', w' ≠ w → s'.calls w' = s.calls w' := by
    intro w' hne
    rw [← hrun,advance_calls_of_ne hne,advance_calls_of_ne hne,advance_calls_of_ne hne]
    exact Function.update_of_ne hne ..
  have hdone : s'.calls w = .idle ∧ (MemoryCache.live s.clock s'.cache (l.deadline (keys w))).isSome =
      !(MemoryCache.live s.clock s.cache (l.counter (keys w))).isSome := by
    cases hl : (MemoryCache.live s.clock s.cache (l.counter (keys w))).isSome with
    | true =>
      obtain ⟨hidle,hlive⟩ := hit_joins hat hd hl hrun
      exact ⟨hidle,congrArg Option.isSome hlive⟩
    | false =>
      obtain ⟨hidle,hentry,-⟩ := hit_opens h0 hmax hat hd hl hrun
      refine ⟨hidle,Option.isSome_iff_exists.mpr ⟨_,MemoryCache.live_eq_some.mpr ⟨hentry,?_⟩⟩⟩
      exact expiry_live _ _ h0 hmax
  refine ⟨?_,?_,?_,hdone.2,?_⟩
  · rw [← hrun,(advance_eq_operate ..).2.1,(advance_eq_operate ..).2.1,(advance_eq_operate ..).2.1]
    rfl
  · funext w'
    by_cases he : w' = w
    · rw [he,hdone.1,hw]
    · exact hother w' he
  · intro e hc hdl
    rw [← hrun,advance_cache_of_ne hc hdl,advance_cache_of_ne hc hdl,advance_cache_of_ne hc hdl]
    rfl
  · intro other ho
    rw [← hrun,reports_advance,reports_advance,reports_advance,if_neg ho,if_neg ho,if_neg ho]
    simp [reports,State.goto]

/-- A whole peek of caller `w`, with nothing in between. -/
def wholePeek (w : Fin n) : List (Label n) := [.start w .peek,.advance w,.advance w]

/-- A peek reports the live counter, with the time to the live deadline. -/
theorem wholePeek_spec (l : CacheRateLimiter) (keys : Fin n → String) (hw : s.calls w = .idle) :
    reports keys (keys w) (Trace.run (l.stepOn keys) s (wholePeek w)) = reports keys (keys w) s ++
      [(w,.peeked ((MemoryCache.live s.clock s.cache (l.counter (keys w))).map fun e =>
        ⟨(Text.parseUInt (2 ^ 32 - 1) (Text.trim e.value)).getD 0,remaining s.clock
          (readMillis ((MemoryCache.live s.clock s.cache (l.deadline (keys w))).map Entry.value)) 0⟩))] := by
  have hrun : Trace.run (l.stepOn keys) s (wholePeek w) =
      l.advance (keys w) (l.advance (keys w) (s.goto w .peekGet) w) w := by
    simp only [wholePeek,Trace.run_cons,Trace.run_nil,stepOn,hw,↓reduceIte,Request.first]
  have hat : (s.goto w .peekGet).calls w = .peekGet := Function.update_self ..
  have hsame : reports keys (keys w) (s.goto w .peekGet) = reports keys (keys w) s := rfl
  have hget : (MemoryCache.get (s.goto w .peekGet).clock (s.goto w .peekGet).cache (l.counter (keys w))).1 =
      (MemoryCache.live s.clock s.cache (l.counter (keys w))).map Entry.value := MemoryCache.get_answer
  obtain ⟨hc₁,hk₁,hw₁⟩ := advance_at l (keys w) hat
  rw [hrun,reports_advance,reports_advance,if_pos rfl,if_pos rfl,hw₁,hk₁,hc₁,hat,hsame]
  cases hl : MemoryCache.live s.clock s.cache (l.counter (keys w)) with
  | none =>
    rw [hl] at hget
    simp [operate,hget]
  | some e =>
    rw [hl] at hget
    have hdead : (MemoryCache.get s.clock (MemoryCache.get s.clock s.cache (l.counter (keys w))).2
        (l.deadline (keys w))).1 = (MemoryCache.live s.clock s.cache (l.deadline (keys w))).map Entry.value := by
      rw [MemoryCache.get_answer,MemoryCache.live_get]
    simp only [operate,hget,Option.map_some,Option.map_none,Option.toList_none,Option.toList_some,List.append_nil]
    simp only [State.goto,hdead]

/-- A whole clear of caller `w`, with nothing in between. -/
def wholeClear (w : Fin n) : List (Label n) := [.start w .clear,.advance w,.advance w]

theorem wholeClear_spec (l : CacheRateLimiter) (keys : Fin n → String) (hw : s.calls w = .idle) {s' : State n}
    (hs' : Trace.run (l.stepOn keys) s (wholeClear w) = s') :
    s'.clock = s.clock ∧ (∀ w', w' ≠ w → s'.calls w' = s.calls w') ∧ s'.cache (l.counter (keys w)) = none ∧
      (∀ e, e ≠ l.counter (keys w) → e ≠ l.deadline (keys w) → s'.cache e = s.cache e) ∧
      ∀ other, keys w ≠ other → reports keys other s' = reports keys other s := by
  have hrun : l.advance (keys w) (l.advance (keys w) (s.goto w .clearCounter) w) w = s' := by
    rw [← hs']
    simp only [wholeClear,Trace.run_cons,Trace.run_nil,stepOn,hw,↓reduceIte,Request.first]
  have hat : (s.goto w .clearCounter).calls w = .clearCounter := Function.update_self ..
  obtain ⟨hc₁,-,hw₁⟩ := advance_at l (keys w) hat
  obtain ⟨hc₂,-,-⟩ := advance_at l (keys w) hw₁
  rw [hrun] at hc₂
  refine ⟨?_,?_,?_,?_,?_⟩
  · rw [← hrun,(advance_eq_operate ..).2.1,(advance_eq_operate ..).2.1]
    rfl
  · intro w' hne
    rw [← hrun,advance_calls_of_ne hne,advance_calls_of_ne hne]
    exact Function.update_of_ne hne ..
  · rw [hc₂,hc₁]
    simp [operate,MemoryCache.forget,MemoryCache.remove_other (l.deadline_ne_counter (keys w)).symm]
  · intro e hc hd
    rw [← hrun,advance_cache_of_ne hc hd,advance_cache_of_ne hc hd]
    rfl
  · intro other ho
    rw [← hrun,reports_advance,reports_advance,if_neg ho,if_neg ho]
    simp [reports,State.goto]

theorem length_untils (key : String) (m : ℕ) : (untils key m).length = key.length + 6 * m := by
  induction m with
  | zero => rfl
  | succ m ih =>
    have hu : (":until" : String).length = 6 := rfl
    rw [untils,String.length_append,ih,hu]
    omega

theorem untils_inj (key : String) {i j : ℕ} (h : untils key i = untils key j) : i = j := by
  have hl := congrArg String.length h
  rw [length_untils,length_untils] at hl
  omega

/-- Whole hits of the callers `i`, `i + 1`, …, `d` of them. -/
def climb (n i : ℕ) : ℕ → List (Label n)
  | 0 => []
  | d + 1 => (if h : i < n then wholeHit 1 ⟨i,h⟩ else []) ++ climb n (i + 1) d

/-- Every hit of a climb finds its counter the other way round than the hit before. -/
theorem climb_spec (hkeys : ∀ w : Fin n, keys w = untils key w) (m d : ℕ) :
    ∀ i (s : State n), i + d ≤ m → m < n → (∀ w, s.calls w = .idle) →
      (∀ j, i < j → s.cache (l.counter (untils key j)) = none) →
      ∀ s', Trace.run (l.stepOn keys) s (climb n i d) = s' →
        (∀ w, s'.calls w = .idle) ∧ reports keys (untils key m) s' = reports keys (untils key m) s ∧
        (MemoryCache.live s'.clock s'.cache (l.counter (untils key (i + d)))).isSome =
          Bool.not^[d] (MemoryCache.live s.clock s.cache (l.counter (untils key i))).isSome := by
  induction d with
  | zero =>
    intro i s _ _ hidle _ s' hs'
    cases hs'
    exact ⟨hidle,rfl,rfl⟩
  | succ d ih =>
    intro i s hid hmn hidle habove s' hs'
    have hin : i < n := by omega
    rw [climb,dif_pos hin,Trace.run_append] at hs'
    obtain ⟨s₁,hs₁⟩ : ∃ s₁, Trace.run (l.stepOn keys) s (wholeHit 1 ⟨i,hin⟩) = s₁ := ⟨_,rfl⟩
    have hkey : keys ⟨i,hin⟩ = untils key i := hkeys _
    have hdead : l.deadline (untils key i) = l.counter (untils key (i + 1)) := l.deadline_eq_counter _
    obtain ⟨hclock,hcalls,hframe,hlive,hreports⟩ := wholeHit_spec Nat.one_pos (by decide) (hidle ⟨i,hin⟩)
      (by rw [hkey,hdead]; exact habove _ (Nat.lt_succ_self i)) hs₁
    rw [hkey] at hframe hlive hreports
    rw [hdead] at hframe hlive
    rw [hs₁] at hs'
    obtain ⟨hidle',hrep,hodd⟩ := ih (i + 1) s₁ (by omega) hmn (fun w => by rw [hcalls]; exact hidle w)
      (by
        intro j hj
        rw [hframe _ (fun he => absurd (untils_inj key (counter_inj he)) (by omega))
          (fun he => absurd (untils_inj key (counter_inj he)) (by omega))]
        exact habove j (by omega)) s' hs'
    refine ⟨hidle',hrep.trans (hreports _ (fun he => absurd (untils_inj key he) (by omega))),?_⟩
    have hsum : i + 1 + d = i + (d + 1) := by omega
    rw [← hsum,hodd,hclock,hlive,Function.iterate_succ_apply]

theorem without_wholeHit {w : Fin n} (h : keys w ≠ key) : without keys key (wholeHit window w) = wholeHit window w := by
  simp [without,wholeHit,Label.isOn,h]

theorem without_climb (hkeys : ∀ w : Fin n, keys w = untils key w) (d : ℕ) :
    ∀ i, 0 < i → without keys key (climb n i d) = climb n i d := by
  induction d with
  | zero => intro i _; rfl
  | succ d ih =>
    intro i hi
    have hrest := ih (i + 1) (Nat.succ_pos i)
    unfold without at hrest
    rw [climb,without,List.filter_append,hrest]
    congr 1
    split
    next h =>
      refine without_wholeHit ?_
      rw [hkeys]
      exact fun he => absurd (untils_inj key (j := 0) he) (Nat.ne_of_gt hi)
    · rfl

/-- A climb from the key up to a longer one, then a peek there: leaving out the first
hit turns what the peek finds. -/
theorem not_independent_untils (l : CacheRateLimiter) (key : String) (m : ℕ) :
    ¬ l.Independent key (untils key (m + 1)) := by
  intro h
  obtain ⟨keys,hkeys⟩ : ∃ keys : Fin (m + 2) → String, ∀ w, keys w = untils key w := ⟨fun w => untils key w,fun _ => rfl⟩
  obtain ⟨last,hlast⟩ : ∃ last : Fin (m + 2), last.val = m + 1 := ⟨⟨m + 1,by omega⟩,rfl⟩
  have hkey : keys last = untils key (m + 1) := by rw [hkeys,hlast]
  have hne : keys last ≠ key := by
    rw [hkey]
    exact fun he => absurd (untils_inj key (j := 0) he) (by omega)
  have hwithout : without keys key (climb (m + 2) 0 (m + 1) ++ wholePeek last) =
      climb (m + 2) 1 m ++ wholePeek last := by
    have hfirst : without keys key (wholeHit 1 (0 : Fin (m + 2))) = [] := by
      have hzero : keys 0 = key := hkeys 0
      simp [without,wholeHit,Label.isOn,hzero]
    have hpeek : without keys key (wholePeek last) = wholePeek last := by
      simp [without,wholePeek,Label.isOn,hne]
    have hrest := without_climb hkeys m 1 Nat.one_pos
    unfold without at hfirst hpeek hrest ⊢
    rw [climb,dif_pos (by omega),List.filter_append,List.filter_append,hrest,hpeek]
    exact congrArg (· ++ climb (m + 2) 1 m ++ wholePeek last) hfirst
  have hrun := h _ keys (climb (m + 2) 0 (m + 1) ++ wholePeek last)
  rw [hwithout,Trace.run_append,Trace.run_append] at hrun
  obtain ⟨hidle,hrep,hlive⟩ := climb_spec (l := l) hkeys (m + 1) (m + 1) 0 (init (m + 2)) (by omega) (by omega)
    (fun _ => rfl) (fun _ _ => rfl) _ rfl
  obtain ⟨hidle',hrep',hlive'⟩ := climb_spec (l := l) hkeys (m + 1) m 1 (init (m + 2)) (by omega) (by omega)
    (fun _ => rfl) (fun _ _ => rfl) _ rfl
  have hpeek := wholePeek_spec l keys (hidle last)
  have hpeek' := wholePeek_spec l keys (hidle' last)
  rw [hkey] at hpeek hpeek'
  rw [hpeek,hpeek',hrep,hrep'] at hrun
  have hfound := List.append_cancel_left hrun
  simp only [List.cons.injEq,Prod.mk.injEq,Answer.peeked.injEq,true_and,and_true] at hfound
  have hsome := congrArg Option.isSome hfound
  have hone : 1 + m = m + 1 := by omega
  rw [Nat.zero_add] at hlive
  rw [hone] at hlive'
  rw [Option.isSome_map,Option.isSome_map,hlive,hlive',Function.iterate_succ_apply] at hsome
  have hturned := Function.Injective.iterate (fun a b hab => by simpa using hab) m hsome
  simp [init,MemoryCache.live,MemoryCache.empty] at hturned

/-- Clearing `key` removes the deadline of the key one `:until` short, and a peek there
then has no time left to report. -/
theorem not_independent_short (l : CacheRateLimiter) (other : String) :
    ¬ l.Independent (other ++ ":until") other := by
  intro h
  obtain ⟨keys,hk0,hk1⟩ : ∃ keys : Fin 2 → String, keys 0 = other ∧ keys 1 = other ++ ":until" :=
    ⟨fun w => if w = 0 then other else other ++ ":until",rfl,rfl⟩
  obtain ⟨s₁,hs₁⟩ : ∃ s₁, Trace.run (l.stepOn keys) (init 2) (wholeHit (Duration.fromSecs 60) 0) = s₁ := ⟨_,rfl⟩
  obtain ⟨s₂,hs₂⟩ : ∃ s₂, Trace.run (l.stepOn keys) s₁ (wholeClear 1) = s₂ := ⟨_,rfl⟩
  have h0 : 0 < Duration.fromSecs 60 := by decide
  have hmax : Duration.fromSecs 60 ≤ Duration.maxChrono := by decide
  have hlong : other ≠ other ++ ":until" := fun he => absurd (untils_inj other (i := 0) (j := 1) he) (by decide)
  have hwithout : without keys (other ++ ":until")
      (wholeHit (Duration.fromSecs 60) 0 ++ wholeClear 1 ++ wholePeek 0) =
      wholeHit (Duration.fromSecs 60) 0 ++ wholePeek 0 := by
    simp [without,wholeHit,wholeClear,wholePeek,Label.isOn,hk0,hk1,hlong]
  have hdead : l.deadline other = l.counter (keys 1) := by rw [hk1,deadline_eq_counter]
  obtain ⟨hclock,hcalls,-,-,-⟩ := wholeHit_spec (l := l) h0 hmax rfl rfl hs₁
  obtain ⟨-,hdeadline,value,hcounter⟩ := hit_opens (l := l) h0 hmax
    (show ((init 2).goto 0 (.hitAdd (Duration.fromSecs 60))).calls 0 = _ by simp [State.goto]) rfl rfl ((run_wholeHit l keys _ rfl).symm.trans hs₁)
  obtain ⟨hclock',hcalls',hgone,hframe,hreports⟩ := wholeClear_spec l keys (w := 1)
    (by rw [hcalls]; rfl) hs₂
  have hkept : s₂.cache (l.counter (keys 0)) = s₁.cache (l.counter (keys 0)) := by
    refine hframe _ ?_ ?_
    · rw [hk0,← hdead]
      exact (l.deadline_ne_counter other).symm
    · rw [hk0,hk1,deadline_eq_counter]
      exact fun he => absurd (untils_inj other (i := 0) (j := 2) (counter_inj he)) (by decide)
  have hrun := h 2 keys (wholeHit (Duration.fromSecs 60) 0 ++ wholeClear 1 ++ wholePeek 0)
  have hpeek := wholePeek_spec l keys (s := s₁) (w := 0) (by rw [hcalls]; rfl)
  have hpeek' := wholePeek_spec l keys (s := s₂) (w := 0)
    (by rw [hcalls' 0 (by decide),hcalls]; rfl)
  rw [hwithout,Trace.run_append,Trace.run_append,Trace.run_append,hs₁,hs₂] at hrun
  rw [hk0] at hpeek hpeek' hkept hcounter hdeadline
  rw [hpeek,hpeek',hreports other (by rw [hk1]; exact hlong.symm)] at hrun
  have hfound := List.append_cancel_left hrun
  have hclock₁ : s₁.clock = 0 := hclock
  have hclock₂ : s₂.clock = 0 := hclock'.trans hclock
  have hcount₁ := MemoryCache.live_eq_some.mpr ⟨hcounter,expiry_live 0 value h0 hmax⟩
  have hcount₂ := MemoryCache.live_eq_some.mpr ⟨hkept.trans hcounter,expiry_live 0 value h0 hmax⟩
  have hends := MemoryCache.live_eq_some.mpr ⟨hdeadline,expiry_live 0 _ h0 hmax⟩
  have hnone : MemoryCache.live 0 s₂.cache (l.deadline other) = none := by
    simp [MemoryCache.live,hdead,hgone]
  rw [hclock₁,hclock₂,hcount₁,hcount₂,hends,hnone] at hfound
  simp only [Option.map_some,Option.map_none,List.cons.injEq,Prod.mk.injEq,Answer.peeked.injEq,Option.some.injEq,
    Hit.mk.injEq,true_and,and_true] at hfound
  exact absurd hfound (by decide)

theorem not_independent_self (l : CacheRateLimiter) (key : String) : ¬ l.Independent key key := by
  intro h
  have hrun := h 1 (fun _ => key) (wholePeek 0)
  have hpeek := wholePeek_spec l (fun _ => key) (s := init 1) (w := 0) rfl
  rw [hpeek] at hrun
  simp [without,wholePeek,Label.isOn,reports,init] at hrun

/-- Calls on one key leave what calls on another answer alone exactly if the other key is
not the first followed by any number of `:until`, and not the first but for one. -/
theorem keys_independent_iff (l : CacheRateLimiter) (key other : String) :
    l.Independent key other ↔ (∀ m, other ≠ untils key m) ∧ key ≠ other ++ ":until" := by
  constructor
  · intro h
    refine ⟨?_,?_⟩
    · rintro m rfl
      cases m with
      | zero => exact not_independent_self l key h
      | succ m => exact not_independent_untils l key m h
    · rintro rfl
      exact not_independent_short l other h
  · rintro ⟨hkey,hshort⟩
    exact independent_of_not_reached hkey hshort

/-- A hit on `ada` makes a peek at `ada:until` find a window nobody opened there. -/
theorem until_key_shares_entry : "ada" ≠ "ada:until" ∧ ¬ new.Independent "ada" "ada:until" := by
  refine ⟨by decide,?_⟩
  intro h
  have hrun := h 2 (fun w => if w.val = 0 then "ada" else "ada:until")
    (wholeHit (Duration.fromSecs 60) 0 ++ wholePeek 1)
  exact absurd hrun (by decide)

end Rainier.Cache.CacheRateLimiter
