import Rainier.Cache.MemoryCache
import Rainier.Support.Trace

/-! # The cache-backed rate limiter

`hit`, `peek` and `clear` are sequences of single cache operations, and any
number of callers may have one under way on the same key. The state below is
the cache, the clock and where each caller is in its call; a step performs the
next cache operation of one caller. Two ghosts record the hits whose first
operation has been performed and the one that opened the present counter.
-/
namespace Rainier.Cache

structure CacheRateLimiter where
  keyPrefix : String

structure Hit where
  count : ℕ
  resetsIn : ℕ
  deriving DecidableEq, Repr

namespace CacheRateLimiter

def new : CacheRateLimiter := ⟨"rate:"⟩

def counter (l : CacheRateLimiter) (key : String) : String := l.keyPrefix ++ key

/-- The companion key holding when the window ends. -/
def deadline (l : CacheRateLimiter) (key : String) : String := l.keyPrefix ++ key ++ ":until"

theorem deadline_ne_counter (l : CacheRateLimiter) (key : String) : l.deadline key ≠ l.counter key := by
  intro h
  have hl := congrArg String.length h
  simp [deadline,counter] at hl

def nowMillis (now : ℕ) : ℕ := Time.timestampMillis now

def readMillis (stored : Option String) : Option ℕ :=
  stored.bind (fun text => Text.parseUInt (2 ^ 64 - 1) (Text.trim text))

def remaining (now : ℕ) (endsAt : Option ℕ) (fallback : ℕ) : ℕ :=
  match endsAt with
  | some at' => Duration.fromMillis (at' - nowMillis now)
  | none => fallback

/-- Where a caller is: each constructor names the cache operation it performs next. -/
inductive Call where
  | idle
  | hitAdd (window : ℕ)
  | hitAddDeadline (window : ℕ)
  | hitGetDeadline (window : ℕ)
  | hitIncrement (window : ℕ) (endsAt : Option ℕ)
  | peekGet
  | peekGetDeadline (count : ℕ)
  | clearCounter
  | clearDeadline
  deriving DecidableEq, Repr

inductive Request where
  | hit (window : ℕ)
  | peek
  | clear
  deriving DecidableEq, Repr

inductive Answer where
  | hit (h : Hit)
  | refused (e : Error)
  | peeked (h : Option Hit)
  | cleared
  deriving DecidableEq, Repr

/-- The limiter's cache and clock with `n` callers on one key. -/
structure State (n : ℕ) where
  cache : MemoryCache
  clock : ℕ
  calls : Fin n → Call
  answers : List (Fin n × Answer)
  hits : List (ℕ × ℕ)
  opened : Option (ℕ × ℕ)

inductive Label (n : ℕ) where
  | tick (d : ℕ)
  | start (w : Fin n) (r : Request)
  | advance (w : Fin n)
  deriving DecidableEq, Repr

def init (n : ℕ) : State n := ⟨MemoryCache.empty,0,fun _ => .idle,[],[],none⟩

variable {n : ℕ}

def State.goto (s : State n) (w : Fin n) (c : Call) : State n :=
  { s with calls := Function.update s.calls w c }

def State.finish (s : State n) (w : Fin n) (a : Answer) : State n :=
  { s.goto w .idle with answers := s.answers ++ [(w,a)] }

def Request.first : Request → Call
  | .hit window => .hitAdd window
  | .peek => .peekGet
  | .clear => .clearCounter

section Step
variable (l : CacheRateLimiter) (key : String)

/-- `add(counter, "0", window)`, and which way `hit` goes on. -/
def hitAdd (s : State n) (w : Fin n) (window : ℕ) : State n :=
  let (opened,cache) := MemoryCache.add s.clock s.cache (l.counter key) "0" (some window)
  let s := { s with cache := cache, hits := s.hits ++ [(s.clock,window)] }
  if opened then { s with opened := some (s.clock,window) }.goto w (.hitAddDeadline window)
  else s.goto w (.hitGetDeadline window)

def hitAddDeadline (s : State n) (w : Fin n) (window : ℕ) : State n :=
  let endsAt := (nowMillis s.clock + Duration.asMillis window % 2 ^ 64) % 2 ^ 64
  let (_,cache) := MemoryCache.add s.clock s.cache (l.deadline key) (toString endsAt) (some window)
  { s with cache := cache }.goto w (.hitIncrement window (some endsAt))

def hitGetDeadline (s : State n) (w : Fin n) (window : ℕ) : State n :=
  let (stored,cache) := MemoryCache.get s.clock s.cache (l.deadline key)
  { s with cache := cache }.goto w (.hitIncrement window (readMillis stored))

def hitIncrement (s : State n) (w : Fin n) (window : ℕ) (endsAt : Option ℕ) : State n :=
  let (result,cache) := MemoryCache.increment s.clock s.cache (l.counter key) 1
  let s := { s with cache := cache }
  match result with
  | .ok count => s.finish w (.hit ⟨(max count 0).toNat % 2 ^ 32,remaining s.clock endsAt window⟩)
  | .error e => s.finish w (.refused e)

def peekGet (s : State n) (w : Fin n) : State n :=
  let (raw,cache) := MemoryCache.get s.clock s.cache (l.counter key)
  let s := { s with cache := cache }
  match raw with
  | none => s.finish w (.peeked none)
  | some text => s.goto w (.peekGetDeadline ((Text.parseUInt (2 ^ 32 - 1) (Text.trim text)).getD 0))

def peekGetDeadline (s : State n) (w : Fin n) (count : ℕ) : State n :=
  let (stored,cache) := MemoryCache.get s.clock s.cache (l.deadline key)
  { s with cache := cache }.finish w (.peeked (some ⟨count,remaining s.clock (readMillis stored) 0⟩))

def clearCounter (s : State n) (w : Fin n) : State n :=
  { s with cache := (MemoryCache.forget s.cache (l.counter key)).2 }.goto w .clearDeadline

def clearDeadline (s : State n) (w : Fin n) : State n :=
  { s with cache := (MemoryCache.forget s.cache (l.deadline key)).2 }.finish w .cleared

/-- The next cache operation of caller `w`. -/
def advance (s : State n) (w : Fin n) : State n :=
  match s.calls w with
  | .idle => s
  | .hitAdd window => l.hitAdd key s w window
  | .hitAddDeadline window => l.hitAddDeadline key s w window
  | .hitGetDeadline window => l.hitGetDeadline key s w window
  | .hitIncrement window endsAt => l.hitIncrement key s w window endsAt
  | .peekGet => l.peekGet key s w
  | .peekGetDeadline count => l.peekGetDeadline key s w count
  | .clearCounter => l.clearCounter key s w
  | .clearDeadline => l.clearDeadline key s w

def step (s : State n) : Label n → State n
  | .tick d => { s with clock := s.clock + d }
  | .start w r => if s.calls w = .idle then s.goto w r.first else s
  | .advance w => l.advance key s w

/-- The live counter entry, if there is one. -/
def counterEntry (s : State n) : Option Entry := MemoryCache.live s.clock s.cache (l.counter key)

/-- A live counter ends no later than its window after the hit that opened it. -/
def WindowEnds (s : State n) : Prop :=
  ∀ e, l.counterEntry key s = some e →
    ∃ h, s.opened = some h ∧ ∃ t, e.expiresAt = some t ∧ t ≤ h.1 + h.2

/-- Once every hit made is at least its window old, nothing is counted any more. -/
def WholeAgain (s : State n) : Prop :=
  (∀ h ∈ s.hits, h.1 + h.2 ≤ s.clock) → l.counterEntry key s = none

/-- An increment finds the counter live, and a window that is opened is one chrono can hold. -/
def KeepsWindow (s : State n) : Label n → Prop
  | .advance w => match s.calls w with
    | .hitIncrement _ _ => (l.counterEntry key s).isSome = true
    | .hitAdd window => (l.counterEntry key s).isSome = true ∨ window ≤ Duration.maxChrono
    | _ => True
  | _ => True

end Step

/-- The ghost of the opening hit is one of the hits made. -/
def OpenedByHit (s : State n) : Prop := ∀ h, s.opened = some h → h ∈ s.hits

variable {l : CacheRateLimiter} {key : String} {s : State n} {w : Fin n}

theorem WindowEnds.wholeAgain (h : l.WindowEnds key s) (ho : OpenedByHit s) : l.WholeAgain key s := by
  intro hall
  cases he : l.counterEntry key s with
  | none => rfl
  | some e =>
    obtain ⟨hit,hopen,t,ht,hle⟩ := h e he
    have hlive := (MemoryCache.live_eq_some.mp he).2
    simp only [Entry.isLive,ht,decide_eq_true_eq] at hlive
    have := hall hit (ho hit hopen)
    omega

/-- Steps that leave the counter entry, the clock and the opening hit alone keep the window. -/
theorem WindowEnds.congr {t : State n} (he : l.counterEntry key t = l.counterEntry key s)
    (ho : t.opened = s.opened) (h : l.WindowEnds key s) : l.WindowEnds key t := by
  intro e hlive
  rw [ho]
  exact h e (he ▸ hlive)

theorem windowEnds_of_none (h : l.counterEntry key s = none) : l.WindowEnds key s := by
  intro e he
  rw [h] at he
  cases he

/-- Operations on the deadline key leave the window alone. -/
theorem WindowEnds.frame {t : State n} (hc : t.cache (l.counter key) = s.cache (l.counter key))
    (hk : t.clock = s.clock) (ho : t.opened = s.opened) (h : l.WindowEnds key s) :
    l.WindowEnds key t := h.congr (by simp only [counterEntry,MemoryCache.live,hc,hk]) ho

theorem add_deadline (now : ℕ) (c : MemoryCache) (value : String) (ttl : Option ℕ) :
    (MemoryCache.add now c (l.deadline key) value ttl).2 (l.counter key) = c (l.counter key) := by
  unfold MemoryCache.add
  split
  · rfl
  · exact MemoryCache.insert_other (l.deadline_ne_counter key).symm _

/-- An added counter carries its expiry exactly when chrono can hold the window. -/
theorem windowEnds_hitAdd (h : l.WindowEnds key s) (window : ℕ) :
    l.WindowEnds key (l.hitAdd key s w window) ↔
      (l.counterEntry key s).isSome = true ∨ window ≤ Duration.maxChrono := by
  unfold hitAdd MemoryCache.add
  by_cases hlive : (MemoryCache.live s.clock s.cache (l.counter key)).isSome = true
  · simp only [hlive,↓reduceIte,Bool.false_eq_true]
    exact iff_of_true (h.congr rfl rfl) (Or.inl hlive)
  · simp only [hlive,Bool.false_eq_true,↓reduceIte]
    have hentry : l.counterEntry key s = none := by simpa [counterEntry] using hlive
    rw [hentry]
    simp only [Option.isSome_none,Bool.false_eq_true,false_or]
    constructor
    · intro hends
      by_contra hbig
      have hx : MemoryCache.expiry s.clock (some window) = none := by
        simp [MemoryCache.expiry,Duration.fromStd,hbig]
      obtain ⟨_,_,t,ht,_⟩ := hends ⟨"0",none⟩
        (MemoryCache.live_eq_some.mpr ⟨by simp [State.goto,hx],rfl⟩)
      cases ht
    · intro hfit e he
      have hc := (MemoryCache.live_eq_some.mp he).1
      simp only [State.goto,MemoryCache.insert_same,Option.some.injEq] at hc
      refine ⟨(s.clock,window),rfl,s.clock + window,?_,le_rfl⟩
      simp [← hc,MemoryCache.expiry,Duration.fromStd,hfit]

/-- An increment keeps the expiry it finds, and leaves none where it finds no counter. -/
theorem windowEnds_hitIncrement (h : l.WindowEnds key s) (window : ℕ) (endsAt : Option ℕ) :
    l.WindowEnds key (l.hitIncrement key s w window endsAt) ↔ (l.counterEntry key s).isSome = true := by
  have hfinish : ∀ (cache : MemoryCache) (a : Answer),
      l.WindowEnds key ({ s with cache := cache }.finish w a) ↔
        l.WindowEnds key { s with cache := cache } := fun _ _ => Iff.rfl
  unfold hitIncrement MemoryCache.increment
  cases hl : MemoryCache.live s.clock s.cache (l.counter key) with
  | none =>
    have hentry : l.counterEntry key s = none := hl
    simp only [hentry,Option.isSome_none,Bool.false_eq_true,iff_false]
    intro hends
    obtain ⟨_,_,t,ht,_⟩ := hends _ (MemoryCache.live_eq_some.mpr ⟨MemoryCache.insert_same _,rfl⟩)
    cases ht
  | some e =>
    have hentry : l.counterEntry key s = some e := hl
    obtain ⟨hit,ho,t,ht,hle⟩ := h e hentry
    simp only [hentry,Option.isSome_some,iff_true]
    cases MemoryCache.decodeCounter e.value with
    | error err => exact (hfinish _ _).mpr h
    | ok m =>
      refine (hfinish _ _).mpr ?_
      intro e' he'
      have hc := (MemoryCache.live_eq_some.mp he').1
      simp only [MemoryCache.insert_same,Option.some.injEq] at hc
      exact ⟨hit,ho,t,by simp [← hc,ht],hle⟩

theorem counterEntry_peekGet : l.counterEntry key (l.peekGet key s w) = l.counterEntry key s := by
  have hg : MemoryCache.live s.clock (MemoryCache.get s.clock s.cache (l.counter key)).2 (l.counter key) =
      MemoryCache.live s.clock s.cache (l.counter key) := MemoryCache.live_get _
  unfold peekGet
  split
  next raw cache h =>
    rw [h] at hg
    cases raw with
    | none => exact hg
    | some text => exact hg

/-- What one operation does to the window, for every place a caller can be. -/
theorem windowEnds_advance (h : l.WindowEnds key s) (w : Fin n) :
    l.WindowEnds key (l.advance key s w) ↔ l.KeepsWindow key s (.advance w) := by
  have hne := (l.deadline_ne_counter key).symm
  unfold advance KeepsWindow
  dsimp only
  cases s.calls w with
  | idle => exact iff_of_true h trivial
  | hitAdd window => exact windowEnds_hitAdd h window
  | hitAddDeadline window => exact iff_of_true (h.frame (add_deadline _ _ _ _) rfl rfl) trivial
  | hitGetDeadline window => exact iff_of_true (h.frame (MemoryCache.get_other hne) rfl rfl) trivial
  | hitIncrement window endsAt => exact windowEnds_hitIncrement h window endsAt
  | peekGet =>
    refine iff_of_true (h.congr counterEntry_peekGet ?_) trivial
    unfold peekGet
    dsimp only
    split <;> rfl
  | peekGetDeadline count => exact iff_of_true (h.frame (MemoryCache.get_other hne) rfl rfl) trivial
  | clearCounter =>
    refine iff_of_true (windowEnds_of_none ?_) trivial
    simp [counterEntry,clearCounter,State.goto,MemoryCache.forget,MemoryCache.live]
  | clearDeadline => exact iff_of_true (h.frame (MemoryCache.remove_other hne) rfl rfl) trivial

/-- Time passing can only end a window. -/
theorem windowEnds_tick (h : l.WindowEnds key s) (d : ℕ) :
    l.WindowEnds key { s with clock := s.clock + d } := by
  intro e he
  obtain ⟨hc,hlive⟩ := MemoryCache.live_eq_some.mp he
  refine h e (MemoryCache.live_eq_some.mpr ⟨hc,?_⟩)
  unfold Entry.isLive at hlive ⊢
  split
  next t ht =>
    simp only [ht,decide_eq_true_eq] at hlive ⊢
    omega
  · rfl

theorem windowEnds_step (h : l.WindowEnds key s) (a : Label n) :
    l.WindowEnds key (l.step key s a) ↔ l.KeepsWindow key s a := by
  cases a with
  | tick d => exact iff_of_true (windowEnds_tick h d) trivial
  | start w r =>
    refine iff_of_true ?_ trivial
    simp only [step]
    split
    · exact h.congr rfl rfl
    · exact h
  | advance w => exact windowEnds_advance h w

theorem openedByHit_advance (h : OpenedByHit s) (w : Fin n) : OpenedByHit (l.advance key s w) := by
  unfold advance
  cases s.calls w with
  | hitAdd window =>
    unfold CacheRateLimiter.hitAdd MemoryCache.add
    dsimp only
    split <;> intro hit ho <;> simp only [State.goto] at ho ⊢
    · exact List.mem_append_left _ (h hit ho)
    · cases ho
      exact List.mem_append_right _ (List.mem_singleton_self _)
  | hitIncrement window endsAt =>
    unfold CacheRateLimiter.hitIncrement
    dsimp only
    split <;> exact h
  | peekGet =>
    unfold CacheRateLimiter.peekGet
    dsimp only
    split <;> exact h
  | _ => exact h

theorem openedByHit_step (h : OpenedByHit s) (a : Label n) : OpenedByHit (l.step key s a) := by
  cases a with
  | tick d => exact h
  | start w r =>
    simp only [step]
    split <;> exact h
  | advance w => exact openedByHit_advance h w

/-- The windows of a run end, and the allowance comes back whole, exactly when
no increment lands where its counter has lapsed or been cleared and no hit
opens a window chrono cannot hold. -/
theorem windows_end_iff (l : CacheRateLimiter) (key : String) (labels : List (Label n)) :
    Trace.Always (l.step key) (fun s => l.WindowEnds key s ∧ l.WholeAgain key s) (init n) labels ↔
      Trace.Along (l.step key) (l.KeepsWindow key) (init n) labels := by
  have hfirst : l.WindowEnds key (init n) := windowEnds_of_none rfl
  have hopened : OpenedByHit (init n) := by intro h ho; cases ho
  refine Trace.always_iff_along (Q := OpenedByHit) (fun s a hs _ _ => openedByHit_step hs a) ?_ hopened
    ⟨hfirst,hfirst.wholeAgain hopened⟩
  intro s a hs hP
  rw [← windowEnds_step hP.1 a]
  exact ⟨And.left,fun h => ⟨h,h.wholeAgain (openedByHit_step hs a)⟩⟩

/-- One hit whose window lapses between its `add` and its `increment`. -/
def lapsedHit : List (Label 1) :=
  [.start 0 (.hit 60),.advance 0,.advance 0,.tick 60,.advance 0]

/-- The increment then leaves a counter that no time ends. -/
theorem lapsed_hit_never_ends :
    ¬ Trace.Always (new.step "login") (fun s => new.WindowEnds "login" s ∧ new.WholeAgain "login" s)
      (init 1) lapsedHit := by
  intro h
  have hentry : new.counterEntry "login" (Trace.run (new.step "login") (init 1) lapsedHit) =
      some ⟨"1",none⟩ := by decide
  obtain ⟨_,_,t,ht,_⟩ := h.last.1 _ hentry
  cases ht

end CacheRateLimiter
end Rainier.Cache
