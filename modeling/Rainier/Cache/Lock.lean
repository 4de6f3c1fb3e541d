import Rainier.Cache.MemoryCache

/-! # Locks over the cache

A lock is an entry under a prefixed name that holds its owner's token. Taking it
is one `add`, so whoever finds a live entry there goes without. A guard gives the
lock back by its token; one that is kept or dropped leaves it standing until its
lifetime is over. The locks below do not wait, so an acquire is a single round.
-/
namespace Rainier.Cache

structure LockManager where
  keyPrefix : String
  deriving DecidableEq, Repr

structure Lock where
  key : String
  ttl : ℕ
  deriving DecidableEq, Repr

structure LockGuard where
  key : String
  owner : String
  deriving DecidableEq, Repr

def LockManager.new : LockManager := ⟨"lock:"⟩

def LockManager.lock (m : LockManager) (name : String) (ttl : ℕ) : Lock := ⟨m.keyPrefix ++ name,ttl⟩

namespace Lock
variable (l : Lock) (now : ℕ) (c : MemoryCache)

def acquire (owner : String) : Option LockGuard × MemoryCache :=
  match c.add now l.key owner (some l.ttl) with
  | (true,left) => (some ⟨l.key,owner⟩,left)
  | (false,left) => (none,left)

def forceRelease : Bool × MemoryCache := c.forget l.key

def isHeld : Bool := (c.get now l.key).1.isSome

end Lock

namespace LockGuard

def release (g : LockGuard) (now : ℕ) (c : MemoryCache) : Bool × MemoryCache := c.forgetIf now g.key g.owner

def keep (_ : LockGuard) (c : MemoryCache) : MemoryCache := c

/-- The cache is not told. -/
def drop (_ : LockGuard) (c : MemoryCache) : MemoryCache := c

end LockGuard

/-! ## Locks that have not expired -/

/-- Nothing in the cache has reached its expiry. -/
def Unexpired (now : ℕ) (c : MemoryCache) : Prop := ∀ key e, c key = some e → e.isLive now = true

variable {now : ℕ} {c : MemoryCache} {l : Lock}

theorem unexpired_empty (now : ℕ) : Unexpired now .empty := fun _ _ h => by cases h

theorem Unexpired.insert (h : Unexpired now c) {key : String} {e : Entry} (he : e.isLive now = true) :
    Unexpired now (c.insert key e) := by
  intro key' e' he'
  by_cases hk : key' = key
  · subst hk
    rw [MemoryCache.insert_same,Option.some.injEq] at he'
    rwa [← he']
  · rw [MemoryCache.insert_other hk] at he'
    exact h key' e' he'

theorem Unexpired.remove (h : Unexpired now c) (key : String) : Unexpired now (c.remove key) := by
  intro key' e' he'
  by_cases hk : key' = key
  · subst hk
    rw [MemoryCache.remove_same] at he'
    cases he'
  · rw [MemoryCache.remove_other hk] at he'
    exact h key' e' he'

theorem Unexpired.isHeld_iff (h : Unexpired now c) (l : Lock) : l.isHeld now c = true ↔ c l.key ≠ none := by
  unfold Lock.isHeld MemoryCache.get
  cases he : c l.key with
  | none => simp
  | some e => simp [h _ _ he]

theorem Unexpired.acquire_none (h : Unexpired now c) {owner : String} (he : c l.key ≠ none) :
    l.acquire now c owner = (none,c) := by
  obtain ⟨e,he⟩ := Option.ne_none_iff_exists'.mp he
  simp [Lock.acquire,MemoryCache.add,MemoryCache.live_eq_some.mpr ⟨he,h _ _ he⟩]

theorem acquire_some (owner : String) (he : c l.key = none) :
    l.acquire now c owner =
      (some ⟨l.key,owner⟩,c.insert l.key ⟨owner,MemoryCache.expiry now (some l.ttl)⟩) := by
  simp [Lock.acquire,MemoryCache.add,MemoryCache.live,he]

/-- Names under one manager are different locks. -/
theorem LockManager.lock_key_inj {m : LockManager} {name name' : String} {ttl ttl' : ℕ}
    (h : (m.lock name ttl).key = (m.lock name' ttl').key) : name = name' := by
  have := congrArg String.toList h
  simpa [LockManager.lock,String.toList_append,String.toList_inj] using this

end Rainier.Cache
