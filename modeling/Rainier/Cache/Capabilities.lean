import Rainier.Cache.Lock

/-! # What a store says about itself

Every store answers whether other processes see it and whether its `add` is
atomic. A lock needs both. The two answers are trait methods with a default, so a
wrapper gives the answer of the store it wraps only where it forwards the question.
-/
namespace Rainier.Cache

/-- The answers of a store, with the defaults of the trait. -/
structure Capabilities where
  isShared : Bool := true
  supportsAtomicAdd : Bool := true
  isTraced : Bool := false
  deriving DecidableEq, Repr

inductive CacheDriver where
  | memory
  | redis
  | redisCluster
  | memcached
  | dynamoDb
  | kv
  deriving DecidableEq, Repr

namespace CacheDriver

def isShared : CacheDriver → Bool
  | memory => false
  | _ => true

def canHoldALock (d : CacheDriver) : Bool := d.isShared && d != kv

/-- What the store built for a driver answers. -/
def capabilities : CacheDriver → Capabilities
  | memory => { isShared := false }
  | kv => { isShared := true, supportsAtomicAdd := false }
  | _ => {}

end CacheDriver

/-- A base store under any nesting of the two wrappers. -/
inductive Store where
  | base (answers : Capabilities)
  | prefixed (keyPrefix : String) (inner : Store)
  | traced (inner : Store)
  deriving DecidableEq, Repr

namespace Store

/-- `PrefixedCache` answers the first question only, `TracedCache` all of them. -/
def capabilities : Store → Capabilities
  | base answers => answers
  | prefixed _ inner => { isShared := inner.capabilities.isShared }
  | traced inner =>
    { isShared := inner.capabilities.isShared
      supportsAtomicAdd := inner.capabilities.supportsAtomicAdd
      isTraced := true }

/-- `TracedCache::wrap`. -/
def wrap (inner : Store) : Store :=
  if inner.capabilities.isTraced then inner else traced inner

/-- The base store underneath. -/
def root : Store → Capabilities
  | base answers => answers
  | prefixed _ inner => inner.root
  | traced inner => inner.root

/-- Whether a `PrefixedCache` occurs among the wrappers. -/
def hasPrefix : Store → Bool
  | base _ => false
  | prefixed _ _ => true
  | traced inner => inner.hasPrefix

theorem isShared_eq_root (s : Store) : s.capabilities.isShared = s.root.isShared := by
  induction s with
  | base answers => rfl
  | prefixed p inner ih => exact ih
  | traced inner ih => exact ih

/-- The outermost prefix decides: below it nobody is asked. -/
theorem supportsAtomicAdd_eq (s : Store) :
    s.capabilities.supportsAtomicAdd = (s.hasPrefix || s.root.supportsAtomicAdd) := by
  induction s with
  | base answers => rfl
  | prefixed p inner ih => rfl
  | traced inner ih => exact ih

theorem root_wrap (s : Store) : s.wrap.root = s.root := by
  unfold wrap
  split <;> rfl

theorem hasPrefix_wrap (s : Store) : s.wrap.hasPrefix = s.hasPrefix := by
  unfold wrap
  split <;> rfl

end Store

/-- A lock manager over its store. -/
structure Locks where
  cache : Store
  manager : LockManager
  declaredShared : Bool
  deriving DecidableEq, Repr

namespace Locks

def new (cache : Store) : Locks := ⟨cache,LockManager.new,false⟩

def isShared (l : Locks) : Bool :=
  l.declaredShared || (l.cache.capabilities.isShared && l.cache.capabilities.supportsAtomicAdd)

theorem isShared_new (s : Store) :
    (new s).isShared = (s.root.isShared && (s.hasPrefix || s.root.supportsAtomicAdd)) := by
  change (false || (s.capabilities.isShared && s.capabilities.supportsAtomicAdd)) = _
  rw [Bool.false_or,s.isShared_eq_root,s.supportsAtomicAdd_eq]

/-- The lock manager says of a store what its base is able to, unless a prefix hides a
shared base whose `add` is not atomic. -/
theorem isShared_eq_root_iff (s : Store) :
    (new s).isShared = (s.root.isShared && s.root.supportsAtomicAdd) ↔
      s.hasPrefix = false ∨ s.root.isShared = false ∨ s.root.supportsAtomicAdd = true := by
  rw [isShared_new]
  cases s.hasPrefix <;> cases s.root.isShared <;> cases s.root.supportsAtomicAdd <;> decide

/-- Workers KV under a prefix, as `Stores` builds it, is reported able to hold a lock. -/
theorem isShared_prefixed_kv :
    (new (.wrap (.prefixed "app" (.base CacheDriver.kv.capabilities)))).isShared = true ∧
      CacheDriver.kv.capabilities.isShared = true ∧ CacheDriver.kv.capabilities.supportsAtomicAdd = false ∧
      (new (.wrap (.prefixed "app" (.base CacheDriver.kv.capabilities)))).isShared ≠
        ((Store.wrap (.prefixed "app" (.base CacheDriver.kv.capabilities))).root.isShared &&
          (Store.wrap (.prefixed "app" (.base CacheDriver.kv.capabilities))).root.supportsAtomicAdd) := by
  decide

end Locks

/-! ## Declared stores -/

/-- A declaration of a store: its driver and the namespace of its keys. -/
structure StoreConfig where
  driver : CacheDriver
  keyPrefix : Option String
  deriving DecidableEq, Repr

/-- `StoreConfig::build`, and the tracing the manager puts around what was built. -/
def StoreConfig.build (c : StoreConfig) : Store :=
  Store.wrap (match c.keyPrefix with
    | some keyPrefix => .prefixed keyPrefix (.base c.driver.capabilities)
    | none => .base c.driver.capabilities)

theorem CacheDriver.canHoldALock_eq (d : CacheDriver) :
    d.canHoldALock = (d.capabilities.isShared && d.capabilities.supportsAtomicAdd) := by
  cases d <;> rfl

/-- What the driver's name promises before anything is built is what the built store
answers, but for Workers KV with a prefix. -/
theorem StoreConfig.isShared_build_iff (c : StoreConfig) :
    (Locks.new c.build).isShared = c.driver.canHoldALock ↔ ¬(c.driver = .kv ∧ c.keyPrefix.isSome) := by
  obtain ⟨d,p⟩ := c
  rw [Locks.isShared_new,CacheDriver.canHoldALock_eq,StoreConfig.build,Store.root_wrap,Store.hasPrefix_wrap]
  cases p with
  | none => cases d <;> decide
  | some p => cases d <;> simp [Store.root,Store.hasPrefix,CacheDriver.capabilities]

end Rainier.Cache
