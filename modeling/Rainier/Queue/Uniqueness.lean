import Rainier.Queue.Manager
import Rainier.Queue.StoringQueue
import Rainier.Support.Trace

/-! # Uniqueness locks across dispatchers and workers

Dispatchers send jobs through one manager, workers reserve and finish them, and
both sides reach the same locks. A call of either side is one step; a worker may
also be lost with the jobs it holds. The first section follows unique keys
through the contents of several stores, whatever the stores are.
-/
namespace Rainier.Queue

/-! ## Keys in several stores -/

section Keys
variable {ι : Type} {stores : ι → Contents} {ids : List String} {i : ι} {job : QueuedJob}

/-- A job carrying the key is somewhere. -/
def Carried (stores : ι → Contents) (key : String) : Prop := ∃ i id, stores i id (some key)

/-- Every stored job is known by its id, which has one key, and no two carry the same key. -/
structure Orderly (stores : ι → Contents) (ids : List String) : Prop where
  known : ∀ {i id key}, stores i id key → id ∈ ids
  keyed : ∀ {i id key key'}, stores i id key → stores i id key' → key = key'
  single : ∀ {i j id id' key}, stores i id (some key) → stores j id' (some key) → i = j ∧ id = id'

theorem Orderly.mono (h : Orderly stores ids) {ids' : List String} (hsub : ids ⊆ ids') : Orderly stores ids' where
  known hs := hsub (h.known hs)
  keyed := h.keyed
  single := h.single

variable [DecidableEq ι]

theorem update_added_iff {j : ι} {id : String} {key : Option String} :
    Function.update stores i ((stores i).added job) j id key ↔
      stores j id key ∨ (j = i ∧ id = job.id ∧ key = job.uniqueKey) := by
  by_cases hj : j = i
  · subst hj
    simp [Contents.added]
  · simp [hj]

theorem update_removed_iff {j : ι} {id : String} {key : Option String} :
    Function.update stores i ((stores i).removed job) j id key ↔ stores j id key ∧ ¬ (j = i ∧ id = job.id) := by
  by_cases hj : j = i
  · subst hj
    simp [Contents.removed]
  · simp [hj]

theorem carried_added {key : String} :
    Carried (Function.update stores i ((stores i).added job)) key ↔ Carried stores key ∨ job.uniqueKey = some key := by
  constructor
  · rintro ⟨j,id,h⟩
    rcases update_added_iff.mp h with h | ⟨_,_,h⟩
    · exact .inl ⟨j,id,h⟩
    · exact .inr h.symm
  · rintro (⟨j,id,h⟩ | h)
    · exact ⟨j,id,update_added_iff.mpr (.inl h)⟩
    · exact ⟨i,job.id,update_added_iff.mpr (.inr ⟨rfl,rfl,h.symm⟩)⟩

theorem Orderly.carried_removed (h : Orderly stores ids) (hj : stores i job.id job.uniqueKey) {key : String} :
    Carried (Function.update stores i ((stores i).removed job)) key ↔
      Carried stores key ∧ job.uniqueKey ≠ some key := by
  constructor
  · rintro ⟨j,id,hc⟩
    obtain ⟨hc,hne⟩ := update_removed_iff.mp hc
    refine ⟨⟨j,id,hc⟩,?_⟩
    intro hk
    rw [hk] at hj
    exact hne (h.single hc hj)
  · rintro ⟨⟨j,id,hc⟩,hk⟩
    refine ⟨j,id,update_removed_iff.mpr ⟨hc,?_⟩⟩
    rintro ⟨rfl,rfl⟩
    exact hk (h.keyed hj hc)

theorem Orderly.added (h : Orderly stores ids) (hid : job.id ∉ ids)
    (hkey : ∀ key, job.uniqueKey = some key → ¬ Carried stores key) :
    Orderly (Function.update stores i ((stores i).added job)) (ids ++ [job.id]) where
  known hs := by
    rcases update_added_iff.mp hs with hs | ⟨_,rfl,_⟩
    · exact List.mem_append_left _ (h.known hs)
    · simp
  keyed hs hs' := by
    rcases update_added_iff.mp hs with hold | ⟨rfl,rfl,rfl⟩
    · rcases update_added_iff.mp hs' with hold' | ⟨rfl,rfl,rfl⟩
      · exact h.keyed hold hold'
      · exact absurd (h.known hold) hid
    · rcases update_added_iff.mp hs' with hold' | ⟨_,_,rfl⟩
      · exact absurd (h.known hold') hid
      · rfl
  single hs hs' := by
    rcases update_added_iff.mp hs with hold | ⟨rfl,rfl,hk⟩
    · rcases update_added_iff.mp hs' with hold' | ⟨rfl,rfl,hk'⟩
      · exact h.single hold hold'
      · exact absurd ⟨_,_,hold⟩ (hkey _ hk'.symm)
    · rcases update_added_iff.mp hs' with hold' | ⟨rfl,rfl,_⟩
      · exact absurd ⟨_,_,hold'⟩ (hkey _ hk.symm)
      · exact ⟨rfl,rfl⟩

theorem Orderly.removed (h : Orderly stores ids) :
    Orderly (Function.update stores i ((stores i).removed job)) ids where
  known hs := h.known (update_removed_iff.mp hs).1
  keyed hs hs' := h.keyed (update_removed_iff.mp hs).1 (update_removed_iff.mp hs').1
  single hs hs' := h.single (update_removed_iff.mp hs).1 (update_removed_iff.mp hs').1

end Keys

/-! ## The system -/

namespace Uniqueness
open Cache

inductive Setting where
  | onQueue (queue : String)
  | onConnection (connection : String)
  | delay (delay : ℕ)
  | tries (tries : ℕ)
  deriving DecidableEq, Repr

/-- A dispatch: the job, the id and the owner token minted for it, the builder
calls made before `send`, and what its handler does if it runs inline. -/
structure Dispatch where
  job : Job
  id : String
  owner : String
  settings : List Setting
  attempt : Attempt

def configure (now : ℕ) (p : PendingDispatch) : Setting → PendingDispatch
  | .onQueue queue => p.onQueue queue
  | .onConnection connection => p.onConnection connection
  | .delay delay => p.delay now delay
  | .tries tries => p.tries tries

def Dispatch.pending (now : ℕ) (d : Dispatch) : Except Error PendingDispatch :=
  (QueueManager.pending now d.id d.job).map (fun p => d.settings.foldl (configure now) p)

/-- Dispatchers and workers wired to the same locks. -/
structure System (ι : Type) (σ : ι → Type) where
  manager : QueueManager ι
  locks : LockManager
  wired : manager.locks = some locks
  drivers : ∀ i, StoringQueue (σ i)
  options : WorkerOptions
  registry : JobRegistry

structure World {ι : Type} (σ : ι → Type) extends Backends σ where
  clock : ℕ
  held : ι → List QueuedJob
  dispatched : List String

inductive Label (ι : Type) where
  | tick (elapsed : ℕ)
  | send (d : Dispatch)
  | reserve (i : ι) (queue : String)
  | process (i : ι) (k : ℕ) (a : Attempt)
  | lose (i : ι) (k : ℕ)

namespace System
variable {ι : Type} [DecidableEq ι] {σ : ι → Type} (w : System ι σ)

def init : World σ where
  cache := .empty
  stores i := (w.drivers i).new
  recorded := []
  clock := 0
  held _ := []
  dispatched := []

/-- How a worker settles the attempt `a` at a job. -/
def settlementOf (job : QueuedJob) (a : Attempt) : Settlement :=
  settlement w.options job (runHandler (w.options.timeoutFor w.registry job) (attemptPass w.registry job a))

def settle (s : World σ) (i : ι) (job : QueuedJob) (a : Attempt) : Except Error Unit × σ i :=
  (w.drivers i).toQueueDriver.settle (s.stores i) s.clock job (w.settlementOf job a)

def sent (s : World σ) (d : Dispatch) (p : PendingDispatch) : Sent × Backends σ :=
  p.send w.manager (fun i => (w.drivers i).toQueueDriver) s.clock d.owner d.attempt s.toBackends

/-- The lock is released after a settling call that ended the job and went well. -/
def finished (s : World σ) (i : ι) (job : QueuedJob) (a : Attempt) : MemoryCache :=
  match (w.settle s i job a).1 with
  | .error _ => s.cache
  | .ok () => if (w.settlementOf job a).finishes then releaseUniqueness (some w.locks) job s.cache else s.cache

/-- The ids minted for dispatches are distinct. -/
def step (s : World σ) : Label ι → World σ
  | .tick elapsed => { s with clock := s.clock + elapsed }
  | .send d =>
    if d.id ∈ s.dispatched then s
    else match d.pending s.clock with
      | .error _ => s
      | .ok p => { s with toBackends := (w.sent s d p).2, dispatched := s.dispatched ++ [d.id] }
  | .reserve i queue =>
    let reserved := (w.drivers i).reserve (s.stores i) s.clock queue
    { s with
      stores := Function.update s.stores i reserved.2
      held := Function.update s.held i (s.held i ++ handedOut reserved.1) }
  | .process i k a => match (s.held i)[k]? with
    | none => s
    | some job =>
      { s with
        stores := Function.update s.stores i (w.settle s i job a).2
        held := Function.update s.held i ((s.held i).eraseIdx k)
        cache := w.finished s i job a }
  | .lose i k => { s with held := Function.update s.held i ((s.held i).eraseIdx k) }

/-- What each store holds. -/
def contents (stores : ∀ i, σ i) : ι → Contents := fun i => (w.drivers i).Stored (stores i)

def Locked (s : World σ) (key : String) : Prop := (w.locks.lock key 0).isHeld s.clock s.cache = true

/-- The lock of a key is held exactly while a job carrying it is pending, reserved
or awaiting retry. -/
def Tracks (s : World σ) : Prop := ∀ key, w.Locked s key ↔ Carried (w.contents s.stores) key

/-- The dispatch takes a free lock on its way to this destination, with this job. -/
structure Takes (s : World σ) (d : Dispatch) (destination : Destination ι) (job : QueuedJob) (key : String) :
    Prop where
  fresh : d.id ∉ s.dispatched
  free : ¬ w.Locked s key
  routed : ∃ p ttl, d.pending s.clock = .ok p ∧ w.manager.resolve p.connection = .ok destination ∧
    p.unique = some (key,ttl) ∧ job = { p.job with uniqueKey := some key }

/-- What makes a step keep locks and jobs together. A dispatch that takes its lock
reaches a driver that has the job afterwards. A worker whose finishing call went
well held a current delivery, or a key nobody carries any more, and one whose call
was answered with an error has not removed the job. -/
def Fits (s : World σ) : Label ι → Prop
  | .send d => ∀ destination job key, w.Takes s d destination job key → w.manager.faking = false ∧
      ∃ i, destination = .store i ∧ (w.drivers i).Stored ((w.drivers i).push (s.stores i) s.clock job).2 job.id (some key)
  | .process i k a => ∀ job key, (s.held i)[k]? = some job → job.uniqueKey = some key →
      (w.settlementOf job a).finishes = true → match (w.settle s i job a).1 with
        | .ok () => (w.drivers i).Current (s.stores i) job ∨ ¬ Carried (w.contents s.stores) key
        | .error _ => (w.drivers i).Current (s.stores i) job →
          (w.drivers i).Stored (w.settle s i job a).2 job.id (some key)
  | _ => True

/-- The stores agree with the deliveries that are out, and everything out was dispatched. -/
structure Sound (s : World σ) : Prop where
  orderly : Orderly (w.contents s.stores) s.dispatched
  consistent : ∀ i, (w.drivers i).Consistent (s.stores i) (s.held i)
  held : ∀ i, ∀ job ∈ s.held i, job.id ∈ s.dispatched

variable {w} {s s' : World σ}

theorem contents_update {stores : ∀ i, σ i} {i : ι} {st : σ i} :
    w.contents (Function.update stores i st) = Function.update (w.contents stores) i ((w.drivers i).Stored st) := by
  funext j
  by_cases hj : j = i
  · subst hj
    simp [contents]
  · simp [contents,hj]

theorem consistent_update {stores : ∀ i, σ i} {held : ι → List QueuedJob} {i : ι} {st : σ i} {out : List QueuedJob}
    (h : ∀ j, (w.drivers j).Consistent (stores j) (held j)) (hi : (w.drivers i).Consistent st out) (j : ι) :
    (w.drivers j).Consistent (Function.update stores i st j) (Function.update held i out j) := by
  by_cases hj : j = i
  · subst hj
    simpa using hi
  · simpa [hj] using h j

theorem held_update {held : ι → List QueuedJob} {ids : List String} {i : ι} {out : List QueuedJob}
    (h : ∀ j, ∀ job ∈ held j, job.id ∈ ids) (hi : ∀ job ∈ out, job.id ∈ ids) (j : ι) :
    ∀ job ∈ Function.update held i out j, job.id ∈ ids := by
  by_cases hj : j = i
  · subst hj
    simpa using hi
  · simpa [hj] using h j

omit [DecidableEq ι] in
theorem locked_iff (hu : Unexpired s.clock s.cache) {key : String} :
    w.Locked s key ↔ s.cache (w.locks.lock key 0).key ≠ none := hu.isHeld_iff _

omit [DecidableEq ι] in
/-- Nothing changes that locks or keys depend on. -/
theorem Tracks.congr (h : w.Tracks s) (hu : Unexpired s.clock s.cache) (hu' : Unexpired s'.clock s'.cache)
    (hcache : s'.cache = s.cache)
    (hcarried : ∀ key, Carried (w.contents s'.stores) key ↔ Carried (w.contents s.stores) key) : w.Tracks s' := by
  intro key
  rw [locked_iff hu',hcache,← locked_iff hu,h key,hcarried key]

end System
end Uniqueness
end Rainier.Queue
