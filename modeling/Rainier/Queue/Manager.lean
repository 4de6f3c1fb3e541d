import Rainier.Cache.Lock
import Rainier.Queue.Driver
import Mathlib.Logic.Function.Basic

/-! # Dispatching

A manager sends a job to one of the connections it declares, each of which is the
inline driver or one of the drivers `ι` that store jobs. A dispatch of a job with
a unique id first takes the lock of that id, which outlives the call. Handler
code that runs inline may panic, and the panic then unwinds through the call, so
a result is wrapped in one more layer than in the source.
-/
namespace Rainier.Queue
open Cache

/-- A value of a type that implements `Job`, with what its type declares. -/
structure Job where
  name : String
  payload : Except Error Json
  queue : String
  tries : ℕ
  uniqueId : Option String
  uniqueFor : ℕ

def QueuedJob.fromJob (now : ℕ) (id : String) (job : Job) : Except Error QueuedJob :=
  job.payload.map (fun payload => .fresh id job.name payload job.queue job.tries now)

/-- The driver that runs a job on the thread that dispatches it. -/
structure SyncQueue where
  registry : JobRegistry

/-- One attempt, which is also the last. -/
def SyncQueue.push (q : SyncQueue) (job : QueuedJob) (a : Attempt) : Except (Option String) (Except Error String) :=
  (q.registry.run { job with attempts := 1 } ⟨1,1,job.id,job.queue⟩ a).result.map (fun ran => ran.map (fun _ => job.id))

inductive Destination (ι : Type) where
  | sync (q : SyncQueue)
  | store (i : ι)

/-- The recorder of a manager that fakes is part of `Backends`. -/
structure QueueManager (ι : Type) where
  queue : Destination ι
  connections : List (String × Destination ι)
  faking : Bool
  locks : Option LockManager

inductive Claim where
  | held (guard : LockGuard)
  | alreadyQueued
  | notEnforced

structure PendingDispatch where
  job : QueuedJob
  connection : Option String
  unique : Option (String × ℕ)

namespace PendingDispatch
variable (p : PendingDispatch)

def onQueue (queue : String) : PendingDispatch := { p with job := p.job.onQueue queue }
def onConnection (connection : String) : PendingDispatch := { p with connection := some connection }
def delay (now delay : ℕ) : PendingDispatch := { p with job := p.job.delayedBy now delay }
def tries (tries : ℕ) : PendingDispatch := { p with job := { p.job with maxAttempts := max tries 1 } }

end PendingDispatch

/-- What a dispatch changes besides the state of the dispatching process. -/
structure Backends {ι : Type} (σ : ι → Type) where
  cache : MemoryCache
  stores : ∀ i, σ i
  recorded : List QueuedJob

namespace QueueManager
variable {ι : Type} (m : QueueManager ι)

def connectionNames : List String :=
  ((m.connections.map Prod.fst).dedup).mergeSort (fun a b => decide (a ≤ b))

def declaredConnections : String :=
  if m.connections.isEmpty then
    if m.faking then "none — this manager is faking, and a fake declares no connections until one is " ++
      "added with `QueueManager::fake().with_connection(…)`"
    else "none"
  else ", ".intercalate (m.connectionNames.map (fun name => "`" ++ name ++ "`"))

def resolve (connection : Option String) : Except Error (Destination ι) :=
  match connection with
  | none => .ok m.queue
  | some name => match m.connections.lookup name with
    | some destination => .ok destination
    | none => .error (.internal ("no queue connection named `" ++ name ++
        "` is declared; declared connections are " ++ m.declaredConnections ++
        ". Dispatching to the default instead would store the job in a backend nobody drains, which is " ++
        "accepted, never run, and reported nowhere"))

def uniqueKey (job : Job) : Option (String × ℕ) :=
  job.uniqueId.map (fun id => ("queue:unique:" ++ job.name ++ ":" ++ id,job.uniqueFor))

def pending (now : ℕ) (id : String) (job : Job) : Except Error PendingDispatch :=
  (QueuedJob.fromJob now id job).map (fun queued => ⟨queued,none,uniqueKey job⟩)

def claim (now : ℕ) (c : MemoryCache) (owner key : String) (ttl : ℕ) : Claim × MemoryCache :=
  match m.locks with
  | none => (.notEnforced,c)
  | some locks => match (locks.lock key ttl).acquire now c owner with
    | (some guard,left) => (.held guard,left)
    | (none,left) => (.alreadyQueued,left)

section Push
variable [DecidableEq ι] {σ : ι → Type} (drivers : ∀ i, QueueDriver (σ i))

def pushTo (now : ℕ) (a : Attempt) (b : Backends σ) (destination : Destination ι) (job : QueuedJob) :
    Except (Option String) (Except Error String) × Backends σ :=
  if m.faking then (.ok (.ok job.id),{ b with recorded := b.recorded ++ [job] })
  else match destination with
    | .sync q => (q.push job a,b)
    | .store i =>
      let pushed := (drivers i).push (b.stores i) now job
      (.ok pushed.1,{ b with stores := Function.update b.stores i pushed.2 })

/-- The end of a dispatch that took its lock: the guard is kept when the push went
well, and falls out of scope when it did not. -/
def settleGuard (guard : LockGuard) (result : Except (Option String) (Except Error String)) (c : MemoryCache) :
    MemoryCache :=
  match result with
  | .ok (.ok _) => guard.keep c
  | _ => guard.drop c

end Push
end QueueManager

/-- `none` is a dispatch dropped as a duplicate. -/
abbrev Sent := Except (Option String) (Except Error (Option String))

def Sent.ofPush (result : Except (Option String) (Except Error String)) : Sent := result.map (fun r => r.map some)

/-- The destination is resolved before the lock is asked for. -/
def PendingDispatch.send {ι : Type} [DecidableEq ι] {σ : ι → Type} (m : QueueManager ι)
    (drivers : ∀ i, QueueDriver (σ i)) (now : ℕ) (owner : String) (a : Attempt) (b : Backends σ)
    (p : PendingDispatch) : Sent × Backends σ :=
  match m.resolve p.connection with
  | .error e => (.ok (.error e),b)
  | .ok destination => match p.unique with
    | none =>
      let pushed := m.pushTo drivers now a b destination p.job
      (.ofPush pushed.1,pushed.2)
    | some (key,ttl) => match m.claim now b.cache owner key ttl with
      | (.alreadyQueued,left) => (.ok (.ok none),{ b with cache := left })
      | (.notEnforced,left) =>
        let pushed := m.pushTo drivers now a { b with cache := left } destination p.job
        (.ofPush pushed.1,pushed.2)
      | (.held guard,left) =>
        let pushed := m.pushTo drivers now a { b with cache := left } destination { p.job with uniqueKey := some key }
        (.ofPush pushed.1,{ pushed.2 with cache := QueueManager.settleGuard guard pushed.1 pushed.2.cache })

/-- `Worker::release_uniqueness`: a failure to release is only logged. -/
def releaseUniqueness (locks : Option LockManager) (job : QueuedJob) (c : MemoryCache) : MemoryCache :=
  match job.uniqueKey, locks with
  | some key, some locks => ((locks.lock key (Duration.fromSecs 1)).forceRelease c).2
  | _, _ => c

end Rainier.Queue
