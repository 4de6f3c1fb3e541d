import Rainier.Support.Error
import Rainier.Support.Json
import Rainier.Support.Text
import Rainier.Support.Time
import Mathlib.Data.List.Dedup

/-! # Queued jobs and the registry that runs them

A handler is application code, so one attempt at a job is described by how long
the handler takes and how it ends, and the same for the job's `failed` hook. The
registry's runner is translated as it stands: it decodes, handles, and calls the
hook on an error of what the job itself takes to be its last attempt.
-/
namespace Rainier.Queue

/-- The delivery handle is the driver's own number for the delivery. -/
structure QueuedJob where
  id : String
  name : String
  payload : Json
  queue : String
  attempts : ℕ
  maxAttempts : ℕ
  availableAt : ℕ
  createdAt : ℕ
  uniqueKey : Option String
  deliveryHandle : Option ℕ
  traceparent : Option String
  deriving DecidableEq, Repr

namespace QueuedJob

/-- A job as every constructor of the source builds it: not yet attempted, not delivered. -/
def fresh (id name : String) (payload : Json) (queue : String) (maxAttempts now : ℕ) : QueuedJob where
  id := id
  name := name
  payload := payload
  queue := queue
  attempts := 0
  maxAttempts := maxAttempts
  availableAt := now
  createdAt := now
  uniqueKey := none
  deliveryHandle := none
  traceparent := none

def onQueue (job : QueuedJob) (queue : String) : QueuedJob := { job with queue := queue }

/-- A delay chrono cannot hold is no delay. -/
def delayedBy (now : ℕ) (job : QueuedJob) (delay : ℕ) : QueuedJob :=
  { job with availableAt := now + (Duration.fromStd delay).getD 0 }

def isAvailable (now : ℕ) (job : QueuedJob) : Bool := job.availableAt ≤ now

end QueuedJob

/-- The copies in `jobs` of the job with this id. -/
def copiesOf (id : String) (jobs : List QueuedJob) : List QueuedJob := jobs.filter (fun job => job.id == id)

@[simp] theorem copiesOf_nil (id : String) : copiesOf id [] = [] := rfl

@[simp] theorem copiesOf_append (id : String) (as bs : List QueuedJob) :
    copiesOf id (as ++ bs) = copiesOf id as ++ copiesOf id bs := List.filter_append ..

theorem copiesOf_cons (id : String) (job : QueuedJob) (jobs : List QueuedJob) :
    copiesOf id (job :: jobs) = if job.id = id then job :: copiesOf id jobs else copiesOf id jobs := by
  simp [copiesOf,List.filter_cons]

theorem mem_copiesOf {id : String} {job : QueuedJob} {jobs : List QueuedJob} :
    job ∈ copiesOf id jobs ↔ job ∈ jobs ∧ job.id = id := by
  simp [copiesOf]

theorem copiesOf_eq_singleton {job : QueuedJob} {jobs : List QueuedJob} (hids : (jobs.map QueuedJob.id).Nodup)
    (hj : job ∈ jobs) : copiesOf job.id jobs = [job] := by
  induction jobs with
  | nil => cases hj
  | cons first rest ih =>
    rw [List.map_cons,List.nodup_cons] at hids
    rw [copiesOf_cons]
    rcases List.mem_cons.mp hj with rfl | hj
    · have hnone : copiesOf job.id rest = [] := List.filter_eq_nil_iff.mpr
        (fun other ho he => hids.1 (List.mem_map.mpr ⟨other,ho,by simpa using he⟩))
      rw [if_pos rfl,hnone]
    · have hne : first.id ≠ job.id := fun he => hids.1 (List.mem_map.mpr ⟨job,hj,he.symm⟩)
      rw [if_neg hne,ih hids.2 hj]

structure JobContext where
  attempt : ℕ
  maxAttempts : ℕ
  id : String
  queue : String
  deriving DecidableEq, Repr

def JobContext.isLastAttempt (c : JobContext) : Bool := c.maxAttempts ≤ c.attempt

/-- How a piece of application code ends; a panic carries its text when it has one. -/
inductive Ending where
  | ok
  | err (e : Error)
  | panic (message : Option String)
  deriving DecidableEq, Repr

/-- What the application does during one attempt: the handler and, if it is called, the hook. -/
structure Attempt where
  handle : Ending
  handleTook : ℕ
  hookPanics : Option (Option String)
  hookTook : ℕ
  deriving DecidableEq, Repr

/-- What `register::<J>` records under `J::NAME`. -/
structure JobType where
  decode : Json → Except String Unit
  timeout : Option ℕ

abbrev JobRegistry := List (String × JobType)

/-- An undisturbed pass through a runner: its result, with a panic on the
outside, how long it took, and how far in the `failed` hook was called. -/
structure Pass where
  result : Except (Option String) (Except Error Unit)
  took : ℕ
  hookAt : Option ℕ

namespace JobRegistry

def register (r : JobRegistry) (name : String) (t : JobType) : JobRegistry := (name,t) :: r

def timeoutFor (r : JobRegistry) (name : String) : Option ℕ := (r.lookup name).bind JobType.timeout

def names (r : JobRegistry) : List String :=
  ((r.map Prod.fst).dedup).mergeSort (fun a b => decide (a ≤ b))

def unregistered (r : JobRegistry) (name : String) : Error :=
  .internal ("no job is registered as `" ++ name ++ "` — register it on the JobRegistry, or the worker " ++
    "cannot run it. Known jobs: [" ++ ", ".intercalate (r.names.map String.quote) ++ "]")

def undecodable (name reason : String) : Error :=
  .internal ("could not deserialise a `" ++ name ++ "` job — its payload and its type have diverged: " ++
    reason)

/-- The tail of a runner: the hook is called, and awaited, before the error is returned. -/
def handled (c : JobContext) (a : Attempt) : Pass :=
  match a.handle with
  | .ok => ⟨.ok (.ok ()),a.handleTook,none⟩
  | .panic message => ⟨.error message,a.handleTook,none⟩
  | .err e =>
    if c.isLastAttempt then match a.hookPanics with
      | some message => ⟨.error message,a.handleTook + a.hookTook,some a.handleTook⟩
      | none => ⟨.ok (.error e),a.handleTook + a.hookTook,some a.handleTook⟩
    else ⟨.ok (.error e),a.handleTook,none⟩

def run (r : JobRegistry) (job : QueuedJob) (c : JobContext) (a : Attempt) : Pass :=
  match r.lookup job.name with
  | none => ⟨.ok (.error (unregistered r job.name)),0,none⟩
  | some t => match t.decode job.payload with
    | .error reason => ⟨.ok (.error (undecodable job.name reason)),0,none⟩
    | .ok () => handled c a

end JobRegistry
end Rainier.Queue
