import Rainier.Queue.Job

/-! # Worker options, and what a worker does with one job

`settlement` is the decision of `process_untraced` and `handle_failure`: which
of the driver's three settling calls ends an attempt. `runHandler` gives the
outcome it decides on, under the timeout and the panic guard, together with
whether the job's `failed` hook was called on the way.
-/
namespace Rainier.Queue

inductive Outcome where
  | idle
  | processed
  | released
  | failed
  deriving DecidableEq, Repr

/-- The maps are their entries; a queue not named has no entry. -/
structure WorkerOptions where
  queues : List String
  sleep : ℕ
  maxJobs : Option ℕ
  stopWhenEmpty : Bool
  timeout : Option ℕ
  timeoutOverride : Option (Option ℕ)
  queueTimeouts : List (String × ℕ)
  maxTime : Option ℕ
  tries : Option ℕ
  maxConsecutiveErrors : ℕ
  maxErrorBackoff : ℕ
  concurrency : ℕ
  queueLimits : List (String × ℕ)
  deriving DecidableEq, Repr

namespace WorkerOptions

def default : WorkerOptions where
  queues := ["default"]
  sleep := Duration.fromSecs 1
  maxJobs := none
  stopWhenEmpty := false
  timeout := some (Duration.fromSecs 60)
  timeoutOverride := none
  queueTimeouts := []
  maxTime := none
  tries := none
  maxConsecutiveErrors := 20
  maxErrorBackoff := Duration.fromSecs 30
  concurrency := 1
  queueLimits := []

def attemptsFor (o : WorkerOptions) (jobMaxAttempts : ℕ) : ℕ :=
  max (max jobMaxAttempts (o.tries.getD 0)) 1

theorem le_attemptsFor (o : WorkerOptions) (m : ℕ) : m ≤ o.attemptsFor m := by
  unfold attemptsFor
  omega

theorem attemptsFor_pos (o : WorkerOptions) (m : ℕ) : 0 < o.attemptsFor m := by
  unfold attemptsFor
  omega

/-- The four answers to how long a job may run, most specific first. -/
def timeoutFor (o : WorkerOptions) (r : JobRegistry) (job : QueuedJob) : Option ℕ :=
  match o.timeoutOverride with
  | some explicit => explicit
  | none => ((r.timeoutFor job.name).or (o.queueTimeouts.lookup job.queue)).or o.timeout

end WorkerOptions

/-- The retry delay after `attempts` failures. -/
def backoffFor (attempts : ℕ) : ℕ := Duration.fromSecs (2 ^ max 1 (min attempts 6))

/-- A driver call that ends an attempt. -/
inductive Settlement where
  | acknowledge
  | release (delay : ℕ)
  | fail (message : String)
  deriving DecidableEq, Repr

def Settlement.outcome : Settlement → Outcome
  | .acknowledge => .processed
  | .release _ => .released
  | .fail _ => .failed

def panicMessage : Option String → String
  | some text => text
  | none => "a panic with a payload this worker cannot render"

/-- `run_handler` on the in-process path: a panic and a timeout both become an
error, and a timeout drops the runner wherever it is. -/
def runHandler (timeout : Option ℕ) (p : Pass) : Except Error Unit :=
  match timeout with
  | some t => if t < p.took then .error (.internal ("the job exceeded its " ++ Duration.debug t ++ " timeout"))
    else finish p.result
  | none => finish p.result
where
  finish : Except (Option String) (Except Error Unit) → Except Error Unit
    | .ok result => result
    | .error message => .error (.internal ("the job panicked: " ++ panicMessage message))

/-- Whether the `failed` hook was called before the timeout dropped the runner. -/
def hookCalled (timeout : Option ℕ) (p : Pass) : Bool :=
  match p.hookAt, timeout with
  | none, _ => false
  | some _, none => true
  | some at', some t => at' ≤ t

/-- `handle_failure`: give up once the attempts the worker allows are used. -/
def handleFailure (o : WorkerOptions) (job : QueuedJob) (e : Error) : Settlement :=
  if o.attemptsFor job.maxAttempts ≤ job.attempts then .fail e.display
  else .release (backoffFor job.attempts)

def settlement (o : WorkerOptions) (job : QueuedJob) : Except Error Unit → Settlement
  | .ok () => .acknowledge
  | .error e => handleFailure o job e

/-- The attempt `process_untraced` makes at `job`. -/
def attemptPass (r : JobRegistry) (job : QueuedJob) (a : Attempt) : Pass :=
  r.run job ⟨job.attempts,job.maxAttempts,job.id,job.queue⟩ a

theorem settlement_release {o : WorkerOptions} {job : QueuedJob} {r : Except Error Unit} {delay : ℕ}
    (h : settlement o job r = .release delay) :
    job.attempts < o.attemptsFor job.maxAttempts ∧ delay = backoffFor job.attempts := by
  cases r with
  | ok u => cases h
  | error e =>
    simp only [settlement,handleFailure] at h
    split at h
    · cases h
    next hlt =>
      cases h
      exact ⟨by omega,rfl⟩

end Rainier.Queue
