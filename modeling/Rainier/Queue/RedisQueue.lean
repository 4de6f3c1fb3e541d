import Rainier.Drivers.RedisStreams
import Rainier.Queue.MemoryQueue

/-! # The Redis queue, command by command

One queue's keys and the workers that call on it. Each worker stands before the
command it will send next; a command is atomic, the clock readings of a call are
taken where the source takes them, and a worker may die before any command, and
be started again. A body is the job as it was encoded: decoding gives it back,
unless the payload nests deeper than the parser goes inside the envelope. The
ghosts are the jobs pushed, the ids an acknowledge was started for, and the ids
`reserve` has returned.
-/
namespace Rainier.Queue
open Drivers

structure RedisQueue where
  reservation : ℕ
  deriving Repr

namespace RedisQueue

def new : RedisQueue := ⟨Duration.fromSecs 90⟩

/-- The delivery handle is not part of the body. -/
def encode (job : QueuedJob) : QueuedJob := { job with deliveryHandle := none }

/-- The body of this job can be read back. -/
def readable (job : QueuedJob) : Bool := job.payload.depth + 1 ≤ Json.recursionLimit

def decode (body : QueuedJob) : Option QueuedJob := if readable body then some body else none

inductive Phase where
  | idle
  | creating
  | promoting (now : ℕ)
  | claiming
  | reading
  | holding (job : QueuedJob) (entry : ℕ)
  | storing (retry : QueuedJob) (delay entry : ℕ)
  | recording (failed : FailedJob) (entry : ℕ)
  | acking (entry : ℕ)
  | deleting (entry : ℕ)
  deriving DecidableEq, Repr

structure World where
  clock : ℕ
  redis : Streams QueuedJob FailedJob
  workers : ℕ → Phase
  pushed : List QueuedJob
  acknowledging : List String
  returned : List String

/-- Calls are started by a label of their own and go on by `execute`; a promotion
carries the order in which members of one score come. -/
inductive Label where
  | tick (elapsed : ℕ)
  | push (job : QueuedJob) (now : ℕ)
  | reserve (w : ℕ)
  | acknowledge (w : ℕ)
  | release (w delay : ℕ)
  | fail (w : ℕ) (error : String)
  | execute (w : ℕ) (order : List (ℕ × QueuedJob))
  | die (w : ℕ)

def World.init : World := ⟨0,.empty,fun _ => .idle,[],[],[]⟩

variable (q : RedisQueue)

def World.goto (s : World) (w : ℕ) (phase : Phase) : World :=
  { s with workers := Function.update s.workers w phase }

/-- A delayed job waits in the sorted set; any other goes on the stream. -/
def pushed (s : World) (job : QueuedJob) (now : ℕ) : Streams QueuedJob FailedJob :=
  if now < job.availableAt then s.redis.zadd (Time.timestampMillis job.availableAt) (encode job)
  else s.redis.xadd (encode job)

/-- The end of `reserve`: an entry that cannot be read is discarded. -/
def World.receive (s : World) (w : ℕ) (e : StreamEntry QueuedJob) : World :=
  match decode e.body with
  | some job =>
    { s.goto w (.holding { job with deliveryHandle := some e.id, attempts := job.attempts + 1 } e.id) with
      returned := s.returned ++ [job.id] }
  | none => s.goto w (.acking e.id)

/-- The clock as the server counts it. -/
def World.millis (s : World) : ℕ := Time.timestampMillis s.clock

/-- As many milliseconds as a `u64` holds. -/
def minIdle : ℕ := Duration.asMillis q.reservation % 2 ^ 64

/-- The retry is a new entry, or waits in the sorted set; `retry` is its body. -/
def store (redis : Streams QueuedJob FailedJob) (retry : QueuedJob) (delay : ℕ) : Streams QueuedJob FailedJob :=
  if delay = 0 then redis.xadd retry else redis.zadd (Time.timestampMillis retry.availableAt) retry

def execute (s : World) (w : ℕ) (order : List (ℕ × QueuedJob)) : World :=
  match s.workers w with
  | .creating => { s.goto w (.promoting s.clock) with redis := s.redis.xgroupCreate }
  | .promoting now => match s.redis.promoteDue (Time.timestampMillis now) order with
    | some redis => { s.goto w .claiming with redis := redis }
    | none => s
  | .claiming => match s.redis.xautoclaimOne s.millis q.minIdle with
    | (some e,redis) => World.receive { s with redis := redis } w e
    | (none,redis) => { s.goto w .reading with redis := redis }
  | .reading => match s.redis.xreadgroupOne s.millis with
    | (some e,redis) => World.receive { s with redis := redis } w e
    | (none,redis) => { s.goto w .idle with redis := redis }
  | .storing retry delay entry => { s.goto w (.acking entry) with redis := store s.redis retry delay }
  | .recording failed entry => { s.goto w (.acking entry) with redis := s.redis.lpush failed }
  | .acking entry => { s.goto w (.deleting entry) with redis := s.redis.xack entry }
  | .deleting entry => { s.goto w .idle with redis := s.redis.xdel entry }
  | _ => s

def step (s : World) : Label → World
  | .tick elapsed => { s with clock := s.clock + elapsed }
  | .push job now =>
    if job.attempts = 0 ∧ job.id ∉ s.pushed.map QueuedJob.id ∧ now ≤ s.clock then
      { s with redis := pushed s job now, pushed := s.pushed ++ [job] }
    else s
  | .reserve w => match s.workers w with
    | .idle => s.goto w .creating
    | _ => s
  | .acknowledge w => match s.workers w with
    | .holding job entry => { s.goto w (.acking entry) with acknowledging := s.acknowledging ++ [job.id] }
    | _ => s
  | .release w delay => match s.workers w with
    | .holding job entry => s.goto w (.storing (encode (job.delayedBy s.clock delay)) delay entry)
    | _ => s
  | .fail w error => match s.workers w with
    | .holding job entry => s.goto w (.recording ⟨encode job,error,s.clock⟩ entry)
    | _ => s
  | .execute w order => q.execute s w order
  | .die w => s.goto w .idle

end RedisQueue
end Rainier.Queue
