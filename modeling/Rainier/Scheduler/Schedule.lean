import Rainier.Cache.Lock
import Rainier.Scheduler.Cron
import Rainier.Support.Trace

/-! # Schedules on many machines

Every machine goes through the tasks that are due, one after the other. A task that belongs to one
server is claimed for the minute of the pass by a lock that is never released, and one that must
not overlap holds a lock while it runs. Between any two rounds to the lock store time passes and
the other machines go on.
-/
namespace Rainier.Scheduler
open Cache

/-! ## The calendar -/

/-- The year, month and day of a number of days since the epoch. -/
def civil (days : ℤ) : ℤ × ℤ × ℤ :=
  let shifted := days + 719468
  let day := shifted % 146097
  let year := (day - day / 1460 + day / 36524 - day / 146096) / 365
  let dayOfYear := day - (365 * year + year / 4 - year / 100)
  -- months are counted from March here
  let shiftedMonth := (5 * dayOfYear + 2) / 153
  let month := if shiftedMonth < 10 then shiftedMonth + 3 else shiftedMonth - 9
  (shifted / 146097 * 400 + year + (if month ≤ 2 then 1 else 0),month,dayOfYear - (153 * shiftedMonth + 2) / 5 + 1)

def DateTime.ofSeconds (seconds : ℤ) : DateTime :=
  let (_,month,day) := civil (seconds / 86400)
  { minute := (seconds / 60 % 60).toNat
    hour := (seconds / 3600 % 24).toNat
    day := day.toNat
    month := month.toNat
    weekday := ((seconds / 86400 + 4) % 7).toNat }

-- 29 February 2024 was a Thursday
example : DateTime.ofSeconds 1709211599 = ⟨59,12,29,2,4⟩ := by decide

/-- The minute of an instant. -/
def minuteOf (at' : ℕ) : ℕ := at' / Duration.fromSecs 60

def padded (width : ℕ) (n : ℤ) : String :=
  let digits := Nat.toDigits 10 n.toNat
  String.ofList (List.replicate (width - digits.length) '0' ++ digits)

/-- `%Y%m%d%H%M`. -/
def minuteText (minute : ℕ) : String :=
  let (year,month,day) := civil (minute / 1440)
  (if year ≤ 9999 then padded 4 year else "+" ++ toString year) ++ padded 2 month ++ padded 2 day ++
    padded 2 (minute / 60 % 24) ++ padded 2 (minute % 60)

example : minuteText 28486859 = "202402291259" := by decide

/-! ## Tasks -/

structure ScheduledTask where
  name : String
  expression : CronExpression
  /-- The offset it is interpreted in, in seconds. -/
  timezone : Option ℤ
  /-- Whether it has a condition. -/
  conditional : Bool
  overlap : Option ℕ
  oneServer : Bool

namespace ScheduledTask

def isDue (t : ScheduledTask) (at' : ℕ) : Bool :=
  t.expression.matches (.ofSeconds (at' / 1000000000 + t.timezone.getD 0))

/-- The claim on one minute of a task. -/
def claimLock (t : ScheduledTask) (locks : LockManager) (minute : ℕ) : Lock :=
  locks.lock ("schedule:one-server:" ++ t.name ++ ":" ++ minuteText minute) (Duration.fromSecs 60)

def overlapLock (t : ScheduledTask) (locks : LockManager) (ttl : ℕ) : Lock :=
  locks.lock ("schedule:overlap:" ++ t.name) ttl

end ScheduledTask

def due (tasks : List ScheduledTask) (at' : ℕ) : List ScheduledTask := tasks.filter (·.isDue at')

/-! ## Machines -/

/-- What a round to the store comes to: it fails before or after the store has done its part. -/
inductive Answer where
  | ok | failed | lost
  deriving DecidableEq, Repr

/-- Where a machine is in `run_due`. -/
inductive Phase where
  | idle
  | pass (at' : ℕ) (tasks : List ScheduledTask)
  | claimed (at' : ℕ) (task : ScheduledTask) (rest : List ScheduledTask)
  | running (at' : ℕ) (guard : Option LockGuard) (rest : List ScheduledTask)

structure Cluster where
  cache : MemoryCache
  clock : ℕ
  machines : ℕ → Phase
  /-- The task and the minute of every execution. -/
  executions : List (String × ℕ)
  /-- The key and the time of every claim that was answered. -/
  claims : List (String × ℕ)

inductive Event where
  | tick (d : ℕ)
  /-- A machine calls `run_due`. -/
  | start (machine : ℕ) (at' : ℕ)
  /-- It goes on: with what the task's condition says, the token of a lock, and the store's answer. -/
  | advance (machine : ℕ) (condition : Bool) (owner : String) (answer : Answer)
  | crash (machine : ℕ)

namespace Cluster

def goTo (s : Cluster) (machine : ℕ) (phase : Phase) : Cluster :=
  { s with machines := Function.update s.machines machine phase }

/-- The condition and the one-server claim. -/
def claim (locks : LockManager) (s : Cluster) (machine at' : ℕ) (task : ScheduledTask) (rest : List ScheduledTask)
    (condition : Bool) (owner : String) (answer : Answer) : Cluster :=
  if task.conditional && !condition then s.goTo machine (.pass at' rest)
  else if task.oneServer then
    let lock := task.claimLock locks (minuteOf at')
    let (guard,cache) := lock.acquire s.clock s.cache owner
    match answer,guard with
    | .failed,_ => s.goTo machine (.pass at' rest)
    | .lost,_ => { s with cache }.goTo machine (.pass at' rest)
    | .ok,none => { s with cache }.goTo machine (.pass at' rest)
    -- the guard is kept, so the claim outlives the run
    | .ok,some guard =>
      { s with cache := guard.keep cache, claims := s.claims ++ [(lock.key,s.clock)] }.goTo machine (.claimed at' task rest)
  else s.goTo machine (.claimed at' task rest)

def execute (s : Cluster) (machine at' : ℕ) (task : ScheduledTask) (guard : Option LockGuard) (rest : List ScheduledTask) :
    Cluster :=
  { s with executions := s.executions ++ [(task.name,minuteOf at')] }.goTo machine (.running at' guard rest)

/-- The overlap lock, and the work. -/
def work (locks : LockManager) (s : Cluster) (machine at' : ℕ) (task : ScheduledTask) (rest : List ScheduledTask)
    (owner : String) (answer : Answer) : Cluster :=
  match task.overlap with
  | none => s.execute machine at' task none rest
  | some ttl =>
    let (guard,cache) := (task.overlapLock locks ttl).acquire s.clock s.cache owner
    match answer,guard with
    | .failed,_ => s.goTo machine (.pass at' rest)
    | .lost,_ => { s with cache }.goTo machine (.pass at' rest)
    | .ok,none => { s with cache }.goTo machine (.pass at' rest)
    | .ok,some guard => { s with cache }.execute machine at' task (some guard) rest

/-- The lock of a run is given back whatever came of it. -/
def finish (s : Cluster) (machine at' : ℕ) (guard : Option LockGuard) (rest : List ScheduledTask) (answer : Answer) :
    Cluster :=
  match guard,answer with
  | none,_ | some _,.failed => s.goTo machine (.pass at' rest)
  | some g,_ => { s with cache := (g.release s.clock s.cache).2 }.goTo machine (.pass at' rest)

def step (tasks : List ScheduledTask) (locks : LockManager) (s : Cluster) : Event → Cluster
  | .tick d => { s with clock := s.clock + d }
  | .crash machine => s.goTo machine .idle
  | .start machine at' =>
    match s.machines machine with
    | .idle => s.goTo machine (.pass at' (due tasks at'))
    | .pass _ _ | .claimed _ _ _ | .running _ _ _ => s
  | .advance machine condition owner answer =>
    match s.machines machine with
    | .idle => s
    | .pass _ [] => s.goTo machine .idle
    | .pass at' (task :: rest) => s.claim locks machine at' task rest condition owner answer
    | .claimed at' task rest => s.work locks machine at' task rest owner answer
    | .running at' guard rest => s.finish machine at' guard rest answer

/-- No machine is in a pass and nothing was executed. The store may hold anything. -/
def init (cache : MemoryCache) (clock : ℕ) : Cluster := ⟨cache,clock,fun _ => .idle,[],[]⟩

end Cluster

end Rainier.Scheduler
