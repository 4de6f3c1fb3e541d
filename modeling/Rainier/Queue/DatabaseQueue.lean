import Rainier.Queue.Job
import Rainier.Support.Table
import Mathlib.Logic.Function.Basic

/-! # The database queue, statement by statement

Each worker stands before the statement it will have run next, with what it has
read so far; the clock readings a call makes are steps of their own. A statement
is atomic and may be followed by any statement of any other worker. A worker
that is killed, or whose statement fails, abandons its call and leaves its row
as it is. The ghosts are the reservations not settled yet, and every successful
claim with what it found.
-/
namespace Rainier.Queue

/-- The payload column holds JSON text; it is kept here as the value written. -/
structure JobRow where
  id : String
  queue : String
  name : String
  payload : Json
  attempts : ℕ
  maxAttempts : ℕ
  availableAt : ℕ
  reservedAt : Option ℕ
  reservedUntil : Option ℕ
  createdAt : ℕ
  uniqueKey : Option String
  deriving DecidableEq, Repr

structure FailedJobRow where
  id : String
  queue : String
  name : String
  payload : Json
  error : String
  failedAt : ℕ
  deriving DecidableEq, Repr

namespace JobRow

def fromQueued (job : QueuedJob) : JobRow where
  id := job.id
  queue := job.queue
  name := job.name
  payload := job.payload
  attempts := job.attempts
  maxAttempts := job.maxAttempts
  availableAt := job.availableAt
  reservedAt := none
  reservedUntil := none
  createdAt := job.createdAt
  uniqueKey := job.uniqueKey

/-- Reading the payload text back fails past the parser's recursion limit. -/
def intoQueued (row : JobRow) : Option QueuedJob :=
  if row.payload.depth ≤ Json.recursionLimit then
    some {
      id := row.id
      name := row.name
      payload := row.payload
      queue := row.queue
      attempts := row.attempts
      maxAttempts := row.maxAttempts
      availableAt := row.availableAt
      createdAt := row.createdAt
      uniqueKey := row.uniqueKey
      deliveryHandle := none
      traceparent := none }
  else none

end JobRow

structure DatabaseQueue where
  reservation : ℕ
  maxClaimAttempts : ℕ
  deriving Repr

namespace DatabaseQueue

def defaultReservation : ℕ := Duration.fromSecs 90

def new : DatabaseQueue := ⟨defaultReservation,5⟩

/-- Where a worker stands: between calls, holding a job, or before a statement. -/
inductive Phase where
  | idle
  | selecting (queue : String) (now : ℕ)
  | claiming (rows : List JobRow)
  | updating (row : JobRow) (now : ℕ) (rest : List JobRow)
  | holding (job : QueuedJob)
  | acknowledging (job : QueuedJob)
  | releasing (job : QueuedJob) (availableAt : ℕ)
  | recording (job : QueuedJob) (error : String) (failedAt : ℕ)
  | discarding (job : QueuedJob)
  | sweeping (now : ℕ)
  | reclaiming (rows : List JobRow)
  deriving DecidableEq, Repr

/-- A claim that has not been settled. -/
structure Reservation (n : ℕ) where
  worker : Fin n
  id : String
  until' : ℕ
  deriving DecidableEq, Repr

/-- A successful claim: what was found in the row, and when. -/
structure Claim where
  id : String
  availableAt : ℕ
  at' : ℕ
  deriving DecidableEq, Repr

structure World (n : ℕ) where
  clock : ℕ
  rows : List JobRow
  failed : List FailedJobRow
  workers : Fin n → Phase
  pushed : List String
  reservations : List (Reservation n)
  claims : List Claim

/-- The starts of the calls, the worker's own steps between statements, and
`execute`, which runs a worker's statement. For a `SELECT` it carries the order
in which the database happens to list the rows. -/
inductive Label (n : ℕ) where
  | tick (elapsed : ℕ)
  | push (job : QueuedJob)
  | reserve (w : Fin n) (queue : String)
  | claim (w : Fin n)
  | acknowledge (w : Fin n)
  | release (w : Fin n) (delay : ℕ)
  | fail (w : Fin n) (error : String)
  | reclaimExpired (w : Fin n)
  | execute (w : Fin n) (order : List JobRow)
  | abandon (w : Fin n)

def World.init (n : ℕ) : World n := ⟨0,[],[],fun _ => .idle,[],[],[]⟩

variable {n : ℕ} (q : DatabaseQueue)

def World.goto (s : World n) (w : Fin n) (phase : Phase) : World n :=
  { s with workers := Function.update s.workers w phase }

/-- The rows `reserve` asks for. -/
def available (queue : String) (now : ℕ) (row : JobRow) : Bool :=
  row.queue == queue && row.reservedAt.isNone && row.availableAt ≤ now

/-- The rows `reclaim_expired` asks for; a null deadline compares as false. -/
def lapsed (now : ℕ) (row : JobRow) : Bool :=
  row.reservedAt.isSome && row.reservedUntil.any (fun deadline => deadline < now)

def sameId (id : String) (row : JobRow) : Bool := row.id == id

def claimable (id : String) (row : JobRow) : Bool := sameId id row && row.reservedAt.isNone

def reservedUntil (now : ℕ) : ℕ := now + (Duration.fromStd q.reservation).getD (Duration.fromSecs 90)

/-- What a claim writes, computed from the candidate as it was read. -/
def claimed (row : JobRow) (now : ℕ) (stored : JobRow) : JobRow :=
  { stored with
    attempts := row.attempts + 1
    reservedAt := some now
    reservedUntil := some (q.reservedUntil now) }

/-- The statement of `claim`, and what `reserve` does with its answer. An id is a
primary key, so the statement affects one row or none. -/
def runClaim (s : World n) (w : Fin n) (row : JobRow) (now : ℕ) (rest : List JobRow) : World n :=
  match s.rows.find? (claimable row.id) with
  | none => s.goto w (.claiming rest)
  | some stored =>
    { s with
      rows := Table.updateWhere (claimable row.id) (q.claimed row now) s.rows
      workers := Function.update s.workers w (match row.intoQueued with
        | some job => .holding { job with attempts := job.attempts + 1 }
        | none => .idle)
      reservations := s.reservations ++ [⟨w,row.id,q.reservedUntil now⟩]
      claims := s.claims ++ [⟨row.id,stored.availableAt,s.clock⟩] }

/-- A settling statement has ended the worker's reservation of the row. -/
def World.settle (s : World n) (w : Fin n) (id : String) (rows : List JobRow) : World n :=
  { s.goto w .idle with
    rows := rows
    reservations := s.reservations.filter (fun r => !(r.worker == w && r.id == id)) }

def released (availableAt : ℕ) (row : JobRow) : JobRow :=
  { row with reservedAt := none, reservedUntil := none, availableAt := availableAt }

/-- The whole row as it was read, freed. -/
def reclaimed (row : JobRow) : JobRow := { row with reservedAt := none, reservedUntil := none }

def recordFailure (s : World n) (w : Fin n) (job : QueuedJob) (error : String) (failedAt : ℕ) : World n :=
  if job.id ∈ s.failed.map FailedJobRow.id then s.goto w .idle
  else { s.goto w (.discarding job) with
    failed := s.failed ++ [⟨job.id,job.queue,job.name,job.payload,error,failedAt⟩] }

def inOrder (order : List JobRow) : Bool :=
  decide (order.Pairwise (fun a b => a.availableAt ≤ b.availableAt))

/-- The worker goes on with the rows it is given. -/
def World.receive (s : World n) (w : Fin n) (next : List JobRow → Phase) : Option (List JobRow) → World n
  | some rows => s.goto w (next rows)
  | none => s

def execute (s : World n) (w : Fin n) (order : List JobRow) : World n :=
  match s.workers w with
  | .selecting queue now =>
    s.receive w .claiming (Table.select (available queue now) inOrder q.maxClaimAttempts s.rows order)
  | .updating row now rest => q.runClaim s w row now rest
  | .acknowledging job => s.settle w job.id (Table.deleteWhere (sameId job.id) s.rows)
  | .releasing job availableAt =>
    s.settle w job.id (Table.updateWhere (sameId job.id) (released availableAt) s.rows)
  | .recording job error failedAt => recordFailure s w job error failedAt
  | .discarding job => s.settle w job.id (Table.deleteWhere (sameId job.id) s.rows)
  | .sweeping now =>
    s.receive w .reclaiming (Table.select (lapsed now) (fun _ => true) 100 s.rows order)
  | .reclaiming (row :: rest) =>
    { s.goto w (.reclaiming rest) with
      rows := Table.updateWhere (sameId row.id) (fun _ => reclaimed row) s.rows }
  | .reclaiming [] => s.goto w .idle
  | _ => s

/-- A label that does not fit where the worker stands changes nothing. -/
def step (s : World n) : Label n → World n
  | .tick elapsed => { s with clock := s.clock + elapsed }
  | .push job =>
    if job.attempts = 0 ∧ job.id ∉ s.pushed then
      { s with rows := s.rows ++ [.fromQueued job], pushed := s.pushed ++ [job.id] }
    else s
  | .reserve w queue => match s.workers w with
    | .idle => s.goto w (.selecting queue s.clock)
    | _ => s
  | .claim w => match s.workers w with
    | .claiming (row :: rest) => s.goto w (.updating row s.clock rest)
    | .claiming [] => s.goto w .idle
    | _ => s
  | .acknowledge w => match s.workers w with
    | .holding job => s.goto w (.acknowledging job)
    | _ => s
  | .release w delay => match s.workers w with
    | .holding job => s.goto w (.releasing job (s.clock + (Duration.fromStd delay).getD 0))
    | _ => s
  | .fail w error => match s.workers w with
    | .holding job => s.goto w (.recording job error s.clock)
    | _ => s
  | .reclaimExpired w => match s.workers w with
    | .idle => s.goto w (.sweeping s.clock)
    | _ => s
  | .execute w order => q.execute s w order
  | .abandon w => s.goto w .idle

end DatabaseQueue
end Rainier.Queue
