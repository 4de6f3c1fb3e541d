import Mathlib.Logic.Function.Basic
import Rainier.Support.Error
import Rainier.Support.Trace

/-! # Sticky scopes

A connection may have several endpoints to write to and several to read from, and takes them in
turn. Inside a scope a sticky connection remembers the endpoint it wrote to and the replica it
read from. A scope belongs to one task, the counters of the turns are shared by all.
-/
namespace Rainier.Database

/-- Where a scope's reads go, once it has decided. -/
inductive ReadPin where
  | unpinned | writer
  | replica (i : ℕ)
  deriving DecidableEq, Repr

/-- One connection's pins inside one scope. -/
structure Mark where
  connection : ℕ
  write : Option ℕ
  read : ReadPin
  deriving DecidableEq, Repr

/-- This connection's entry in the scope, a new one if this is its first query. -/
def mark (marks : List Mark) (connection : ℕ) : Mark :=
  (marks.find? (·.connection = connection)).getD ⟨connection,none,.unpinned⟩

/-- The entry written back to its place. -/
def setMark (m : Mark) : List Mark → List Mark
  | [] => [m]
  | m' :: marks => if m'.connection = m.connection then m :: marks else m' :: setMark m marks

/-- What one query works on: the counters of its connection, and the scope of its task. -/
structure View where
  nextWrite : UInt64
  nextRead : UInt64
  scope : Option (List Mark)

def writeEndpoint (connection : ℕ) (choose : View → ℕ × View) (v : View) : Option ℕ × View :=
  match v.scope with
  | none => (none,v)
  | some marks =>
    let m := mark marks connection
    match m.write with
    | some chosen => (some chosen,{ v with scope := some (setMark { m with read := .writer } marks) })
    | none =>
      let (chosen,v) := choose v
      (some chosen,{ v with scope := some (setMark { m with write := some chosen, read := .writer } marks) })

/-- Where one read should go. -/
inductive Read where
  | writer
  | replica (i : ℕ)

def readEndpoint (connection : ℕ) (choose : View → ℕ × View) (v : View) : Option Read × View :=
  match v.scope with
  | none => (none,v)
  | some marks =>
    let m := mark marks connection
    match m.read with
    | .writer => (some .writer,{ v with scope := some (setMark m marks) })
    | .replica i => (some (.replica i),{ v with scope := some (setMark m marks) })
    | .unpinned =>
      let (i,v) := choose v
      (some (.replica i),{ v with scope := some (setMark { m with read := .replica i } marks) })

inductive Endpoint where
  | write (i : ℕ)
  | read (i : ℕ)
  deriving DecidableEq, Repr

/-- The endpoints of a connection that separates reads from writes, by their numbers. -/
structure Split where
  sticky : Bool
  writes : ℕ
  reads : ℕ
  writable : 0 < writes

namespace Split

variable (s : Split) (id : ℕ)

/-- The next endpoint to write to, round the ring. -/
def turnWrite (v : View) : ℕ × View := (v.nextWrite.toNat % s.writes,{ v with nextWrite := v.nextWrite + 1 })

def turnRead (v : View) : ℕ × View := (v.nextRead.toNat % s.reads,{ v with nextRead := v.nextRead + 1 })

def writeConnection (v : View) : Endpoint × View :=
  if s.sticky then
    match writeEndpoint id s.turnWrite v with
    | (some chosen,v) => (.write chosen,v)
    | (none,v) => (.write (s.turnWrite v).1,(s.turnWrite v).2)
  else (.write (s.turnWrite v).1,(s.turnWrite v).2)

def readConnection (v : View) : Endpoint × View :=
  if s.reads = 0 then s.writeConnection id v
  else if s.sticky then
    match readEndpoint id s.turnRead v with
    | (some (.replica i),v) => (.read i,v)
    | (some .writer,v) => s.writeConnection id v
    -- no scope: with a warning, the first time
    | (none,v) => s.writeConnection id v
  else (.read (s.turnRead v).1,(s.turnRead v).2)

end Split

/-- A handle. An unsplit connection has the one endpoint. -/
structure DatabaseHandle where
  split : Option Split
  toTheWriter : Bool

namespace DatabaseHandle

def withEndpoints (writes reads : ℕ) (sticky : Bool) : Except Error DatabaseHandle :=
  if h : 0 < writes then
    if reads = 0 ∧ writes = 1 then .ok ⟨none,false⟩ else .ok ⟨some ⟨sticky,writes,reads,h⟩,false⟩
  else .error (.internal ("a database handle needs at least one endpoint to write to; one with only read " ++
    "endpoints would answer every query and persist nothing"))

/-- The same handle, with its reads sent to the write endpoint too. -/
def writer (db : DatabaseHandle) : DatabaseHandle := { db with toTheWriter := true }

def writeConnection (db : DatabaseHandle) (id : ℕ) (v : View) : Endpoint × View :=
  match db.split with
  | none => (.write 0,v)
  | some split => split.writeConnection id v

def readConnection (db : DatabaseHandle) (id : ℕ) (v : View) : Endpoint × View :=
  match db.split with
  | none => (.write 0,v)
  | some split => if db.toTheWriter then db.writeConnection id v else split.readConnection id v

end DatabaseHandle

/-! ## Queries of many tasks -/

inductive Access where
  | write | read
  /-- A read through the handle that `writer` returns. -/
  | writerRead
  deriving DecidableEq, Repr

structure Query where
  /-- The innermost scope of its task, if there is one. -/
  scope : Option ℕ
  connection : ℕ
  access : Access
  deriving DecidableEq, Repr

structure Routed where
  query : Query
  endpoint : Endpoint
  deriving DecidableEq, Repr

structure Traffic where
  nextWrite : ℕ → UInt64
  nextRead : ℕ → UInt64
  scopes : ℕ → List Mark
  /-- The oldest first. -/
  log : List Routed

/-- Where a query goes. -/
def route (split : Option Split) (q : Query) (v : View) : Endpoint × View :=
  let db : DatabaseHandle := ⟨split,false⟩
  match q.access with
  | .write => db.writeConnection q.connection v
  | .read => db.readConnection q.connection v
  | .writerRead => db.writer.readConnection q.connection v

namespace Traffic

/-- Nothing was asked yet. The counters may be anywhere. -/
def start (nextWrite nextRead : ℕ → UInt64) : Traffic := ⟨nextWrite,nextRead,fun _ => [],[]⟩

def viewOf (t : Traffic) (q : Query) : View := ⟨t.nextWrite q.connection,t.nextRead q.connection,q.scope.map t.scopes⟩

/-- One query. It takes one turn at most, so nothing of another task comes between its steps. -/
def step (connections : ℕ → Option Split) (t : Traffic) (q : Query) : Traffic :=
  let (endpoint,v) := route (connections q.connection) q (t.viewOf q)
  { nextWrite := Function.update t.nextWrite q.connection v.nextWrite
    nextRead := Function.update t.nextRead q.connection v.nextRead
    scopes := match q.scope,v.scope with
      | some s,some marks => Function.update t.scopes s marks
      | _,_ => t.scopes
    log := t.log ++ [⟨q,endpoint⟩] }

end Traffic

end Rainier.Database
