import Rainier.Compat.PhpSerialize
import Rainier.Session.StartSession

/-! # Sessions that a PHP application started

A PHP session is known by its PHP id, marked as foreign, as long as a request carries the PHP cookie;
what Rainier keeps of it is stored under an id derived from that one.
-/
namespace Rainier.Compat.Php
open Rainier

variable {F : Type}

/-! ## Values of a payload -/

def Key.matches (key : Key) (name : String) : Bool :=
  match key with
  | .str bytes => bytes = Text.asBytes name
  | .int n => Text.parseInt Int64.minValue.toInt Int64.maxValue.toInt name = some n.toInt

def Key.toText : Key → Option String
  | .int n => some n.toInt.repr
  | .str bytes => Text.fromUtf8 bytes

def Key.display : Key → String
  | .int n => n.toInt.repr
  | .str bytes => Text.fromUtf8Lossy bytes

/-- A property name without what PHP mangles it with. -/
def Property.name (p : Property) : String :=
  match p.bytes with
  | 0 :: rest =>
    if 0 ∈ rest then Text.fromUtf8Lossy (rest.drop (rest.idxOf 0 + 1)) else Text.fromUtf8Lossy p.bytes
  | _ => Text.fromUtf8Lossy p.bytes

namespace Value

def asStr : Value F → Option String
  | .string bytes => Text.fromUtf8 bytes
  | _ => none

def asArray : Value F → Option (List (Key × Value F))
  | .array entries => some entries
  | _ => none

def get (value : Value F) (name : String) : Option (Value F) :=
  match value with
  | .array entries => (entries.find? fun entry => entry.1.matches name).map (·.2)
  | .object _ properties => (properties.find? fun entry => entry.1.name = name).map (·.2)
  | _ => none

def intJson (n : Int64) : Json :=
  match n.toInt with
  | .ofNat k => .number (.posInt k)
  | .negSucc k => .number (.negInt k)

/-- The keys are `0..n`, in order. -/
def isList (keys : List Key) : Bool := keys = (List.range keys.length).map fun i => .int (Int64.ofNat i)

/-- Entries as an object, the keys as text. -/
def objectJson : List (String × Json) → List (Key × Json) → Option (List (String × Json))
  | fields,[] => some fields
  | fields,(key,value) :: rest => do objectJson (Json.insert fields (← key.toText) value) rest

mutual
/-- Only where nothing would be lost; `bits` are those of a finite float. -/
def toJson (bits : F → BitVec 64) : Value F → Option Json
  | .null => some .null
  | .bool b => some (.bool b)
  | .int n => some (intJson n)
  | .float (.finite x) => some (.number (.float (bits x)))
  | .float _ => none
  | .string bytes => (Text.fromUtf8 bytes).map .string
  | .array entries => do
    let values ← entriesJson bits entries
    if isList (values.map (·.1)) then return .array (values.map (·.2))
    else return .object (← objectJson [] values)
  | .object _ _ => none
  | .custom _ _ => none
  | .enum _ _ => none
  | .reference _ _ => none

def entriesJson (bits : F → BitVec 64) : List (Key × Value F) → Option (List (Key × Json))
  | [] => some []
  | (key,value) :: rest => do return (key,← toJson bits value) :: (← entriesJson bits rest)
end

end Value

/-! ## The mapping -/

structure SessionMapping where
  guard : String
  authKey : String
  deriving DecidableEq, Repr

structure Mapped where
  data : SessionData
  userId : Option String
  skipped : List String
  deriving DecidableEq, Repr

namespace SessionMapping

def isGuardKey (m : SessionMapping) (key : String) : Bool :=
  match ((Text.stripPrefix "login_" key).bind (Text.stripPrefix m.guard)).bind (Text.stripPrefix "_") with
  | some hash => hash.toList.length = 40 && hash.toList.all Session.isHexdigit
  | none => false

/-- The flashed keys of one of the two lists. -/
def flashed (value : Value F) (flash : List String) (list : String) : List String :=
  (((value.get list).bind Value.asArray).getD []).foldl (fun flash entry =>
    match entry.2.asStr with
    | some key => if key ∈ flash then flash else flash ++ [key]
    | none => flash) flash

/-- The id of the signed-in user: an integer or a text. -/
def userId : Value F → Option String
  | .int n => some n.toInt.repr
  | value => value.asStr

def mapEntry (bits : F → BitVec 64) (m : SessionMapping) (mapped : Mapped) (entry : Key × Value F) : Mapped :=
  match entry.1.toText with
  | none => { mapped with skipped := mapped.skipped ++ [entry.1.display] }
  | some name =>
    if m.isGuardKey name then
      match userId entry.2 with
      | some id =>
        { mapped with data.values := Json.insert mapped.data.values m.authKey (.string id), userId := some id }
      | none => mapped
    else if name = "_flash" then { mapped with data.flash := ["old","new"].foldl (flashed entry.2) mapped.data.flash }
    else
      match entry.2.toJson bits with
      | some json => { mapped with data.values := Json.insert mapped.data.values name json }
      | none => { mapped with skipped := mapped.skipped ++ [name] }

def map (bits : F → BitVec 64) (m : SessionMapping) (payload : Value F) : Except Error Mapped :=
  match payload.asArray with
  | none => .error (.badRequest "a session payload is an array")
  | some entries => .ok (entries.foldl (m.mapEntry bits) ⟨.default,none,[]⟩)

def mapBytes (t : FloatText F) (bits : F → BitVec 64) (m : SessionMapping) (payload : List UInt8) : Except Error Mapped := do
  m.map bits (← unserialize t payload)

end SessionMapping

/-! ## The store -/

inductive Release where
  | keep
  | destroy
  deriving DecidableEq, Repr

/-- Rainier's own sessions and the payloads of a `MemorySessionSource`. -/
structure Sessions where
  inner : String → Option SessionData
  source : String → Option (List UInt8)

/-- `derivedId` is a MAC under the application key, `decrypt` opens the PHP cookie. -/
structure ForeignSessionStore (F : Type) where
  derivedId : String → String
  decrypt : String → Except Error String
  floats : FloatText F
  bits : F → BitVec 64
  mapping : SessionMapping
  release : Release

/-- Forty ASCII letters and digits. -/
def isSessionId (id : String) : Bool :=
  id.toList.length = 40 && id.toList.all fun c => ('0' ≤ c && c ≤ '9') || ('a' ≤ c && c ≤ 'z') || ('A' ≤ c && c ≤ 'Z')

/-- The mark of an id that names a PHP session. -/
def foreignMark : String := "php:"

def foreign (id : String) : Option String := Text.stripPrefix foreignMark id

namespace ForeignSessionStore

variable (f : ForeignSessionStore F)

def readForeign (s : Sessions) (phpId : String) : Except Error (Option SessionData) :=
  match s.inner (f.derivedId phpId) with
  | some data => .ok (some data)
  | none =>
    match s.source phpId with
    | none => .ok none
    | some payload => do return some (← f.mapping.mapBytes f.floats f.bits payload).data

def read (s : Sessions) (id : String) : Except Error (Option SessionData) :=
  match foreign id with
  | some phpId => f.readForeign s phpId
  | none => .ok (s.inner id)

/-- Where Rainier keeps the session of an id. -/
def home (id : String) : String :=
  match foreign id with
  | some phpId => f.derivedId phpId
  | none => id

def write (s : Sessions) (id : String) (data : SessionData) : Sessions :=
  { s with inner := Function.update s.inner (f.home id) (some data) }

def destroy (s : Sessions) (id : String) : Sessions :=
  match foreign id with
  | some phpId =>
    { inner := Function.update s.inner (f.derivedId phpId) none
      source := if f.release = .destroy then Function.update s.source phpId none else s.source }
  | none => { s with inner := Function.update s.inner id none }

/-- The cookie moves to the migrated session. -/
def encode (id : String) : String := f.home id

def decode (value : String) : Except Error String := do
  if Session.isWellFormed value then return value
  let phpId ← f.decrypt value
  if !isSessionId phpId then throw (.badRequest "that is not a session id the PHP application issued")
  return foreignMark ++ phpId

end ForeignSessionStore

end Rainier.Compat.Php
