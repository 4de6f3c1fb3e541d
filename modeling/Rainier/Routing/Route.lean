import Rainier.Support.Split
import Mathlib.Logic.Function.Basic

/-! # Routes

A pattern is compiled into segments, and a path is matched against them one segment
after the other. The percent-decoder is a parameter of the matching.
-/
namespace Rainier.Routing
open Rainier

/-- `http::Method`. -/
inductive Method where
  | options
  | get
  | post
  | put
  | delete
  | head
  | trace
  | connect
  | patch
  | extension (token : String)
  deriving DecidableEq, Repr

def Method.asStr : Method → String
  | options => "OPTIONS"
  | get => "GET"
  | post => "POST"
  | put => "PUT"
  | delete => "DELETE"
  | head => "HEAD"
  | trace => "TRACE"
  | connect => "CONNECT"
  | patch => "PATCH"
  | extension token => token

inductive Segment where
  | static (literal : String)
  | param (name : String)
  | optionalParam (name : String)
  | wildcard (name : String)
  deriving DecidableEq, Repr

namespace Segment

def name? : Segment → Option String
  | static _ => none
  | param name | optionalParam name | wildcard name => some name

/-- A path may end before this segment. -/
def isOptional : Segment → Bool
  | optionalParam _ | wildcard _ => true
  | static _ | param _ => false

end Segment

inductive ParamConstraint where
  | number
  | alpha
  | alphaNumeric
  | slug
  | uuid
  | isIn (allowed : List String)
  | custom (predicate : String → Bool)

namespace Ascii

def isDigit (b : UInt8) : Bool := 48 ≤ b && b ≤ 57
def isAlphabetic (b : UInt8) : Bool := (65 ≤ b && b ≤ 90) || (97 ≤ b && b ≤ 122)
def isAlphanumeric (b : UInt8) : Bool := isAlphabetic b || isDigit b
def isHexdigit (b : UInt8) : Bool := isDigit b || (65 ≤ b && b ≤ 70) || (97 ≤ b && b ≤ 102)

end Ascii

/-- Groups of hexadecimal digits, eight, four, four, four and twelve of them. -/
def isUuid (value : String) : Bool :=
  let parts := Text.split '-' value
  parts.length = 5 && (parts.zip [8,4,4,4,12]).all fun p =>
    (Text.asBytes p.1).length = p.2 && (Text.asBytes p.1).all Ascii.isHexdigit

/-- A text that is not empty and has only such bytes. -/
def allBytes (ok : UInt8 → Bool) (value : String) : Bool := !value.isEmpty && (Text.asBytes value).all ok

def ParamConstraint.allows : ParamConstraint → String → Bool
  | number, value => allBytes Ascii.isDigit value
  | alpha, value => allBytes Ascii.isAlphabetic value
  | alphaNumeric, value => allBytes Ascii.isAlphanumeric value
  | slug, value => allBytes (fun b => Ascii.isAlphanumeric b || b == 45 || b == 95) value
  | uuid, value => isUuid value
  | isIn allowed, value => allowed.any (· == value)
  | custom predicate, value => predicate value

/-- The captured values by name. -/
abbrev Params := String → Option String

@[ext] structure Route where
  methods : List Method
  uri : String
  segments : List Segment
  name : Option String
  constraints : String → Option ParamConstraint

/-- The segments of a path that are not empty. -/
def splitPath (path : String) : List String := (Text.split '/' path).filter (· ≠ "")

def normaliseUri (uri : String) : String :=
  match splitPath uri with
  | [] => "/"
  | pieces => "/" ++ Text.join '/' pieces

theorem not_mem_of_mem_splitPath {path p : String} (h : p ∈ splitPath path) : '/' ∉ p.toList ∧ p ≠ "" := by
  obtain ⟨hp,hne⟩ := List.mem_filter.mp h
  exact ⟨Text.not_mem_of_mem_split hp,of_decide_eq_true hne⟩

/-- A normalised pattern has the segments it had. -/
theorem splitPath_normaliseUri (uri : String) : splitPath (normaliseUri uri) = splitPath uri := by
  rw [normaliseUri]
  split
  · next hnil =>
    rw [hnil]
    rfl
  · next hne =>
    have hjoin : "/" ++ Text.join '/' (splitPath uri) = Text.join '/' ("" :: splitPath uri) := by
      rw [Text.join_cons hne]
      rfl
    have hslash : ∀ p ∈ "" :: splitPath uri, '/' ∉ p.toList := by
      intro p hp
      rcases List.mem_cons.mp hp with rfl | hp
      · simp
      · exact (not_mem_of_mem_splitPath hp).1
    rw [hjoin,splitPath,Text.split_join (by simp) hslash,List.filter_cons_of_neg (by decide)]
    exact List.filter_eq_self.mpr fun p hp => decide_eq_true (not_mem_of_mem_splitPath hp).2

def stripSuffix (suffix : Char) (s : String) : Option String :=
  if s.toList.getLast? = some suffix then some (String.ofList s.toList.dropLast) else none

def compilePiece (piece : String) : Segment :=
  match (Text.stripPrefix "\x7b" piece).bind (stripSuffix '\x7d') with
  | none => .static piece
  | some inner =>
    match stripSuffix '?' inner with
    | some name => .optionalParam name
    | none =>
      match stripSuffix '*' inner with
      | some name => .wildcard name
      | none => .param inner

def compile (uri : String) : List Segment := (splitPath uri).map compilePiece

namespace Route

/-- A `GET` route answers `HEAD` too. -/
def new (methods : List Method) (uri : String) : Route where
  methods := if .get ∈ methods ∧ .head ∉ methods then methods ++ [.head] else methods
  uri := normaliseUri uri
  segments := compile (normaliseUri uri)
  name := none
  constraints := fun _ => none

def whereParam (r : Route) (param : String) (constraint : ParamConstraint) : Route :=
  { r with constraints := Function.update r.constraints param (some constraint) }

def allows (r : Route) (param value : String) : Bool :=
  match r.constraints param with
  | some constraint => constraint.allows value
  | none => true

section Match
variable (decode : String → String) (allows : String → String → Bool)

/-- One segment of the pattern after the other, against what is left of the path. -/
def matchSegments : List Segment → List String → Params → Option Params
  | [], actual, params => if actual.isEmpty then some params else none
  | .static literal :: rest, actual, params =>
    match actual with
    | raw :: actual => if raw = literal then matchSegments rest actual params else none
    | [] => none
  | .param name :: rest, actual, params =>
    match actual with
    | raw :: actual =>
      if allows name (decode raw) then matchSegments rest actual (Function.update params name (some (decode raw)))
      else none
    | [] => none
  | .optionalParam name :: rest, actual, params =>
    match actual with
    | raw :: actual =>
      if allows name (decode raw) then matchSegments rest actual (Function.update params name (some (decode raw)))
      else none
    -- absent: legal only if nothing after it is required
    | [] => if rest.all Segment.isOptional then some params else none
  | .wildcard name :: rest, actual, params =>
    let value := decode (Text.join '/' actual)
    if allows name value then matchSegments rest [] (Function.update params name (some value)) else none

end Match

def matchPath (decode : String → String) (r : Route) (path : String) : Option Params :=
  matchSegments decode r.allows r.segments (splitPath path) (fun _ => none)

def accepts (r : Route) (method : Method) : Bool := r.methods.any (· == method)

end Route
end Rainier.Routing
