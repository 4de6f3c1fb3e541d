import Mathlib.Algebra.Order.Ring.Nat
import Mathlib.Data.Finset.Image
import Rainier.Support.Error
import Rainier.Support.Text

/-! # Cron expressions

Five fields of comma-separated parts, each kept as the set of values it matches. A
date-time is seen through what `matches` asks of it.
-/
namespace Rainier.Scheduler
open Rainier

structure Field where
  values : Finset ℕ
  wildcard : Bool
  deriving DecidableEq

structure CronExpression where
  source : String
  minutes : Field
  hours : Field
  daysOfMonth : Field
  months : Field
  daysOfWeek : Field
  deriving DecidableEq

/-- The parts of a date-time; `weekday` counts from Sunday. -/
structure DateTime where
  minute : ℕ
  hour : ℕ
  day : ℕ
  month : ℕ
  weekday : ℕ
  deriving DecidableEq, Repr

/-- The table of names a field may use. -/
inductive Names where
  | numbers
  | months
  | days
  deriving DecidableEq, Repr

def Names.table : Names → List String
  | .numbers => []
  | .months => ["jan","feb","mar","apr","may","jun","jul","aug","sep","oct","nov","dec"]
  | .days => ["sun","mon","tue","wed","thu","fri","sat"]

/-- Month names count from one. -/
def Names.offset : Names → ℕ
  | .months => 1
  | _ => 0

def u32Max : ℕ := 2 ^ 32 - 1

def toAsciiLowercase (s : String) : String := String.ofList (s.toList.map Char.toLower)

/-- `str::split_whitespace`. -/
def splitWhitespace (s : String) : List String :=
  ((s.toList.splitOnP Text.isWhitespace).filter (· ≠ [])).map String.ofList

/-- `str::split` at a character. -/
def split (sep : Char) (s : String) : List String := (s.toList.splitOn sep).map String.ofList

def invalid (source field why : String) : Error :=
  Error.internal ("`" ++ source ++ "`: the field `" ++ field ++ "` has " ++ why)

/-- The number or the name a text stands for. -/
def Names.read (names : Names) (raw : String) : Option ℕ :=
  let raw := Text.trim raw
  match Text.parseUInt u32Max raw with
  | some number => some number
  | none => (names.table.idxOf? (toAsciiLowercase raw)).map (· + names.offset)

def valueOf (source field raw : String) (names : Names) : Except Error ℕ :=
  match names.read raw with
  | some value => .ok value
  | none => .error (invalid source field ("`" ++ Text.trim raw ++ "` is not a number or a name"))

/-- A part's range and its step, which is one where none is given. -/
def rangeAndStep (source field part : String) : Except Error (String × ℕ) :=
  match Text.splitOnce '/' part with
  | some (range,step) =>
    match Text.parseUInt u32Max step with
    | some n => if n = 0 then .error (invalid source field "a step of zero") else .ok (range,n)
    | none => .error (invalid source field ("`" ++ step ++ "` is not a step"))
  | none => .ok (part,1)

/-- The ends of a range. A bare value with a step runs to the end of the field; the
source asks for a step above one here, not for a step that was written. -/
def bounds (source field range : String) (step min max : ℕ) (names : Names) : Except Error (ℕ × ℕ) :=
  if range = "*" then .ok (min,max)
  else match Text.splitOnce '-' range with
    | some (start,stop) => do
      let start ← valueOf source field start names
      let stop ← valueOf source field stop names
      return (start,stop)
    | none => do
      let single ← valueOf source field range names
      if step > 1 then return (single,max) else return (single,single)

/-- `(from..=to).step_by(step)`. -/
def stepped (start stop step : ℕ) : Finset ℕ :=
  (Finset.range ((stop - start) / step + 1)).image fun k => start + k * step

def partValues (source field part : String) (min max : ℕ) (names : Names) : Except Error (Finset ℕ) := do
  let part := Text.trim part
  if part = "" then .error (invalid source field "an empty entry in a list")
  else
    let (range,step) ← rangeAndStep source field part
    let (start,stop) ← bounds source field range step min max names
    if start > stop then
      .error (invalid source field ("`" ++ start.repr ++ "-" ++ stop.repr ++ "` runs backwards"))
    else if start < min ∨ stop > max then
      .error (invalid source field ("`" ++ start.repr ++ "-" ++ stop.repr ++ "` is outside " ++
        min.repr ++ "-" ++ max.repr))
    else return stepped start stop step

/-- The loop over a field's parts. -/
def parseParts (source field : String) (min max : ℕ) (names : Names) :
    List String → Finset ℕ → Except Error (Finset ℕ)
  | [], values => .ok values
  | part :: rest, values => do
    let more ← partValues source field part min max names
    parseParts source field min max names rest (values ∪ more)

def parseField (source field : String) (min max : ℕ) (names : Names) : Except Error Field := do
  let values ← parseParts source field min max names (split ',' field) ∅
  if values = ∅ then .error (invalid source field "it matches nothing")
  else return ⟨values,field = "*"⟩

/-- Seven is another name for Sunday. -/
def parseDayOfWeek (source field : String) : Except Error Field := do
  let parsed ← parseField source field 0 7 .days
  return ⟨(parsed.values.image (· % 7)).filter (· ≤ 6),parsed.wildcard⟩

def expandShorthand (expression : String) : Option String :=
  let lower := toAsciiLowercase expression
  if lower = "@yearly" ∨ lower = "@annually" then some "0 0 1 1 *"
  else if lower = "@monthly" then some "0 0 1 * *"
  else if lower = "@weekly" then some "0 0 * * 0"
  else if lower = "@daily" ∨ lower = "@midnight" then some "0 0 * * *"
  else if lower = "@hourly" then some "0 * * * *"
  else none

def Field.matches (f : Field) (value : ℕ) : Bool := decide (value ∈ f.values)

namespace CronExpression

def parseFields (source expression : String) : Except Error CronExpression :=
  match splitWhitespace expression with
  | [minute,hour,day,month,weekday] => do
    let minutes ← parseField source minute 0 59 .numbers
    let hours ← parseField source hour 0 23 .numbers
    let daysOfMonth ← parseField source day 1 31 .numbers
    let months ← parseField source month 1 12 .months
    let daysOfWeek ← parseDayOfWeek source weekday
    return ⟨source,minutes,hours,daysOfMonth,months,daysOfWeek⟩
  | fields => .error (Error.internal ("`" ++ source ++ "` has " ++ fields.length.repr ++
      " field(s); a cron expression has 5 (minute hour day-of-month month day-of-week)"))

def parse (expression : String) : Except Error CronExpression :=
  let trimmed := Text.trim expression
  match expandShorthand trimmed with
  | some shorthand => parseFields trimmed shorthand
  | none => parseFields trimmed trimmed

end CronExpression

def CronExpression.matches (c : CronExpression) (at' : DateTime) : Bool :=
  if !c.minutes.matches at'.minute || !c.hours.matches at'.hour || !c.months.matches at'.month then false
  else
    let dom := c.daysOfMonth.matches at'.day
    let dow := c.daysOfWeek.matches at'.weekday
    if c.daysOfMonth.wildcard || c.daysOfWeek.wildcard then dom && dow else dom || dow

end Rainier.Scheduler
