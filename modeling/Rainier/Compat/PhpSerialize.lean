import Mathlib.Algebra.Order.Ring.Nat
import Rainier.Support.Error
import Rainier.Support.Scan
import Rainier.Support.Text

/-! # PHP's serialize format

`Value` is the tree, `write` the writer and `value` the reader. The reader's cursor
is the input not yet read together with how many bytes came before it, which is
what its errors name.
-/
namespace Rainier.Compat.Php
open Rainier Scan

/-- An `f64`, with the finite ones left abstract. Every NaN counts as one. -/
inductive F64 (F : Type) where
  | nan
  | infinite (negative : Bool)
  | finite (x : F)
  deriving DecidableEq, Repr

/-- What the standard library writes a finite `f64` as and reads a text as. It writes
digits, with a sign and a point where needed and never an exponent, and reads its
own text as the same number. -/
structure FloatText (F : Type) where
  display : F → String
  parse : String → Option (F64 F)
  display_ne : ∀ x, display x ≠ ""
  display_plain : ∀ x, ∀ c ∈ (display x).toList, Text.isDigit c = true ∨ c = '-' ∨ c = '.'
  parse_display : ∀ x, parse (display x) = some (.finite x)

inductive Key where
  | int (n : Int64)
  | str (bytes : List UInt8)
  deriving DecidableEq, Repr

/-- A property name, mangled as PHP writes it. -/
structure Property where
  bytes : List UInt8
  deriving DecidableEq, Repr

inductive Value (F : Type) where
  | null
  | bool (b : Bool)
  | int (n : Int64)
  | float (f : F64 F)
  | string (bytes : List UInt8)
  | array (entries : List (Key × Value F))
  | object (cls : String) (properties : List (Property × Value F))
  | custom (cls : String) (data : List UInt8)
  | enum (cls case : String)
  | reference (slot : ℕ) (aliased : Bool)

structure Limits where
  maxDepth : ℕ := 64
  deriving DecidableEq, Repr

variable {F : Type}

/-! The writer. -/

def len (bytes : List UInt8) : String := bytes.length.repr

def byte (c : Char) : UInt8 := c.toNat.toUInt8

def writeString (bytes : List UInt8) : List UInt8 :=
  Text.asBytes ("s:" ++ len bytes ++ ":\"") ++ bytes ++ Text.asBytes "\";"

def writeKey : Key → List UInt8
  | .int n => Text.asBytes ("i:" ++ n.toInt.repr ++ ";")
  | .str bytes => writeString bytes

/-- A float the way PHP's parser reads it back. -/
def float (t : FloatText F) : F64 F → String
  | .nan => "NAN"
  | .infinite negative => if negative then "-INF" else "INF"
  | .finite x => t.display x

mutual
def write (t : FloatText F) : Value F → List UInt8
  | .null => Text.asBytes "N;"
  | .bool b => Text.asBytes (if b then "b:1;" else "b:0;")
  | .int n => Text.asBytes ("i:" ++ n.toInt.repr ++ ";")
  | .float f => Text.asBytes ("d:" ++ float t f ++ ";")
  | .string bytes => writeString bytes
  | .array entries =>
    Text.asBytes ("a:" ++ entries.length.repr ++ ":\x7b") ++ writeEntries t entries ++ [byte '\x7d']
  | .object cls properties =>
    Text.asBytes ("O:" ++ len (Text.asBytes cls) ++ ":\"" ++ cls ++ "\":" ++ properties.length.repr ++ ":\x7b") ++
      writeProperties t properties ++ [byte '\x7d']
  | .custom cls data =>
    Text.asBytes ("C:" ++ len (Text.asBytes cls) ++ ":\"" ++ cls ++ "\":" ++ len data ++ ":\x7b") ++ data ++
      [byte '\x7d']
  | .enum cls case =>
    let name := cls ++ ":" ++ case
    Text.asBytes ("E:" ++ len (Text.asBytes name) ++ ":\"" ++ name ++ "\";")
  | .reference slot aliased => Text.asBytes ((if aliased then "R" else "r") ++ ":" ++ slot.repr ++ ";")

def writeEntries (t : FloatText F) : List (Key × Value F) → List UInt8
  | [] => []
  | (key,value) :: rest => writeKey key ++ write t value ++ writeEntries t rest

def writeProperties (t : FloatText F) : List (Property × Value F) → List UInt8
  | [] => []
  | (property,value) :: rest => writeString property.bytes ++ write t value ++ writeProperties t rest
end

example (t : FloatText F) : write t .null = Text.asBytes "N;" := by rw [write]

def serialize (t : FloatText F) (value : Value F) : List UInt8 := write t value

/-! The reader. -/

abbrev Parser := Scanner UInt8 Error

/-- `byte as char`. -/
def asChar (b : UInt8) : String := String.singleton (Char.ofNat b.toNat)

def error {β : Type} (what : String) : Parser β := do
  let s ← get
  throw (Error.badRequest ("not a PHP-serialized value: " ++ what ++ " at byte " ++ s.pos.repr))

def remaining : Parser ℕ := do return (← get).rest.length

def peek : Parser (Option UInt8) := do return (← get).rest.head?

def advance (n : ℕ) : Parser Unit := modify fun s => ⟨s.pos + n,s.rest.drop n⟩

def expect (b : UInt8) : Parser Unit := do
  if (← peek) = some b then advance 1
  else error ("expected `" ++ asChar b ++ "`")

/-- The bytes up to `stop`, which is read too. -/
def untilByte (stop : UInt8) : Parser (List UInt8) := do
  let s ← get
  match s.rest.idxOf? stop with
  | none => error ("unterminated, expected `" ++ asChar stop ++ "`")
  | some offset =>
    advance (offset + 1)
    return s.rest.take offset

/-- `strip_prefix` of any of the characters given, or the text as it is. -/
def stripPrefix (chars : List Char) (text : String) : String :=
  match text.toList with
  | c :: rest => if c ∈ chars then String.ofList rest else text
  | [] => text

/-- An optional sign and digits, as an `i64`. -/
def parseInt (digits : List UInt8) : Option Int64 := do
  let text ← Text.fromUtf8 digits
  let unsigned := (stripPrefix ['+','-'] text).toList
  if unsigned.isEmpty || !unsigned.all Text.isDigit then none
  else (Text.parseInt Int64.minValue.toInt Int64.maxValue.toInt (stripPrefix ['+'] text)).map Int64.ofInt

def intUntil (stop : UInt8) : Parser Int64 := do
  match parseInt (← untilByte stop) with
  | some n => return n
  | none => error "bad integer"

/-- A length or count: not negative, and no larger than what is left. -/
def lengthUntil (stop : UInt8) : Parser ℕ := do
  let n ← intUntil stop
  if n.toInt < 0 then error "negative length"
  else if n.toInt.toNat > (← remaining) then error "a length longer than the payload"
  else return n.toInt.toNat

def take (n : ℕ) : Parser (List UInt8) := do
  let s ← get
  if n > s.rest.length then error "truncated"
  else
    advance n
    return s.rest.take n

/-- `len:"bytes"`, the form a string, a class name and an enum share. -/
def quoted : Parser (List UInt8) := do
  let n ← lengthUntil (byte ':')
  expect (byte '"')
  let bytes ← take n
  expect (byte '"')
  return bytes

def name : Parser String := do
  match Text.fromUtf8 (← quoted) with
  | some s => return s
  | none => error "a class name that is not UTF-8"

def key : Parser Key := do
  match ← peek with
  | some tag =>
    if tag = byte 'i' then
      advance 1
      expect (byte ':')
      return .int (← intUntil (byte ';'))
    else if tag = byte 's' then
      advance 1
      expect (byte ':')
      let bytes ← quoted
      expect (byte ';')
      return .str bytes
    else error "an array key that is not an integer or a string"
  | none => error "an array key that is not an integer or a string"

/-- PHP accepts an integer property name and makes it a string. -/
def propertyName : Key → Property
  | .str bytes => ⟨bytes⟩
  | .int n => ⟨Text.asBytes n.toInt.repr⟩

def parseFloat (t : FloatText F) (text : List UInt8) : Option (F64 F) := do
  let text ← Text.fromUtf8 text
  if text = "INF" then some (.infinite false)
  else if text = "-INF" then some (.infinite true)
  else if text = "NAN" then some .nan
  else if text.toList.isEmpty || !text.toList.all (fun c => Text.isDigit c || "+-.eE".toList.contains c) then none
  else t.parse text

/-! One clause for each tag, after its colon. -/

def boolClause : Parser (Value F) := do
  let text ← untilByte (byte ';')
  if text = [byte '0'] then return .bool false
  else if text = [byte '1'] then return .bool true
  else error "bad boolean"

def intClause : Parser (Value F) := do return .int (← intUntil (byte ';'))

def floatClause (t : FloatText F) : Parser (Value F) := do
  match parseFloat t (← untilByte (byte ';')) with
  | some f => return .float f
  | none => error "bad float"

def stringClause : Parser (Value F) := do
  let bytes ← quoted
  expect (byte ';')
  return .string bytes

def entry (inner : Parser (Value F)) : Parser (Key × Value F) := do
  let key ← key
  let value ← inner
  return (key,value)

def arrayClause (inner : Parser (Value F)) : Parser (Value F) := do
  let count ← lengthUntil (byte ':')
  expect (byte '\x7b')
  let entries ← times (entry inner) count
  expect (byte '\x7d')
  return .array entries

def property (inner : Parser (Value F)) : Parser (Property × Value F) := do
  let key ← key
  let value ← inner
  return (propertyName key,value)

def objectClause (inner : Parser (Value F)) : Parser (Value F) := do
  let cls ← name
  expect (byte ':')
  let count ← lengthUntil (byte ':')
  expect (byte '\x7b')
  let properties ← times (property inner) count
  expect (byte '\x7d')
  return .object cls properties

def customClause : Parser (Value F) := do
  let cls ← name
  expect (byte ':')
  let n ← lengthUntil (byte ':')
  expect (byte '\x7b')
  let data ← take n
  expect (byte '\x7d')
  return .custom cls data

def enumClause : Parser (Value F) := do
  let name ← name
  expect (byte ';')
  match Text.splitOnce ':' name with
  | some (cls,case) => return .enum cls case
  | none => error "an enum without a case"

def referenceClause (aliased : Bool) : Parser (Value F) := do
  let slot ← intUntil (byte ';')
  if 0 < slot.toInt then return .reference slot.toInt.toNat aliased
  else error "bad reference"

/-- An array or an object, unless the depth is used up. -/
def deeper (inner : Option (Parser (Value F))) (clause : Parser (Value F) → Parser (Value F)) : Parser (Value F) :=
  match inner with
  | some inner => clause inner
  | none => error "nested too deeply"

/-- What follows the tag and its colon; `inner` reads what is nested in it, where the
depth allows that. -/
def clause (t : FloatText F) (inner : Option (Parser (Value F))) (tag : UInt8) : Parser (Value F) :=
  if tag = byte 'b' then boolClause
  else if tag = byte 'i' then intClause
  else if tag = byte 'd' then floatClause t
  else if tag = byte 's' then stringClause
  else if tag = byte 'a' then deeper inner arrayClause
  else if tag = byte 'O' then deeper inner objectClause
  else if tag = byte 'C' then customClause
  else if tag = byte 'E' then enumClause
  else if tag = byte 'r' then referenceClause false
  else if tag = byte 'R' then referenceClause true
  else error ("unknown type `" ++ asChar tag ++ "`")

def valueBody (t : FloatText F) (inner : Option (Parser (Value F))) : Parser (Value F) := do
  match ← peek with
  | none => error "empty"
  | some tag =>
    advance 1
    if tag = byte 'N' then
      expect (byte ';')
      return .null
    else
      expect (byte ':')
      clause t inner tag

/-- A value with room for that many levels of arrays and objects below it. -/
def value (t : FloatText F) : ℕ → Parser (Value F)
  | 0 => valueBody t none
  | room + 1 => valueBody t (some (value t room))

def document (t : FloatText F) (limits : Limits) : Parser (Value F) := do
  let value ← value t limits.maxDepth
  if (← remaining) ≠ 0 then error "trailing bytes after the value"
  else return value

def unserializeWith (t : FloatText F) (input : List UInt8) (limits : Limits) : Except Error (Value F) :=
  (document t limits ⟨0,input⟩).map Prod.fst

def unserialize (t : FloatText F) (input : List UInt8) : Except Error (Value F) :=
  unserializeWith t input {}

end Rainier.Compat.Php
