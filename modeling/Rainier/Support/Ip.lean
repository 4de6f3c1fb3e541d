import Mathlib.Data.List.Basic
import Rainier.Support.Text

/-! # Internet addresses as texts

The reader of the standard library, which takes an address off the front of a text and leaves what
follows, or leaves the text alone.
-/
namespace Rainier

inductive IpAddr where
  | v4 (octets : Vector UInt8 4)
  | v6 (octets : Vector UInt8 16)
  deriving DecidableEq, Repr

namespace IpAddr

abbrev Reader (α : Type) := List Char → Option (α × List Char)

def digit (radix : ℕ) (c : Char) : Option ℕ :=
  let value := if '0' ≤ c ∧ c ≤ '9' then c.toNat - '0'.toNat
    else if 'a' ≤ c ∧ c ≤ 'z' then c.toNat - 'a'.toNat + 10
    else if 'A' ≤ c ∧ c ≤ 'Z' then c.toNat - 'A'.toNat + 10
    else radix
  if value < radix then some value else none

/-- The digits at the front of a text. -/
def leadingDigits (radix : ℕ) : List Char → List ℕ × List Char
  | [] => ([],[])
  | c :: rest =>
    match digit radix c with
    | none => ([],c :: rest)
    | some n => let more := leadingDigits radix rest; (n :: more.1,more.2)

/-- A number of at most so many digits, below a bound. A zero in front of others may be refused. -/
def readNumber (radix maxDigits bound : ℕ) (zeroFirst : Bool) : Reader ℕ := fun text =>
  let (digits,rest) := leadingDigits radix text
  let value := digits.foldl (fun n k => radix * n + k) 0
  if digits.isEmpty || maxDigits < digits.length || bound ≤ value then none
  else if !zeroFirst && digits.head? = some 0 && 1 < digits.length then none
  else some (value,rest)

def readChar (expected : Char) : Reader Unit
  | [] => none
  | c :: rest => if c = expected then some ((),rest) else none

/-- Before every item but the first there is a separator. -/
def readSeparator {α : Type} (sep : Char) (index : ℕ) (inner : Reader α) : Reader α := fun text =>
  if index = 0 then inner text
  else do
    let (_,rest) ← readChar sep text
    inner rest

def readIpv4 : Reader (Vector UInt8 4) := fun text => do
  let octet := readNumber 10 3 256 false
  let (a,text) ← readSeparator '.' 0 octet text
  let (b,text) ← readSeparator '.' 1 octet text
  let (c,text) ← readSeparator '.' 2 octet text
  let (d,text) ← readSeparator '.' 3 octet text
  return (#v[a.toUInt8,b.toUInt8,c.toUInt8,d.toUInt8],text)

/-- Up to `left` groups of sixteen bits from the given index on, the last two perhaps as an IPv4
address, and whether they were. -/
def readGroups : ℕ → ℕ → List Char → List UInt8 × Bool × List Char
  | 0,_,text => ([],false,text)
  | left + 1,index,text =>
    match if 0 < left then readSeparator ':' index readIpv4 text else none with
    | some (embedded,rest) => (embedded.toList,true,rest)
    | none =>
      match readSeparator ':' index (readNumber 16 4 65536 true) text with
      | none => ([],false,text)
      | some (group,rest) =>
        let more := readGroups left (index + 1) rest
        ((group / 256).toUInt8 :: (group % 256).toUInt8 :: more.1,more.2)

/-- Sixteen octets, with zeros where two colons stand. -/
def readIpv6 : Reader (Vector UInt8 16) := fun text => do
  let (head,ipv4,text) := readGroups 8 0 text
  if h : head.length = 16 then return (⟨head.toArray,by simpa using h⟩,text)
  else if ipv4 then none
  else
    let (_,text) ← readChar ':' text
    let (_,text) ← readChar ':' text
    let (tail,_,text) := readGroups (8 - (head.length / 2 + 1)) 0 text
    let octets := head ++ List.replicate (16 - (head.length + tail.length)) 0 ++ tail
    if h : octets.length = 16 then return (⟨octets.toArray,by simpa using h⟩,text) else none

def read : Reader IpAddr := fun text =>
  match readIpv4 text with
  | some (octets,rest) => some (.v4 octets,rest)
  | none =>
    match readIpv6 text with
    | some (octets,rest) => some (.v6 octets,rest)
    | none => none

/-- `str::parse`: nothing may follow. -/
def parse (text : String) : Option IpAddr :=
  match read text.toList with
  | some (address,[]) => some address
  | _ => none

def octets : IpAddr → List UInt8
  | .v4 octets => octets.toList
  | .v6 octets => octets.toList

def isIpv4 : IpAddr → Bool
  | .v4 _ => true
  | .v6 _ => false

end IpAddr

end Rainier
