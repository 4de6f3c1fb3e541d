import Mathlib.Data.Int.Notation
import Rainier.Support.Bytes
import Rainier.Support.Error
import Rainier.Support.Scan
import Rainier.Support.Text

/-! # The CBOR an authenticator speaks

`value` reads one value off the front of the input and `encode` writes one. The
reader's cursor is the input not yet read and how many bytes came before it; its
`room` is how many more containers may be entered, one more than the limit at the
start.
-/
namespace Rainier.Mfa.Cbor
open Rainier Scan Bytes

def maxDepth : ℕ := 16
def maxItems : ℕ := 4096

inductive Value where
  | unsigned (n : UInt64)
  | negative (n : ℤ)
  | bytes (bytes : List UInt8)
  | text (text : String)
  | array (items : List Value)
  | map (entries : List (Value × Value))
  | bool (b : Bool)
  | null
  deriving Repr

namespace Value

mutual
def beq : Value → Value → Bool
  | .unsigned a, .unsigned b => a == b
  | .negative a, .negative b => a == b
  | .bytes a, .bytes b => a == b
  | .text a, .text b => a == b
  | .array as, .array bs => beqItems as bs
  | .map as, .map bs => beqEntries as bs
  | .bool a, .bool b => a == b
  | .null, .null => true
  | _, _ => false

def beqItems : List Value → List Value → Bool
  | [], [] => true
  | a :: as, b :: bs => beq a b && beqItems as bs
  | _, _ => false

def beqEntries : List (Value × Value) → List (Value × Value) → Bool
  | [], [] => true
  | (j,a) :: as, (k,b) :: bs => beq j k && beq a b && beqEntries as bs
  | _, _ => false
end

mutual
theorem beq_iff (a b : Value) : beq a b = true ↔ a = b := by
  cases a with
  | array as => cases b <;> simp [beq,beqItems_iff as]
  | map as => cases b <;> simp [beq,beqEntries_iff as]
  | _ => cases b <;> simp [beq]

theorem beqItems_iff (as bs : List Value) : beqItems as bs = true ↔ as = bs := by
  cases as with
  | nil => cases bs <;> simp [beqItems]
  | cons a as => cases bs <;> simp [beqItems,beq_iff a,beqItems_iff as]

theorem beqEntries_iff (as bs : List (Value × Value)) : beqEntries as bs = true ↔ as = bs := by
  cases as with
  | nil => cases bs <;> simp [beqEntries]
  | cons a as =>
    obtain ⟨j,a⟩ := a
    cases bs <;> simp [beqEntries,beq_iff j,beq_iff a,beqEntries_iff as,Prod.ext_iff]
end

instance : DecidableEq Value := fun a b => decidable_of_iff _ (beq_iff a b)

mutual
/-- How many arrays and maps are around the innermost value. -/
def depth : Value → ℕ
  | .array items => depthItems items
  | .map entries => depthEntries entries
  | _ => 0

def depthItems : List Value → ℕ
  | [] => 0
  | a :: as => max (depth a + 1) (depthItems as)

def depthEntries : List (Value × Value) → ℕ
  | [] => 0
  | (k,a) :: as => max (max (depth k + 1) (depth a + 1)) (depthEntries as)
end

def asInt : Value → Option ℤ
  | .unsigned n => some n.toNat
  | .negative n => some n
  | _ => none

def asBytes : Value → Option (List UInt8)
  | .bytes bs => some bs
  | _ => none

def asText : Value → Option String
  | .text t => some t
  | _ => none

def asMap : Value → Option (List (Value × Value))
  | .map entries => some entries
  | _ => none

def getInt (value : Value) (key : ℤ) : Option Value := do
  let entries ← value.asMap
  (entries.find? fun entry => entry.1.asInt = some key).map (·.2)

def getText (value : Value) (key : String) : Option Value := do
  let entries ← value.asMap
  (entries.find? fun entry => entry.1.asText = some key).map (·.2)

end Value

/-! The reader. -/

abbrev Reader := Scanner UInt8 Error

def invalid {α : Type} (why : String) : Reader α := fun _ => .error (.badRequest ("invalid CBOR: " ++ why))

/-- How many bytes are left. -/
def left : Reader ℕ := fun s => .ok (s.rest.length,s)

def take (len : ℕ) : Reader (List UInt8) := fun s =>
  if len ≤ s.rest.length then .ok (s.rest.take len,⟨s.pos + len,s.rest.drop len⟩)
  else invalid "the input ends inside a value" s

/-- `take(1)?[0]`. -/
def takeByte : Reader UInt8 := fun s =>
  match s.rest with
  | b :: rest => .ok (b,⟨s.pos + 1,rest⟩)
  | [] => invalid "the input ends inside a value" s

/-- A `u64` of the given width. -/
def takeBe (width : ℕ) : Reader ℕ := do
  let bytes ← take width
  return fromBeBytes bytes

def argument (info : ℕ) : Reader ℕ :=
  if info ≤ 23 then pure info
  else if info = 24 then takeBe 1
  else if info = 25 then takeBe 2
  else if info = 26 then takeBe 4
  else if info = 27 then takeBe 8
  else if info = 31 then invalid "indefinite lengths are not accepted"
  else invalid "a reserved length encoding"

def length (info : ℕ) : Reader ℕ := do
  let length ← argument info
  if length > (← left) then invalid "a length longer than the input" else pure length

def count (info : ℕ) : Reader ℕ := do
  let count ← argument info
  if count > maxItems ∨ count > (← left) then invalid "a container claiming more entries than it can hold"
  else pure count

/-- The entries of a map; a key is refused before its value is read. -/
def entries (value : Reader Value) : ℕ → List (Value × Value) → Reader (List (Value × Value))
  | 0, read => pure read
  | n + 1, read => do
    let key ← value
    if read.any (fun entry => entry.1 = key) then invalid "a map with a duplicate key"
    else do
      let item ← value
      entries value n (read ++ [(key,item)])

def simple (info : ℕ) : Reader Value :=
  if info = 20 then pure (.bool false)
  else if info = 21 then pure (.bool true)
  else if info = 22 then pure .null
  else invalid "floats and simple values are not accepted"

def text (bytes : List UInt8) : Reader Value :=
  match Text.fromUtf8 bytes with
  | some text => pure (.text text)
  | none => invalid "a text string that is not UTF-8"

/-- What follows the first byte, by its three high bits. -/
def body (value : Reader Value) (major info : ℕ) : Reader Value :=
  match major with
  | 0 => do
    let n ← argument info
    return .unsigned (UInt64.ofNat n)
  | 1 => do
    let n ← argument info
    return .negative (-1 - n)
  | 2 => do
    let len ← length info
    let bytes ← take len
    return .bytes bytes
  | 3 => do
    let len ← length info
    let bytes ← take len
    text bytes
  | 4 => do
    let n ← count info
    let items ← times value n
    return .array items
  | 5 => do
    let n ← count info
    let read ← entries value n []
    return .map read
  | 6 => invalid "tags are not accepted"
  | _ => simple info

def value : ℕ → Reader Value
  | 0 => invalid "nested too deeply"
  | room + 1 => do
    let initial ← takeByte
    body (value room) (initial >>> 5).toNat (initial &&& 0x1f).toNat

def decodePrefix (bytes : List UInt8) : Except Error (Value × ℕ) :=
  match value (maxDepth + 1) ⟨0,bytes⟩ with
  | .ok (v,s) => .ok (v,s.pos)
  | .error e => .error e

def decode (bytes : List UInt8) : Except Error Value :=
  match decodePrefix bytes with
  | .ok (v,used) =>
    if used ≠ bytes.length then .error (.badRequest "invalid CBOR: trailing bytes after the value") else .ok v
  | .error e => .error e

/-! The writer. -/

def head (major : UInt8) (argument : ℕ) : List UInt8 :=
  let major := major <<< 5
  if argument ≤ 23 then [major ||| UInt8.ofNat argument]
  else if argument ≤ 0xff then [major ||| 24,UInt8.ofNat argument]
  else if argument ≤ 0xffff then (major ||| 25) :: toBeBytes 2 argument
  else if argument ≤ 0xffffffff then (major ||| 26) :: toBeBytes 4 argument
  else (major ||| 27) :: toBeBytes 8 argument

/-- `(-1 - n) as u64`. -/
def magnitude (n : ℤ) : ℕ := ((-1 - n) % 2 ^ 64).toNat

mutual
def encode : Value → List UInt8
  | .unsigned n => head 0 n.toNat
  | .negative n => head 1 (magnitude n)
  | .bytes bytes => head 2 bytes.length ++ bytes
  | .text text => head 3 (Text.asBytes text).length ++ Text.asBytes text
  | .array items => head 4 items.length ++ encodeItems items
  | .map entries => head 5 entries.length ++ encodeEntries entries
  | .bool false => [0xf4]
  | .bool true => [0xf5]
  | .null => [0xf6]

def encodeItems : List Value → List UInt8
  | [] => []
  | a :: as => encode a ++ encodeItems as

def encodeEntries : List (Value × Value) → List UInt8
  | [] => []
  | (k,a) :: as => encode k ++ encode a ++ encodeEntries as
end

end Rainier.Mfa.Cbor
