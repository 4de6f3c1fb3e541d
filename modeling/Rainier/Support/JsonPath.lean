import Mathlib.Algebra.Order.Ring.Nat
import Rainier.Support.Json
import Rainier.Support.Text

/-! # Reading, extending and writing JSON values

An object is a `serde_json::Map`, kept in the order of its keys. A path goes
through objects by key and through arrays by index.
-/
namespace Rainier.Json

/-- The largest index a `usize` holds. -/
def usizeMax : ℕ := 2 ^ 64 - 1

/-- `Map::get`. -/
def field (fields : List (String × Json)) (key : String) : Option Json := fields.lookup key

/-- `Value::get`: nothing but an object has fields. -/
def valueField (value : Json) (key : String) : Option Json :=
  match value with
  | .object fields => field fields key
  | _ => none

/-- `Value::get` and `as_str`. -/
def stringField (value : Json) (key : String) : Option String :=
  match valueField value key with
  | some (.string text) => some text
  | _ => none

/-- `Map::insert`. -/
def insert : List (String × Json) → String → Json → List (String × Json)
  | [], key, value => [(key,value)]
  | (k,v) :: rest, key, value =>
    if key = k then (k,value) :: rest
    else if key < k then (key,value) :: (k,v) :: rest
    else (k,v) :: insert rest key value

/-- `Map::remove`. -/
def remove (fields : List (String × Json)) (key : String) : List (String × Json) := fields.filter fun f => f.1 ≠ key

@[simp] theorem field_nil (key : String) : field [] key = none := rfl

theorem field_cons (entry : String × Json) (rest : List (String × Json)) (k : String) :
    field (entry :: rest) k = if k = entry.1 then some entry.2 else field rest k := by
  rw [field,List.lookup_cons]
  by_cases h : k = entry.1
  · rw [if_pos h,beq_iff_eq.mpr h]
  · rw [if_neg h,beq_eq_false_iff_ne.mpr h]
    rfl

theorem field_insert (fields : List (String × Json)) (key : String) (value : Json) (k : String) :
    field (insert fields key value) k = if k = key then some value else field fields k := by
  induction fields with
  | nil => rw [insert,field_cons]
  | cons entry rest ih =>
    rw [insert]
    split
    · next heq =>
      subst heq
      rw [field_cons,field_cons]
      by_cases h : k = entry.1 <;> simp [h]
    · next hne =>
      split
      · rw [field_cons]
      · rw [field_cons,field_cons,ih]
        by_cases h : k = key
        · subst h
          rw [if_neg hne,if_pos rfl,if_pos rfl]
        · simp only [if_neg h]

theorem field_remove (fields : List (String × Json)) (key k : String) :
    field (remove fields key) k = if k = key then none else field fields k := by
  unfold remove
  induction fields with
  | nil => simp
  | cons entry rest ih =>
    by_cases hk : entry.1 = key
    · rw [List.filter_cons_of_neg (by simpa using hk),ih,field_cons,hk]
      by_cases h : k = key <;> simp [h]
    · rw [List.filter_cons_of_pos (by simpa using hk),field_cons,field_cons,ih]
      by_cases h : k = entry.1
      · rw [if_pos h,if_pos h,if_neg (h ▸ hk)]
      · rw [if_neg h,if_neg h]

/-- One step down: a key of an object, or an index of an array as `str::parse` reads it. -/
def child : Json → String → Option Json
  | .object fields, segment => field fields segment
  | .array items, segment => (Text.parseUInt usizeMax segment).bind fun i => items[i]?
  | _, _ => none

def walk (root : Json) (segments : List String) : Option Json := segments.foldlM child root

@[simp] theorem walk_nil (root : Json) : root.walk [] = some root := rfl

theorem walk_cons (root : Json) (segment : String) (segments : List String) :
    root.walk (segment :: segments) = (root.child segment).bind fun next => next.walk segments := rfl

theorem walk_append (root : Json) (as bs : List String) :
    root.walk (as ++ bs) = (root.walk as).bind fun next => next.walk bs := by
  unfold walk
  rw [List.foldlM_append]
  rfl

/-! The compact text of a value. -/

def hexDigit (n : ℕ) : Char := "0123456789abcdef".toList.getD n '0'

def escapeChar (c : Char) : List Char :=
  if c = '"' then ['\\','"']
  else if c = '\\' then ['\\','\\']
  else if c.toNat = 8 then ['\\','b']
  else if c.toNat = 9 then ['\\','t']
  else if c.toNat = 10 then ['\\','n']
  else if c.toNat = 12 then ['\\','f']
  else if c.toNat = 13 then ['\\','r']
  else if c.toNat < 32 then ['\\','u','0','0',hexDigit (c.toNat / 16),hexDigit (c.toNat % 16)]
  else [c]

def writeString (s : String) : String := "\"" ++ String.ofList (s.toList.flatMap escapeChar) ++ "\""

/-- `Number::to_string`, with the text of a float given; `negInt n` is `-1 - n`. -/
def writeNumber (float : BitVec 64 → String) : JsonNumber → String
  | .posInt n => toString n
  | .negInt n => "-" ++ toString (n + 1)
  | .float bits => float bits

mutual
def write (float : BitVec 64 → String) : Json → String
  | .null => "null"
  | .bool b => toString b
  | .number n => writeNumber float n
  | .string s => writeString s
  | .array items => "[" ++ writeItems float true items ++ "]"
  | .object fields => "\x7b" ++ writeFields float true fields ++ "\x7d"

def writeItems (float : BitVec 64 → String) (first : Bool) : List Json → String
  | [] => ""
  | a :: rest => (if first then "" else ",") ++ write float a ++ writeItems float false rest

def writeFields (float : BitVec 64 → String) (first : Bool) : List (String × Json) → String
  | [] => ""
  | (k,a) :: rest =>
    (if first then "" else ",") ++ writeString k ++ ":" ++ write float a ++ writeFields float false rest
end

end Rainier.Json
