import Mathlib.Data.List.Basic

/-! # JSON values

`serde_json::Value`, with an object as its key-ordered field list and a float
as its bits. The reader of `serde_json` refuses a text nested past its
recursion limit while the writer has none, so a value written is not always a
value that can be read back.
-/
namespace Rainier

inductive JsonNumber where
  | posInt (n : ℕ)
  | negInt (n : ℕ)
  | float (bits : BitVec 64)
  deriving DecidableEq, Repr

inductive Json where
  | null
  | bool (b : Bool)
  | number (n : JsonNumber)
  | string (s : String)
  | array (items : List Json)
  | object (fields : List (String × Json))
  deriving Repr

namespace Json

mutual
def decEq : (a b : Json) → Decidable (a = b)
  | .null, .null => .isTrue rfl
  | .bool a, .bool b => decidable_of_iff (a = b) (by simp)
  | .number a, .number b => decidable_of_iff (a = b) (by simp)
  | .string a, .string b => decidable_of_iff (a = b) (by simp)
  | .array as, .array bs => match decEqItems as bs with
    | .isTrue h => .isTrue (by rw [h])
    | .isFalse h => .isFalse (by simpa using h)
  | .object as, .object bs => match decEqFields as bs with
    | .isTrue h => .isTrue (by rw [h])
    | .isFalse h => .isFalse (by simpa using h)
  | .null, .bool _ | .null, .number _ | .null, .string _ | .null, .array _ | .null, .object _
  | .bool _, .null | .bool _, .number _ | .bool _, .string _ | .bool _, .array _ | .bool _, .object _
  | .number _, .null | .number _, .bool _ | .number _, .string _ | .number _, .array _
  | .number _, .object _ | .string _, .null | .string _, .bool _ | .string _, .number _
  | .string _, .array _ | .string _, .object _ | .array _, .null | .array _, .bool _
  | .array _, .number _ | .array _, .string _ | .array _, .object _ | .object _, .null
  | .object _, .bool _ | .object _, .number _ | .object _, .string _ | .object _, .array _ =>
    .isFalse (by simp)

def decEqItems : (as bs : List Json) → Decidable (as = bs)
  | [], [] => .isTrue rfl
  | [], _ :: _ => .isFalse (by simp)
  | _ :: _, [] => .isFalse (by simp)
  | a :: as, b :: bs => match decEq a b, decEqItems as bs with
    | .isTrue h, .isTrue h' => .isTrue (by rw [h,h'])
    | .isFalse h, _ => .isFalse (by simp [h])
    | _, .isFalse h => .isFalse (by simp [h])

def decEqFields : (as bs : List (String × Json)) → Decidable (as = bs)
  | [], [] => .isTrue rfl
  | [], _ :: _ => .isFalse (by simp)
  | _ :: _, [] => .isFalse (by simp)
  | (j,a) :: as, (k,b) :: bs => match decEq a b, decEqFields as bs with
    | .isTrue h, .isTrue h' =>
      if hk : j = k then .isTrue (by rw [h,h',hk]) else .isFalse (by simp [hk])
    | .isFalse h, _ => .isFalse (by simp [h])
    | _, .isFalse h => .isFalse (by simp [h])
end

instance : DecidableEq Json := decEq

mutual
/-- How many arrays and objects enclose the deepest point of the value. -/
def depth : Json → ℕ
  | .null | .bool _ | .number _ | .string _ => 0
  | .array items => depthItems items + 1
  | .object fields => depthFields fields + 1

def depthItems : List Json → ℕ
  | [] => 0
  | a :: rest => max (depth a) (depthItems rest)

def depthFields : List (String × Json) → ℕ
  | [] => 0
  | (_,a) :: rest => max (depth a) (depthFields rest)
end

/-- The nesting `serde_json` reads: it gives up on entering level 128. -/
def recursionLimit : ℕ := 127

/-- `value` wrapped in `n` arrays. -/
def nested (value : Json) : ℕ → Json
  | 0 => value
  | n + 1 => .array [nested value n]

end Json
end Rainier
