import Rainier.Support.Float64
import Rainier.Support.JsonPath
import Rainier.Support.Split

/-! # Validation rules

A rule passes a value, refuses it with a message, or has nothing to say of one that is
not there. Dates and the texts of floats are parameters. A test that every byte is an
ASCII letter or digit is made on characters: the bytes of any other character fail it.
-/
namespace Rainier.Validation
open Rainier

/-- `chrono::NaiveDate`, and how floats are written. -/
structure Formats (D : Type) where
  /-- `NaiveDate::parse_from_str` with `%Y-%m-%d`. -/
  parseDate : String → Option D
  dateLt : D → D → Bool
  dateText : D → String
  /-- `Display` of a float that has a fraction. -/
  floatText : F64 → String
  /-- `Number::to_string` of a float. -/
  numberText : BitVec 64 → String

inductive Outcome where
  | pass
  | fail (message : String)
  | skip
  deriving DecidableEq, Repr

inductive Rule (D : Type) where
  | required
  | present
  | notNull
  | string
  | integer
  | numeric
  | boolean
  | array
  | min (bound : F64)
  | max (bound : F64)
  | size (bound : F64)
  | between (low high : F64)
  | email
  | url
  | slug
  | uuid
  | alpha
  | alphaNumeric
  | alphaDash
  | isIn (allowed : List String)
  | notIn (denied : List String)
  | startsWith (start : String)
  | endsWith (ending : String)
  | date
  | after (bound : D)
  | before (bound : D)
  | confirmed
  | same (other : String)
  | different (other : String)
  | custom (message : String) (predicate : Json → Bool)

mutual
/-- `==` of values: floats are compared as numbers. -/
def sameValue : Json → Json → Bool
  | .null, .null => true
  | .bool a, .bool b => a = b
  | .number (.float a), .number (.float b) => F64.eq (F64.ofBits a) (F64.ofBits b)
  | .number a, .number b => a = b
  | .string a, .string b => a = b
  | .array as, .array bs => sameItems as bs
  | .object as, .object bs => sameFields as bs
  | _, _ => false

def sameItems : List Json → List Json → Bool
  | [], [] => true
  | a :: as, b :: bs => sameValue a b && sameItems as bs
  | _, _ => false

def sameFields : List (String × Json) → List (String × Json) → Bool
  | [], [] => true
  | (j,a) :: as, (k,b) :: bs => j = k && sameValue a b && sameFields as bs
  | _, _ => false
end

/-- The value a dotted path leads to. -/
def lookup (root : Json) (path : String) : Option Json := root.walk (Text.split '.' path)

/-- A field's human-readable name. -/
def label (field : String) : String := String.ofList (field.toList.map fun c => if c = '_' ∨ c = '.' then ' ' else c)

def isFilled : Option Json → Bool
  | none | some .null => false
  | some (.string s) => Text.trim s ≠ ""
  | some (.array items) => !items.isEmpty
  | some (.object fields) => !fields.isEmpty
  | some _ => true

inductive Measure where
  | number (n : F64)
  | length (n : ℕ)
  deriving DecidableEq, Repr

/-- A numeric string is measured as a number. -/
def measure : Json → Measure
  | .number n => .number (F64.ofNumber n)
  | .string s =>
    match F64.parse s with
    | some n => .number n
    | none => .length s.toList.length
  | .array items => .length items.length
  | .object fields => .length fields.length
  | .bool _ | .null => .length 0

def unit : Json → String
  | .array _ | .object _ => "items"
  | _ => "characters"

def asNumber : Json → Option F64
  | .number n => some (F64.ofNumber n)
  | .string s => F64.parse (Text.trim s)
  | _ => none

/-- `Number::as_i64`. -/
def asI64 : JsonNumber → Option ℤ
  | .posInt n => if n ≤ 2 ^ 63 - 1 then some n else none
  | .negInt n => some (-1 - n)
  | .float _ => none

def asInteger : Json → Option ℤ
  | .number n => asI64 n
  | .string s => Text.parseInt (-2 ^ 63) (2 ^ 63 - 1) (Text.trim s)
  | _ => none

def asBool : Json → Option Bool
  | .bool b => some b
  | .string s =>
    let word := String.ofList ((Text.trim s).toList.map Char.toLower)
    if word ∈ ["true","1","on","yes"] then some true
    else if word ∈ ["false","0","off","no"] then some false
    else none
  | .number n => (asI64 n).bind fun i => if i = 0 ∨ i = 1 then some (i ≠ 0) else none
  | _ => none

def isAlphabetic (c : Char) : Bool := ('A' ≤ c && c ≤ 'Z') || ('a' ≤ c && c ≤ 'z')
def isAlphanumeric (c : Char) : Bool := isAlphabetic c || Text.isDigit c
def isHexdigit (c : Char) : Bool := Text.isDigit c || ('A' ≤ c && c ≤ 'F') || ('a' ≤ c && c ≤ 'f')
def isDash (c : Char) : Bool := isAlphanumeric c || c = '-' || c = '_'

/-- A text that is not empty and has only such characters. -/
def allChars (ok : Char → Bool) (v : String) : Bool := v ≠ "" && v.toList.all ok

def isEmail (v : String) : Bool :=
  match Text.splitOnce '@' v with
  | none => false
  | some (name,domain) =>
    if name = "" ∨ domain = "" ∨ ' ' ∈ v.toList then false
    else if '@' ∈ domain.toList ∨ domain.toList.head? = some '.' ∨ domain.toList.getLast? = some '.' then false
    else
      match Text.splitOnce '.' domain with
      | some (head,tail) => head ≠ "" && tail ≠ "" && ' ' ∉ tail.toList
      | none => false

def isUrl (v : String) : Bool :=
  match (Text.stripPrefix "https://" v).or (Text.stripPrefix "http://" v) with
  | some rest => rest ≠ "" && rest.toList.head? ≠ some '/' && ' ' ∉ rest.toList
  | none => false

def isUuid (v : String) : Bool :=
  let parts := Text.split '-' v
  parts.length = 5 && (parts.zip [8,4,4,4,12]).all fun p => p.1.toList.length = p.2 && p.1.toList.all isHexdigit

def check (passed : Bool) (message : String) : Outcome := if passed then .pass else .fail message

namespace Rule
variable {D : Type}

def name : Rule D → String
  | required => "required"
  | present => "present"
  | notNull => "not_null"
  | string => "string"
  | integer => "integer"
  | numeric => "numeric"
  | boolean => "boolean"
  | array => "array"
  | min _ => "min"
  | max _ => "max"
  | size _ => "size"
  | between _ _ => "between"
  | email => "email"
  | url => "url"
  | slug => "slug"
  | uuid => "uuid"
  | alpha => "alpha"
  | alphaNumeric => "alpha_num"
  | alphaDash => "alpha_dash"
  | isIn _ => "in"
  | notIn _ => "not_in"
  | startsWith _ => "starts_with"
  | endsWith _ => "ends_with"
  | date => "date"
  | after _ => "after"
  | before _ => "before"
  | confirmed => "confirmed"
  | same _ => "same"
  | different _ => "different"
  | custom _ _ => "custom"

def appliesToMissing : Rule D → Bool
  | required | present | notNull => true
  | _ => false

variable (fm : Formats D)

/-- `trim_float`. -/
def trimFloat (value : F64) : String := if value.isIntegral then value.toI64.repr else fm.floatText value

/-- What a value reads as when it is a scalar. -/
def text : Json → Option String
  | .string s => some s
  | .number n => some (Json.writeNumber fm.numberText n)
  | .bool b => some (toString b)
  | _ => none

def textIs (value : Json) (test : String → Bool) : Bool := (text fm value).any test

/-- A value that is there, and not null, against a rule that is not about presence. -/
def checkValue (field : String) (value all : Json) : Rule D → Outcome
  | required | present | notNull => .pass
  | string => check (match value with | .string _ => true | _ => false) ("The " ++ label field ++ " field must be a string.")
  | integer => check (asInteger value).isSome ("The " ++ label field ++ " field must be an integer.")
  | numeric => check (asNumber value).isSome ("The " ++ label field ++ " field must be a number.")
  | boolean => check (asBool value).isSome ("The " ++ label field ++ " field must be true or false.")
  | array => check (match value with | .array _ => true | _ => false) ("The " ++ label field ++ " field must be an array.")
  | min bound =>
    match measure value with
    | .number n => check (bound.le n) ("The " ++ label field ++ " field must be at least " ++ trimFloat fm bound ++ ".")
    | .length len => check (bound.le (.ofNat len))
        ("The " ++ label field ++ " field must be at least " ++ trimFloat fm bound ++ " " ++ unit value ++ ".")
  | max bound =>
    match measure value with
    | .number n =>
      check (n.le bound) ("The " ++ label field ++ " field must not be greater than " ++ trimFloat fm bound ++ ".")
    | .length len => check ((F64.ofNat len).le bound)
        ("The " ++ label field ++ " field must not be greater than " ++ trimFloat fm bound ++ " " ++ unit value ++ ".")
  | size bound =>
    match measure value with
    | .number n => check (n.near bound) ("The " ++ label field ++ " field must be " ++ trimFloat fm bound ++ ".")
    | .length len => check ((F64.ofNat len).eq bound)
        ("The " ++ label field ++ " field must be " ++ trimFloat fm bound ++ " " ++ unit value ++ ".")
  | between low high =>
    let actual := match measure value with
      | .number n => n
      | .length len => .ofNat len
    check (low.le actual && actual.le high)
      ("The " ++ label field ++ " field must be between " ++ trimFloat fm low ++ " and " ++ trimFloat fm high ++ ".")
  | email => check (textIs fm value isEmail) ("The " ++ label field ++ " field must be a valid email address.")
  | url => check (textIs fm value isUrl) ("The " ++ label field ++ " field must be a valid URL.")
  | slug => check (textIs fm value (allChars isDash)) ("The " ++ label field ++ " field must be a valid slug.")
  | uuid => check (textIs fm value isUuid) ("The " ++ label field ++ " field must be a valid UUID.")
  | alpha => check (textIs fm value (allChars isAlphabetic)) ("The " ++ label field ++ " field must only contain letters.")
  | alphaNumeric => check (textIs fm value (allChars isAlphanumeric))
      ("The " ++ label field ++ " field must only contain letters and numbers.")
  | alphaDash => check (textIs fm value (allChars isDash))
      ("The " ++ label field ++ " field must only contain letters, numbers, dashes and underscores.")
  | isIn allowed => check (textIs fm value (· ∈ allowed)) ("The selected " ++ label field ++ " is invalid.")
  | notIn denied => check (textIs fm value (· ∉ denied)) ("The selected " ++ label field ++ " is invalid.")
  | startsWith start => check (textIs fm value fun v => start.toList <+: v.toList)
      ("The " ++ label field ++ " field must start with " ++ start ++ ".")
  | endsWith ending => check (textIs fm value fun v => ending.toList <:+ v.toList)
      ("The " ++ label field ++ " field must end with " ++ ending ++ ".")
  | date => check (textIs fm value fun v => (fm.parseDate (Text.trim v)).isSome)
      ("The " ++ label field ++ " field must be a valid date.")
  | after bound => check (textIs fm value fun v => (fm.parseDate (Text.trim v)).any fun d => fm.dateLt bound d)
      ("The " ++ label field ++ " field must be a date after " ++ fm.dateText bound ++ ".")
  | before bound => check (textIs fm value fun v => (fm.parseDate (Text.trim v)).any fun d => fm.dateLt d bound)
      ("The " ++ label field ++ " field must be a date before " ++ fm.dateText bound ++ ".")
  | confirmed => check ((lookup all (field ++ "_confirmation")).any fun other => sameValue other value)
      ("The " ++ label field ++ " field confirmation does not match.")
  | same other => check ((lookup all other).any fun found => sameValue found value)
      ("The " ++ label field ++ " field must match " ++ label other ++ ".")
  | different other => check (!(lookup all other).any fun found => sameValue found value)
      ("The " ++ label field ++ " field must be different from " ++ label other ++ ".")
  | custom message predicate => check (predicate value) message

/-- Presence first: every other rule sits out what is absent or null. -/
def check (field : String) (value : Option Json) (all : Json) (rule : Rule D) : Outcome :=
  match rule with
  | required => if isFilled value then .pass else .fail ("The " ++ label field ++ " field is required.")
  | present => if value.isSome then .pass else .fail ("The " ++ label field ++ " field must be present.")
  | notNull => if value = some .null then .fail ("The " ++ label field ++ " field must not be null.") else .pass
  | rule =>
    match value with
    | none | some .null => .skip
    | some value => checkValue fm field value all rule

end Rule
end Rainier.Validation
