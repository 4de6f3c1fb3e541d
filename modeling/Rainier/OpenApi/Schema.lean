import Mathlib.Logic.Function.Basic
import Rainier.Support.Pattern
import Rainier.Validation.Validator

/-! # Schemas from validation rules

The schema of a field is built keyword by keyword from its rules; a keyword set twice
keeps the later value. What a schema means is stated after JSON Schema.
-/
namespace Rainier.OpenApi
open Rainier Rainier.Validation

/-- The `type` keyword. -/
inductive JsonType where
  | string
  | integer
  | number
  | boolean
  | array
  deriving DecidableEq, Repr

/-- What a field holds, as far as the rules say. -/
inductive Kind where
  | string
  | integer
  | number
  | boolean
  | array
  | email
  | url
  | uuid
  | date
  deriving DecidableEq, Repr

namespace Kind

def jsonType : Kind → JsonType
  | integer => .integer
  | number => .number
  | boolean => .boolean
  | array => .array
  | _ => .string

def format : Kind → Option String
  | email => some "email"
  | url => some "uri"
  | uuid => some "uuid"
  | date => some "date"
  | _ => none

/-- Whether a bound counts characters or measures a value. -/
def measuresLength : Kind → Bool
  | integer | number => false
  | _ => true

end Kind

/-- The keywords of one field. -/
structure Property where
  type : JsonType
  format : Option String
  minLength : Option ℕ
  maxLength : Option ℕ
  minItems : Option ℕ
  maxItems : Option ℕ
  minimum : Option F64
  maximum : Option F64
  allowed : Option (List String)
  pattern : Option String

structure Schema where
  properties : String → Option Property
  required : List String

inductive Edge where
  | min
  | max
  deriving DecidableEq, Repr

section Generation
variable {D : Type}

/-- `minLength` for text, `minimum` for a number, `minItems` for an array. -/
def bound (property : Property) (kind : Kind) (edge : Edge) (value : F64) : Property :=
  match kind, edge with
  | .array, .min => { property with minItems := some value.toU64 }
  | .array, .max => { property with maxItems := some value.toU64 }
  | kind, .min =>
    if kind.measuresLength then { property with minLength := some value.toU64 }
    else { property with minimum := some value }
  | kind, .max =>
    if kind.measuresLength then { property with maxLength := some value.toU64 }
    else { property with maximum := some value }

/-- A literal inside a regular expression. -/
def escape (literal : String) : String := String.ofList (literal.toList.flatMap Pattern.escapeChar)

def addRule (kind : Kind) (property : Property) : Rule D → Property
  | .min value => bound property kind .min value
  | .max value => bound property kind .max value
  | .size value => bound (bound property kind .min value) kind .max value
  | .between low high => bound (bound property kind .min low) kind .max high
  | .isIn values => { property with allowed := some values }
  | .startsWith start => { property with pattern := some ("^" ++ escape start) }
  | .endsWith ending => { property with pattern := some (escape ending ++ "$") }
  | .slug => { property with pattern := some "^[A-Za-z0-9_-]+$" }
  | .alpha => { property with pattern := some "^[A-Za-z]+$" }
  | .alphaNumeric => { property with pattern := some "^[A-Za-z0-9]+$" }
  | .alphaDash => { property with pattern := some "^[A-Za-z0-9_-]+$" }
  | _ => property

/-- The type after one more rule: the later rule wins, but a number does not replace an integer. -/
def narrow (kind : Kind) : Rule D → Kind
  | .integer => .integer
  | .numeric => if kind ≠ .integer then .number else kind
  | .boolean => .boolean
  | .array => .array
  | .email => .email
  | .url => .url
  | .uuid => .uuid
  | .date => .date
  | _ => kind

/-- The most specific type the rules imply. -/
def kindOf (rules : List (Rule D)) : Kind := rules.foldl narrow .string

def emptyProperty (kind : Kind) : Property :=
  ⟨kind.jsonType,kind.format,none,none,none,none,none,none,none,none⟩

def propertyFor (rules : List (Rule D)) : Property :=
  rules.foldl (addRule (kindOf rules)) (emptyProperty (kindOf rules))

def isRequired (rules : List (Rule D)) : Bool := rules.any fun rule => match rule with
  | .required => true
  | _ => false

def schemaFor (rules : List (String × List (Rule D))) : Schema where
  properties := rules.foldl (fun properties entry => Function.update properties entry.1 (some (propertyFor entry.2)))
    fun _ => none
  required := (rules.filter fun entry => isRequired entry.2).map Prod.fst

end Generation

/-! ## What a schema means -/

/-- The mathematical value of a number. -/
def numberValue : JsonNumber → Option ℚ
  | .posInt n => some n
  | .negInt n => some (-1 - n)
  | .float bits =>
    match F64.ofBits bits with
    | .finite q => some q
    | _ => none

/-- An integer is any number without a fraction, however it is written. -/
def HasType : JsonType → Json → Prop
  | .string, .string _ => True
  | .integer, .number n => ∃ z : ℤ, numberValue n = some z
  | .number, .number _ => True
  | .boolean, .bool _ => True
  | .array, .array _ => True
  | _, _ => False

/-- Every keyword holds of the values it is about. -/
structure Property.Valid (p : Property) (v : Json) : Prop where
  type : HasType p.type v
  minLength : ∀ n s, p.minLength = some n → v = .string s → n ≤ s.toList.length
  maxLength : ∀ n s, p.maxLength = some n → v = .string s → s.toList.length ≤ n
  minItems : ∀ n items, p.minItems = some n → v = .array items → n ≤ items.length
  maxItems : ∀ n items, p.maxItems = some n → v = .array items → items.length ≤ n
  minimum : ∀ q n, p.minimum = some (.finite q) → v = .number n → ∃ x, numberValue n = some x ∧ q ≤ x
  maximum : ∀ q n, p.maximum = some (.finite q) → v = .number n → ∃ x, numberValue n = some x ∧ x ≤ q
  allowed : ∀ values, p.allowed = some values → ∃ s ∈ values, v = .string s
  pattern : ∀ t s, p.pattern = some t → v = .string s → Pattern.Matches t s

/-- An object has the required fields, and a schema's fields are valid where they are there. -/
structure Schema.Valid (schema : Schema) (fields : List (String × Json)) : Prop where
  required : ∀ name ∈ schema.required, Json.field fields name ≠ none
  properties : ∀ name p v, schema.properties name = some p → Json.field fields name = some v → p.Valid v

end Rainier.OpenApi
