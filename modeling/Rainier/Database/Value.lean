import Mathlib.Data.Int.Notation
import Mathlib.Data.Nat.Notation

/-! # Bound values -/
namespace Rainier.Database

inductive Width where
  | tinyInt | smallInt | int | bigInt | tinyUnsigned | smallUnsigned | unsigned | bigUnsigned
  deriving DecidableEq, Repr

/-- A bindable value, absent for a `NULL` of its type. The types that have no case of their own
in the normalisation carry their name and the text they print. -/
inductive Value where
  | int (width : Width) (n : Option ℤ)
  | bool (b : Option Bool)
  | string (s : Option String)
  | char (c : Option Char)
  | bytes (bs : Option (List UInt8))
  | other (type : String) (shown : Option String)
  deriving DecidableEq, Repr

/-- What a value holds. A `NULL` holds nothing. -/
inductive Content where
  | int (n : ℤ)
  | bool (b : Bool)
  | text (s : String)
  | bytes (bs : List UInt8)
  | other (shown : String)
  deriving DecidableEq, Repr

/-- The type of a column, as far as its values compare. -/
inductive Kind where
  | int | bool | text | bytes
  | other (type : String)
  deriving DecidableEq, Repr

namespace Value

def content : Value → Option Content
  | int _ n => n.map .int
  | bool b => b.map .bool
  | string s => s.map .text
  | char c => c.map fun c => .text (String.singleton c)
  | bytes bs => bs.map .bytes
  | other _ shown => shown.map .other

def kind : Value → Kind
  | int _ _ => .int
  | bool _ => .bool
  | string _ | char _ => .text
  | bytes _ => .bytes
  | other type _ => .other type

end Value

end Rainier.Database
