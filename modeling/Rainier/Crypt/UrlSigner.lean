import Rainier.Crypt.Signer
import Rainier.Support.Percent
import Rainier.Support.Split
import Mathlib.Algebra.Order.Ring.Int
import Mathlib.Data.List.Sort

/-! # Signed URLs

The path and the sorted query, without `signature`, are tagged; the tag is added to the
query, and an expiry is part of what is tagged. `none` is a panic: an escape may be cut
out of the middle of a character.
-/
namespace Rainier.Crypt
open Rainier

namespace UrlSigner

/-- Everything before the query, and the query. -/
def split (url : String) : String × String := (Text.splitOnce '?' url).getD (url,"")

/-- `split_once` at a text: what comes after its first occurrence. -/
def after (sep : List Char) : List Char → Option (List Char)
  | [] => if sep.isEmpty then some [] else none
  | c :: cs => if sep <+: c :: cs then some ((c :: cs).drop sep.length) else after sep cs

/-- The path of a URL, with any scheme and authority removed. -/
def pathOf (url : String) : String :=
  match after "://".toList url.toList with
  | none => url
  | some afterScheme =>
    match afterScheme.dropWhile (· ≠ '/') with
    | [] => "/"
    | found => String.ofList found

/-- `u8::from_str_radix` of two bytes of text: a plus sign may stand before one digit. -/
def fromStrRadix (high low : UInt8) : Option UInt8 :=
  let digit (b : UInt8) : Option ℕ := if b < 128 then Percent.hexValue (Char.ofNat b.toNat) else none
  if high = 43 then (digit low).map UInt8.ofNat
  else (digit high).bind fun h => (digit low).map fun l => UInt8.ofNat (h * 16 + l)

def decodeBytes : List UInt8 → Option (List UInt8)
  | [] => some []
  | b :: rest =>
    if b = 43 then (decodeBytes rest).map (32 :: ·)
    else if b = 37 then
      match rest with
      | high :: low :: tail =>
        -- the text is cut after `low`, which must end a character
        if (tail.head?.any fun b => 0x80 ≤ b && b ≤ 0xBF) = true then none
        else
          match fromStrRadix high low with
          | some byte => (decodeBytes tail).map (byte :: ·)
          | none => (decodeBytes (high :: low :: tail)).map (37 :: ·)
      | rest => (decodeBytes rest).map (37 :: ·)
    else (decodeBytes rest).map (b :: ·)

-- The equations are derived here, before the proofs that rewrite with them.
section
attribute [local simp] decodeBytes
end

def decode (value : String) : Option String := (decodeBytes (Text.asBytes value)).map Text.fromUtf8Lossy

/-- What is not in the unreserved set is escaped. -/
def reserved (c : Char) : Bool :=
  !(('A' ≤ c && c ≤ 'Z') || ('a' ≤ c && c ≤ 'z') || ('0' ≤ c && c ≤ '9') || c = '-' || c = '.' || c = '_' || c = '~')

def percentEncode (value : String) : String := Percent.encode reserved value

abbrev Pairs := List (String × String)

def parsePair (pair : String) : Option (String × String) :=
  match Text.splitOnce '=' pair with
  | some (name,value) => do return (← decode name,← decode value)
  | none => do return (← decode pair,"")

def parse (query : String) : Option Pairs := ((Text.split '&' query).filter (· ≠ "")).mapM parsePair

def encodePair (pair : String × String) : String := percentEncode pair.1 ++ "=" ++ percentEncode pair.2

def encode (pairs : Pairs) : String := Text.join '&' (pairs.map encodePair)

def unsigned (pairs : Pairs) : Pairs := pairs.filter (·.1 ≠ "signature")

/-- By name, then by value. -/
def sorted (pairs : Pairs) : Pairs :=
  pairs.insertionSort fun a b => a.1 < b.1 ∨ (a.1 = b.1 ∧ a.2 ≤ b.2)

def canonical (path query : String) : Option String :=
  (parse query).map fun pairs => pathOf path ++ "?" ++ encode (sorted (unsigned pairs))

def valueOf (query name : String) : Option (Option String) :=
  (parse query).map fun pairs => (pairs.find? (·.1 == name)).map Prod.snd

section Keys
variable (prims : Primitives) (keys : KeyRing)

def tag (text : String) : Except Error String := do
  let detached ← HmacSigner.detachedTag prims keys text
  .ok (prims.base64.encode (Text.asBytes detached))

def verifyTag (text presented : String) : Bool :=
  match (prims.base64.decode presented).bind Text.fromUtf8 with
  | some decoded => HmacSigner.verifyDetached prims keys text decoded
  | none => false

/-- The query to be signed: neither a signature nor an expiry of its own stays. -/
def attachPairs (pairs : Pairs) (expiresAt : Option ℤ) : Pairs :=
  pairs.filter (fun pair => pair.1 ≠ "signature" ∧ pair.1 ≠ "expires") ++
    (expiresAt.map fun at_ => ("expires",at_.repr)).toList

/-- The query to be signed, and the text that is tagged for it. -/
def attachText (url : String) (expiresAt : Option ℤ) : Option (String × String) := do
  let (path,query) := split url
  let query := encode (attachPairs (← parse query) expiresAt)
  return (query,← canonical path query)

def attach (url : String) (expiresAt : Option ℤ) : Option (Except Error String) := do
  let (query,text) ← attachText url expiresAt
  return do
    let signature ← tag prims keys text
    let separator := if query.isEmpty then "" else "&"
    .ok ((split url).1 ++ "?" ++ query ++ separator ++ "signature=" ++ signature)

/-- The signature for a URL, without attaching it. -/
def signatureFor (url : String) : Option (Except Error String) :=
  (canonical (split url).1 (split url).2).map (tag prims keys)

def sign (url : String) : Option (Except Error String) := attach prims keys url none

def signUntil (url : String) (expiresAt : ℤ) : Option (Except Error String) := attach prims keys url (some expiresAt)

def verify (now : ℤ) (url : String) : Option (Except Error Unit) := do
  let (path,query) := split url
  match ← valueOf query "signature" with
  | none => return .error (.unauthorized "This link is not signed.")
  | some provided =>
    if !verifyTag prims keys (← canonical path query) provided then
      return .error (.unauthorized "This link's signature is not valid.")
    else
      match ← valueOf query "expires" with
      | none => return .ok ()
      | some expiresAt =>
        match Text.parseInt (-2 ^ 63) (2 ^ 63 - 1) expiresAt with
        | none => return .error (.unauthorized "This link's expiry is not valid.")
        | some expiresAt =>
          return if now > expiresAt then .error (.unauthorized "This link has expired.") else .ok ()

end Keys

end UrlSigner
end Rainier.Crypt
