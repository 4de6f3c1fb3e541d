import Rainier.Support.Base64
import Rainier.Support.Error
import Rainier.Support.Text

/-! # Detached tags

A tag names the key it was made with, so that a ring verifies what any of its keys
tagged. The hash, the MAC and base64 are parameters.
-/
namespace Rainier.Crypt
open Rainier

structure Primitives where
  /-- `URL_SAFE_NO_PAD`. -/
  base64 : Base64
  sha256 : List UInt8 → List UInt8
  /-- HMAC-SHA256 of a message under a key; it may refuse the key's length. -/
  hmac : List UInt8 → List UInt8 → Option (List UInt8)

structure Key where
  bytes : List UInt8
  length_eq : bytes.length = 32

/-- `{byte:02x}`. -/
def hexByte (b : UInt8) : List Char := [Nat.digitChar (b.toNat / 16),Nat.digitChar (b.toNat % 16)]

/-- A hash of the key, truncated. -/
def fingerprint (prims : Primitives) (bytes : List UInt8) : String :=
  String.ofList (((prims.sha256 (Text.asBytes "rainier-key-id\x00" ++ bytes)).take 4).flatMap hexByte)

def Key.id (prims : Primitives) (key : Key) : String := fingerprint prims key.bytes

/-- The current key, and retired ones. -/
structure KeyRing where
  current : Key
  previous : List Key

namespace KeyRing

def all (ring : KeyRing) : List Key := ring.current :: ring.previous

def find (prims : Primitives) (ring : KeyRing) (id : String) : Option Key := ring.all.find? (·.id prims == id)

end KeyRing

namespace HmacSigner
variable (prims : Primitives) (keys : KeyRing)

/-- The key's id is part of what is tagged. -/
def tag (key : Key) (value : String) : Except Error (List UInt8) :=
  match prims.hmac key.bytes (Text.asBytes (key.id prims) ++ Text.asBytes "." ++ Text.asBytes value) with
  | some bytes => .ok bytes
  | none => .error (.internal "the key is the wrong length for HMAC-SHA256")

def detachedTag (value : String) : Except Error String := do
  let bytes ← tag prims keys.current value
  .ok (keys.current.id prims ++ "." ++ prims.base64.encode bytes)

def verifyDetached (value tagged : String) : Bool :=
  match Text.splitOnce '.' tagged with
  | none => false
  | some (keyId,encoded) =>
    match keys.find prims keyId with
    | none => false
    | some key =>
      match tag prims key value, prims.base64.decode encoded with
      | .ok expected, some presented => presented == expected
      | _, _ => false

variable {prims keys}

theorem dot_not_mem_id (key : Key) : '.' ∉ (key.id prims).toList := by
  have hdigit : ∀ n < 16, Nat.digitChar n ≠ '.' := by decide
  rw [Key.id,fingerprint,String.toList_ofList]
  intro h
  obtain ⟨b,_,hb⟩ := List.mem_flatMap.mp h
  have hlt := b.toNat_lt
  rw [hexByte,List.mem_cons,List.mem_singleton] at hb
  rcases hb with hb | hb
  · exact hdigit _ (by omega) hb.symm
  · exact hdigit _ (by omega) hb.symm

/-- A ring verifies its own tags. -/
theorem verifyDetached_detachedTag {value tagged : String} (h : detachedTag prims keys value = .ok tagged) :
    verifyDetached prims keys value tagged = true := by
  obtain ⟨bytes,hbytes,hok⟩ := bind_eq_ok.mp h
  cases hok
  have hfind : keys.find prims (keys.current.id prims) = some keys.current := by
    rw [KeyRing.find,KeyRing.all,List.find?_cons_of_pos (by simp)]
  have hsplit : Text.splitOnce '.' (keys.current.id prims ++ "." ++ prims.base64.encode bytes) =
      some (keys.current.id prims,prims.base64.encode bytes) := Text.splitOnce_append (dot_not_mem_id _) _
  rw [verifyDetached,hsplit]
  simp [hfind,hbytes,prims.base64.decode_encode]

end HmacSigner
end Rainier.Crypt
