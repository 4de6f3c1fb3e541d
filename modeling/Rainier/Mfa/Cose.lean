import Rainier.Mfa.Cbor

/-! # A passkey's public key

`Signatures` is what the code relies on of the crates `p256`, `ed25519_dalek`, `rsa` and `sha2`: which encoded
keys are keys, which signatures verify, and the digest.
-/
namespace Rainier.Mfa
open Cbor

structure Signatures where
  /-- `VerifyingKey::from_sec1_bytes`, of a point with its tag. -/
  p256Point : List UInt8 → Bool
  /-- The signature is in DER. -/
  p256Verifies : List UInt8 → List UInt8 → List UInt8 → Bool
  ed25519Point : List UInt8 → Bool
  ed25519Verifies : List UInt8 → List UInt8 → List UInt8 → Bool
  /-- The size of a valid key, in bytes. -/
  rsaSize : List UInt8 → List UInt8 → Option ℕ
  rsaVerifies : List UInt8 → List UInt8 → List UInt8 → List UInt8 → Bool
  sha256 : List UInt8 → List UInt8
  length_sha256 : ∀ bytes, (sha256 bytes).length = 32

inductive CoseAlgorithm where
  | es256 | edDsa | rs256
  deriving DecidableEq, Repr

namespace CoseAlgorithm

def all : List CoseAlgorithm := [.es256,.edDsa,.rs256]

def id : CoseAlgorithm → ℤ
  | .es256 => -7
  | .edDsa => -8
  | .rs256 => -257

def fromId (id : ℤ) : Option CoseAlgorithm :=
  if id = -7 then some .es256 else if id = -8 then some .edDsa else if id = -257 then some .rs256 else none

end CoseAlgorithm

/-- A coordinate. -/
abbrev Bytes32 := {bytes : List UInt8 // bytes.length = 32}

inductive CoseKey where
  | es256 (x y : Bytes32)
  | ed25519 (x : Bytes32)
  | rs256 (n e : List UInt8)
  deriving DecidableEq

namespace CoseKey

variable (c : Signatures)

def invalid (why : String) : Error := .badRequest ("invalid passkey public key: " ++ why)

def fixed (bytes : Option (List UInt8)) (name : String) : Except Error Bytes32 :=
  match bytes with
  | some bytes => if h : bytes.length = 32 then .ok ⟨bytes,h⟩ else .error (invalid ("a coordinate `" ++ name ++ "` that is not 32 bytes"))
  | none => .error (invalid ("a coordinate `" ++ name ++ "` that is not 32 bytes"))

def sec1 (x y : Bytes32) : List UInt8 := 0x04 :: x.1 ++ y.1

/-- `rsa_key`, as to whether there is one. -/
def rsaKey (n e : List UInt8) : Except Error Unit :=
  match c.rsaSize n e with
  | none => .error (invalid "an RSA key that is not valid")
  | some size => if size * 8 < 2048 then .error (invalid "an RSA modulus shorter than 2048 bits") else .ok ()

def validate : CoseKey → Except Error Unit
  | .es256 x y => if c.p256Point (sec1 x y) then .ok () else .error (invalid "a P-256 point that is not on the curve")
  | .ed25519 x => if c.ed25519Point x.1 then .ok () else .error (invalid "an Ed25519 key that is not a valid point")
  | .rs256 n e => rsaKey c n e

def algorithm : CoseKey → CoseAlgorithm
  | .es256 _ _ => .es256
  | .ed25519 _ => .edDsa
  | .rs256 _ _ => .rs256

/-- The key that a decoded map says, not validated. -/
def read (value : Value) : Except Error CoseKey :=
  let int := fun key => (value.getInt key).bind Value.asInt
  let bytes := fun key => (value.getInt key).bind Value.asBytes
  match int 1 with
  | none => .error (invalid "no key type")
  | some kty =>
    match (int 3).bind CoseAlgorithm.fromId with
    | none => .error (invalid "an algorithm other than ES256, EdDSA or RS256")
    | some .es256 =>
      if kty ≠ 2 then .error (invalid "a key type that does not match its algorithm")
      else if int (-1) ≠ some 1 then .error (invalid "an EC2 key on a curve other than P-256")
      else do
        let x ← fixed (bytes (-2)) "x"
        let y ← fixed (bytes (-3)) "y"
        return .es256 x y
    | some .edDsa =>
      if kty ≠ 1 then .error (invalid "a key type that does not match its algorithm")
      else if int (-1) ≠ some 6 then .error (invalid "an OKP key on a curve other than Ed25519")
      else do
        let x ← fixed (bytes (-2)) "x"
        return .ed25519 x
    | some .rs256 =>
      if kty ≠ 3 then .error (invalid "a key type that does not match its algorithm")
      else
        match bytes (-1) with
        | none => .error (invalid "an RSA key with no modulus")
        | some n =>
          match bytes (-2) with
          | none => .error (invalid "an RSA key with no exponent")
          | some e => .ok (.rs256 n e)

def fromValue (value : Value) : Except Error CoseKey := do
  let key ← read value
  key.validate c
  return key

def fromBytes (bytes : List UInt8) : Except Error CoseKey := do
  let value ← decode bytes
  fromValue c value

def verified (key : CoseKey) (message signature : List UInt8) : Bool :=
  match key with
  | .es256 x y => c.p256Point (sec1 x y) && c.p256Verifies (sec1 x y) message signature
  | .ed25519 x => c.ed25519Point x.1 && c.ed25519Verifies x.1 message signature
  | .rs256 n e => (rsaKey c n e).isOk && c.rsaVerifies n e (c.sha256 message) signature

def verify (key : CoseKey) (message signature : List UInt8) : Except Error Unit :=
  if key.verified c message signature then .ok () else .error (.unauthorized "The passkey signature did not verify.")

end CoseKey

end Rainier.Mfa
