import Rainier.Mfa.CborGrammar
import Rainier.Mfa.CborReader
import Rainier.Mfa.Passkey

/-! # What authenticator data is made of

The parts of authenticator data in their order, with the two that a flag announces. The parser
accepts what is made so, with nothing left over, and reports the parts. No slice that it takes is
out of bounds.
-/
namespace Rainier.Mfa
open Cbor Bytes

/-! ## Keys -/

def intAt (v : Value) (key : ℤ) : Option ℤ := (v.getInt key).bind Value.asInt

def bytesAt (v : Value) (key : ℤ) : Option (List UInt8) := (v.getInt key).bind Value.asBytes

/-- A map that is a key: its type, its algorithm and its curve go together, and its numbers are a key of that kind. -/
inductive KeyMap (c : Signatures) (v : Value) : CoseKey → Prop where
  | es256 {x y : Bytes32} (hkty : intAt v 1 = some 2) (halg : intAt v 3 = some (-7)) (hcrv : intAt v (-1) = some 1)
      (hx : bytesAt v (-2) = some x.1) (hy : bytesAt v (-3) = some y.1) (hpoint : c.p256Point (0x04 :: x.1 ++ y.1) = true) :
      KeyMap c v (.es256 x y)
  | ed25519 {x : Bytes32} (hkty : intAt v 1 = some 1) (halg : intAt v 3 = some (-8)) (hcrv : intAt v (-1) = some 6)
      (hx : bytesAt v (-2) = some x.1) (hpoint : c.ed25519Point x.1 = true) : KeyMap c v (.ed25519 x)
  | rs256 {n e : List UInt8} {size : ℕ} (hkty : intAt v 1 = some 3) (halg : intAt v 3 = some (-257))
      (hn : bytesAt v (-1) = some n) (he : bytesAt v (-2) = some e) (hsize : c.rsaSize n e = some size)
      (hlong : 2048 ≤ size * 8) : KeyMap c v (.rs256 n e)

theorem fixed_eq_ok {bytes : Option (List UInt8)} {name : String} {x : Bytes32} :
    CoseKey.fixed bytes name = .ok x ↔ bytes = some x.1 := by
  unfold CoseKey.fixed
  cases bytes with
  | none =>
    constructor
    · intro h
      cases h
    · intro h
      cases h
  | some bs =>
    constructor
    · intro h
      simp only at h
      split_ifs at h
      cases h
      rfl
    · intro h
      cases h
      exact dif_pos x.2

theorem rsaKey_eq_ok {c : Signatures} {n e : List UInt8} :
    CoseKey.rsaKey c n e = .ok () ↔ ∃ size, c.rsaSize n e = some size ∧ 2048 ≤ size * 8 := by
  unfold CoseKey.rsaKey
  cases c.rsaSize n e with
  | none =>
    constructor
    · intro h
      cases h
    · rintro ⟨size,h,-⟩
      cases h
  | some size =>
    simp only [Option.some.injEq,exists_eq_left']
    split_ifs with h
    · constructor
      · intro h
        cases h
      · omega
    · exact ⟨fun _ => by omega,fun _ => rfl⟩

theorem validate_eq_ok {c : Signatures} {key : CoseKey} : key.validate c = .ok () ↔ match key with
    | .es256 x y => c.p256Point (0x04 :: x.1 ++ y.1) = true
    | .ed25519 x => c.ed25519Point x.1 = true
    | .rs256 n e => ∃ size, c.rsaSize n e = some size ∧ 2048 ≤ size * 8 := by
  have hguard {p : Bool} {e : Error} : (if p = true then .ok () else .error e : Except Error Unit) = .ok () ↔ p = true := by
    cases p <;> simp
  cases key with
  | es256 x y => exact hguard
  | ed25519 x => exact hguard
  | rs256 n e => exact rsaKey_eq_ok

theorem fromId_eq_some {id : ℤ} {algorithm : CoseAlgorithm} : CoseAlgorithm.fromId id = some algorithm ↔ id = algorithm.id := by
  unfold CoseAlgorithm.fromId
  cases algorithm <;> simp only [CoseAlgorithm.id] <;> split_ifs <;> simp_all

/-- The keys that the code reads off a map are those the map is. -/
theorem fromValue_eq_ok {c : Signatures} {v : Value} {key : CoseKey} : CoseKey.fromValue c v = .ok key ↔ KeyMap c v key := by
  have hparts : CoseKey.fromValue c v = .ok key ↔ CoseKey.read v = .ok key ∧ key.validate c = .ok () := by
    unfold CoseKey.fromValue
    constructor
    · intro h
      obtain ⟨key',hread,h⟩ := bind_eq_ok.1 h
      obtain ⟨_,hvalid,h⟩ := bind_eq_ok.1 h
      cases h
      exact ⟨hread,hvalid⟩
    · rintro ⟨hread,hvalid⟩
      exact bind_eq_ok.2 ⟨key,hread,bind_eq_ok.2 ⟨(),hvalid,rfl⟩⟩
  rw [hparts,validate_eq_ok]
  constructor
  · rintro ⟨hread,hvalid⟩
    unfold CoseKey.read at hread
    simp only at hread
    split at hread
    · cases hread
    · next kty hkty =>
      split at hread
      · cases hread
      · next halg =>
        obtain ⟨id,hid,halgorithm⟩ := Option.bind_eq_some_iff.1 halg
        rw [fromId_eq_some.1 halgorithm] at hid
        split_ifs at hread with htype hcrv
        obtain ⟨x,hx,hread⟩ := bind_eq_ok.1 hread
        obtain ⟨y,hy,hread⟩ := bind_eq_ok.1 hread
        cases hread
        rw [not_not] at htype hcrv
        exact .es256 (htype ▸ hkty) hid hcrv (fixed_eq_ok.1 hx) (fixed_eq_ok.1 hy) hvalid
      · next halg =>
        obtain ⟨id,hid,halgorithm⟩ := Option.bind_eq_some_iff.1 halg
        rw [fromId_eq_some.1 halgorithm] at hid
        split_ifs at hread with htype hcrv
        obtain ⟨x,hx,hread⟩ := bind_eq_ok.1 hread
        cases hread
        rw [not_not] at htype hcrv
        exact .ed25519 (htype ▸ hkty) hid hcrv (fixed_eq_ok.1 hx) hvalid
      · next halg =>
        obtain ⟨id,hid,halgorithm⟩ := Option.bind_eq_some_iff.1 halg
        rw [fromId_eq_some.1 halgorithm] at hid
        split_ifs at hread with htype
        rw [not_not] at htype
        split at hread
        · cases hread
        · next n hn =>
          split at hread
          · cases hread
          · next e he =>
            cases hread
            obtain ⟨size,hsize,hlong⟩ := hvalid
            exact .rs256 (htype ▸ hkty) hid hn he hsize hlong
  · intro h
    cases h with
    | es256 hkty halg hcrv hx hy hpoint =>
      refine ⟨?_,hpoint⟩
      unfold CoseKey.read
      unfold intAt at hkty halg hcrv
      unfold bytesAt at hx hy
      simp only [hkty,halg,hcrv,fixed_eq_ok.2 hx,fixed_eq_ok.2 hy]
      rfl
    | ed25519 hkty halg hcrv hx hpoint =>
      refine ⟨?_,hpoint⟩
      unfold CoseKey.read
      unfold intAt at hkty halg hcrv
      unfold bytesAt at hx
      simp only [hkty,halg,hcrv,fixed_eq_ok.2 hx]
      rfl
    | rs256 hkty halg hn he hsize hlong =>
      refine ⟨?_,_,hsize,hlong⟩
      unfold CoseKey.read
      unfold intAt at hkty halg
      unfold bytesAt at hn he
      simp only [hkty,halg,hn,he]
      rfl

/-! ## The parts -/

/-- A model id, the length of the credential id, the id, and a key. -/
inductive AttestedPart (c : Signatures) : List UInt8 → AttestedCredential → Prop where
  | mk {aaguid id item : List UInt8} {v : Value} {key : CoseKey} (haaguid : aaguid.length = 16) (hpos : 1 ≤ id.length)
      (hmax : id.length ≤ maxCredentialId) (hitem : Item (maxDepth + 1) item v) (hkey : KeyMap c v key) :
      AttestedPart c (aaguid ++ (toBeBytes 2 id.length ++ (id ++ item))) ⟨aaguid,id,item,key⟩

/-- The attested credential stands where its flag is set. -/
inductive CredentialPart (c : Signatures) (flags : UInt8) : List UInt8 → Option AttestedCredential → Prop where
  | absent (hflag : flags &&& flagAt = 0) : CredentialPart c flags [] none
  | present {text : List UInt8} {attested : AttestedCredential} (hflag : flags &&& flagAt ≠ 0)
      (h : AttestedPart c text attested) : CredentialPart c flags text (some attested)

/-- One map stands at the end where its flag is set. -/
inductive ExtensionPart (flags : UInt8) : List UInt8 → Prop where
  | absent (hflag : flags &&& flagEd = 0) : ExtensionPart flags []
  | present {text : List UInt8} {entries : List (Value × Value)} (hflag : flags &&& flagEd ≠ 0)
      (hitem : Item (maxDepth + 1) text (.map entries)) : ExtensionPart flags text

/-- Authenticator data, and what it says. -/
inductive Layout (c : Signatures) : List UInt8 → AuthenticatorData → Prop where
  | mk {hash counter credential extensions : List UInt8} {flags : UInt8} {attested : Option AttestedCredential}
      (hhash : hash.length = 32) (hcounter : counter.length = 4) (hcredential : CredentialPart c flags credential attested)
      (hextensions : ExtensionPart flags extensions) :
      Layout c (hash ++ (flags :: (counter ++ (credential ++ extensions)))) ⟨hash,flags,fromBeBytes counter,attested⟩

/-! ## Parsing -/

theorem toBeBytes_two (a b : UInt8) : toBeBytes 2 (fromBeBytes [a,b]) = [a,b] := by
  have ha := a.toNat_lt
  have hb := b.toNat_lt
  have hvalue : fromBeBytes [a,b] = a.toNat * 256 + b.toNat := by simp [fromBeBytes]
  have hhigh : UInt8.ofNat ((a.toNat * 256 + b.toNat) / 256) = a := by
    apply UInt8.toNat_inj.1
    rw [UInt8.toNat_ofNat']
    omega
  have hlow : UInt8.ofNat (a.toNat * 256 + b.toNat) = b := by
    apply UInt8.toNat_inj.1
    rw [UInt8.toNat_ofNat']
    omega
  rw [hvalue,toBeBytes,toBeBytes,toBeBytes,hhigh,hlow]
  rfl

/-- The two bytes of a length stand between two parts. -/
theorem exists_two_parts {rest : List UInt8} (h : 18 ≤ rest.length) :
    ∃ aaguid a b tail, aaguid.length = 16 ∧ rest = aaguid ++ ([a,b] ++ tail) := by
  have hlen : (rest.drop 16).length = rest.length - 16 := List.length_drop
  cases hdrop : rest.drop 16 with
  | nil =>
    rw [hdrop,List.length_nil] at hlen
    omega
  | cons a more =>
    cases more with
    | nil =>
      rw [hdrop,List.length_singleton] at hlen
      omega
    | cons b tail =>
      refine ⟨rest.take 16,a,b,tail,by rw [List.length_take]; omega,?_⟩
      rw [List.cons_append,List.cons_append,List.nil_append,← hdrop,List.take_append_drop]

variable {c : Crates} {rest rest' : List UInt8} {flags : UInt8}

theorem ensure_bind {α : Type} (ok : Bool) (e : Error) (f : Unit → Except Error α) :
    ensure ok e >>= f = if ok = true then f () else .error e := by
  cases ok <;> rfl

/-- Where the two bytes stand, the parser reads them and looks behind them. -/
theorem parseAttested_parts {aaguid tail : List UInt8} {a b : UInt8} (h : aaguid.length = 16) :
    AuthenticatorData.parseAttested c (aaguid ++ ([a,b] ++ tail)) =
      if fromBeBytes [a,b] ≠ 0 ∧ fromBeBytes [a,b] ≤ maxCredentialId ∧ fromBeBytes [a,b] ≤ tail.length then do
        let (value,used) ← decodePrefix (tail.drop (fromBeBytes [a,b]))
        let key ← CoseKey.fromValue c.toSignatures value
        return (⟨aaguid,tail.take (fromBeBytes [a,b]),(tail.drop (fromBeBytes [a,b])).take used,key⟩,
          (tail.drop (fromBeBytes [a,b])).drop used)
      else .error (malformed "a credential id of an impossible length") := by
  have hlen : (aaguid ++ ([a,b] ++ tail)).length = 18 + tail.length := by
    simp only [List.length_append,List.length_cons,List.length_nil,h]
    omega
  have hsixteen : (aaguid ++ ([a,b] ++ tail)).drop 16 = [a,b] ++ tail := List.drop_left' h
  have heighteen : (aaguid ++ ([a,b] ++ tail)).drop 18 = tail := by
    rw [← List.append_assoc]
    exact List.drop_left' (by simp [h])
  have hbehind (n : ℕ) : (aaguid ++ ([a,b] ++ tail)).drop (18 + n) = tail.drop n := by
    rw [← List.drop_drop,heighteen]
  have hbytes : (([a,b] : List UInt8) ++ tail).take 2 = [a,b] := rfl
  have hlong : 18 ≤ (aaguid ++ ([a,b] ++ tail)).length := by omega
  unfold AuthenticatorData.parseAttested
  rw [ensure_bind,if_pos (decide_eq_true hlong)]
  simp only [ensure_bind,hsixteen,hbytes,heighteen,hbehind,List.take_left' h,hlen]
  congr 1
  simp only [Bool.and_eq_true,decide_eq_true_eq,bne_iff_ne,ne_eq,Nat.add_le_add_iff_left,and_assoc]

theorem parseAttested_eq_ok {attested : AttestedCredential} : AuthenticatorData.parseAttested c rest = .ok (attested,rest') ↔
    ∃ text, rest = text ++ rest' ∧ AttestedPart c.toSignatures text attested := by
  constructor
  · intro h
    have hlong : 18 ≤ rest.length := by
      obtain ⟨_,hlong,-⟩ := bind_eq_ok.1 h
      simpa using ensure_eq_ok.1 hlong
    obtain ⟨aaguid,a,b,tail,haaguid,rfl⟩ := exists_two_parts hlong
    rw [parseAttested_parts haaguid] at h
    split_ifs at h with hfits
    obtain ⟨hne,hmax,hle⟩ := hfits
    obtain ⟨⟨v,used⟩,hdecode,h⟩ := bind_eq_ok.1 h
    obtain ⟨key,hkey,h⟩ := bind_eq_ok.1 h
    cases h
    obtain ⟨item,more,hitem,rfl,hgrammar⟩ := decodePrefix_eq_ok.1 hdecode
    have hid : (tail.take (fromBeBytes [a,b])).length = fromBeBytes [a,b] := by
      rw [List.length_take,Nat.min_eq_left hle]
    have htail : tail = tail.take (fromBeBytes [a,b]) ++ (item ++ more) := by
      rw [← hitem,List.take_append_drop]
    refine ⟨aaguid ++ (toBeBytes 2 (tail.take (fromBeBytes [a,b])).length ++ (tail.take (fromBeBytes [a,b]) ++ item)),?_,?_⟩
    · rw [hid,toBeBytes_two,hitem,List.drop_left]
      conv_lhs => rw [htail]
      simp only [List.append_assoc]
    · rw [hitem,List.take_left]
      exact .mk haaguid (by omega) (by omega) hgrammar (fromValue_eq_ok.1 hkey)
  · rintro ⟨text,rfl,h⟩
    cases h with
    | @mk aaguid id item v key haaguid hpos hmax hitem hkey =>
      have hfits : id.length < 256 ^ 2 := Nat.lt_of_le_of_lt hmax (by decide)
      obtain ⟨a,b,hlength⟩ := List.length_eq_two.1 (length_toBeBytes 2 id.length)
      have hvalue : fromBeBytes [a,b] = id.length := hlength ▸ fromBeBytes_toBeBytes 2 id.length hfits
      have hshape : aaguid ++ (toBeBytes 2 id.length ++ (id ++ item)) ++ rest' = aaguid ++ ([a,b] ++ (id ++ (item ++ rest'))) := by
        rw [hlength]
        simp only [List.append_assoc]
      have hdecode : decodePrefix (item ++ rest') = .ok (v,item.length) := decodePrefix_eq_ok.2 ⟨item,rest',rfl,rfl,hitem⟩
      have hroom : id.length ≠ 0 ∧ id.length ≤ maxCredentialId ∧ id.length ≤ (id ++ (item ++ rest')).length :=
        ⟨by omega,hmax,by rw [List.length_append]; omega⟩
      rw [hshape,parseAttested_parts haaguid,hvalue,if_pos hroom,List.drop_left,List.take_left,hdecode]
      change (CoseKey.fromValue c.toSignatures v >>= _) = _
      rw [fromValue_eq_ok.2 hkey]
      change Except.ok (_,_) = _
      rw [List.take_left,List.drop_left]

theorem checkExtensions_eq_ok : AuthenticatorData.checkExtensions flags rest = .ok () ↔ ExtensionPart flags rest := by
  unfold AuthenticatorData.checkExtensions
  split_ifs with hflag
  · constructor
    · intro h
      obtain ⟨v,hv,h⟩ := bind_eq_ok.1 h
      split at h
      · next entries => exact .present hflag (decode_eq_ok.1 hv)
      · cases h
    · intro h
      cases h with
      | absent hflag' => exact absurd hflag' hflag
      | present hflag' hitem => exact bind_eq_ok.2 ⟨_,decode_eq_ok.2 hitem,rfl⟩
  · rw [not_not] at hflag
    rw [ensure_eq_ok,List.isEmpty_iff]
    constructor
    · rintro rfl
      exact .absent hflag
    · intro h
      cases h with
      | absent => rfl
      | present hflag' => exact absurd hflag hflag'

/-- The first part of the data, and what is behind it. -/
theorem exists_front {bytes : List UInt8} (h : 37 ≤ bytes.length) :
    ∃ hash flags counter tail, hash.length = 32 ∧ counter.length = 4 ∧ bytes = hash ++ (flags :: (counter ++ tail)) := by
  have hlen : (bytes.drop 32).length = bytes.length - 32 := List.length_drop
  cases hdrop : bytes.drop 32 with
  | nil =>
    rw [hdrop,List.length_nil] at hlen
    omega
  | cons flags more =>
    rw [hdrop,List.length_cons] at hlen
    refine ⟨bytes.take 32,flags,more.take 4,more.drop 4,by rw [List.length_take]; omega,by rw [List.length_take]; omega,?_⟩
    rw [List.take_append_drop,← hdrop,List.take_append_drop]

/-- Where the front stands, the parser reads it and goes on behind it. -/
theorem parse_front {hash counter tail : List UInt8} (hhash : hash.length = 32) (hcounter : counter.length = 4) :
    AuthenticatorData.parse c (hash ++ (flags :: (counter ++ tail))) =
      if flags &&& flagAt ≠ 0 then do
        let (attested,rest) ← AuthenticatorData.parseAttested c tail
        AuthenticatorData.checkExtensions flags rest
        return ⟨hash,flags,fromBeBytes counter,some attested⟩
      else do
        AuthenticatorData.checkExtensions flags tail
        return ⟨hash,flags,fromBeBytes counter,none⟩ := by
  have hlen : 37 ≤ (hash ++ (flags :: (counter ++ tail))).length := by
    simp only [List.length_append,List.length_cons,hhash,hcounter]
    omega
  have hflags : (hash ++ (flags :: (counter ++ tail))).getD 32 0 = flags := by
    rw [List.getD_eq_getElem?_getD,← hhash,List.getElem?_append_right (Nat.le_refl _),Nat.sub_self]
    rfl
  have hbehind : (hash ++ (flags :: (counter ++ tail))).drop 33 = counter ++ tail := by
    rw [List.drop_append,List.drop_of_length_le (by omega),hhash]
    rfl
  have htail : (hash ++ (flags :: (counter ++ tail))).drop 37 = tail := by
    have hsplit := @List.drop_drop _ 4 33 (hash ++ (flags :: (counter ++ tail)))
    rw [← hsplit,hbehind]
    exact List.drop_left' hcounter
  unfold AuthenticatorData.parse
  rw [ensure_bind,if_pos (decide_eq_true hlen)]
  simp only [hflags,hbehind,htail,List.take_left' hhash,List.take_left' hcounter]

/-- The parser accepts what has the layout, and reports its parts. -/
theorem parse_eq_ok {bytes : List UInt8} {data : AuthenticatorData} :
    AuthenticatorData.parse c bytes = .ok data ↔ Layout c.toSignatures bytes data := by
  constructor
  · intro h
    have hlong : 37 ≤ bytes.length := by
      obtain ⟨_,hlong,-⟩ := bind_eq_ok.1 h
      simpa using ensure_eq_ok.1 hlong
    obtain ⟨hash,flags,counter,tail,hhash,hcounter,rfl⟩ := exists_front hlong
    rw [parse_front hhash hcounter] at h
    split_ifs at h with hflag
    · obtain ⟨⟨attested,rest⟩,hattested,h⟩ := bind_eq_ok.1 h
      obtain ⟨_,hextensions,h⟩ := bind_eq_ok.1 h
      cases h
      obtain ⟨text,rfl,hpart⟩ := parseAttested_eq_ok.1 hattested
      exact .mk hhash hcounter (.present hflag hpart) (checkExtensions_eq_ok.1 hextensions)
    · obtain ⟨_,hextensions,h⟩ := bind_eq_ok.1 h
      cases h
      rw [not_not] at hflag
      exact .mk hhash hcounter (.absent hflag) (checkExtensions_eq_ok.1 hextensions)
  · intro h
    cases h with
    | @mk hash counter credential extensions flags attested hhash hcounter hcredential hextensions =>
      rw [parse_front hhash hcounter]
      cases hcredential with
      | absent hflag =>
        rw [if_neg (not_not.2 hflag)]
        exact bind_eq_ok.2 ⟨(),checkExtensions_eq_ok.2 hextensions,rfl⟩
      | @present _ attested hflag hpart =>
        rw [if_pos hflag]
        refine bind_eq_ok.2 ⟨(attested,extensions),parseAttested_eq_ok.2 ⟨credential,rfl,hpart⟩,?_⟩
        exact bind_eq_ok.2 ⟨(),checkExtensions_eq_ok.2 hextensions,rfl⟩

/-! ## Slices -/

namespace AuthenticatorData

/-- `parse_attested`, with every slice and index as one that may panic. -/
def parseAttestedSliced (c : Crates) (rest : List UInt8) : Option (Except Error (AttestedCredential × List UInt8)) :=
  if rest.length < 18 then some (.error (malformed "attested credential data is truncated"))
  else do
    let aaguid ← slice rest 0 16
    let high ← rest[16]?
    let low ← rest[17]?
    let idLen := fromBeBytes [high,low]
    if idLen = 0 ∨ idLen > maxCredentialId ∨ rest.length < 18 + idLen then
      some (.error (malformed "a credential id of an impossible length"))
    else do
      let id ← slice rest 18 (18 + idLen)
      let afterId ← slice rest (18 + idLen) rest.length
      match ← decodePrefixIndexed afterId with
      | .error e => some (.error e)
      | .ok (value,used) =>
        match CoseKey.fromValue c.toSignatures value with
        | .error e => some (.error e)
        | .ok key => do
          let publicKey ← slice afterId 0 used
          let rest ← slice afterId used afterId.length
          some (.ok (⟨aaguid,id,publicKey,key⟩,rest))

def checkExtensionsSliced (flags : UInt8) (rest : List UInt8) : Option (Except Error Unit) :=
  if flags &&& flagEd ≠ 0 then do
    match ← decodePrefixIndexed rest with
    | .error e => some (.error e)
    | .ok (v,used) =>
      if used ≠ rest.length then some (.error (.badRequest "invalid CBOR: trailing bytes after the value"))
      else
        match v with
        | .map _ => some (.ok ())
        | _ => some (.error (malformed "extensions that are not a map"))
  else some (ensure rest.isEmpty (malformed "trailing bytes in authenticator data"))

def parseSliced (c : Crates) (bytes : List UInt8) : Option (Except Error AuthenticatorData) :=
  if bytes.length < 37 then some (.error (malformed "authenticator data shorter than 37 bytes"))
  else do
    let hash ← slice bytes 0 32
    let flags ← bytes[32]?
    let counter ← slice bytes 33 37
    let rest ← slice bytes 37 bytes.length
    if flags &&& flagAt ≠ 0 then
      match ← parseAttestedSliced c rest with
      | .error e => some (.error e)
      | .ok (attested,rest) =>
        match ← checkExtensionsSliced flags rest with
        | .error e => some (.error e)
        | .ok _ => some (.ok ⟨hash,flags,fromBeBytes counter,some attested⟩)
    else
      match ← checkExtensionsSliced flags rest with
      | .error e => some (.error e)
      | .ok _ => some (.ok ⟨hash,flags,fromBeBytes counter,none⟩)

end AuthenticatorData

theorem slice_front (front back : List UInt8) : slice (front ++ back) 0 front.length = some front := by
  rw [slice_eq (Nat.zero_le _) (by simp),List.drop_zero,Nat.sub_zero,List.take_left]

theorem slice_back (front back : List UInt8) : slice (front ++ back) front.length (front ++ back).length = some back := by
  rw [slice_eq (by simp) (Nat.le_refl _),List.drop_left,List.length_append,Nat.add_sub_cancel_left,List.take_length]

theorem slice_middle (front middle back : List UInt8) {a b : ℕ} (ha : front.length = a) (hb : a + middle.length = b) :
    slice (front ++ (middle ++ back)) a b = some middle := by
  subst ha hb
  rw [slice_eq (Nat.le_add_right _ _) (by simp),List.drop_left,Nat.add_sub_cancel_left,List.take_left]

open AuthenticatorData

theorem parseAttestedSliced_eq (rest : List UInt8) : parseAttestedSliced c rest = some (parseAttested c rest) := by
  by_cases hshort : rest.length < 18
  · rw [parseAttestedSliced,if_pos hshort,parseAttested,ensure_bind,if_neg (by simpa using hshort)]
  obtain ⟨aaguid,a,b,tail,haaguid,rfl⟩ := exists_two_parts (Nat.le_of_not_lt hshort)
  have hfirst : slice (aaguid ++ ([a,b] ++ tail)) 0 16 = some aaguid := haaguid ▸ slice_front aaguid ([a,b] ++ tail)
  have hhigh : (aaguid ++ ([a,b] ++ tail))[16]? = some a := by
    rw [List.getElem?_append_right (by omega),haaguid]
    rfl
  have hlow : (aaguid ++ ([a,b] ++ tail))[17]? = some b := by
    rw [List.getElem?_append_right (by omega),haaguid]
    rfl
  have hlen : (aaguid ++ ([a,b] ++ tail)).length = 18 + tail.length := by
    simp only [List.length_append,List.length_cons,List.length_nil,haaguid]
    omega
  rw [parseAttestedSliced,if_neg hshort,parseAttested_parts haaguid]
  simp only [hfirst,hhigh,hlow,hlen,Option.bind_eq_bind,Option.bind_some]
  generalize fromBeBytes [a,b] = n
  by_cases hfits : n ≠ 0 ∧ n ≤ maxCredentialId ∧ n ≤ tail.length
  · obtain ⟨hne,hmax,hle⟩ := hfits
    have hfront : (aaguid ++ [a,b]).length = 18 := by simp [haaguid]
    have htake : (tail.take n).length = n := by rw [List.length_take,Nat.min_eq_left hle]
    -- the id, and what is behind it
    have hid : slice (aaguid ++ ([a,b] ++ tail)) 18 (18 + n) = some (tail.take n) := by
      have hmiddle := slice_middle (aaguid ++ [a,b]) (tail.take n) (tail.drop n) hfront (congrArg (18 + ·) htake)
      rwa [List.take_append_drop,List.append_assoc] at hmiddle
    have hafter : slice (aaguid ++ ([a,b] ++ tail)) (18 + n) (18 + tail.length) = some (tail.drop n) := by
      have hback := slice_back (aaguid ++ [a,b] ++ tail.take n) (tail.drop n)
      have hwhole : (aaguid ++ [a,b] ++ tail.take n) ++ tail.drop n = aaguid ++ ([a,b] ++ tail) := by
        rw [List.append_assoc,List.take_append_drop,List.append_assoc]
      rwa [hwhole,List.length_append,hfront,htake,hlen] at hback
    rw [if_neg (by omega),if_pos ⟨hne,hmax,hle⟩]
    simp only [hid,hafter,Option.bind_some,decodePrefixIndexed_eq]
    cases hdecode : decodePrefix (tail.drop n) with
    | error e => rfl
    | ok r =>
      obtain ⟨v,used⟩ := r
      obtain ⟨item,more,hitem,rfl,-⟩ := decodePrefix_eq_ok.1 hdecode
      change _ = some (CoseKey.fromValue c.toSignatures v >>= _)
      cases hkey : CoseKey.fromValue c.toSignatures v with
      | error e => simp only [hkey]; rfl
      | ok key =>
        simp only [hkey,hitem,slice_front,slice_back,Option.bind_some]
        change _ = some (Except.ok (_,_))
        rw [List.take_left,List.drop_left]
  · rw [if_pos (by omega),if_neg hfits]

theorem checkExtensionsSliced_eq (flags : UInt8) (rest : List UInt8) :
    checkExtensionsSliced flags rest = some (checkExtensions flags rest) := by
  unfold checkExtensionsSliced checkExtensions Cbor.decode
  rw [decodePrefixIndexed_eq]
  split_ifs with hflag
  · cases decodePrefix rest with
    | error e => rfl
    | ok r =>
      obtain ⟨v,used⟩ := r
      simp only [Option.bind_eq_bind,Option.bind_some]
      split_ifs with hused
      · rfl
      · cases v <;> rfl
  · rfl

theorem parseSliced_eq (bytes : List UInt8) : parseSliced c bytes = some (AuthenticatorData.parse c bytes) := by
  by_cases hshort : bytes.length < 37
  · rw [parseSliced,if_pos hshort,AuthenticatorData.parse,ensure_bind,if_neg (by simpa using hshort)]
  obtain ⟨hash,flags,counter,tail,hhash,hcounter,rfl⟩ := exists_front (Nat.le_of_not_lt hshort)
  have hfirst : slice (hash ++ (flags :: (counter ++ tail))) 0 32 = some hash := hhash ▸ slice_front hash (flags :: (counter ++ tail))
  have hflags : (hash ++ (flags :: (counter ++ tail)))[32]? = some flags := by
    rw [List.getElem?_append_right (by omega),hhash]
    rfl
  have hmiddle : slice (hash ++ (flags :: (counter ++ tail))) 33 37 = some counter := by
    have hslice := @slice_middle (hash ++ [flags]) counter tail 33 37 (by simp [hhash]) (by rw [hcounter])
    rwa [List.append_assoc] at hslice
  have hback : slice (hash ++ (flags :: (counter ++ tail))) 37 (hash ++ (flags :: (counter ++ tail))).length = some tail := by
    have hslice := slice_back (hash ++ [flags] ++ counter) tail
    have hfront : (hash ++ [flags] ++ counter).length = 37 := by simp [hhash,hcounter]
    have hwhole : (hash ++ [flags] ++ counter) ++ tail = hash ++ (flags :: (counter ++ tail)) := by simp
    rwa [hwhole,hfront] at hslice
  rw [parseSliced,if_neg hshort,parse_front hhash hcounter]
  simp only [hfirst,hflags,hmiddle,hback,Option.bind_eq_bind,Option.bind_some,parseAttestedSliced_eq,checkExtensionsSliced_eq]
  split_ifs with hflag
  · cases hattested : parseAttested c tail with
    | error e => rfl
    | ok r =>
      obtain ⟨attested,rest⟩ := r
      change _ = some (checkExtensions flags rest >>= _)
      cases hextensions : checkExtensions flags rest with
      | error e => simp only [hextensions]; rfl
      | ok _ => simp only [hextensions]; rfl
  · cases hextensions : checkExtensions flags tail with
    | error e => rfl
    | ok _ => rfl

/-- Authenticator data is parsed exactly: what is accepted has the layout, with its parts as the fields, and
what has the layout is accepted. The parser takes no slice out of bounds on any input. -/
theorem authenticatorData_exact (c : Crates) (bytes : List UInt8) :
    (∀ data, AuthenticatorData.parse c bytes = .ok data ↔ Layout c.toSignatures bytes data) ∧
      parseSliced c bytes = some (AuthenticatorData.parse c bytes) :=
  ⟨fun _ => parse_eq_ok,parseSliced_eq bytes⟩

end Rainier.Mfa
