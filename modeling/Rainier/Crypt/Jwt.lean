import Mathlib.Data.List.Nodup
import Rainier.Support.Error

/-! # Verifying signed tokens

The key is the one that the token names, the algorithm that of the key. What else is checked is up to
the switches of a library, and a switch that is not set is a check that is not made.
-/
namespace Rainier.Crypt

inductive JwtAlgorithm where
  | rs256
  | es256
  deriving DecidableEq, Repr

structure JwtKey (K : Type) where
  kid : String
  algorithm : JwtAlgorithm
  decoding : K

structure JwtKeyRing (K : Type) where
  keys : List (JwtKey K)

def JwtKeyRing.find {K : Type} (ring : JwtKeyRing K) (kid : String) : Option (JwtKey K) := ring.keys.find? fun key => key.kid = kid

structure Jwt (K : Type) where
  ring : JwtKeyRing K
  issuer : Option String
  audience : List String
  leeway : ℕ
  requireNbf : Bool

/-! ## The library -/

/-- The fields of `Validation` that are set here, and those that decide about the others. -/
structure Validation where
  algorithm : JwtAlgorithm
  leeway : ℕ
  requiredSpecClaims : List String
  validateExp : Bool
  validateNbf : Bool
  validateAud : Bool
  iss : Option (List String)
  aud : Option (List String)
  deriving DecidableEq, Repr

/-- `Validation::new` with its documented defaults. -/
def Validation.new (algorithm : JwtAlgorithm) : Validation where
  algorithm := algorithm
  leeway := 60
  requiredSpecClaims := ["exp"]
  validateExp := true
  validateNbf := false
  validateAud := true
  iss := none
  aud := none

/-- The registered claims of a payload. A single issuer or audience is a list of one. -/
structure Registered where
  exp : Option ℕ
  nbf : Option ℕ
  iss : Option (List String)
  aud : Option (List String)
  deriving DecidableEq, Repr

/-- Whether the claim is there. -/
def Registered.has (claims : Registered) (name : String) : Bool :=
  if name = "exp" then claims.exp.isSome
  else if name = "nbf" then claims.nbf.isSome
  else if name = "iss" then claims.iss.isSome
  else if name = "aud" then claims.aud.isSome
  else true

/-- `jsonwebtoken`, of which no source is at hand: tokens, keys and decoded claims are its own. -/
structure JsonWebToken (Token K C : Type) where
  /-- The `kid` of a header that can be read. -/
  decodeHeader : Token → Option (Option String)
  /-- The header names the algorithm, and the signature is one under the key. -/
  signed : Token → K → JwtAlgorithm → Prop
  registered : Token → Registered
  /-- The payload as the caller's type. -/
  payload : Token → Option C
  decode : Token → K → Validation → ℕ → Except String C

variable {Token K C : Type}

/-- What a token is checked for under a validation: a claim that is there, unless it is required to be. -/
structure Validation.Accepts (v : Validation) (claims : Registered) (now : ℕ) : Prop where
  required : ∀ name ∈ v.requiredSpecClaims, claims.has name
  exp : v.validateExp → ∀ exp ∈ claims.exp, now ≤ exp + v.leeway
  nbf : v.validateNbf → ∀ nbf ∈ claims.nbf, nbf ≤ now + v.leeway
  iss : ∀ issuers ∈ v.iss, ∀ iss ∈ claims.iss, ∃ i ∈ iss, i ∈ issuers
  aud : v.validateAud → ∀ aud ∈ claims.aud, ∃ a ∈ aud, a ∈ v.aud.getD []

/-- `decode` as it is documented: a token whose payload can be read is accepted when its signature
and the checks of the validation are. -/
def JsonWebToken.Documented (lib : JsonWebToken Token K C) : Prop := ∀ token key v now c,
  lib.decode token key v now = .ok c ↔
    lib.payload token = some c ∧ lib.signed token key v.algorithm ∧ v.Accepts (lib.registered token) now

/-! ## Verification -/

namespace Jwt

variable (jwt : Jwt K) (lib : JsonWebToken Token K C) (now : ℕ) (token : Token)

def validation (key : JwtKey K) : Validation :=
  let v := Validation.new key.algorithm
  let v := { v with leeway := jwt.leeway }
  let v := if jwt.requireNbf then { v with validateNbf := true, requiredSpecClaims := v.requiredSpecClaims ++ ["nbf"] } else v
  let v := match jwt.issuer with
    | some issuer => { v with iss := some [issuer] }
    | none => v
  if jwt.audience ≠ [] then { v with aud := some jwt.audience } else { v with validateAud := false }

def verify : Except Error C :=
  match lib.decodeHeader token with
  | none => .error (.unauthenticated "This token is not readable.")
  | some none => .error (.unauthenticated "This token names no key.")
  | some (some kid) =>
    match jwt.ring.find kid with
    | none => .error (.unauthenticated "This token names a key this service does not hold.")
    | some key => (lib.decode token key.decoding (jwt.validation key) now).mapError fun e =>
        .unauthenticated ("This token is not valid: " ++ e)

/-- What is returned was signed for this service by the key that the token names, and is live. -/
structure Live (c : C) : Prop where
  signed : ∃ kid, lib.decodeHeader token = some (some kid) ∧ (∃ key ∈ jwt.ring.keys, key.kid = kid) ∧
    ∀ key ∈ jwt.ring.keys, key.kid = kid → lib.signed token key.decoding key.algorithm
  payload : lib.payload token = some c
  exp : ∃ exp, (lib.registered token).exp = some exp ∧ now ≤ exp + jwt.leeway
  nbf : ∀ nbf, (lib.registered token).nbf = some nbf → nbf ≤ now + jwt.leeway
  iss : ∀ issuer, jwt.issuer = some issuer → ∃ iss, (lib.registered token).iss = some iss ∧ issuer ∈ iss
  aud : jwt.audience ≠ [] → ∃ aud, (lib.registered token).aud = some aud ∧ ∃ a ∈ aud, a ∈ jwt.audience

/-- The token passes every check that is made: its signature, its times and what it says of issuer
and audience. -/
structure Checked : Prop where
  payload : ∃ c, lib.payload token = some c
  signed : ∃ kid key, lib.decodeHeader token = some (some kid) ∧ jwt.ring.find kid = some key ∧
    lib.signed token key.decoding key.algorithm
  exp : ∃ exp, (lib.registered token).exp = some exp ∧ now ≤ exp + jwt.leeway
  nbf : jwt.requireNbf = true → ∃ nbf, (lib.registered token).nbf = some nbf ∧ nbf ≤ now + jwt.leeway
  iss : ∀ issuer, jwt.issuer = some issuer → ∀ iss, (lib.registered token).iss = some iss → issuer ∈ iss
  aud : jwt.audience ≠ [] → ∀ aud, (lib.registered token).aud = some aud → ∃ a ∈ aud, a ∈ jwt.audience

/-- What goes unchecked is as it should be: the time from which the token holds, and that it names an
issuer and an audience at all. -/
structure Covered : Prop where
  nbf : jwt.requireNbf = true ∨ ∀ nbf, (lib.registered token).nbf = some nbf → nbf ≤ now + jwt.leeway
  iss : jwt.issuer ≠ none → (lib.registered token).iss ≠ none
  aud : jwt.audience ≠ [] → (lib.registered token).aud ≠ none

section Verifying

variable {jwt lib now token} {key : JwtKey K} {c : C}

/-- The switches, as the configuration sets them. -/
theorem validation_eq : jwt.validation key = {
    algorithm := key.algorithm
    leeway := jwt.leeway
    requiredSpecClaims := if jwt.requireNbf then ["exp","nbf"] else ["exp"]
    validateExp := true
    validateNbf := jwt.requireNbf
    validateAud := decide (jwt.audience ≠ [])
    iss := jwt.issuer.map fun issuer => [issuer]
    aud := if jwt.audience ≠ [] then some jwt.audience else none } := by
  unfold validation
  cases hnbf : jwt.requireNbf <;> cases hiss : jwt.issuer <;> by_cases haud : jwt.audience = [] <;>
    simp [haud,Validation.new]

theorem required_iff {claims : Registered} : (∀ name ∈ (jwt.validation key).requiredSpecClaims, claims.has name) ↔
    (∃ exp, claims.exp = some exp) ∧ (jwt.requireNbf = true → ∃ nbf, claims.nbf = some nbf) := by
  rw [validation_eq]
  cases jwt.requireNbf with
  | false => simp [Registered.has,Option.isSome_iff_exists]
  | true => simp [Registered.has,Option.isSome_iff_exists]

theorem accepts_validation_iff {claims : Registered} : (jwt.validation key).Accepts claims now ↔
    (∃ exp, claims.exp = some exp ∧ now ≤ exp + jwt.leeway) ∧
      (jwt.requireNbf = true → ∃ nbf, claims.nbf = some nbf ∧ nbf ≤ now + jwt.leeway) ∧
      (∀ issuer, jwt.issuer = some issuer → ∀ iss, claims.iss = some iss → issuer ∈ iss) ∧
      (jwt.audience ≠ [] → ∀ aud, claims.aud = some aud → ∃ a ∈ aud, a ∈ jwt.audience) := by
  constructor
  · rintro ⟨hrequired,hexp,hnbf,hiss,haud⟩
    obtain ⟨⟨exp,hsome⟩,hthere⟩ := required_iff.1 hrequired
    rw [validation_eq] at hexp hnbf hiss haud
    refine ⟨⟨exp,hsome,hexp rfl exp hsome⟩,fun hrequire => ?_,fun issuer hissuer iss htoken => ?_,fun hconfigured aud htoken => ?_⟩
    · obtain ⟨nbf,hsome⟩ := hthere hrequire
      exact ⟨nbf,hsome,hnbf hrequire nbf hsome⟩
    · obtain ⟨i,hi,hsame⟩ := hiss [issuer] (by simp [hissuer]) iss htoken
      rw [List.mem_singleton.1 hsame] at hi
      exact hi
    · obtain ⟨a,ha,hsame⟩ := haud (by simpa using hconfigured) aud htoken
      exact ⟨a,ha,by simpa [hconfigured] using hsame⟩
  · rintro ⟨⟨exp,hsome,hexp⟩,hnbf,hiss,haud⟩
    refine ⟨required_iff.2 ⟨⟨exp,hsome⟩,fun hrequire => (hnbf hrequire).imp fun nbf h => h.1⟩,?_,?_,?_,?_⟩
    · rw [validation_eq]
      intro _ other hother
      rw [Option.mem_def.1 hother] at hsome
      cases hsome
      exact hexp
    · rw [validation_eq]
      intro hrequire nbf htoken
      obtain ⟨other,hother,hle⟩ := hnbf hrequire
      rw [Option.mem_def.1 htoken] at hother
      cases hother
      exact hle
    · rw [validation_eq]
      intro issuers hissuers iss htoken
      obtain ⟨issuer,hissuer,rfl⟩ := Option.map_eq_some_iff.1 (Option.mem_def.1 hissuers)
      exact ⟨issuer,hiss issuer hissuer iss htoken,List.mem_singleton.2 rfl⟩
    · rw [validation_eq]
      intro hconfigured aud htoken
      have hne : jwt.audience ≠ [] := by simpa using hconfigured
      obtain ⟨a,ha,hsame⟩ := haud hne aud htoken
      exact ⟨a,ha,by simpa [hne] using hsame⟩

/-- What is accepted is what the library accepts under the key that the token names. -/
theorem verify_eq_ok : jwt.verify lib now token = .ok c ↔ ∃ kid key, lib.decodeHeader token = some (some kid) ∧
    jwt.ring.find kid = some key ∧ lib.decode token key.decoding (jwt.validation key) now = .ok c := by
  rw [verify]
  constructor
  · intro h
    split at h
    · cases h
    · cases h
    · next kid hkid =>
      split at h
      · cases h
      · next key hkey => exact ⟨kid,key,hkid,hkey,mapError_eq_ok.1 h⟩
  · rintro ⟨kid,key,hkid,hkey,hdecode⟩
    rw [hkid]
    dsimp only
    rw [hkey]
    exact mapError_eq_ok.2 hdecode

theorem verify_ok_iff (hlib : lib.Documented) : jwt.verify lib now token = .ok c ↔
    lib.payload token = some c ∧ jwt.Checked lib now token := by
  have halgorithm : ∀ key : JwtKey K, (jwt.validation key).algorithm = key.algorithm := fun key => by rw [validation_eq]
  rw [verify_eq_ok]
  constructor
  · rintro ⟨kid,key,hkid,hkey,hdecode⟩
    obtain ⟨hpayload,hsigned,haccepts⟩ := (hlib _ _ _ _ _).1 hdecode
    rw [halgorithm] at hsigned
    obtain ⟨hexp,hnbf,hiss,haud⟩ := accepts_validation_iff.1 haccepts
    exact ⟨hpayload,⟨c,hpayload⟩,⟨kid,key,hkid,hkey,hsigned⟩,hexp,hnbf,hiss,haud⟩
  · rintro ⟨hpayload,-,⟨kid,key,hkid,hkey,hsigned⟩,hexp,hnbf,hiss,haud⟩
    refine ⟨kid,key,hkid,hkey,(hlib _ _ _ _ _).2 ⟨hpayload,?_,accepts_validation_iff.2 ⟨hexp,hnbf,hiss,haud⟩⟩⟩
    rw [halgorithm]
    exact hsigned

/-- With distinct ids, the key found is the only one that is named. -/
theorem find_unique (hring : (jwt.ring.keys.map (·.kid)).Nodup) {kid : String} (hkey : jwt.ring.find kid = some key) :
    key ∈ jwt.ring.keys ∧ key.kid = kid ∧ ∀ other ∈ jwt.ring.keys, other.kid = kid → other = key := by
  have hmem := List.mem_of_find?_eq_some hkey
  have hkid : key.kid = kid := by simpa using List.find?_some hkey
  exact ⟨hmem,hkid,fun other hother hsame => List.inj_on_of_nodup_map hring hother hmem (hsame.trans hkid.symm)⟩

/-- What is verified is live exactly when nothing that matters went unchecked. -/
theorem live_iff_covered (hlib : lib.Documented) (hring : (jwt.ring.keys.map (·.kid)).Nodup) :
    (∀ c, jwt.verify lib now token = .ok c → jwt.Live lib now token c) ↔
      (jwt.Checked lib now token → jwt.Covered lib now token) := by
  constructor
  · intro h hchecked
    obtain ⟨c,hpayload⟩ := hchecked.payload
    have hlive := h c ((verify_ok_iff hlib).2 ⟨hpayload,hchecked⟩)
    refine ⟨.inr hlive.nbf,fun hissuer => ?_,fun haudience => ?_⟩
    · obtain ⟨issuer,hissuer⟩ := Option.ne_none_iff_exists'.1 hissuer
      obtain ⟨iss,hiss,-⟩ := hlive.iss issuer hissuer
      rw [hiss]
      exact Option.some_ne_none iss
    · obtain ⟨aud,haud,-⟩ := hlive.aud haudience
      rw [haud]
      exact Option.some_ne_none aud
  · intro h c hverify
    obtain ⟨hpayload,hchecked⟩ := (verify_ok_iff hlib).1 hverify
    have hcovered := h hchecked
    obtain ⟨kid,key,hkid,hkey,hsigned⟩ := hchecked.signed
    obtain ⟨hmem,hnamed,hunique⟩ := find_unique hring hkey
    refine ⟨⟨kid,hkid,⟨key,hmem,hnamed⟩,?_⟩,hpayload,hchecked.exp,?_,?_,?_⟩
    · intro other hother hsame
      rw [hunique other hother hsame]
      exact hsigned
    · intro nbf hnbf
      obtain hrequire | hfine := hcovered.nbf
      · obtain ⟨other,hother,hle⟩ := hchecked.nbf hrequire
        rw [hnbf] at hother
        cases hother
        exact hle
      · exact hfine nbf hnbf
    · intro issuer hissuer
      obtain ⟨iss,hiss⟩ := Option.ne_none_iff_exists'.1 (hcovered.iss (by rw [hissuer]; exact Option.some_ne_none issuer))
      exact ⟨iss,hiss,hchecked.iss issuer hissuer iss hiss⟩
    · intro haudience
      obtain ⟨aud,haud⟩ := Option.ne_none_iff_exists'.1 (hcovered.aud haudience)
      exact ⟨aud,haud,hchecked.aud haudience aud haud⟩

end Verifying

/-! ### Tokens that are not yet valid -/

/-- Tokens that are their registered claims, all signed by the one key there is. -/
def plainTokens : JsonWebToken Registered Unit Unit where
  decodeHeader _ := some (some "k1")
  signed _ _ algorithm := algorithm = .es256
  registered token := token
  payload _ := some ()
  decode token _ v now := if v.algorithm = .es256 ∧ (∀ name ∈ v.requiredSpecClaims, token.has name) ∧
      (v.validateExp → ∀ exp ∈ token.exp, now ≤ exp + v.leeway) ∧ (v.validateNbf → ∀ nbf ∈ token.nbf, nbf ≤ now + v.leeway) ∧
      (∀ issuers ∈ v.iss, ∀ iss ∈ token.iss, ∃ i ∈ iss, i ∈ issuers) ∧ (v.validateAud → ∀ aud ∈ token.aud, ∃ a ∈ aud, a ∈ v.aud.getD [])
    then .ok () else .error "InvalidToken"

theorem documented_plainTokens : plainTokens.Documented := by
  intro token key v now c
  unfold plainTokens
  dsimp only
  split
  · next h =>
    obtain ⟨halgorithm,hrequired,hexp,hnbf,hiss,haud⟩ := h
    exact iff_of_true rfl ⟨rfl,halgorithm,hrequired,hexp,hnbf,hiss,haud⟩
  · next h =>
    refine iff_of_false (fun herror => by cases herror) ?_
    rintro ⟨-,halgorithm,hrequired,hexp,hnbf,hiss,haud⟩
    exact h ⟨halgorithm,hrequired,hexp,hnbf,hiss,haud⟩

/-- One key, an issuer and no switch for `nbf`. -/
def plainJwt : Jwt Unit := ⟨⟨[⟨"k1",.es256,()⟩]⟩,some "https://id.example.com",[],60,false⟩

/-- A token that holds from tomorrow on and names no issuer. -/
def tomorrow : Registered := ⟨some 200000,some 100000,none,none⟩

theorem tomorrow_verified : plainJwt.verify plainTokens 0 tomorrow = .ok () := by decide

/-- It is accepted today. -/
theorem tomorrow_not_live : plainTokens.Documented ∧ (plainJwt.ring.keys.map (·.kid)).Nodup ∧
    ¬ ∀ c, plainJwt.verify plainTokens 0 tomorrow = .ok c → plainJwt.Live plainTokens 0 tomorrow c := by
  refine ⟨documented_plainTokens,by decide,fun h => ?_⟩
  have hnbf := (h () tomorrow_verified).nbf 100000 rfl
  exact absurd hnbf (by decide)

/-- A token of the configured issuer that holds already. -/
theorem today_live : (∀ c, plainJwt.verify plainTokens 0 ⟨some 200000,some 0,some ["https://id.example.com"],none⟩ = .ok c →
      plainJwt.Live plainTokens 0 ⟨some 200000,some 0,some ["https://id.example.com"],none⟩ c) ↔
    (plainJwt.Checked plainTokens 0 ⟨some 200000,some 0,some ["https://id.example.com"],none⟩ →
      plainJwt.Covered plainTokens 0 ⟨some 200000,some 0,some ["https://id.example.com"],none⟩) :=
  live_iff_covered documented_plainTokens (by decide)

end Jwt

end Rainier.Crypt
