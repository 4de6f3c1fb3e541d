import Mathlib.Logic.Function.Basic
import Rainier.OAuth.Model

/-! # The memory store

Rows by their identifier. Revoking is claiming: a revocation answers whether this
call was the one that set the flag, so of two that race for a row one is told yes.
A row that has been revoked is never live again, and neither is one a purge took.
-/
namespace Rainier.OAuth
open Rainier

structure MemoryStore where
  clients : String → Option Client
  access : String → Option AccessTokenRecord
  refresh : String → Option RefreshTokenRecord
  codes : String → Option AuthCodeRecord

structure PurgeOptions where
  revoked : Bool
  expiredBefore : Option ℤ
  deriving DecidableEq, Repr

/-- What a purge removes. -/
def PurgeOptions.dead (o : PurgeOptions) (revoked : Bool) (expiresAt : ℤ) : Bool :=
  (o.revoked && revoked) || o.expiredBefore.any (expiresAt < ·)

namespace MemoryStore

def empty : MemoryStore := ⟨fun _ => none,fun _ => none,fun _ => none,fun _ => none⟩

def insertClient (s : MemoryStore) (c : Client) : MemoryStore :=
  { s with clients := Function.update s.clients c.id (some c) }

def createAccessToken (s : MemoryStore) (t : AccessTokenRecord) : MemoryStore :=
  { s with access := Function.update s.access t.id (some t) }

def createRefreshToken (s : MemoryStore) (t : RefreshTokenRecord) : MemoryStore :=
  { s with refresh := Function.update s.refresh t.id (some t) }

def createAuthCode (s : MemoryStore) (c : AuthCodeRecord) : MemoryStore :=
  { s with codes := Function.update s.codes c.id (some c) }

/-- Whether this call sets the flag of the row, and the rows after it. -/
def claim {ρ : Type} (rows : String → Option ρ) (revoked : ρ → Bool) (revoke : ρ → ρ) (id : String) :
    Bool × (String → Option ρ) :=
  match rows id with
  | some row => if revoked row then (false,rows) else (true,Function.update rows id (some (revoke row)))
  | none => (false,rows)

def revokeAccessToken (s : MemoryStore) (id : String) : Bool × MemoryStore :=
  let (answer,rows) := claim s.access AccessTokenRecord.revoked (fun t => { t with revoked := true }) id
  (answer,{ s with access := rows })

def revokeRefreshToken (s : MemoryStore) (id : String) : Bool × MemoryStore :=
  let (answer,rows) := claim s.refresh RefreshTokenRecord.revoked (fun t => { t with revoked := true }) id
  (answer,{ s with refresh := rows })

def revokeAuthCode (s : MemoryStore) (id : String) : Bool × MemoryStore :=
  let (answer,rows) := claim s.codes AuthCodeRecord.revoked (fun c => { c with revoked := true }) id
  (answer,{ s with codes := rows })

/-- Every refresh token issued alongside an access token. How many there were is not
read by the server. -/
def revokeRefreshTokensFor (s : MemoryStore) (accessTokenId : String) : MemoryStore :=
  { s with refresh := fun id => (s.refresh id).map fun t =>
      if t.accessTokenId = accessTokenId then { t with revoked := true } else t }

def purge (s : MemoryStore) (o : PurgeOptions) : MemoryStore :=
  { s with
    access := fun id => (s.access id).filter fun t => !o.dead t.revoked t.expiresAt
    refresh := fun id => (s.refresh id).filter fun t => !o.dead t.revoked t.expiresAt
    codes := fun id => (s.codes id).filter fun c => !o.dead c.revoked c.expiresAt }

/-! Rows that are live. -/

variable {ρ : Type}

/-- There is a row, and it is not revoked. -/
def Live (revoked : ρ → Bool) (rows : String → Option ρ) (id : String) : Prop :=
  ∃ row, rows id = some row ∧ revoked row = false

/-- No row that was not live has become so. -/
def NoneRevived (revoked : ρ → Bool) (rows rows' : String → Option ρ) : Prop :=
  ∀ id, Live revoked rows' id → Live revoked rows id

theorem NoneRevived.refl (revoked : ρ → Bool) (rows : String → Option ρ) : NoneRevived revoked rows rows :=
  fun _ h => h

variable {revoked : ρ → Bool} {revoke : ρ → ρ} {rows rows' : String → Option ρ} {id : String}

theorem claim_noneRevived (hr : ∀ row, revoked (revoke row) = true) (rows : String → Option ρ) (id : String) :
    NoneRevived revoked rows (claim rows revoked revoke id).2 := by
  intro key hlive
  unfold claim at hlive
  split at hlive
  · split at hlive
    · exact hlive
    · rename_i row hrow hflag
      obtain ⟨row',hrow',hflag'⟩ := hlive
      dsimp only at hrow'
      by_cases hkey : key = id
      · subst hkey
        rw [Function.update_self] at hrow'
        cases hrow'
        rw [hr] at hflag'
        cases hflag'
      · rw [Function.update_of_ne hkey] at hrow'
        exact ⟨row',hrow',hflag'⟩
  · exact hlive

/-- A call that is told yes found a live row and leaves none. -/
theorem claim_eq_true (hr : ∀ row, revoked (revoke row) = true) (h : (claim rows revoked revoke id).1 = true) :
    Live revoked rows id ∧ ¬ Live revoked (claim rows revoked revoke id).2 id := by
  unfold claim at h ⊢
  split at h
  · rename_i row hrow
    split at h
    · cases h
    · rename_i hflag
      refine ⟨⟨row,hrow,by simpa using hflag⟩,?_⟩
      rintro ⟨row',hrow',hflag'⟩
      rw [if_neg hflag] at hrow'
      dsimp only at hrow'
      rw [Function.update_self] at hrow'
      cases hrow'
      rw [hr] at hflag'
      cases hflag'
  · cases h

theorem filter_noneRevived (keep : ρ → Bool) (rows : String → Option ρ) :
    NoneRevived revoked rows fun id => (rows id).filter keep := by
  rintro key ⟨row,hrow,hflag⟩
  exact ⟨row,(Option.filter_eq_some_iff.mp hrow).1,hflag⟩

theorem map_noneRevived {f : ρ → ρ} (hf : ∀ row, revoked (f row) = false → revoked row = false)
    (rows : String → Option ρ) : NoneRevived revoked rows fun id => (rows id).map f := by
  rintro key ⟨row,hrow,hflag⟩
  obtain ⟨old,hold,rfl⟩ := Option.map_eq_some_iff.mp hrow
  exact ⟨old,hold,hf old hflag⟩

/-- A new row is live, and no other changes. -/
theorem update_live {row : ρ} {key : String} (h : Live revoked (Function.update rows id (some row)) key) :
    key = id ∨ Live revoked rows key := by
  by_cases hkey : key = id
  · exact .inl hkey
  · obtain ⟨row',hrow',hflag⟩ := h
    rw [Function.update_of_ne hkey] at hrow'
    exact .inr ⟨row',hrow',hflag⟩

end MemoryStore
end Rainier.OAuth
