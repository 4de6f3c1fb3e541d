import Rainier.Support.Text
import Mathlib.Data.List.Nodup

/-! # Recovery codes

Codes are stored as digests and spent by removing the first that matches. The digest is a
parameter.
-/
namespace Rainier.Mfa.Recovery

/-- The position of the first entry that matches is kept, whatever comes after it. -/
def spend (stored : List String) (candidate : String) (form : String → String) : Bool × List String :=
  if candidate = "" then (false,stored)
  else
    match stored.findIdx? fun entry => form entry == candidate with
    | some index => (true,stored.eraseIdx index)
    | none => (false,stored)

variable (digest : String → String)

/-- The form to store: the digest of the trimmed code. -/
def hash (code : String) : String := digest (Text.trim code)

def consume (storedHashes : List String) (submitted : String) : Bool × List String :=
  spend storedHashes (hash digest submitted) id

/-- For codes that were stored as they were issued. -/
def consumePlain (storedCodes : List String) (submitted : String) : Bool × List String :=
  spend storedCodes (Text.trim submitted) Text.trim

variable {digest} {stored left : List String} {code : String}

theorem eraseIdx_of_findIdx (stored : List String) (candidate : String) (index : ℕ)
    (h : stored.findIdx? (fun entry => id entry == candidate) = some index) : candidate ∈ stored ∧
      stored.eraseIdx index = stored.erase candidate := by
  induction stored generalizing index with
  | nil => cases h
  | cons entry stored ih =>
    rw [List.findIdx?_cons] at h
    by_cases hentry : entry = candidate
    · subst hentry
      simp only [id,beq_self_eq_true,if_true,Option.some.injEq] at h
      subst h
      exact ⟨List.mem_cons_self,by simp⟩
    · rw [if_neg (by simpa using hentry)] at h
      obtain ⟨rest,hrest,rfl⟩ := Option.map_eq_some_iff.mp h
      obtain ⟨hmem,herase⟩ := ih rest hrest
      refine ⟨List.mem_cons_of_mem entry hmem,?_⟩
      rw [List.eraseIdx_cons_succ,herase,List.erase_cons_tail (by simpa using hentry)]

/-- A code that is spent was there and is taken out. -/
theorem consume_spent (h : consume digest stored code = (true,left)) :
    hash digest code ∈ stored ∧ left = stored.erase (hash digest code) := by
  unfold consume spend at h
  split at h
  · cases h
  · split at h
    · next index hindex =>
      cases h
      exact eraseIdx_of_findIdx stored _ index hindex
    · cases h

end Rainier.Mfa.Recovery
