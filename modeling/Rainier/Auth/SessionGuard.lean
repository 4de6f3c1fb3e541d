import Rainier.Session.Session
import Rainier.Support.Error

/-! # The session guard

Who a session is logged in as is one of its values. A request either has a session or,
without the session middleware, has none. What the user provider answers is a parameter
of the calls that ask it.
-/
namespace Rainier.Auth

/-- The session key holding the authenticated user's identifier. -/
def authKey : String := "_auth_id"

class Authenticatable (U : Type) where
  authIdentifier : U → String
  authPasswordHash : U → Option String

export Authenticatable (authIdentifier authPasswordHash)

/-- A user as the examples have them. -/
structure Account where
  id : String
  passwordHash : Option String
  deriving DecidableEq, Repr

instance : Authenticatable Account := ⟨Account.id,Account.passwordHash⟩

namespace SessionGuard
variable {U : Type}

/-- The identifier the session holds, and what the provider finds under it. -/
def user (float : BitVec 64 → String) (retrieveById : String → Except Error (Option U)) :
    Option Session → Except Error (Option U)
  | none => .ok none
  | some session =>
    match session.string float authKey with
    | none => .ok none
    | some id => retrieveById id

variable [Authenticatable U]

def login (user : U) (fresh : String) : Option Session → Except Error Unit × Option Session
  | none => (.error (.internal "logging in needs the session middleware"),none)
  | some session => (.ok (),some ((session.regenerate fresh).put authKey (.string (authIdentifier user))))

/-- Everything goes, not just who was logged in. -/
def logout (fresh : String) (session : Option Session) : Option Session := session.map fun s => s.invalidate fresh

/-- `retrieved` is the user with the credentials' name, `valid` whether the password is theirs. -/
def attempt (retrieved : Except Error (Option U)) (valid : Except Error Bool) (fresh : String) (session : Option Session) :
    Except Error (Option U) × Option Session :=
  match retrieved with
  | .error e => (.error e,session)
  | .ok none => (.ok none,session)
  | .ok (some user) =>
    match valid with
    | .error e => (.error e,session)
    | .ok false => (.ok none,session)
    | .ok true =>
      match login user fresh session with
      | (.error e,session) => (.error e,session)
      | (.ok _,session) => (.ok (some user),session)

end SessionGuard
end Rainier.Auth
