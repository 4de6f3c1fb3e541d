import Rainier.Support.JsonPath

/-! # The session bag

A request's session: its id, its values, and the keys that were flashed by the request
before (`flashOld`) and by this one (`flashNew`). The lists of keys are kept apart from the
values. New ids are parameters of the calls that mint them.
-/
namespace Rainier

/-- What a store holds for one session. -/
structure SessionData where
  values : List (String × Json)
  flash : List String
  deriving DecidableEq, Repr

structure Session where
  id : String
  values : List (String × Json)
  flashOld : List String
  flashNew : List String
  dirty : Bool
  superseded : List String
  deriving DecidableEq, Repr

def SessionData.default : SessionData := ⟨[],[]⟩

namespace Session

def restore (id : String) (data : SessionData) : Session := ⟨id,data.values,data.flash,[],false,[]⟩

/-- A fresh, empty session. -/
def new (id : String) : Session := restore id .default

/-! Reading. -/

def value (s : Session) (key : String) : Option Json := Json.field s.values key

/-- A value as a string; what is not one is written out. -/
def string (float : BitVec 64 → String) (s : Session) (key : String) : Option String :=
  (s.value key).map fun
    | .string text => text
    | other => Json.write float other

/-- Whether the key is present and not null. -/
def has (s : Session) (key : String) : Bool :=
  match s.value key with
  | none | some .null => false
  | some _ => true

def isEmpty (s : Session) : Bool := s.values.isEmpty

/-! Writing. -/

def put (s : Session) (key : String) (value : Json) : Session :=
  { s with values := Json.insert s.values key value, dirty := true }

/-- Read a value and remove it in one step. -/
def pull (s : Session) (key : String) : Option Json × Session :=
  match s.value key with
  | none => (none,s)
  | some value => (some value,{ s with values := Json.remove s.values key, dirty := true })

def forget (s : Session) (key : String) : Session :=
  match s.value key with
  | none => s
  | some _ => { s with values := Json.remove s.values key, dirty := true }

/-- Remove every value, keeping the id. -/
def flush (s : Session) : Session := { s with values := [], flashNew := [], flashOld := [], dirty := true }

/-! Flash. -/

/-- Store a value for the next request only. -/
def flash (s : Session) (key : String) (value : Json) : Session :=
  { s with
    values := Json.insert s.values key value
    flashNew := if key ∈ s.flashNew then s.flashNew else s.flashNew ++ [key]
    dirty := true }

/-- The loop body of `keep`. -/
def keepOne (s : Session) (key : String) : Session :=
  if key ∈ s.flashOld ∧ key ∉ s.flashNew then { s with flashNew := s.flashNew ++ [key], dirty := true } else s

/-- Keep the named flashed values for one further request. -/
def keep (s : Session) (keys : List String) : Session := keys.foldl keepOne s

/-- Keep every flashed value for one further request. -/
def reflash (s : Session) : Session :=
  let carried := s.flashOld.filter fun key => key ∉ s.flashNew
  if carried.isEmpty then s else { s with flashNew := s.flashNew ++ carried, dirty := true }

/-! Identity. -/

/-- A new id, keeping the contents. -/
def regenerate (s : Session) (fresh : String) : Session :=
  { s with id := fresh, superseded := s.superseded ++ [s.id], dirty := true }

/-- A new id, and the contents thrown away. -/
def invalidate (s : Session) (fresh : String) : Session := s.flush.regenerate fresh

/-! Persistence. -/

/-- Age the flash data and produce what is written back. -/
def ageAndTake (s : Session) : SessionData × Session :=
  let expired := s.flashOld.filter fun key => key ∉ s.flashNew
  let values := expired.foldl Json.remove s.values
  (⟨values,s.flashNew⟩,{ s with values := values, flashOld := s.flashNew, flashNew := [] })

/-! ## What the calls do to a value -/

section Values
variable (s : Session) (key k : String) (v : Json)

@[simp] theorem value_put : (s.put key v).value k = if k = key then some v else s.value k := Json.field_insert _ _ _ _

@[simp] theorem value_flash : (s.flash key v).value k = if k = key then some v else s.value k := Json.field_insert _ _ _ _

@[simp] theorem value_forget : (s.forget key).value k = if k = key then none else s.value k := by
  unfold forget
  split
  · next h =>
    by_cases hk : k = key
    · rw [if_pos hk,hk,h]
    · rw [if_neg hk]
  · exact Json.field_remove _ _ _

@[simp] theorem value_pull : (s.pull key).2.value k = if k = key then none else s.value k := by
  unfold pull
  split
  · next h =>
    by_cases hk : k = key
    · rw [if_pos hk,hk,h]
    · rw [if_neg hk]
  · exact Json.field_remove _ _ _

@[simp] theorem value_flush : s.flush.value k = none := rfl

@[simp] theorem value_regenerate (fresh : String) : (s.regenerate fresh).value k = s.value k := rfl

@[simp] theorem value_invalidate (fresh : String) : (s.invalidate fresh).value k = none := rfl

end Values

end Session
end Rainier
