import Rainier.Support.Error
import Rainier.Support.Keyed
import Rainier.Support.Text
import Rainier.Support.Time
import Mathlib.Logic.Function.Basic

/-! # The in-process cache

`MemoryCache` holds its entries behind one mutex, so each operation below is one
atomic step; the clock reading it makes is its first argument. Every value the
modelled callers store is text.
-/
namespace Rainier.Cache

structure Entry where
  value : String
  expiresAt : Option ℕ
  deriving DecidableEq, Repr

def Entry.isLive (now : ℕ) (e : Entry) : Bool :=
  match e.expiresAt with
  | some at' => now < at'
  | none => true

/-- What is live later is live now. -/
theorem Entry.isLive_of_le {now later : ℕ} {e : Entry} (h : now ≤ later) (hlater : e.isLive later = true) :
    e.isLive now = true := by
  cases hexpires : e.expiresAt with
  | none => simp only [isLive,hexpires]
  | some at' =>
    simp only [isLive,hexpires,decide_eq_true_eq] at hlater ⊢
    omega

abbrev MemoryCache := String → Option Entry

namespace MemoryCache
variable (now : ℕ) (c : MemoryCache) (key : String)

def empty : MemoryCache := fun _ => none

/-- A lifetime chrono cannot hold gives an entry that never expires. -/
def expiry (ttl : Option ℕ) : Option ℕ := (ttl.bind Duration.fromStd).map (now + ·)

/-- The entry under `key`, if it is there and has not expired. -/
def live : Option Entry := (c key).filter (Entry.isLive now)

def insert (e : Entry) : MemoryCache := Function.update c key (some e)
def remove : MemoryCache := Function.update c key none

/-- Reading an expired entry removes it. -/
def get : Option String × MemoryCache :=
  match c key with
  | some e => if e.isLive now then (some e.value,c) else (none,remove c key)
  | none => (none,c)

def put (value : String) (ttl : Option ℕ) : MemoryCache := insert c key ⟨value,expiry now ttl⟩

def forget : Bool × MemoryCache := ((c key).isSome,remove c key)

def add (value : String) (ttl : Option ℕ) : Bool × MemoryCache :=
  if (live now c key).isSome then (false,c) else (true,insert c key ⟨value,expiry now ttl⟩)

def forgetIf (expected : String) : Bool × MemoryCache :=
  match c key with
  | some e => if e.isLive now && e.value == expected then (true,remove c key) else (false,c)
  | none => (false,c)

def i64Min : ℤ := -2 ^ 63
def i64Max : ℤ := 2 ^ 63 - 1

def saturatingAdd (a b : ℤ) : ℤ := max i64Min (min i64Max (a + b))

def encodeCounter (value : ℤ) : String := toString value

def decodeCounter (text : String) : Except Error ℤ :=
  if text.isEmpty then .ok 0
  else match Text.parseInt i64Min i64Max (Text.trim text) with
    | some n => .ok n
    | none => .error (.internal "the cached value is not a counter")

/-- The expiry is kept, and a key that is missing or has lapsed starts at zero
with no expiry at all. -/
def increment (by' : ℤ) : Except Error ℤ × MemoryCache :=
  let current := match live now c key with
    | some e => decodeCounter e.value
    | none => .ok 0
  match current with
  | .error e => (.error e,c)
  | .ok n =>
    let next := saturatingAdd n by'
    let expiresAt := (live now c key).bind Entry.expiresAt
    (.ok next,insert c key ⟨encodeCounter next,expiresAt⟩)

variable {now c key}

@[simp] theorem insert_same (e : Entry) : insert c key e key = some e := by simp [insert]
@[simp] theorem remove_same : remove c key key = none := by simp [remove]

theorem insert_other {key' : String} (h : key' ≠ key) (e : Entry) : insert c key e key' = c key' := by
  simp [insert,h]
theorem remove_other {key' : String} (h : key' ≠ key) : remove c key key' = c key' := by
  simp [remove,h]

theorem live_eq_some {e : Entry} : live now c key = some e ↔ c key = some e ∧ e.isLive now = true := by
  simp [live,Option.filter_eq_some_iff]

theorem get_other {key' : String} (h : key' ≠ key) : (get now c key).2 key' = c key' := by
  unfold get
  split
  · split
    · rfl
    · exact remove_other h
  · rfl

/-- A read leaves what is live. -/
theorem get_of_live {e : Entry} (h : c key = some e) (hlive : e.isLive now = true) : (get now c key).2 = c := by
  rw [get,h]
  dsimp only
  rw [if_pos hlive]

/-- A read answers what is live. -/
theorem get_answer : (get now c key).1 = (live now c key).map Entry.value := by
  unfold get live
  cases c key with
  | none => rfl
  | some e =>
    dsimp only
    split
    next hl => simp [Option.filter,hl]
    next hl => simp [Option.filter,hl]

/-- A read changes nothing that is still live. -/
theorem live_get (key' : String) : live now (get now c key).2 key' = live now c key' := by
  by_cases h : key' = key
  · subst h
    unfold get
    split
    next e he =>
      split
      · rfl
      next hl => simp [live,he,Option.filter,hl]
    · rfl
  · simp only [live,get_other h]

/-- An increment keeps the expiry of a live entry. -/
theorem increment_of_live {e : Entry} (h : live now c key = some e) (by' : ℤ) :
    ∃ value, (increment now c key by').2 key = some ⟨value,e.expiresAt⟩ := by
  unfold increment
  rw [h]
  dsimp only
  cases decodeCounter e.value with
  | error err => exact ⟨e.value,(live_eq_some.mp h).1⟩
  | ok n => exact ⟨_,insert_same _⟩

/-! ## Every operation concerns its own key -/

theorem get_local (now : ℕ) (key : String) : Keyed.Local key (fun c : MemoryCache => get now c key) where
  answer c c' h := by
    unfold get
    rw [h]
    cases c' key with
    | none => rfl
    | some e => dsimp only; split <;> rfl
  entry c c' h := by
    unfold get
    rw [h]
    cases c' key with
    | none => exact h
    | some e =>
      dsimp only
      split
      · exact h
      · simp
  frame c _ hne := get_other hne

theorem put_local (now : ℕ) (key value : String) (ttl : Option ℕ) :
    Keyed.Local key (fun c : MemoryCache => ((),put now c key value ttl)) where
  answer _ _ _ := rfl
  entry c c' _ := by simp [put]
  frame c _ hne := insert_other hne _

theorem add_local (now : ℕ) (key value : String) (ttl : Option ℕ) :
    Keyed.Local key (fun c : MemoryCache => add now c key value ttl) where
  answer c c' h := by
    have hlive : live now c key = live now c' key := by simp only [live,h]
    by_cases hl : (live now c' key).isSome = true
    · simp only [add,hlive,if_pos hl]
    · simp only [add,hlive,if_neg hl]
  entry c c' h := by
    have hlive : live now c key = live now c' key := by simp only [live,h]
    by_cases hl : (live now c' key).isSome = true
    · simpa only [add,hlive,if_pos hl] using h
    · simp only [add,hlive,if_neg hl,insert_same]
  frame c k' hne := by
    simp only [add]
    split
    · rfl
    · exact insert_other hne _

theorem forget_local (key : String) : Keyed.Local key (fun c : MemoryCache => forget c key) where
  answer c c' h := by simp only [forget,h]
  entry c c' _ := by simp [forget]
  frame c k' hne := remove_other hne

theorem forgetIf_local (now : ℕ) (key expected : String) :
    Keyed.Local key (fun c : MemoryCache => forgetIf now c key expected) where
  answer c c' h := by
    unfold forgetIf
    rw [h]
    cases c' key with
    | none => rfl
    | some e => dsimp only; split <;> rfl
  entry c c' h := by
    unfold forgetIf
    rw [h]
    cases c' key with
    | none => exact h
    | some e =>
      dsimp only
      split
      · simp
      · exact h
  frame c k' hne := by
    simp only [forgetIf]
    split
    · split
      · exact remove_other hne
      · rfl
    · rfl

theorem increment_local (now : ℕ) (key : String) (by' : ℤ) :
    Keyed.Local key (fun c : MemoryCache => increment now c key by') where
  answer c c' h := by
    simp only [increment,live,h]
    split <;> rfl
  entry c c' h := by
    simp only [increment,live,h]
    split
    · exact h
    · simp
  frame c k' hne := by
    simp only [increment]
    split
    · rfl
    · exact insert_other hne _

end MemoryCache
end Rainier.Cache
