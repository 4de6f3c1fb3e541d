import Rainier.Cache.MemoryCache

/-! # Namespaces in a shared cache

`CachePort` is what every cache driver implements, over whatever it keeps its
entries in and whatever bytes its values are. What the port is used for rests on
one thing: a call on a key is a matter of that key, so it changes nothing a read of
another key answers. `PrefixedCache` puts a prefix and a `:` before every key and
passes the call on.
-/
namespace Rainier.Cache
open Rainier

structure CacheCalls (β : Type) where
  State : Type
  get : ℕ → State → String → Except Error (Option β) × State
  has : ℕ → State → String → Except Error Bool × State
  put : ℕ → State → String → β → Option ℕ → Except Error Unit × State
  add : ℕ → State → String → β → Option ℕ → Except Error Bool × State
  increment : ℕ → State → String → ℤ → Except Error ℤ × State
  forget : ℕ → State → String → Except Error Bool × State
  forgetIf : ℕ → State → String → β → Except Error Bool × State
  flush : ℕ → State → Except Error Unit × State

/-- The calls that change a key. -/
inductive Write (β : Type) where
  | put (value : β) (ttl : Option ℕ)
  | add (value : β) (ttl : Option ℕ)
  | increment (by' : ℤ)
  | forget
  | forgetIf (expected : β)
  deriving DecidableEq, Repr

/-- The state a call on `key` leaves. -/
def CacheCalls.write {β : Type} (c : CacheCalls β) (now : ℕ) (s : c.State) (key : String) : Write β → c.State
  | .put value ttl => (c.put now s key value ttl).2
  | .add value ttl => (c.add now s key value ttl).2
  | .increment by' => (c.increment now s key by').2
  | .forget => (c.forget now s key).2
  | .forgetIf expected => (c.forgetIf now s key expected).2

/-- A driver: no call on a key changes what a read of another answers. -/
structure CachePort (β : Type) extends CacheCalls β where
  get_frame : ∀ now s key w now' key', key' ≠ key →
    (get now' (toCacheCalls.write now s key w) key').1 = (get now' s key').1
  has_frame : ∀ now s key w now' key', key' ≠ key →
    (has now' (toCacheCalls.write now s key w) key').1 = (has now' s key').1

/-- The in-process cache, seen through the port. -/
def MemoryCache.calls : CacheCalls String where
  State := MemoryCache
  get now c key := (.ok (c.get now key).1,(c.get now key).2)
  has now c key := (.ok (c.get now key).1.isSome,(c.get now key).2)
  put now c key value ttl := (.ok (),c.put now key value ttl)
  add now c key value ttl := (.ok (c.add now key value ttl).1,(c.add now key value ttl).2)
  increment now c key by' := c.increment now key by'
  forget _ c key := (.ok (c.forget key).1,(c.forget key).2)
  forgetIf now c key expected := (.ok (c.forgetIf now key expected).1,(c.forgetIf now key expected).2)
  flush _ _ := (.ok (),.empty)

theorem MemoryCache.write_other (now : ℕ) (c : MemoryCache) {key key' : String} (hne : key' ≠ key)
    (w : Write String) : MemoryCache.calls.write now c key w key' = c key' := by
  cases w with
  | put value ttl => exact MemoryCache.insert_other hne _
  | add value ttl => exact (MemoryCache.add_local now key value ttl).frame c key' hne
  | increment by' => exact (MemoryCache.increment_local now key by').frame c key' hne
  | forget => exact (MemoryCache.forget_local key).frame c key' hne
  | forgetIf expected => exact (MemoryCache.forgetIf_local now key expected).frame c key' hne

def MemoryCache.port : CachePort String where
  toCacheCalls := MemoryCache.calls
  get_frame now c _ w now' key' hne :=
    congrArg Except.ok ((MemoryCache.get_local now' key').answer _ c (MemoryCache.write_other now c hne w))
  has_frame now c _ w now' key' hne :=
    congrArg (fun found : Option String => Except.ok found.isSome)
      ((MemoryCache.get_local now' key').answer _ c (MemoryCache.write_other now c hne w))

structure PrefixedCache (β : Type) where
  inner : CachePort β
  keyPrefix : String
  withSeparator : String

namespace PrefixedCache
variable {β : Type}

/-- `str::trim_end_matches(':')`. -/
def trimEnd (s : String) : String := String.ofList (s.toList.reverse.dropWhile (· == ':')).reverse

def new (inner : CachePort β) (keyPrefix : String) : PrefixedCache β :=
  ⟨inner,trimEnd keyPrefix,trimEnd keyPrefix ++ ":"⟩

def key (p : PrefixedCache β) (key : String) : String := p.withSeparator ++ key

theorem key_inj (p : PrefixedCache β) {k k' : String} (h : p.key k = p.key k') : k = k' := by
  have := congrArg String.toList h
  simpa [key,String.toList_append,String.toList_inj] using this

/-- Every call is passed on, but a flush, which would empty the others' namespaces too. -/
def calls (p : PrefixedCache β) : CacheCalls β where
  State := p.inner.State
  get now s key := p.inner.get now s (p.key key)
  has now s key := p.inner.has now s (p.key key)
  put now s key value ttl := p.inner.put now s (p.key key) value ttl
  add now s key value ttl := p.inner.add now s (p.key key) value ttl
  increment now s key by' := p.inner.increment now s (p.key key) by'
  forget now s key := p.inner.forget now s (p.key key)
  forgetIf now s key expected := p.inner.forgetIf now s (p.key key) expected
  flush _ s := (.error (.internal ("a prefixed cache cannot flush just `" ++ p.keyPrefix ++
    ":` — no cache backend can delete by prefix portably. Flush the underlying cache if you really mean everything, " ++
    "or forget the keys you know about.")),s)

theorem write_calls (p : PrefixedCache β) (now : ℕ) (s : p.inner.State) (key : String) (w : Write β) :
    p.calls.write now s key w = p.inner.write now s (p.key key) w := by cases w <;> rfl

/-- A namespace is itself a cache, and may hold further namespaces. -/
def port (p : PrefixedCache β) : CachePort β where
  toCacheCalls := p.calls
  get_frame now s key w now' key' hne :=
    (congrArg (fun t => (p.inner.get now' t (p.key key')).1) (p.write_calls now s key w)).trans
      (p.inner.get_frame now s _ w now' _ (fun h => hne (p.key_inj h)))
  has_frame now s key w now' key' hne :=
    (congrArg (fun t => (p.inner.has now' t (p.key key')).1) (p.write_calls now s key w)).trans
      (p.inner.has_frame now s _ w now' _ (fun h => hne (p.key_inj h)))

/-- Calls through the namespace, each with the time it is made at and its key. -/
def writes (p : PrefixedCache β) (s : p.inner.State) (made : List (ℕ × String × Write β)) : p.inner.State :=
  made.foldl (fun s call => p.calls.write call.1 s call.2.1 call.2.2) s

/-- Over every cache, no calls through the first namespace change what a read through the
second answers. -/
def Separate (first second : String) : Prop :=
  ∀ (β : Type) (inner : CachePort β) (s : inner.State) (made : List (ℕ × String × Write β)) (now : ℕ) (key : String),
    ((new inner second).calls.get now ((new inner first).writes s made) key).1 =
        ((new inner second).calls.get now s key).1 ∧
      ((new inner second).calls.has now ((new inner first).writes s made) key).1 =
        ((new inner second).calls.has now s key).1

/-- No key of the one namespace is a key of the other. -/
def Disjoint (first second : String) : Prop :=
  ∀ k k', trimEnd first ++ ":" ++ k ≠ trimEnd second ++ ":" ++ k'

/-- What is written through a namespace is not seen under a key outside it. -/
theorem read_writes (p : PrefixedCache β) (s : p.inner.State) (made : List (ℕ × String × Write β)) (now : ℕ)
    {key' : String} (h : ∀ k, key' ≠ p.key k) :
    (p.inner.get now (p.writes s made) key').1 = (p.inner.get now s key').1 ∧
      (p.inner.has now (p.writes s made) key').1 = (p.inner.has now s key').1 := by
  induction made generalizing s with
  | nil => exact ⟨rfl,rfl⟩
  | cons call rest ih =>
    obtain ⟨at',k,w⟩ := call
    obtain ⟨hget,hhas⟩ := ih (p.inner.write at' s (p.key k) w)
    have hwrites : p.writes s ((at',k,w) :: rest) = p.writes (p.inner.write at' s (p.key k) w) rest := by
      rw [← p.write_calls]
      rfl
    rw [hwrites]
    exact ⟨hget.trans (p.inner.get_frame at' s _ w now _ (h k)),hhas.trans (p.inner.has_frame at' s _ w now _ (h k))⟩

theorem separate_of_disjoint {first second : String} (h : Disjoint first second) : Separate first second := by
  intro β inner s made now key
  exact read_writes (new inner first) s made now fun k he => h k key he.symm

/-- A key of both namespaces, put through the first, is found through the second. -/
theorem not_separate_of_key {first second k k' : String}
    (h : trimEnd first ++ ":" ++ k = trimEnd second ++ ":" ++ k') : ¬ Separate first second := by
  intro hsep
  obtain ⟨hget,-⟩ := hsep String MemoryCache.port MemoryCache.empty [(0,k,.put "v" none)] 0 k'
  have hkey : (new MemoryCache.port first).key k = (new MemoryCache.port second).key k' := h
  have hput : (MemoryCache.get 0 (MemoryCache.put 0 MemoryCache.empty ((new MemoryCache.port first).key k) "v" none)
      ((new MemoryCache.port second).key k')).1 = some "v" := by
    rw [hkey]
    simp [MemoryCache.get,MemoryCache.put,MemoryCache.expiry,Entry.isLive]
  have hgot : (Except.ok (some "v") : Except Error (Option String)) = .ok none :=
    (congrArg Except.ok hput).symm.trans hget
  cases hgot

/-- Of two beginnings of one string, one begins the other. -/
theorem begins_of_append_eq {a b k k' : String} (h : a ++ k = b ++ k') :
    (∃ rest, b = a ++ rest) ∨ ∃ rest, a = b ++ rest := by
  have hl := congrArg String.toList h
  rw [String.toList_append,String.toList_append] at hl
  rcases List.append_eq_append_iff.mp hl with ⟨rest,hr,-⟩ | ⟨rest,hr,-⟩
  · refine .inl ⟨String.ofList rest,?_⟩
    rw [← String.toList_inj,hr,String.toList_append,String.toList_ofList]
  · refine .inr ⟨String.ofList rest,?_⟩
    rw [← String.toList_inj,hr,String.toList_append,String.toList_ofList]

/-- Two namespaces share a key exactly if one prefix, separator included, begins the other. -/
theorem disjoint_iff (first second : String) : Disjoint first second ↔
    (∀ rest, trimEnd second ++ ":" ≠ trimEnd first ++ ":" ++ rest) ∧
      ∀ rest, trimEnd first ++ ":" ≠ trimEnd second ++ ":" ++ rest := by
  constructor
  · intro h
    refine ⟨fun rest he => h rest "" ?_,fun rest he => h "" rest ?_⟩
    · rw [← he,String.append_empty]
    · rw [← he,String.append_empty]
  · rintro ⟨hfirst,hsecond⟩ k k' he
    rcases begins_of_append_eq he with ⟨rest,hr⟩ | ⟨rest,hr⟩
    · exact hfirst rest hr
    · exact hsecond rest hr

/-- Namespaces keep out of each other's keys exactly if neither trimmed prefix with its
`:` begins the other with its `:`. -/
theorem namespaces_separate_iff (first second : String) : Separate first second ↔
    (∀ rest, trimEnd second ++ ":" ≠ trimEnd first ++ ":" ++ rest) ∧
      ∀ rest, trimEnd first ++ ":" ≠ trimEnd second ++ ":" ++ rest := by
  rw [← disjoint_iff]
  constructor
  · intro h k k' he
    exact not_separate_of_key he h
  · exact separate_of_disjoint

/-- `eu:total` in the namespace `billing` is `total` in the namespace `billing:eu`. -/
theorem nested_prefix_shares_key :
    trimEnd "billing" ≠ trimEnd "billing:eu" ∧ ¬ Separate "billing" "billing:eu" := by
  have hkey : trimEnd "billing" ++ ":" ++ "eu:total" = trimEnd "billing:eu" ++ ":" ++ "total" := by rfl
  exact ⟨by decide,not_separate_of_key hkey⟩

end PrefixedCache
end Rainier.Cache
