import Rainier.Support.JsonPath
import Rainier.Support.Split

/-! # The configuration repository

A dotted key is read through objects and through arrays, and written through objects only: what else
stands on the way of a write makes room for an object.
-/
namespace Rainier.Config

/-- The tree is an object: nothing else is ever taken for one, and a write keeps it one. -/
structure Repository where
  fields : List (String × Json)
  deriving DecidableEq, Repr

namespace Repository

/-- A value as the object that a write makes of it. -/
def asObject : Json → List (String × Json)
  | .object fields => fields
  | _ => []

/-- The loop of `set`, from the fields of an object. -/
def write (fields : List (String × Json)) : List String → Json → List (String × Json)
  | [], _ => fields
  | [last], value => Json.insert fields last value
  | segment :: next :: rest, value =>
    Json.insert fields segment (.object (write (asObject ((Json.field fields segment).getD (.object []))) (next :: rest) value))

mutual
/-- Only the fields of objects are merged one by one. -/
def deepMerge : Json → Json → Json
  | .object base, .object incoming => .object (mergeFields base incoming)
  | _, incoming => incoming

def mergeFields (base : List (String × Json)) : List (String × Json) → List (String × Json)
  | [] => base
  | (key,value) :: rest =>
    mergeFields (Json.insert (Json.remove base key) key (match Json.field base key with
      | some existing => deepMerge existing value
      | none => value)) rest
end

/-- The loop of `forget`: what is removed, and the fields without it. -/
def take (fields : List (String × Json)) : List String → Option (Json × List (String × Json))
  | [] => none
  | [last] => (Json.field fields last).map fun value => (value,Json.remove fields last)
  | segment :: next :: rest =>
    match Json.field fields segment with
    | some (.object inner) => (take inner (next :: rest)).map fun taken => (taken.1,Json.insert fields segment (.object taken.2))
    | _ => none

def segments (key : String) : List String := Text.split '.' key

variable (c : Repository)

def value (key : String) : Option Json := (Json.object c.fields).walk (segments key)

def has (key : String) : Bool := (c.value key).isSome

def set (key : String) (v : Json) : Repository := ⟨write c.fields (segments key) v⟩

/-- Whether it wrote is answered, too. -/
def setDefault (key : String) (v : Json) : Bool × Repository := if c.has key then (false,c) else (true,c.set key v)

def merge (key : String) (v : Json) : Repository := c.set key (match c.value key with
  | some existing => deepMerge existing v
  | none => v)

def forget (key : String) : Option Json × Repository :=
  match take c.fields (segments key) with
  | some (value,fields) => (some value,⟨fields⟩)
  | none => (none,c)

/-! ## What a write is to do -/

/-- The fields of objects are merged one by one, anything else is replaced. -/
inductive MergedOver : Json → Json → Json → Prop where
  | fields {base incoming result : List (String × Json)} (merged : String → Json)
      (absent : ∀ key, Json.field incoming key = none → Json.field result key = Json.field base key)
      (added : ∀ key v, Json.field incoming key = some v → Json.field base key = none → Json.field result key = some v)
      (both : ∀ key v old, Json.field incoming key = some v → Json.field base key = some old →
        Json.field result key = some (merged key))
      (merging : ∀ key v old, Json.field incoming key = some v → Json.field base key = some old → MergedOver old v (merged key)) :
      MergedOver (.object base) (.object incoming) (.object result)
  | replaced {base incoming : Json} (h : ∀ fields, base = .object fields → ∀ fields', incoming ≠ .object fields') :
      MergedOver base incoming incoming

/-- No object in the value has a key twice. -/
inductive Distinct : Json → Prop where
  | object {fields : List (String × Json)} (keys : (fields.map (·.1)).Nodup)
      (inner : ∀ entry ∈ fields, Distinct entry.2) : Distinct (.object fields)
  | other {value : Json} (h : ∀ fields, value ≠ .object fields) : Distinct value

/-- The `serde_json::Value` that is written. -/
structure Value where
  json : Json
  distinct : Distinct json

/-- Keys whose segments neither begin nor continue those of `key` read as before. -/
def Frame (c' : Repository) (key : String) : Prop := ∀ p,
  ¬ segments p <+: segments key → ¬ segments key <+: segments p → c'.value p = c.value p

structure Sets (key : String) (v : Json) : Prop where
  value : (c.set key v).value key = some v
  frame : c.Frame (c.set key v) key

structure Merges (key : String) (v : Json) : Prop where
  value : match c.value key with
    | some old => ∃ new, (c.merge key v).value key = some new ∧ MergedOver old v new
    | none => (c.merge key v).value key = some v
  frame : c.Frame (c.merge key v) key

structure Forgets (key : String) : Prop where
  answer : (c.forget key).1 = c.value key
  value : (c.forget key).2.value key = none
  frame : c.Frame (c.forget key).2 key

/-! ## What stands on the way -/

/-- The first value above the last segment that is no object. -/
def obstacle (root : Json) : List String → Option Json
  | [] => none
  | segment :: rest =>
    match root with
    | .object fields => (Json.field fields segment).bind fun child => obstacle child rest
    | other => some other

/-- An array with something in it stands on the way. -/
def Blocked (root : Json) (segments : List String) : Prop := ∃ item items, obstacle root segments = some (.array (item :: items))

section Walking

variable {fields : List (String × Json)} {ss ps : List String} {v : Json}

theorem walk_nonempty_scalar {root : Json} (hobject : ∀ fields, root ≠ .object fields) (harray : ∀ item items, root ≠ .array (item :: items))
    (hps : ps ≠ []) : root.walk ps = none := by
  obtain ⟨p,ps,rfl⟩ := List.exists_cons_of_ne_nil hps
  have hchild : root.child p = none := by
    cases root with
    | object fields => exact absurd rfl (hobject fields)
    | array items =>
      cases items with
      | nil => simp [Json.child]
      | cons item items => exact absurd rfl (harray item items)
    | null => rfl
    | bool b => rfl
    | number n => rfl
    | string s => rfl
  rw [Json.walk_cons,hchild,Option.bind_none]

/-- Below a key, a read sees what it has. -/
theorem walk_object_cons (segment : String) (rest : List String) :
    (Json.object fields).walk (segment :: rest) = (Json.field fields segment).bind fun child => child.walk rest := rfl

theorem walk_asObject {child : Json} (h : ∀ item items, child ≠ .array (item :: items)) (hps : ps ≠ []) :
    (Json.object (asObject child)).walk ps = child.walk ps := by
  have hempty : (Json.object []).walk ps = none := by
    obtain ⟨p,ps,rfl⟩ := List.exists_cons_of_ne_nil hps
    rfl
  by_cases hobject : ∃ fields, child = .object fields
  · obtain ⟨fields,rfl⟩ := hobject
    rfl
  · have hother : ∀ fields, child ≠ .object fields := fun fields hfields => hobject ⟨fields,hfields⟩
    rw [walk_nonempty_scalar hother h hps]
    cases child with
    | object fields => exact absurd rfl (hother fields)
    | array items => exact hempty
    | null => exact hempty
    | bool b => exact hempty
    | number n => exact hempty
    | string s => exact hempty

theorem blocked_asObject {child : Json} (h : Blocked (.object (asObject child)) ss) : Blocked child ss := by
  cases ss with
  | nil =>
    obtain ⟨item,items,hnone⟩ := h
    cases hnone
  | cons segment rest =>
    cases child with
    | object fields => exact h
    | array items =>
      obtain ⟨item,items,hnone⟩ := h
      cases hnone
    | null =>
      obtain ⟨item,items,hnone⟩ := h
      cases hnone
    | bool b =>
      obtain ⟨item,items,hnone⟩ := h
      cases hnone
    | number n =>
      obtain ⟨item,items,hnone⟩ := h
      cases hnone
    | string s =>
      obtain ⟨item,items,hnone⟩ := h
      cases hnone

/-- What is written is read. -/
theorem walk_write (hss : ss ≠ []) : (Json.object (write fields ss v)).walk ss = some v := by
  induction ss generalizing fields with
  | nil => exact absurd rfl hss
  | cons segment rest ih =>
    cases rest with
    | nil =>
      rw [write,walk_object_cons,Json.field_insert,if_pos rfl]
      rfl
    | cons next rest =>
      rw [write,walk_object_cons,Json.field_insert,if_pos rfl]
      exact ih (List.cons_ne_nil _ _)

/-- Only an array on the way makes room for what is written. -/
theorem walk_write_of_apart (hss : ss ≠ []) (hfree : ¬ Blocked (.object fields) ss) (h : ¬ ps <+: ss) (h' : ¬ ss <+: ps) :
    (Json.object (write fields ss v)).walk ps = (Json.object fields).walk ps := by
  induction ss generalizing fields ps with
  | nil => exact absurd rfl hss
  | cons segment rest ih =>
    cases ps with
    | nil => exact absurd List.nil_prefix h
    | cons p ps =>
      by_cases hp : p = segment
      · subst hp
        rw [List.cons_prefix_cons] at h h'
        have hps : ¬ ps <+: rest := fun hps => h ⟨rfl,hps⟩
        have hrest : ¬ rest <+: ps := fun hrest => h' ⟨rfl,hrest⟩
        cases rest with
        | nil => exact absurd List.nil_prefix hrest
        | cons next rest =>
          have hne : ps ≠ [] := by
            rintro rfl
            exact hps List.nil_prefix
          rw [write,walk_object_cons,walk_object_cons,Json.field_insert,if_pos rfl,Option.bind_some]
          cases hchild : Json.field fields p with
          | none =>
            have hnone : ¬ Blocked (.object []) (next :: rest) := by
              rintro ⟨item,items,hblocked⟩
              cases hblocked
            rw [Option.getD_none,asObject,ih (List.cons_ne_nil _ _) hnone hps hrest]
            obtain ⟨q,qs,rfl⟩ := List.exists_cons_of_ne_nil hne
            rfl
          | some child =>
            have hbelow : ¬ Blocked child (next :: rest) := by
              rintro ⟨item,items,hblocked⟩
              apply hfree
              refine ⟨item,items,?_⟩
              rw [obstacle,hchild,Option.bind_some,hblocked]
            have harray : ∀ item items, child ≠ .array (item :: items) := by
              rintro item items rfl
              exact hbelow ⟨item,items,rfl⟩
            rw [Option.getD_some,ih (List.cons_ne_nil _ _) (fun hblocked => hbelow (blocked_asObject hblocked)) hps hrest,
              walk_asObject harray hne,Option.bind_some]
      · cases rest with
        | nil => rw [write,walk_object_cons,walk_object_cons,Json.field_insert,if_neg hp]
        | cons next rest => rw [write,walk_object_cons,walk_object_cons,Json.field_insert,if_neg hp]

/-- Where something else than an object stands, only the next segment is there after a write. -/
theorem exists_of_obstacle {other : Json} (h : obstacle (.object fields) ss = some other) :
    ∃ front segment back, ss = front ++ segment :: back ∧ (Json.object fields).walk front = some other ∧
      ∀ s, s ≠ segment → (Json.object (write fields ss v)).walk (front ++ [s]) = none := by
  induction ss generalizing fields with
  | nil => cases h
  | cons segment rest ih =>
    obtain ⟨child,hchild,h⟩ := Option.bind_eq_some_iff.1 h
    cases rest with
    | nil => cases h
    | cons next rest =>
      by_cases hobject : ∃ inner, child = .object inner
      · obtain ⟨inner,rfl⟩ := hobject
        obtain ⟨front,last,back,hss,hfront,hgone⟩ := ih h
        refine ⟨segment :: front,last,back,by rw [hss]; rfl,?_,?_⟩
        · rw [walk_object_cons,hchild,Option.bind_some,hfront]
        · intro s hs
          rw [write,List.cons_append,walk_object_cons,Json.field_insert,if_pos rfl,Option.bind_some,hchild]
          exact hgone s hs
      · have hother : other = child := by
          rw [obstacle] at h
          · exact (Option.some.inj h).symm
          · exact fun inner hinner => hobject ⟨inner,hinner⟩
        have hempty : asObject child = [] := by
          cases child with
          | object inner => exact absurd ⟨inner,rfl⟩ hobject
          | array items => rfl
          | null => rfl
          | bool b => rfl
          | number n => rfl
          | string s => rfl
        refine ⟨[segment],next,rest,rfl,?_,?_⟩
        · rw [walk_object_cons,hchild,Option.bind_some,hother]
          rfl
        · intro s hs
          rw [write,List.singleton_append,walk_object_cons,Json.field_insert,if_pos rfl,Option.bind_some,hchild,Option.getD_some,
            hempty,walk_object_cons]
          cases rest with
          | nil => rw [write,Json.field_insert,if_neg hs]; rfl
          | cons after rest => rw [write,Json.field_insert,if_neg hs]; rfl

/-! ### Removing -/

/-- Without an array on the way, what is removed is what was read. -/
theorem take_eq (hss : ss ≠ []) (hfree : ¬ Blocked (.object fields) ss) :
    (take fields ss).map (·.1) = (Json.object fields).walk ss := by
  induction ss generalizing fields with
  | nil => exact absurd rfl hss
  | cons segment rest ih =>
    cases rest with
    | nil =>
      rw [take,walk_object_cons,Option.map_map]
      cases Json.field fields segment <;> rfl
    | cons next rest =>
      rw [take,walk_object_cons]
      cases hchild : Json.field fields segment with
      | none => rfl
      | some child =>
        have hbelow : ¬ Blocked child (next :: rest) := by
          rintro ⟨item,items,hblocked⟩
          apply hfree
          refine ⟨item,items,?_⟩
          rw [obstacle,hchild,Option.bind_some,hblocked]
        rw [Option.bind_some]
        split
        · next inner heq =>
          cases heq
          rw [Option.map_map,← ih (List.cons_ne_nil _ _) hbelow]
          rfl
        · next hother =>
          rw [walk_nonempty_scalar (fun inner hinner => hother inner (by rw [hinner])) _ (List.cons_ne_nil _ _),Option.map_none]
          rintro item items rfl
          exact hbelow ⟨item,items,rfl⟩

/-- What is removed is gone, and only that. -/
theorem walk_take {taken : Json} {fields' : List (String × Json)} (h : take fields ss = some (taken,fields')) :
    (Json.object fields').walk ss = none ∧
      ∀ ps, ¬ ps <+: ss → ¬ ss <+: ps → (Json.object fields').walk ps = (Json.object fields).walk ps := by
  induction ss generalizing fields fields' with
  | nil => cases h
  | cons segment rest ih =>
    cases rest with
    | nil =>
      obtain ⟨value,hvalue,heq⟩ := Option.map_eq_some_iff.1 h
      cases heq
      constructor
      · rw [walk_object_cons,Json.field_remove,if_pos rfl]
        rfl
      · intro ps hps hss
        cases ps with
        | nil => exact absurd List.nil_prefix hps
        | cons p ps =>
          have hp : p ≠ segment := by
            rintro rfl
            exact hss (List.cons_prefix_cons.2 ⟨rfl,List.nil_prefix⟩)
          rw [walk_object_cons,walk_object_cons,Json.field_remove,if_neg hp]
    | cons next rest =>
      rw [take] at h
      split at h
      · next inner hinner =>
        obtain ⟨pair,hpair,heq⟩ := Option.map_eq_some_iff.1 h
        cases heq
        obtain ⟨hgone,hframe⟩ := ih hpair
        constructor
        · rw [walk_object_cons,Json.field_insert,if_pos rfl]
          exact hgone
        · intro ps hps hss
          cases ps with
          | nil => exact absurd List.nil_prefix hps
          | cons p ps =>
            rw [walk_object_cons,walk_object_cons,Json.field_insert]
            by_cases hp : p = segment
            · subst hp
              rw [List.cons_prefix_cons] at hps hss
              rw [if_pos rfl,hinner,Option.bind_some,Option.bind_some]
              exact hframe ps (fun h => hps ⟨rfl,h⟩) (fun h => hss ⟨rfl,h⟩)
            · rw [if_neg hp]
      · cases h

end Walking

/-! ### Merging -/

section Merging

variable {base incoming : List (String × Json)} {v : Json}

theorem field_mergeFields (hkeys : (incoming.map (·.1)).Nodup) (key : String) :
    Json.field (mergeFields base incoming) key = match Json.field incoming key with
      | none => Json.field base key
      | some value => some (match Json.field base key with
        | some existing => deepMerge existing value
        | none => value) := by
  induction incoming generalizing base with
  | nil => rfl
  | cons entry rest ih =>
    obtain ⟨k,value⟩ := entry
    rw [List.map_cons,List.nodup_cons] at hkeys
    rw [mergeFields,ih hkeys.2,Json.field_cons,Json.field_insert,Json.field_remove]
    by_cases hk : key = k
    · subst hk
      have hnone : Json.field rest key = none := by
        rw [Json.field,List.lookup_eq_none_iff]
        intro p hp
        have hne : p.1 ≠ key := fun heq => hkeys.1 (heq ▸ List.mem_map.2 ⟨p,hp,rfl⟩)
        simpa using hne.symm
      rw [hnone,if_pos rfl,if_pos rfl]
    · rw [if_neg hk,if_neg hk,if_neg hk]

theorem mem_of_field {fields : List (String × Json)} {key : String} (h : Json.field fields key = some v) : (key,v) ∈ fields := by
  obtain ⟨before,after,heq,-⟩ := List.lookup_eq_some_iff.1 h
  rw [heq]
  simp

theorem mergedOver_deepMerge (h : Distinct v) (base : Json) : MergedOver base v (deepMerge base v) := by
  induction h generalizing base with
  | @object incoming keys inner ih =>
    by_cases hbase : ∃ fields, base = .object fields
    · obtain ⟨fields,rfl⟩ := hbase
      rw [deepMerge]
      refine .fields (fun key => deepMerge ((Json.field fields key).getD .null) ((Json.field incoming key).getD .null)) ?_ ?_ ?_ ?_
      · intro key hnone
        rw [field_mergeFields keys,hnone]
      · intro key value hvalue hnone
        rw [field_mergeFields keys,hvalue,hnone]
      · intro key value old hvalue hold
        rw [field_mergeFields keys,hvalue,hold]
        rfl
      · intro key value old hvalue hold
        rw [hvalue,hold]
        exact ih (key,value) (mem_of_field hvalue) old
    · have hother : ∀ fields, base ≠ .object fields := fun fields hfields => hbase ⟨fields,hfields⟩
      rw [deepMerge]
      · exact .replaced fun fields hfields => absurd hfields (hother fields)
      · exact fun fields _ hfields _ => hother fields hfields
  | @other value h =>
    rw [deepMerge]
    · exact .replaced fun _ _ fields => h fields
    · exact fun _ fields _ hfields => h fields hfields

end Merging

/-! ## What a write does -/

section Writing

variable {c} {key : String} {v : Json}

theorem segments_ne_nil (key : String) : segments key ≠ [] := Text.split_ne_nil key

/-- A key below an array, with an index that is written differently. -/
theorem exists_index (segment : String) : ∃ s, s ≠ segment ∧ '.' ∉ s.toList ∧
    ∀ item items, (Json.array (item :: items)).child s = some item := by
  have hzero : Text.parseUInt Json.usizeMax "0" = some 0 := by decide
  have hzeros : Text.parseUInt Json.usizeMax "00" = some 0 := by decide
  by_cases hs : segment = "0"
  · refine ⟨"00",by rw [hs]; decide,by decide,fun item items => ?_⟩
    rw [Json.child,hzeros]
    rfl
  · refine ⟨"0",Ne.symm hs,by decide,fun item items => ?_⟩
    rw [Json.child,hzero]
    rfl

theorem frame_set_iff : c.Frame (c.set key v) key ↔ ¬ Blocked (.object c.fields) (segments key) := by
  constructor
  · rintro hframe ⟨item,items,hblocked⟩
    obtain ⟨front,segment,back,hkey,hfront,hgone⟩ := exists_of_obstacle (v := v) hblocked
    obtain ⟨s,hs,hdot,hchild⟩ := exists_index segment
    have hdots : ∀ p ∈ front ++ [s], '.' ∉ p.toList := by
      intro p hp
      obtain hp | hp := List.mem_append.1 hp
      · apply Text.not_mem_of_mem_split (s := key)
        change p ∈ segments key
        rw [hkey]
        exact List.mem_append_left _ hp
      · rw [List.mem_singleton.1 hp]
        exact hdot
    have hsegments : segments (Text.join '.' (front ++ [s])) = front ++ [s] := Text.split_join (by simp) hdots
    have hread := hframe (Text.join '.' (front ++ [s]))
    rw [value,value,hsegments,hkey,List.prefix_append_right_inj,List.prefix_append_right_inj,set] at hread
    have hlost := hread (fun h => hs (List.cons_prefix_cons.1 h).1) (fun h => hs (List.cons_prefix_cons.1 h).1.symm)
    rw [hgone s hs,Json.walk_append,hfront,Option.bind_some,Json.walk_cons,hchild,Option.bind_some] at hlost
    cases hlost
  · intro hfree p hp hkey
    exact walk_write_of_apart (segments_ne_nil key) hfree hp hkey

theorem value_set : (c.set key v).value key = some v := walk_write (segments_ne_nil key)

theorem sets_iff : c.Sets key v ↔ ¬ Blocked (.object c.fields) (segments key) :=
  ⟨fun h => frame_set_iff.1 h.frame,fun h => ⟨value_set,frame_set_iff.2 h⟩⟩

theorem merges_iff (hv : Distinct v) : c.Merges key v ↔ ¬ Blocked (.object c.fields) (segments key) := by
  constructor
  · intro h
    exact frame_set_iff.1 h.frame
  · intro h
    refine ⟨?_,frame_set_iff.2 h⟩
    cases hold : c.value key with
    | none =>
      rw [merge,hold]
      exact value_set
    | some old =>
      rw [merge,hold]
      exact ⟨_,value_set,mergedOver_deepMerge hv old⟩

theorem forgets_of_free (hfree : ¬ Blocked (.object c.fields) (segments key)) : c.Forgets key := by
  have hread := take_eq (segments_ne_nil key) hfree
  cases htake : take c.fields (segments key) with
  | none =>
    rw [htake] at hread
    have hforget : c.forget key = (none,c) := by rw [forget,htake]
    refine ⟨?_,?_,?_⟩
    · rw [hforget]
      exact hread
    · rw [hforget]
      exact hread.symm
    · rw [hforget]
      exact fun _ _ _ => rfl
  | some pair =>
    obtain ⟨taken,fields⟩ := pair
    rw [htake] at hread
    have hforget : c.forget key = (some taken,⟨fields⟩) := by rw [forget,htake]
    obtain ⟨hgone,hframe⟩ := walk_take htake
    refine ⟨?_,?_,?_⟩
    · rw [hforget]
      exact hread
    · rw [hforget]
      exact hgone
    · rw [hforget]
      exact fun p hp hkey => hframe (segments p) hp hkey

/-- The three writers touch only their own path, unless an array with something in it stands on the way. -/
theorem writes_iff (key : String) (v : Value) :
    c.Sets key v.json ∧ c.Merges key v.json ∧ c.Forgets key ↔ ¬ Blocked (.object c.fields) (segments key) := by
  constructor
  · intro h
    exact sets_iff.1 h.1
  · intro h
    exact ⟨sets_iff.2 h,(merges_iff v.distinct).2 h,forgets_of_free h⟩

end Writing

/-- A second server makes the first one disappear. -/
theorem servers_lost :
    let c : Repository := ⟨[("servers",.array [.string "a"])]⟩
    ¬ (c.Sets "servers.1" .null ∧ c.Merges "servers.1" .null ∧ c.Forgets "servers.1") := by
  intro c h
  apply sets_iff.1 h.1
  refine ⟨.string "a",[],?_⟩
  have hsegments : segments "servers.1" = ["servers","1"] := by decide
  rw [hsegments]
  rfl

end Repository

end Rainier.Config
