import Rainier.Support.JsonPath
import Rainier.Support.Percent
import Rainier.Support.Split

/-! # Query strings and form bodies

A query is taken apart into pairs, and each pair is put into one JSON tree under its key.
A key may lead into the tree with brackets.
-/
namespace Rainier.Http
open Rainier

/-- One name or value of a pair: a plus is a space, and then escapes are undone. -/
def decodeComponent (pe : PercentEncoding) (raw : String) : String :=
  Text.fromUtf8Lossy (pe.decode (String.ofList (raw.toList.map fun c => if c = '+' then ' ' else c)))

/-- One piece between two `&`: without `=` it is a name alone. -/
def decodePair (pe : PercentEncoding) (piece : String) : String × String :=
  match Text.splitOnce '=' piece with
  | some (name,value) => (decodeComponent pe name,decodeComponent pe value)
  | none => (decodeComponent pe piece,"")

/-- `form_urlencoded::parse`: pieces that are empty are passed over. -/
def formUrlencoded (pe : PercentEncoding) (raw : String) : List (String × String) :=
  ((Text.split '&' raw).filter (· ≠ "")).map (decodePair pe)

/-- One step of a bracketed key. -/
inductive Segment where
  | key (name : String)
  | append
  deriving DecidableEq, Repr

/-- The loop over what is left of a key after its name. -/
def brackets : List Char → List Segment
  | '[' :: stripped =>
    -- unbalanced: the remainder is a literal key
    if ']' ∉ stripped then [.key (String.ofList stripped)]
    else
      let name := stripped.takeWhile (· ≠ ']')
      (if name.isEmpty then .append else .key (String.ofList name)) :: brackets (stripped.dropWhile (· ≠ ']')).tail
  | _ => []
termination_by cs => cs.length
decreasing_by
  have hdrop := (List.dropWhile_sublist (fun c => decide (c ≠ ']')) (l := stripped)).length_le
  rw [List.length_tail,List.length_cons]
  omega

def parseSegments (key : String) : List Segment :=
  if '[' ∉ key.toList then [.key key]
  else .key (String.ofList (key.toList.takeWhile (· ≠ '['))) :: brackets (key.toList.dropWhile (· ≠ '['))

/-- What is not an object is replaced by an empty one. -/
def asObject : Json → List (String × Json)
  | .object fields => fields
  | _ => []

def asArray : Json → List Json
  | .array items => items
  | _ => []

/-- A final key that is there already makes an array of its values. -/
def insertSegments : Json → List Segment → Json → Json
  | _, [], value => value
  | target, [.key name], value =>
    match Json.field (asObject target) name with
    | some (.array items) => .object (Json.insert (asObject target) name (.array (items ++ [value])))
    | some existing => .object (Json.insert (asObject target) name (.array [existing,value]))
    | none => .object (Json.insert (asObject target) name value)
  | target, [.append], value => .array (asArray target ++ [value])
  | target, .key name :: rest, value =>
    .object (Json.insert (asObject target) name
      (insertSegments ((Json.field (asObject target) name).getD .null) rest value))
  | target, .append :: rest, value => .array (asArray target ++ [insertSegments .null rest value])

def insert (target : Json) (key : String) (value : Json) : Json :=
  match parseSegments key with
  | [] => target
  | segments => insertSegments target segments value

def parseUrlencoded (pe : PercentEncoding) (raw : String) : Json :=
  (formUrlencoded pe raw).foldl (fun root pair => insert root pair.1 (.string pair.2)) (.object [])

/-! ## The tree of a list of pairs -/

theorem parseSegments_plain {key : String} (h : '[' ∉ key.toList) : parseSegments key = [.key key] := by
  rw [parseSegments,if_pos h]

theorem exists_parseSegments (key : String) : ∃ name rest, parseSegments key = .key name :: rest := by
  rw [parseSegments]
  split
  · exact ⟨_,_,rfl⟩
  · exact ⟨_,_,rfl⟩

/-- A plain key that is new is a field of its own. -/
theorem insert_plain {fields : List (String × Json)} {key : String} (hkey : '[' ∉ key.toList)
    (hnew : Json.field fields key = none) (value : Json) :
    insert (.object fields) key value = .object (Json.insert fields key value) := by
  rw [insert,parseSegments_plain hkey]
  simp only [insertSegments,asObject,hnew]

/-- Whatever the key is, something stands under its name afterwards and no field is lost. -/
theorem insert_object (fields : List (String × Json)) (key : String) (value : Json) :
    ∃ name given, insert (.object fields) key value = .object (Json.insert fields name given) := by
  obtain ⟨name,rest,hsegments⟩ := exists_parseSegments key
  rw [insert,hsegments]
  cases rest with
  | nil =>
    simp only [insertSegments,asObject]
    split
    · exact ⟨_,_,rfl⟩
    · exact ⟨_,_,rfl⟩
    · exact ⟨_,_,rfl⟩
  | cons segment rest => exact ⟨_,_,rfl⟩

theorem foldl_insert_object (pairs : List (String × String)) (fields : List (String × Json)) :
    ∃ result, pairs.foldl (fun root pair => insert root pair.1 (.string pair.2)) (.object fields) = .object result ∧
      ∀ key, (Json.field fields key).isSome → (Json.field result key).isSome := by
  induction pairs generalizing fields with
  | nil => exact ⟨fields,rfl,fun _ h => h⟩
  | cons pair pairs ih =>
    obtain ⟨name,given,hinsert⟩ := insert_object fields pair.1 (.string pair.2)
    obtain ⟨result,hresult,hkept⟩ := ih (Json.insert fields name given)
    rw [List.foldl_cons,hinsert]
    refine ⟨result,hresult,fun key hkey => hkept key ?_⟩
    rw [Json.field_insert]
    split
    · rfl
    · exact hkey

/-- A pair leaves a field. -/
theorem exists_field_of_ne_nil {pairs : List (String × String)} (h : pairs ≠ []) : ∃ result key,
    pairs.foldl (fun root pair => insert root pair.1 (.string pair.2)) (.object []) = .object result ∧
      (Json.field result key).isSome := by
  obtain ⟨pair,rest,rfl⟩ := List.exists_cons_of_ne_nil h
  obtain ⟨name,given,hinsert⟩ := insert_object [] pair.1 (.string pair.2)
  obtain ⟨result,hresult,hkept⟩ := foldl_insert_object rest (Json.insert [] name given)
  refine ⟨result,name,by rw [List.foldl_cons,hinsert,hresult],hkept name ?_⟩
  rw [Json.field_insert,if_pos rfl]
  rfl

/-- Plain keys that differ are the fields. -/
theorem foldl_insert_plain {pairs : List (String × String)} (hplain : ∀ pair ∈ pairs, '[' ∉ pair.1.toList)
    (hkeys : (pairs.map Prod.fst).Nodup) {fields : List (String × Json)} (hnew : ∀ pair ∈ pairs, Json.field fields pair.1 = none) :
    ∃ result, pairs.foldl (fun root pair => insert root pair.1 (.string pair.2)) (.object fields) = .object result ∧
      ∀ key, Json.field result key = ((pairs.lookup key).map Json.string).or (Json.field fields key) := by
  induction pairs generalizing fields with
  | nil => exact ⟨fields,rfl,fun _ => rfl⟩
  | cons pair pairs ih =>
    rw [List.map_cons,List.nodup_cons] at hkeys
    have hnext : ∀ other ∈ pairs, Json.field (Json.insert fields pair.1 (.string pair.2)) other.1 = none := by
      intro other hother
      have hne : other.1 ≠ pair.1 := fun heq => hkeys.1 (heq ▸ List.mem_map_of_mem hother)
      rw [Json.field_insert,if_neg hne]
      exact hnew other (List.mem_cons_of_mem pair hother)
    obtain ⟨result,hresult,hfield⟩ := ih (fun other hother => hplain other (List.mem_cons_of_mem pair hother)) hkeys.2 hnext
    rw [List.foldl_cons,insert_plain (hplain pair List.mem_cons_self) (hnew pair List.mem_cons_self)]
    refine ⟨result,hresult,fun key => ?_⟩
    rw [hfield,Json.field_insert,List.lookup_cons]
    by_cases hkey : key = pair.1
    · have hlookup : pairs.lookup key = none := by
        rw [List.lookup_eq_none_iff]
        intro other hother
        rw [bne_iff_ne]
        rintro rfl
        exact hkeys.1 (hkey ▸ List.mem_map_of_mem hother)
      rw [if_pos hkey,beq_iff_eq.mpr hkey,hlookup]
      rfl
    · rw [if_neg hkey,beq_eq_false_iff_ne.mpr hkey]

end Rainier.Http
