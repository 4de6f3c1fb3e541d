import Mathlib.Data.String.Basic
import Rainier.Compat.PhpRoundTrip
import Rainier.Compat.PhpSession

/-! # Array keys and JSON

PHP makes an integer key of a text that is one. A payload need not have done so, and the text of a key in
JSON does not say what the key was.
-/
namespace Rainier.Compat.Php
open Rainier

variable {F : Type}

def parseI64 (text : String) : Option Int64 :=
  (Text.parseInt Int64.minValue.toInt Int64.maxValue.toInt text).map Int64.ofInt

/-- The key that PHP stores a name under. -/
def arrayKey (name : String) : Key :=
  match (parseI64 name).filter fun n => n.toInt.repr = name with
  | some n => .int n
  | none => .str (Text.asBytes name)

/-- `Number::as_i64`. -/
def asI64 : JsonNumber → Option Int64
  | .posInt n => if n < 2 ^ 63 then some (Int64.ofInt n) else none
  | .negInt n => some (Int64.ofInt (-1 - n))
  | .float _ => none

/-- The bits of the finite floats, and `Number::as_f64`. -/
structure FloatBits (F : Type) where
  bits : F → BitVec 64
  asF64 : JsonNumber → F64 F
  asF64_bits : ∀ x, asF64 (.float (bits x)) = .finite x

namespace Value

mutual
def fromJson (b : FloatBits F) : Json → Value F
  | .null => .null
  | .bool v => .bool v
  | .number n =>
    match asI64 n with
    | some i => .int i
    | none => .float (b.asF64 n)
  | .string s => .string (Text.asBytes s)
  | .array items => .array (fromItems b 0 items)
  | .object members => .array (fromMembers b members)

def fromItems (b : FloatBits F) (i : ℕ) : List Json → List (Key × Value F)
  | [] => []
  | item :: rest => (.int (Int64.ofNat i),fromJson b item) :: fromItems b (i + 1) rest

def fromMembers (b : FloatBits F) : List (String × Json) → List (Key × Value F)
  | [] => []
  | (name,value) :: rest => (arrayKey name,fromJson b value) :: fromMembers b rest
end

end Value

/-! ## Keys -/

/-- No string key is the text of an integer. -/
def Key.Normal (key : Key) : Prop := ∀ n : Int64, key ≠ .str (Text.asBytes n.toInt.repr)

theorem parseI64_repr (n : Int64) : parseI64 n.toInt.repr = some n := by
  rw [parseI64,Text.parseInt_repr n.minValue_le_toInt n.toInt_le,Option.map_some,Int64.ofInt_toInt]

/-- The three things a name can be. -/
theorem arrayKey_cases (name : String) :
    (∃ n : Int64, name = n.toInt.repr ∧ parseI64 name = some n ∧ arrayKey name = .int n) ∨
      ((∀ n : Int64, name ≠ n.toInt.repr) ∧ arrayKey name = .str (Text.asBytes name)) := by
  rw [arrayKey]
  cases hparse : parseI64 name with
  | none =>
    refine .inr ⟨fun n hname => ?_,rfl⟩
    rw [hname,parseI64_repr] at hparse
    cases hparse
  | some n =>
    by_cases hname : n.toInt.repr = name
    · exact .inl ⟨n,hname.symm,rfl,by simp [Option.filter,hname]⟩
    · refine .inr ⟨fun m hm => ?_,by simp [Option.filter,hname]⟩
      rw [hm,parseI64_repr] at hparse
      cases hparse
      exact hname hm.symm

theorem arrayKey_normal (name : String) : (arrayKey name).Normal := by
  intro n hkey
  rcases arrayKey_cases name with ⟨m,-,-,heq⟩ | ⟨hname,heq⟩
  · rw [heq] at hkey
    cases hkey
  · rw [heq] at hkey
    exact hname n (Text.asBytes_injective (Key.str.inj hkey))

theorem toText_arrayKey (name : String) : (arrayKey name).toText = some name := by
  rcases arrayKey_cases name with ⟨n,hname,-,heq⟩ | ⟨-,heq⟩
  · rw [heq,Key.toText,hname]
  · rw [heq,Key.toText,Text.fromUtf8_asBytes]

theorem arrayKey_of_normal {key : Key} {text : String} (hkey : key.Normal) (h : key.toText = some text) : arrayKey text = key := by
  cases key with
  | int n =>
    cases h
    rcases arrayKey_cases n.toInt.repr with ⟨m,-,hparse,heq⟩ | ⟨hname,-⟩
    · rw [parseI64_repr] at hparse
      cases hparse
      exact heq
    · exact absurd rfl (hname n)
  | str bytes =>
    have hbytes : Text.asBytes text = bytes := Text.asBytes_of_fromUtf8 h
    rcases arrayKey_cases text with ⟨n,hname,-,-⟩ | ⟨-,heq⟩
    · rw [← hbytes,hname] at hkey
      exact absurd rfl (hkey n)
    · rw [heq,hbytes]

/-! ## Looking a name up -/

/-- An integer key is found by a text that is not how the integer is written. -/
def Key.Misread (name : String) (key : Key) : Prop :=
  ∃ n : Int64, key = .int n ∧ parseI64 name = some n ∧ name ≠ n.toInt.repr

/-- The entry that `get` takes the value of. -/
def Value.found (entries : List (Key × Value F)) (name : String) : Option (Key × Value F) :=
  entries.find? fun entry => entry.1.matches name

/-- A misread entry stands before the first one that has the name for its key. -/
def Value.MisreadFirst (entries : List (Key × Value F)) (name : String) : Prop :=
  ∃ front entry rest, entries = front ++ entry :: rest ∧ entry.1.Misread name ∧ ∀ e ∈ front, e.1 ≠ arrayKey name

theorem Value.get_array (entries : List (Key × Value F)) (name : String) :
    (Value.array entries).get name = (Value.found entries name).map (·.2) := rfl

theorem Key.matches_int {n : Int64} {name : String} : (Key.int n).matches name = true ↔ parseI64 name = some n := by
  simp only [Key.matches,decide_eq_true_eq]
  constructor
  · intro h
    rw [parseI64,h,Option.map_some,Int64.ofInt_toInt]
  · intro h
    obtain ⟨m,hm,rfl⟩ := Option.map_eq_some_iff.1 h
    obtain ⟨hlo,hhi⟩ := Text.bounds_of_parseInt hm
    have hmax : Int64.maxValue.toInt = 2 ^ 63 - 1 := by decide
    rw [hm,Int64.toInt_ofInt_of_le hlo (by omega)]

/-- A key that is as PHP stores it matches its own names, and those it is misread for. -/
theorem Key.matches_iff {key : Key} (hkey : key.Normal) (name : String) :
    key.matches name = true ↔ key = arrayKey name ∨ key.Misread name := by
  cases key with
  | int n =>
    rw [Key.matches_int]
    rcases arrayKey_cases name with ⟨m,hname,hparse,heq⟩ | ⟨hname,heq⟩
    · rw [hparse,heq]
      constructor
      · intro h
        cases h
        exact .inl rfl
      · rintro (h | ⟨k,hk,hmisread,hne⟩)
        · cases h
          rfl
        · cases hparse.symm.trans hmisread
          exact absurd hname hne
    · rw [heq]
      constructor
      · intro h
        exact .inr ⟨n,rfl,h,hname n⟩
      · rintro (h | ⟨k,hk,hmisread,-⟩)
        · cases h
        · cases hk
          exact hmisread
  | str bytes =>
    simp only [Key.matches,decide_eq_true_eq]
    rcases arrayKey_cases name with ⟨m,hname,-,heq⟩ | ⟨-,heq⟩
    · constructor
      · intro h
        rw [h,hname] at hkey
        exact absurd rfl (hkey m)
      · rintro (h | ⟨k,hk,-⟩)
        · rw [heq] at h
          cases h
        · cases hk
    · rw [heq]
      constructor
      · intro h
        rw [h]
        exact .inl rfl
      · rintro (h | ⟨k,hk,-⟩)
        · exact Key.str.inj h
        · cases hk

theorem Key.Misread.ne {key : Key} {name : String} (h : key.Misread name) : key ≠ arrayKey name := by
  obtain ⟨n,rfl,hparse,hne⟩ := h
  intro heq
  rcases arrayKey_cases name with ⟨m,hname,hparse',-⟩ | ⟨-,hstr⟩
  · cases hparse.symm.trans hparse'
    exact hne hname
  · rw [hstr] at heq
    cases heq

theorem Value.misreadFirst_cons {entry : Key × Value F} {entries : List (Key × Value F)} {name : String} :
    Value.MisreadFirst (entry :: entries) name ↔
      entry.1.Misread name ∨ (entry.1 ≠ arrayKey name ∧ Value.MisreadFirst entries name) := by
  constructor
  · rintro ⟨front,e,rest,heq,hmisread,hfront⟩
    cases front with
    | nil =>
      cases heq
      exact .inl hmisread
    | cons e' front =>
      cases heq
      exact .inr ⟨hfront _ List.mem_cons_self,front,e,rest,rfl,hmisread,fun e he => hfront e (List.mem_cons_of_mem _ he)⟩
  · rintro (hmisread | ⟨hne,front,e,rest,rfl,hmisread,hfront⟩)
    · exact ⟨[],entry,entries,rfl,hmisread,fun e he => by cases he⟩
    · refine ⟨entry :: front,e,rest,rfl,hmisread,fun e he => ?_⟩
      rcases List.mem_cons.1 he with rfl | he
      · exact hne
      · exact hfront e he

theorem Value.found_iff {entries : List (Key × Value F)} (hnormal : ∀ entry ∈ entries, entry.1.Normal) (name : String) :
    Value.found entries name = entries.find? (fun entry => entry.1 = arrayKey name) ↔ ¬ Value.MisreadFirst entries name := by
  induction entries with
  | nil =>
    refine iff_of_true rfl ?_
    rintro ⟨front,entry,rest,heq,-⟩
    simp at heq
  | cons entry entries ih =>
    obtain ⟨hentry,hnormal⟩ := List.forall_mem_cons.1 hnormal
    have hmatches := Key.matches_iff hentry name
    rw [misreadFirst_cons,Value.found,List.find?_cons,List.find?_cons]
    by_cases heq : entry.1 = arrayKey name
    · have htrue := hmatches.2 (.inl heq)
      have hsame : decide (entry.1 = arrayKey name) = true := decide_eq_true heq
      rw [htrue,hsame]
      refine iff_of_true rfl ?_
      rintro (hmisread | ⟨hne,-⟩)
      · exact hmisread.ne heq
      · exact hne heq
    · by_cases hmisread : entry.1.Misread name
      · have htrue := hmatches.2 (.inr hmisread)
        simp only [htrue,heq,decide_false]
        refine iff_of_false (fun hfound => ?_) (not_not.2 (.inl hmisread))
        exact heq (by simpa using List.find?_some hfound.symm)
      · have hfalse : entry.1.matches name = false := by
          rw [Bool.eq_false_iff]
          intro h
          exact (hmatches.1 h).elim heq hmisread
        simp only [hfalse,heq,decide_false,hmisread,false_or,ne_eq,not_false_iff,true_and]
        exact ih hnormal

/-- The entry that is found has the name for its key, unless one is misread before it. -/
theorem Value.get_finds_iff {entries : List (Key × Value F)} (hnormal : ∀ entry ∈ entries, entry.1.Normal) (name : String) :
    (Value.array entries).get name = (Value.found entries name).map (·.2) ∧
      (Value.found entries name = entries.find? (fun entry => entry.1 = arrayKey name) ↔ ¬ Value.MisreadFirst entries name) ∧
        ∀ entry ∈ entries, ((entry.1.matches name = true ↔ entry.1 = arrayKey name) ↔ ¬ entry.1.Misread name) := by
  refine ⟨Value.get_array entries name,Value.found_iff hnormal name,fun entry hentry => ?_⟩
  rw [Key.matches_iff (hnormal entry hentry) name]
  constructor
  · intro h hmisread
    exact hmisread.ne (h.1 (.inr hmisread))
  · intro hnot
    exact ⟨fun h => h.resolve_right hnot,.inl⟩

theorem Key.int_normal (n : Int64) : (Key.int n).Normal := by
  intro m h
  cases h

/-- An array with one entry, under the integer 7. -/
def sevenEntries : List (Key × Value Unit) := [(.int 7,.null)]

theorem sevenEntries_normal : ∀ entry ∈ sevenEntries, entry.1.Normal := by
  intro entry hentry
  rw [List.mem_singleton.1 hentry]
  exact Key.int_normal 7

theorem get_finds_seven : (Value.array sevenEntries).get "7" = (Value.found sevenEntries "7").map (·.2) ∧
    (Value.found sevenEntries "7" = sevenEntries.find? (fun entry => entry.1 = arrayKey "7") ↔ ¬ Value.MisreadFirst sevenEntries "7") ∧
      ∀ entry ∈ sevenEntries, ((entry.1.matches "7" = true ↔ entry.1 = arrayKey "7") ↔ ¬ entry.1.Misread "7") :=
  Value.get_finds_iff sevenEntries_normal "7"

theorem plus_seven_found : ¬ ∀ (entries : List (Key × Value Unit)) (name : String), (∀ entry ∈ entries, entry.1.Normal) →
    (Value.array entries).get name = (entries.find? fun entry => entry.1 = arrayKey name).map (·.2) := by
  intro h
  have hseven := congrArg Option.isSome (h sevenEntries "+7" sevenEntries_normal)
  have hfound : ((Value.array sevenEntries).get "+7").isSome = true := by decide
  have hnone : ((sevenEntries.find? fun entry => entry.1 = arrayKey "+7").map (·.2)).isSome = false := by decide
  rw [hfound,hnone] at hseven
  cases hseven

/-! ## Back from JSON -/

/-- Keys that an object keeps: as PHP stores them, and in the order of their texts. -/
def KeptKeys (keys : List Key) : Prop :=
  (∀ key ∈ keys, key.Normal) ∧ (keys.filterMap Key.toText).Pairwise (· < ·)

namespace Value

mutual
/-- Every array is a list, or has keys that an object keeps. -/
def Kept : Value F → Prop
  | .array entries => (isList (entries.map (·.1)) = true ∨ KeptKeys (entries.map (·.1))) ∧ KeptEntries entries
  | _ => True

def KeptEntries : List (Key × Value F) → Prop
  | [] => True
  | (_,value) :: rest => Kept value ∧ KeptEntries rest
end

end Value

/-- The fields of an object, in the order of their keys. -/
def Arranged (fields : List (String × Json)) : Prop := (fields.map (·.1)).Pairwise (· < ·)

theorem mem_keys_insert {fields : List (String × Json)} {key : String} {value : Json} {k : String}
    (h : k ∈ (Json.insert fields key value).map (·.1)) : k = key ∨ k ∈ fields.map (·.1) := by
  induction fields with
  | nil => simpa [Json.insert] using h
  | cons entry fields ih =>
    rw [Json.insert] at h
    split_ifs at h with heq hlt
    · exact .inr h
    · exact List.mem_cons.1 h
    · rcases List.mem_cons.1 h with rfl | h
      · exact .inr List.mem_cons_self
      · rcases ih h with rfl | h
        · exact .inl rfl
        · exact .inr (List.mem_cons_of_mem _ h)

theorem Arranged.insert {fields : List (String × Json)} (h : Arranged fields) (key : String) (value : Json) :
    Arranged (Json.insert fields key value) := by
  induction fields with
  | nil => simp [Json.insert,Arranged]
  | cons entry fields ih =>
    obtain ⟨hentry,hfields⟩ := List.pairwise_cons.1 h
    rw [Json.insert]
    split_ifs with heq hlt
    · exact h
    · refine List.pairwise_cons.2 ⟨fun k hk => ?_,h⟩
      rcases List.mem_cons.1 hk with rfl | hk
      · exact hlt
      · exact String.lt_trans hlt (hentry k hk)
    · refine List.pairwise_cons.2 ⟨fun k hk => ?_,ih hfields⟩
      rcases mem_keys_insert hk with rfl | hk
      · exact lt_of_le_of_ne (not_lt.1 hlt) (Ne.symm heq)
      · exact hentry k hk

theorem insert_last {fields : List (String × Json)} {key : String} (h : ∀ k ∈ fields.map (·.1), k < key) (value : Json) :
    Json.insert fields key value = fields ++ [(key,value)] := by
  induction fields with
  | nil => rfl
  | cons entry fields ih =>
    obtain ⟨hentry,hfields⟩ := List.forall_mem_cons.1 h
    rw [Json.insert,if_neg (ne_of_gt hentry),if_neg (not_lt_of_gt hentry),ih hfields]
    rfl

def insertAll (fields pairs : List (String × Json)) : List (String × Json) :=
  pairs.foldl (fun fields pair => Json.insert fields pair.1 pair.2) fields

theorem Arranged.insertAll {fields : List (String × Json)} (h : Arranged fields) (pairs : List (String × Json)) :
    Arranged (insertAll fields pairs) := by
  induction pairs generalizing fields with
  | nil => exact h
  | cons pair pairs ih => exact ih (h.insert pair.1 pair.2)

/-- What comes in order stays as it is. -/
theorem insertAll_arranged {fields pairs : List (String × Json)} (h : Arranged (fields ++ pairs)) :
    insertAll fields pairs = fields ++ pairs := by
  induction pairs generalizing fields with
  | nil => simp [insertAll]
  | cons pair pairs ih =>
    have hbefore : ∀ k ∈ fields.map (·.1), k < pair.1 := by
      intro k hk
      rw [Arranged,List.map_append] at h
      exact (List.pairwise_append.1 h).2.2 k hk pair.1 List.mem_cons_self
    have hnext : Arranged ((fields ++ [pair]) ++ pairs) := by simpa using h
    have hstep : insertAll fields (pair :: pairs) = insertAll (fields ++ [pair]) pairs := by
      rw [insertAll,List.foldl_cons,insert_last hbefore]
      rfl
    rw [hstep,ih hnext]
    simp

/-- The texts of the keys stand for the keys. -/
def Named (values : List (Key × Json)) (pairs : List (String × Json)) : Prop :=
  List.Forall₂ (fun value pair => value.1.toText = some pair.1 ∧ value.2 = pair.2) values pairs

namespace Value

theorem objectJson_eq {values : List (Key × Json)} {fields members : List (String × Json)}
    (h : objectJson fields values = some members) : ∃ pairs, Named values pairs ∧ members = insertAll fields pairs := by
  induction values generalizing fields with
  | nil =>
    cases h
    exact ⟨[],.nil,rfl⟩
  | cons value values ih =>
    obtain ⟨text,htext,h⟩ := Option.bind_eq_some_iff.1 h
    obtain ⟨pairs,hnamed,rfl⟩ := ih h
    exact ⟨(text,value.2) :: pairs,.cons ⟨htext,rfl⟩ hnamed,rfl⟩

theorem fromMembers_eq (b : FloatBits F) (members : List (String × Json)) :
    fromMembers b members = members.map fun member => (arrayKey member.1,fromJson b member.2) := by
  induction members with
  | nil => rfl
  | cons member members ih => rw [fromMembers,ih,List.map_cons]

theorem fromItems_eq (b : FloatBits F) {i : ℕ} {values : List (Key × Json)}
    (h : values.map (·.1) = (List.range' i values.length).map fun k => .int (Int64.ofNat k)) :
    fromItems b i (values.map (·.2)) = values.map fun value => (value.1,fromJson b value.2) := by
  induction values generalizing i with
  | nil => rfl
  | cons value values ih =>
    rw [List.length_cons,List.range'_succ,List.map_cons,List.map_cons] at h
    obtain ⟨hkey,hkeys⟩ := List.cons.inj h
    rw [List.map_cons,fromItems,ih hkeys,List.map_cons,hkey]

theorem keys_entriesJson {bits : F → BitVec 64} {entries : List (Key × Value F)} {values : List (Key × Json)}
    (h : entriesJson bits entries = some values) : values.map (·.1) = entries.map (·.1) := by
  induction entries generalizing values with
  | nil =>
    rw [entriesJson] at h
    cases h
    rfl
  | cons entry entries ih =>
    rw [entriesJson] at h
    obtain ⟨json,-,h⟩ := Option.bind_eq_some_iff.1 h
    obtain ⟨rest,hrest,h⟩ := Option.bind_eq_some_iff.1 h
    cases h
    rw [List.map_cons,List.map_cons,ih hrest]

theorem toTexts {values : List (Key × Json)} {pairs : List (String × Json)} (h : Named values pairs) :
    (values.map (·.1)).filterMap Key.toText = pairs.map (·.1) := by
  induction h with
  | nil => rfl
  | cons hhead htail ih => rw [List.map_cons,List.filterMap_cons_some hhead.1,ih,List.map_cons]

theorem fromMembers_kept (b : FloatBits F) {values : List (Key × Json)} {pairs : List (String × Json)} (h : Named values pairs)
    (hnormal : ∀ key ∈ values.map (·.1), key.Normal) :
    fromMembers b pairs = values.map fun value => (value.1,fromJson b value.2) := by
  induction h with
  | nil => rfl
  | cons hhead htail ih =>
    rw [List.map_cons,List.forall_mem_cons] at hnormal
    rw [fromMembers,ih hnormal.2,List.map_cons,arrayKey_of_normal hnormal.1 hhead.1,hhead.2]

/-- An array that is no list comes back when its keys are ones that an object keeps. -/
theorem fromMembers_iff (b : FloatBits F) {entries : List (Key × Value F)} {values : List (Key × Json)} {members : List (String × Json)}
    (hkeys : values.map (·.1) = entries.map (·.1)) (h : objectJson [] values = some members) :
    fromMembers b members = entries ↔
      KeptKeys (entries.map (·.1)) ∧ (values.map fun value => (value.1,fromJson b value.2)) = entries := by
  obtain ⟨pairs,hnamed,rfl⟩ := objectJson_eq h
  have hkept : KeptKeys (entries.map (·.1)) →
      fromMembers b (insertAll [] pairs) = values.map fun value => (value.1,fromJson b value.2) := by
    rintro ⟨hnormal,htexts⟩
    rw [← hkeys] at hnormal htexts
    rw [toTexts hnamed] at htexts
    have harranged : Arranged ([] ++ pairs) := htexts
    rw [insertAll_arranged harranged,List.nil_append]
    exact fromMembers_kept b hnamed hnormal
  constructor
  · intro heq
    have hmembers := heq
    rw [fromMembers_eq] at hmembers
    have hmade : entries.map (·.1) = (insertAll [] pairs).map fun member => arrayKey member.1 := by
      rw [← hmembers,List.map_map]
      rfl
    have hkeptKeys : KeptKeys (entries.map (·.1)) := by
      constructor
      · rw [hmade]
        intro key hkey
        obtain ⟨member,-,rfl⟩ := List.mem_map.1 hkey
        exact arrayKey_normal member.1
      · have htexts : (entries.map (·.1)).filterMap Key.toText = (insertAll [] pairs).map (·.1) := by
          rw [hmade,List.filterMap_map,← List.filterMap_eq_map]
          congr 1
          funext member
          exact toText_arrayKey member.1
        rw [htexts]
        have hempty : Arranged [] := .nil
        exact hempty.insertAll pairs
    exact ⟨hkeptKeys,(hkept hkeptKeys).symm.trans heq⟩
  · rintro ⟨hkeptKeys,hvalues⟩
    exact (hkept hkeptKeys).trans hvalues

theorem fromJson_intJson (b : FloatBits F) (n : Int64) : fromJson b (intJson n) = .int n := by
  have hlt := n.toInt_lt
  rw [intJson]
  cases hn : n.toInt with
  | ofNat k =>
    have hk : k < 2 ^ 63 := by
      rw [hn] at hlt
      have hcast : (k : ℤ) < 2 ^ 63 := hlt
      omega
    have hint : Int64.ofInt (k : ℤ) = n := by
      rw [← Int64.ofInt_toInt n,hn]
      rfl
    simp only [fromJson,asI64,if_pos hk,hint]
  | negSucc k =>
    have hint : Int64.ofInt (-1 - (k : ℤ)) = n := by
      rw [← Int64.ofInt_toInt n,hn,Int.negSucc_eq]
      congr 1
      omega
    simp only [fromJson,asI64,hint]

theorem fromJson_array_iff (b : FloatBits F) {entries : List (Key × Value F)} {values : List (Key × Json)} {j : Json}
    (hkeys : values.map (·.1) = entries.map (·.1))
    (hvalues : (values.map fun value => (value.1,fromJson b value.2)) = entries ↔ KeptEntries entries)
    (h : (if isList (values.map (·.1)) then some (Json.array (values.map (·.2)))
      else (objectJson [] values).bind fun members => some (Json.object members)) = some j) :
    fromJson b j = .array entries ↔ Kept (.array entries) := by
  rw [Kept]
  split_ifs at h with hlist
  · cases h
    have hitems : fromItems b 0 (values.map (·.2)) = values.map fun value => (value.1,fromJson b value.2) := by
      apply fromItems_eq
      rw [isList,decide_eq_true_eq,List.length_map,List.range_eq_range'] at hlist
      exact hlist
    rw [hkeys] at hlist
    rw [fromJson,array.injEq,hitems,hvalues]
    exact ⟨fun hentries => ⟨.inl hlist,hentries⟩,fun hkept => hkept.2⟩
  · obtain ⟨members,hmembers,heq⟩ := Option.bind_eq_some_iff.1 h
    cases heq
    rw [hkeys] at hlist
    rw [fromJson,array.injEq,fromMembers_iff b hkeys hmembers,hvalues]
    exact ⟨fun hkept => ⟨.inr hkept.1,hkept.2⟩,fun hkept => ⟨hkept.1.resolve_left hlist,hkept.2⟩⟩

mutual
/-- What has a JSON form comes back from it when its arrays are ones that JSON keeps. -/
theorem fromJson_toJson_iff (b : FloatBits F) (v : Value F) {j : Json} (h : v.toJson b.bits = some j) :
    fromJson b j = v ↔ v.Kept := by
  cases v with
  | null =>
    cases h
    exact iff_of_true rfl trivial
  | bool v =>
    cases h
    exact iff_of_true rfl trivial
  | int n =>
    cases h
    exact iff_of_true (fromJson_intJson b n) trivial
  | float f =>
    cases f with
    | finite x =>
      cases h
      refine iff_of_true ?_ trivial
      simp only [fromJson,asI64,b.asF64_bits]
    | nan => cases h
    | infinite negative => cases h
  | string bytes =>
    obtain ⟨s,hs,rfl⟩ := Option.map_eq_some_iff.1 h
    refine iff_of_true ?_ trivial
    rw [fromJson,Text.asBytes_of_fromUtf8 hs]
  | array entries =>
    rw [toJson] at h
    obtain ⟨values,hvalues,h⟩ := Option.bind_eq_some_iff.1 h
    exact fromJson_array_iff b (keys_entriesJson hvalues) (fromEntries_iff b entries hvalues) h
  | object cls properties => cases h
  | custom cls data => cases h
  | enum cls case => cases h
  | reference slot aliased => cases h

theorem fromEntries_iff (b : FloatBits F) (entries : List (Key × Value F)) {values : List (Key × Json)}
    (h : entriesJson b.bits entries = some values) :
    (values.map fun value => (value.1,fromJson b value.2)) = entries ↔ KeptEntries entries := by
  cases entries with
  | nil =>
    rw [entriesJson] at h
    cases h
    exact iff_of_true rfl (by rw [KeptEntries]; trivial)
  | cons entry entries =>
    obtain ⟨key,value⟩ := entry
    rw [entriesJson] at h
    obtain ⟨json,hjson,h⟩ := Option.bind_eq_some_iff.1 h
    obtain ⟨rest,hrest,h⟩ := Option.bind_eq_some_iff.1 h
    cases h
    rw [KeptEntries,← fromJson_toJson_iff b value hjson,← fromEntries_iff b entries hrest]
    simp
end

end Value

/-- A payload comes back from its JSON when its arrays are ones that JSON keeps. -/
theorem json_lossless_iff (t : FloatText F) (b : FloatBits F) (input : List UInt8) {v : Value F} {j : Json}
    (_ : unserialize t input = .ok v) (h : v.toJson b.bits = some j) : Value.fromJson b j = v ↔ v.Kept :=
  Value.fromJson_toJson_iff b v h

def oneHalfBits : FloatBits Unit := ⟨fun _ => 0x3FE0000000000000,fun _ => .finite (),fun _ => rfl⟩

theorem json_lossless_name : Value.fromJson oneHalfBits (.object [("name",.number (.float 0x3FE0000000000000))]) =
    .array [(.str (Text.asBytes "name"),.float (.finite ()))] ↔
      (Value.array [(.str (Text.asBytes "name"),.float (.finite ()))] : Value Unit).Kept :=
  json_lossless_iff oneHalf oneHalfBits (Text.asBytes "a:1:\x7bs:4:\"name\";d:0.5;\x7d") rfl rfl

theorem json_sorts_keys : ¬ ∀ (input : List UInt8) (v : Value Unit) (j : Json), unserialize oneHalf input = .ok v →
    v.toJson oneHalfBits.bits = some j → Value.fromJson oneHalfBits j = v := by
  intro h
  have hback := h (Text.asBytes "a:2:\x7bs:1:\"b\";N;s:1:\"a\";N;\x7d")
    (.array [(.str [98],.null),(.str [97],.null)]) (.object [("a",.null),("b",.null)]) rfl rfl
  have hkeys : Value.fromJson oneHalfBits (.object [("a",.null),("b",.null)]) = .array [(.str [97],.null),(.str [98],.null)] := rfl
  rw [hkeys] at hback
  simp at hback

end Rainier.Compat.Php
