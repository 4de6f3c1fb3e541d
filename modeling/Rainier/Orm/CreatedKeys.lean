import Mathlib.Algebra.Order.Ring.Nat
import Mathlib.Data.List.Nodup
import Rainier.Orm.Creation

/-! # The key of a created row

The struct that comes back has the key of the row where it was read back by that key. Otherwise
it is the one that was passed in: with a minted key `create` never reads, `first_or_create` does
not for ids of 63 bits and more, and neither finds a row that its endpoint does not have yet.
`first_or_create` also follows a number reported for a key of the caller's own.
-/
namespace Rainier.Orm
open Database

namespace KeyedEntity

variable {E : KeyedEntity} {model : Fields}

theorem hasAutoIncrementKey_iff : E.hasAutoIncrementKey = true ↔ (E.primaryKey,true) ∈ E.columns := by
  simp only [hasAutoIncrementKey,List.any_eq_true,Bool.and_eq_true,decide_eq_true_eq]
  constructor
  · rintro ⟨⟨name,flag⟩,hmem,rfl,rfl⟩
    exact hmem
  · intro h
    exact ⟨_,h,rfl,rfl⟩

/-- A column has one specification. -/
theorem column_unique {name : String} {a b : Bool} (ha : (name,a) ∈ E.columns) (hb : (name,b) ∈ E.columns) : a = b := by
  have hinj := List.inj_on_of_nodup_map E.named ha hb rfl
  exact (Prod.mk.inj hinj).2

theorem plain_key (h : E.hasAutoIncrementKey = false) : (E.primaryKey,false) ∈ E.columns := by
  obtain ⟨⟨name,flag⟩,hmem,hname⟩ := List.mem_map.1 E.keyed
  obtain rfl : name = E.primaryKey := hname
  cases flag with
  | false => exact hmem
  | true => rw [hasAutoIncrementKey_iff.2 hmem] at h; exact absurd h (by decide)

theorem lookup_eq_some {name : String} {v : Value} {pairs : List (String × Value)} (hmem : (name,v) ∈ pairs)
    (hsame : ∀ w, (name,w) ∈ pairs → w = v) : pairs.lookup name = some v := by
  induction pairs with
  | nil => simp at hmem
  | cons pair pairs ih =>
    obtain ⟨other,w⟩ := pair
    by_cases hname : name = other
    · subst hname
      rw [List.lookup_cons_self,hsame w List.mem_cons_self]
    · have hother : (name == other) = false := by simpa using hname
      rw [List.lookup_cons,hother]
      exact ih (by simpa [hname] using hmem) fun w hw => hsame w (List.mem_cons_of_mem _ hw)

theorem mem_insertValues {name : String} {v : Value} (h : (name,v) ∈ E.insertValues model) :
    v = model name ∧ (name,false) ∈ E.columns := by
  obtain ⟨⟨other,flag⟩,hcolumn,hpair⟩ := List.mem_map.1 h
  obtain ⟨hmem,hflag⟩ := List.mem_filter.1 hcolumn
  cases hpair
  cases flag with
  | false => exact ⟨rfl,hmem⟩
  | true => exact absurd hflag Bool.false_ne_true

theorem key_mem_insertValues (h : E.hasAutoIncrementKey = false) :
    (E.primaryKey,model E.primaryKey) ∈ E.insertValues model :=
  List.mem_map.2 ⟨(E.primaryKey,false),List.mem_filter.2 ⟨plain_key h,rfl⟩,rfl⟩

theorem lookup_own (h : E.hasAutoIncrementKey = false) :
    (E.insertPairs model none).lookup E.primaryKey = some (model E.primaryKey) :=
  lookup_eq_some (key_mem_insertValues h) fun _ hw => (mem_insertValues hw).1

theorem lookup_minted (h : E.hasAutoIncrementKey = false) (id : UInt64) :
    (E.insertPairs model (some id)).lookup E.primaryKey = some (.int .bigUnsigned (some id.toNat)) := by
  apply lookup_eq_some
  · exact List.mem_map.2 ⟨_,key_mem_insertValues h,by simp⟩
  · intro w hw
    obtain ⟨pair,-,hpair⟩ := List.mem_map.1 hw
    split_ifs at hpair with hname
    · exact (Prod.mk.inj hpair).2.symm
    · exact absurd (by rw [hpair]) hname

theorem lookup_numbered (h : E.hasAutoIncrementKey = true) :
    (E.insertPairs model none).lookup E.primaryKey = none := by
  rw [List.lookup_eq_none_iff]
  rintro ⟨name,v⟩ hmem
  rw [bne_iff_ne]
  rintro rfl
  exact absurd (column_unique (mem_insertValues hmem).2 (hasAutoIncrementKey_iff.1 h)) (by decide)

/-- A minted key is none that the database numbers. -/
theorem plain_of_shardKey {pairs : List (String × Value)} {shard : UInt64}
    (h : E.shardKeyForInsert pairs = some shard) : E.hasAutoIncrementKey = false := by
  rw [shardKeyForInsert] at h
  split_ifs at h
  obtain ⟨spec,hspec,h⟩ := Option.bind_eq_some_iff.1 h
  split_ifs at h with hauto
  have hname : spec.1 = E.primaryKey := by simpa using List.find?_some hspec
  have hmem : (E.primaryKey,false) ∈ E.columns := by
    rw [← hname,← Bool.eq_false_iff.2 hauto]
    exact List.mem_of_find?_eq_some hspec
  rw [Bool.eq_false_iff,Ne,hasAutoIncrementKey_iff]
  intro hnumbered
  exact absurd (column_unique hmem hnumbered) (by decide)

end KeyedEntity

theorem toInt_eq (id : UInt64) : id.toInt64.toInt = if id.toNat < 2 ^ 63 then (id.toNat : ℤ) else id.toNat - 2 ^ 64 := by
  have hbits : id.toInt64.toInt = if 2 * id.toNat < 2 ^ 64 then (id.toNat : ℤ) else id.toNat - (2 ^ 64 : ℕ) :=
    BitVec.toInt_eq_toNat_cond id.toBitVec
  rw [hbits]
  split_ifs <;> omega

/-- An id of 63 bits and more is cast to a negative number. -/
theorem toInt64_pos {id : UInt64} : 0 < id.toInt64 ↔ 0 < id.toNat ∧ id.toNat < 2 ^ 63 := by
  have hlt := id.toNat_lt
  rw [Int64.lt_iff_toInt_lt,Int64.toInt_zero,toInt_eq]
  split_ifs <;> omega

namespace Handle

variable {E : KeyedEntity} {db : Handle E} {model m : Fields} {o : Inserted}

/-- A row found under a number has that number as its key, if keys are numbers. -/
theorem find_key (hkind : E.keyKind = .int) {id : Int64} {row : Fields} (h : db.find id = .ok (some row)) :
    (row E.primaryKey).content = some (.int id.toInt) := by
  rw [find] at h
  cases hseen : db.seen with
  | error e => rw [hseen] at h; cases h
  | ok rows =>
    rw [hseen] at h
    have hfound := Except.ok.inj h
    have hmatch := List.find?_some hfound
    rw [Bool.and_eq_true] at hmatch
    have hrow := db.typed hseen (List.mem_of_find?_eq_some hfound)
    have hequal := hmatch.2
    rw [db.equals_iff (hrow.trans (hkind.trans rfl))] at hequal
    exact hequal.2

theorem plain_of_assigned {id : UInt64} (h : db.assigned model = some id) : E.hasAutoIncrementKey = false := by
  obtain ⟨shard,hshard,-⟩ := Option.bind_eq_some_iff.1 h
  exact KeyedEntity.plain_of_shardKey hshard

/-- A minted id is stored as the key. -/
theorem stored_assigned {id : UInt64} (h : db.assigned model = some id) (hkind : E.keyKind = .int)
    (ho : db.execute (E.insertPairs model (db.assigned model)) = .ok o) : o.key.content = some (.int id.toNat) := by
  apply db.kept ho (v := .int .bigUnsigned (some id.toNat)) _ hkind.symm
  rw [h]
  exact KeyedEntity.lookup_minted (plain_of_assigned h) id

/-- The caller's own key is stored as it is. -/
theorem stored_own (h : db.assigned model = none) (hplain : E.hasAutoIncrementKey = false)
    (hkind : (model E.primaryKey).kind = E.keyKind)
    (ho : db.execute (E.insertPairs model (db.assigned model)) = .ok o) :
    o.key.content = (model E.primaryKey).content := by
  apply db.kept ho _ hkind
  rw [h]
  exact KeyedEntity.lookup_own hplain

/-- The number that is reported for a numbered key is the key. -/
theorem stored_numbered (h : db.assigned model = none) (hauto : E.hasAutoIncrementKey = true)
    (ho : db.execute (E.insertPairs model (db.assigned model)) = .ok o) (hpos : 0 < o.lastInsertId) :
    o.key.content = some (.int o.lastInsertId.toInt) := by
  apply db.reported ho _ hpos
  rw [h]
  exact KeyedEntity.lookup_numbered hauto

/-- The re-read of a numbered row finds it, or the struct had its key already. -/
def NumberKnown (db : Handle E) (model : Fields) (o : Inserted) : Prop :=
  (0 < o.lastInsertId ∧ ∃ row, db.find o.lastInsertId = .ok (some row)) ∨
    (model E.primaryKey).content = o.key.content

/-- When `create` returns the key. -/
structure CreateKnows (db : Handle E) (model : Fields) (o : Inserted) : Prop where
  minted : ∀ id, db.assigned model = some id → (model E.primaryKey).content = some (.int id.toNat)
  numbered : E.hasAutoIncrementKey → db.NumberKnown model o

/-- When `first_or_create` returns the key of the row it created. -/
structure FirstKnows (db : Handle E) (model : Fields) (o : Inserted) : Prop where
  minted : ∀ id, db.assigned model = some id →
    (0 < id.toNat ∧ id.toNat < 2 ^ 63 ∧ ∃ row, db.find id.toInt64 = .ok (some row)) ∨
      (model E.primaryKey).content = some (.int id.toNat)
  numbered : E.hasAutoIncrementKey → db.NumberKnown model o
  own : db.assigned model = none → E.hasAutoIncrementKey = false → 0 < o.lastInsertId →
    ∀ row, db.find o.lastInsertId = .ok (some row) → (row E.primaryKey).content = (model E.primaryKey).content

/-- What comes back from a re-read by the reported number of a numbered key. -/
theorem numbered_iff (h : db.assigned model = none) (hauto : E.hasAutoIncrementKey = true)
    (ho : db.execute (E.insertPairs model (db.assigned model)) = .ok o)
    (hm : if 0 < o.lastInsertId then db.find o.lastInsertId = .ok (some m) ∨
      db.find o.lastInsertId = .ok none ∧ m = model else m = model) :
    (m E.primaryKey).content = o.key.content ↔ db.NumberKnown model o := by
  have hkind := E.numbered (KeyedEntity.hasAutoIncrementKey_iff.1 hauto)
  rw [NumberKnown]
  split_ifs at hm with hpos
  · rcases hm with hfound | ⟨hnone,rfl⟩
    · exact iff_of_true ((find_key hkind hfound).trans (stored_numbered h hauto ho hpos).symm) (.inl ⟨hpos,_,hfound⟩)
    · simp [hnone]
  · subst hm
    simp [hpos]

/-- A re-read gives the row it finds, or else the struct. -/
theorem find_getD {id : Int64} (h : (db.find id).map (·.getD model) = .ok m) :
    db.find id = .ok (some m) ∨ db.find id = .ok none ∧ m = model := by
  cases hfind : db.find id with
  | error e => rw [hfind] at h; cases h
  | ok found =>
    rw [hfind] at h
    have hfound := Except.ok.inj h
    cases found with
    | none => exact .inr ⟨rfl,hfound.symm⟩
    | some row => exact .inl (by rw [← hfound]; rfl)

theorem create_stored {hooks : Hooks} (hm : create db hooks model = .ok m)
    (ho : db.execute (E.insertPairs model (db.assigned model)) = .ok o) :
    stored db model (db.assigned model) (((db.assigned model).map (·.toInt64)).getD o.lastInsertId) = .ok m := by
  obtain ⟨-,-,hm⟩ := bind_eq_ok.1 hm
  obtain ⟨outcome,houtcome,hm⟩ := bind_eq_ok.1 hm
  obtain rfl : o = outcome := Except.ok.inj (ho.symm.trans houtcome)
  obtain ⟨row,hrow,hm⟩ := bind_eq_ok.1 hm
  obtain ⟨-,-,hm⟩ := bind_eq_ok.1 hm
  exact hrow.trans hm

theorem firstOrCreate_created (hm : firstOrCreate db (.ok none) model = .ok m)
    (ho : db.execute (E.insertPairs model (db.assigned model)) = .ok o) :
    created db model (((db.assigned model).map (·.toInt64)).getD o.lastInsertId) = .ok m := by
  have hinsert : (db.insert model >>= fun id => created db model id) = .ok m := hm
  obtain ⟨id,hid,hm⟩ := bind_eq_ok.1 hinsert
  obtain ⟨outcome,houtcome,hid⟩ := bind_eq_ok.1 hid
  obtain rfl : o = outcome := Except.ok.inj (ho.symm.trans houtcome)
  rw [Except.ok.inj hid]
  exact hm

theorem create_key_iff {hooks : Hooks} (hkind : (model E.primaryKey).kind = E.keyKind)
    (hnumber : (E.shardKeyForInsert (E.insertValues model)).isSome → E.keyKind = .int)
    (hm : create db hooks model = .ok m) (ho : db.execute (E.insertPairs model (db.assigned model)) = .ok o) :
    (m E.primaryKey).content = o.key.content ↔ db.CreateKnows model o := by
  have hstored := create_stored hm ho
  cases hassigned : db.assigned model with
  | some id =>
    have hint : E.keyKind = .int := hnumber (by
      obtain ⟨shard,hshard,-⟩ := Option.bind_eq_some_iff.1 hassigned
      rw [hshard]
      rfl)
    rw [hassigned,stored,Option.isNone_some,Bool.false_and,Bool.false_and,if_neg Bool.false_ne_true] at hstored
    rw [stored_assigned hassigned hint ho,← Except.ok.inj hstored]
    constructor
    · intro h
      refine ⟨fun id' hid' => ?_,fun hauto => ?_⟩
      · rw [hassigned] at hid'
        cases hid'
        exact h
      · rw [plain_of_assigned hassigned] at hauto
        exact absurd hauto Bool.false_ne_true
    · intro h
      exact h.minted id hassigned
  | none =>
    rw [hassigned,stored] at hstored
    simp only [Option.isNone_none,Bool.true_and,Option.map_none,Option.getD_none] at hstored
    have hminted : ∀ id, db.assigned model = some id → (model E.primaryKey).content = some (.int id.toNat) :=
      fun id hid => by rw [hassigned] at hid; cases hid
    cases hauto : E.hasAutoIncrementKey with
    | false =>
      rw [hauto,Bool.and_false,if_neg Bool.false_ne_true] at hstored
      rw [← Except.ok.inj hstored,stored_own hassigned hauto hkind ho]
      exact iff_of_true rfl ⟨hminted,fun h => absurd (hauto.symm.trans h) Bool.false_ne_true⟩
    | true =>
      rw [hauto,Bool.and_true] at hstored
      have hcases : if 0 < o.lastInsertId then db.find o.lastInsertId = .ok (some m) ∨
          db.find o.lastInsertId = .ok none ∧ m = model else m = model := by
        split_ifs with hpos
        · rw [if_pos (by simpa using hpos)] at hstored
          exact find_getD hstored
        · rw [if_neg (by simpa using hpos)] at hstored
          exact (Except.ok.inj hstored).symm
      rw [numbered_iff hassigned hauto ho hcases]
      exact ⟨fun h => ⟨hminted,fun _ => h⟩,fun h => h.numbered hauto⟩

theorem firstOrCreate_key_iff (hkind : (model E.primaryKey).kind = E.keyKind)
    (hnumber : (E.shardKeyForInsert (E.insertValues model)).isSome → E.keyKind = .int)
    (hm : firstOrCreate db (.ok none) model = .ok m)
    (ho : db.execute (E.insertPairs model (db.assigned model)) = .ok o) :
    (m E.primaryKey).content = o.key.content ↔ db.FirstKnows model o := by
  have hcreated := firstOrCreate_created hm ho
  cases hassigned : db.assigned model with
  | some id =>
    have hint : E.keyKind = .int := hnumber (by
      obtain ⟨shard,hshard,-⟩ := Option.bind_eq_some_iff.1 hassigned
      rw [hshard]
      rfl)
    have hplain := plain_of_assigned hassigned
    have hiff : db.FirstKnows model o ↔ (0 < id.toNat ∧ id.toNat < 2 ^ 63 ∧ ∃ row, db.find id.toInt64 = .ok (some row)) ∨
        (model E.primaryKey).content = some (.int id.toNat) := by
      constructor
      · intro h
        exact h.minted id hassigned
      · intro h
        refine ⟨fun id' hid' => ?_,fun hauto => ?_,fun hnone => ?_⟩
        · rw [hassigned] at hid'
          cases hid'
          exact h
        · exact absurd (hplain.symm.trans hauto) Bool.false_ne_true
        · rw [hassigned] at hnone
          cases hnone
    rw [stored_assigned hassigned hint ho,hiff]
    rw [hassigned,created,Option.map_some,Option.getD_some] at hcreated
    split_ifs at hcreated with hpos
    · have hrange := toInt64_pos.1 hpos
      rcases find_getD hcreated with hfound | ⟨hnone,rfl⟩
      · refine iff_of_true ?_ (.inl ⟨hrange.1,hrange.2,_,hfound⟩)
        rw [find_key hint hfound,toInt_eq,if_pos hrange.2]
      · simp [hnone]
    · rw [← Except.ok.inj hcreated]
      have hrange : ¬ (0 < id.toNat ∧ id.toNat < 2 ^ 63) := fun h => hpos (toInt64_pos.2 h)
      constructor
      · exact .inr
      · rintro (⟨hlow,hhigh,-⟩ | h)
        · exact absurd ⟨hlow,hhigh⟩ hrange
        · exact h
  | none =>
    rw [hassigned,created,Option.map_none,Option.getD_none] at hcreated
    have hcases : if 0 < o.lastInsertId then db.find o.lastInsertId = .ok (some m) ∨
        db.find o.lastInsertId = .ok none ∧ m = model else m = model := by
      split_ifs at hcreated ⊢
      · exact find_getD hcreated
      · exact (Except.ok.inj hcreated).symm
    have hminted : ∀ id, db.assigned model = some id →
        (0 < id.toNat ∧ id.toNat < 2 ^ 63 ∧ ∃ row, db.find id.toInt64 = .ok (some row)) ∨
          (model E.primaryKey).content = some (.int id.toNat) :=
      fun id hid => by rw [hassigned] at hid; cases hid
    cases hauto : E.hasAutoIncrementKey with
    | true =>
      rw [numbered_iff hassigned hauto ho hcases]
      exact ⟨fun h => ⟨hminted,fun _ => h,fun _ hplain => absurd (hplain.symm.trans hauto) Bool.false_ne_true⟩,
        fun h => h.numbered hauto⟩
    | false =>
      have hown : db.FirstKnows model o ↔ (0 < o.lastInsertId → ∀ row, db.find o.lastInsertId = .ok (some row) →
          (row E.primaryKey).content = (model E.primaryKey).content) :=
        ⟨fun h => h.own hassigned hauto,
          fun h => ⟨hminted,fun htrue => absurd (hauto.symm.trans htrue) Bool.false_ne_true,fun _ _ => h⟩⟩
      rw [stored_own hassigned hauto hkind ho,hown]
      split_ifs at hcases with hpos
      · rcases hcases with hfound | ⟨hnone,rfl⟩
        · simp [hpos,hfound]
        · simp [hnone]
      · simp [hpos,hcases]

end Handle

/-- The struct that comes back has the key of the stored row just when it was read back by that
key or had it already. -/
theorem created_key_iff {E : KeyedEntity} (db : Handle E) (model : Fields)
    (hkind : (model E.primaryKey).kind = E.keyKind)
    (hnumber : (E.shardKeyForInsert (E.insertValues model)).isSome → E.keyKind = .int) (o : Inserted)
    (ho : db.execute (E.insertPairs model (db.assigned model)) = .ok o) :
    (∀ hooks m, create db hooks model = .ok m → ((m E.primaryKey).content = o.key.content ↔ db.CreateKnows model o)) ∧
    (∀ m, firstOrCreate db (.ok none) model = .ok m →
      ((m E.primaryKey).content = o.key.content ↔ db.FirstKnows model o)) :=
  ⟨fun _ _ hm => Handle.create_key_iff hkind hnumber hm ho,fun _ hm => Handle.firstOrCreate_key_iff hkind hnumber hm ho⟩

/-- A text equals a number that it spells. -/
def looselyEquals : Value → Value → Bool
  | .string (some s), .int _ (some n) => s = Int.repr n
  | a, b => a.content.isSome && a.content = b.content

/-- A store that reports `last`, numbers by it, mints `minted` and serves the re-read from `rows`. -/
def sampleHandle (E : KeyedEntity) (last : Int64) (minted : Option UInt64) (rows : List Fields)
    (typed : ∀ row ∈ rows, (row E.primaryKey).kind = E.keyKind) : Handle E where
  allocateId _ := minted
  execute pairs := .ok ⟨(pairs.lookup E.primaryKey).getD (.int .bigInt (some last.toInt)),last⟩
  equals := looselyEquals
  seen := .ok rows
  equals_iff {a b} hkind := by
    cases a with
    | string s =>
      cases b with
      | int width n => exact absurd hkind (by simp [Value.kind])
      | _ => cases s <;> simp [looselyEquals]
    | _ => cases b <;> simp [looselyEquals]
  kept ho hlookup _ := by
    cases ho
    rw [hlookup]
    rfl
  reported ho hlookup _ := by
    cases ho
    rw [hlookup]
    rfl
  typed hrows hrow := by
    cases hrows
    exact typed _ hrow

def tokens : KeyedEntity where
  columns := [("id",false),("user_id",false)]
  primaryKey := "id"
  shardColumns := ["id","user_id"]
  softDeleteColumn := none
  keyKind := .int
  named := by decide
  keyed := by decide
  numbered _ := rfl

def posts : KeyedEntity where
  columns := [("id",true),("title",false)]
  primaryKey := "id"
  shardColumns := []
  softDeleteColumn := none
  keyKind := .int
  named := by decide
  keyed := by decide
  numbered _ := rfl

def sessions : KeyedEntity where
  columns := [("id",false)]
  primaryKey := "id"
  shardColumns := []
  softDeleteColumn := none
  keyKind := .text
  named := by decide
  keyed := by decide
  numbered h := by simp at h

/-- A struct whose every field is one number. -/
def numbered (n : ℤ) : Fields := fun _ => .int .bigInt (some n)

def unset : Fields := fun column => if column = "id" then .int .bigInt (some 0) else .int .bigInt (some 42)

def named (s : String) : Fields := fun _ => .string (some s)

def silent : Hooks := ⟨fun _ => .ok (),fun _ _ => .ok ()⟩

/-- A numbered post is returned with its number where the re-read sees it. -/
theorem created_post_key :
    ((numbered 7) "id").content = some (.int 7) ∧
      create (sampleHandle posts 7 none [numbered 7] (by simp [posts,numbered,Value.kind])) silent (numbered 0) =
        .ok (numbered 7) := by
  have hknows : (sampleHandle posts 7 none [numbered 7] (by simp [posts,numbered,Value.kind])).CreateKnows (numbered 0)
      ⟨.int .bigInt (some 7),7⟩ := by
    refine ⟨fun id hid => ?_,fun _ => .inl ⟨by decide,numbered 7,rfl⟩⟩
    cases hid
  have hiff := (created_key_iff (sampleHandle posts 7 none [numbered 7] (by simp [posts,numbered,Value.kind])) (numbered 0)
    rfl (fun h => absurd h (by decide)) ⟨.int .bigInt (some 7),7⟩ rfl).1 silent (numbered 7) rfl
  exact ⟨hiff.2 hknows,rfl⟩

/-- What is to hold of one call: the struct that comes back has the key of the row. -/
def ReturnsKey {E : KeyedEntity} (db : Handle E) (model : Fields) : Prop :=
  ∀ o, db.execute (E.insertPairs model (db.assigned model)) = .ok o →
    (∀ hooks m, create db hooks model = .ok m → (m E.primaryKey).content = o.key.content) ∧
    (∀ m, firstOrCreate db (.ok none) model = .ok m → (m E.primaryKey).content = o.key.content)

/-- A token under a minted id comes back from `create` with the id it had; one under an id of 64
bits also from `first_or_create`, though the re-read would see it; a post that the replica does
not have yet comes back unnumbered; and a session comes back as another one, whose key spells
the number the driver reported. -/
theorem created_keys_stale :
    ¬ ReturnsKey (sampleHandle tokens 0 (some 4242) [numbered 4242] (by simp [tokens,numbered,Value.kind])) unset ∧
    (firstOrCreate (sampleHandle tokens 0 (some 18446744073709551615) [numbered 18446744073709551615]
      (by simp [tokens,numbered,Value.kind])) (.ok none) unset).map (fun m => (m "id").content) = .ok (some (.int 0)) ∧
    ¬ ReturnsKey (sampleHandle posts 7 none [] (by simp)) (numbered 0) ∧
    ¬ ReturnsKey (sampleHandle sessions 99 none [named "99"] (by simp [sessions,named,Value.kind])) (named "abc") := by
  refine ⟨fun h => ?_,by decide,fun h => ?_,fun h => ?_⟩
  · exact absurd ((h _ rfl).1 silent unset rfl) (by decide)
  · exact absurd ((h _ rfl).1 silent (numbered 0) rfl) (by decide)
  · exact absurd ((h _ rfl).2 (named "99") rfl) (by decide)

end Rainier.Orm
