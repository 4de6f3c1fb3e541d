import Mathlib.Data.List.Pairwise
import Rainier.Database.Keys

/-! # Eager loading

The rows loaded for a list of models are compared with those loaded for one, and with the query
for one model's key. They differ where a `NULL` key meets the text that stands for it, and
through a pivot wherever the links do not stand in the order the criteria asks for. Pairing the
models with their rows takes a shared group away from all but the first.
-/
namespace Rainier.Database

variable {E : Entity} {P X J : Type}

/-! ## What a relationship is to load -/

/-- The related keys a pivot holds for one near key. -/
def BelongsToMany.linked (r : BelongsToMany E P X J) (D : KeyedEngine P X J) (db : Tables Value) (v : Value) : List Value :=
  ((db r.pivot).filter fun row => D.equals (row r.parentPivotKey) v).map (· r.relatedPivotKey)

namespace Relation

variable (r : Relation E P X J) (D : KeyedEngine P X J) (db : Tables Value) (N : Entity)

/-- The far keys that belong to one near key. -/
def farKeys (v : Value) : List Value :=
  match r with
  | hasMany _ | hasOne _ | belongsTo _ => [v]
  | belongsToMany m => m.linked D db v

/-- The query for one model's key alone. -/
def direct (parent : Model) : Option (List Model) :=
  match valueOf N parent r.nearKey with
  | some v => D.matching db E (r.criteria.whereIn r.farKey.name (r.farKeys D db v))
  | none => some []

/-- Loading for a list of models is loading for each of them, and pairing gives each its rows. -/
def EagerAgrees (parents : List Model) : Prop :=
  ∃ loaded, r.load D.toEngine db N parents = some loaded ∧
    (∀ p ∈ parents, r.forOne D.toEngine db N p = some (loaded.of N p) ∧ r.direct D db N p = some (loaded.of N p)) ∧
    loaded.zip N parents = parents.map fun p => (p,loaded.of N p)

/-- The columns a relationship matches hold one type, as a foreign key and what it points at do. -/
structure Typed (parents : List Model) (kind : Kind) : Prop where
  near : ∀ p ∈ parents, ∀ v, valueOf N p r.nearKey = some v → v.kind = kind
  far : ∀ row ∈ db E.table, (row r.farKey.name).kind = kind
  pivot : ∀ m, r = .belongsToMany m →
    ∀ row ∈ db m.pivot, (row m.parentPivotKey).kind = kind ∧ (row m.relatedPivotKey).kind = kind

/-- Through a pivot no two rows share a related key. -/
def UniqueRelated : Prop :=
  ∀ m, r = .belongsToMany m → (db E.table).Pairwise fun a b => D.equals (a m.relatedKey.name) (b m.relatedKey.name) = false

/-- The text that stands for a `NULL` is no key with rows where a `NULL` is listed. -/
def Clear (parents : List Model) : Prop :=
  ∀ p ∈ parents, ∀ q ∈ parents, ∀ v w, valueOf N p r.nearKey = some v → valueOf N q r.nearKey = some w →
    v.content = none → w.content = some (.text nullKey) → r.direct D db N q = some []

/-- A pivot gives the links of each model in the order of the rows they lead to, one for each. -/
def Follows (parents : List Model) : Prop :=
  ∀ m, r = .belongsToMany m → ∀ p ∈ parents, ∀ v, valueOf N p r.nearKey = some v → ∀ links rows,
    D.pivotLinks db m.readsUnsigned (m.linksFor [v]) = some links → r.direct D db N p = some rows →
      let keys := rows.map fun row => (valueOf E row m.relatedKey.name).map relationKey
      (links.map fun link => some (relationKey link.2)).filter (· ∈ keys) = keys

/-- Models that share a key have no related rows. -/
def Unshared (parents : List Model) : Prop :=
  parents.Pairwise fun p q =>
    (valueOf N p r.nearKey).map relationKey = (valueOf N q r.nearKey).map relationKey → r.direct D db N p = some []

end Relation

/-! ## Keys asked for once -/

section Keys

variable (D : KeyedEngine P X J) {kind : Kind}

theorem equals_congr {x v w : Value} (hx : x.kind = kind) (hv : v.kind = kind) (hw : w.kind = kind)
    (h : v.content = w.content) : D.equals x v = D.equals x w := by
  rw [Bool.eq_iff_iff,D.equals_iff (hx.trans hv.symm),D.equals_iff (hx.trans hw.symm),h]

theorem equals_null {x v : Value} (hx : x.kind = kind) (hv : v.kind = kind) (h : v.content = none) :
    D.equals x v = false := by
  rw [Bool.eq_false_iff,Ne,D.equals_iff (hx.trans hv.symm),h]
  rintro ⟨hsome,hnone⟩
  simp [hnone] at hsome

theorem relationKey_of_equals {x v : Value} (hx : x.kind = kind) (hv : v.kind = kind) (h : D.equals x v = true) :
    relationKey x = relationKey v :=
  relationKey_congr (hx.trans hv.symm) ((D.equals_iff (hx.trans hv.symm)).1 h).2

theorem equals_of_relationKey {x v : Value} (hx : x.kind = kind) (hv : v.kind = kind) (hxs : x.content.isSome)
    (hvs : v.content.isSome) (h : relationKey x = relationKey v) : D.equals x v = true := by
  obtain ⟨a,ha⟩ := Option.isSome_iff_exists.1 hxs
  obtain ⟨b,hb⟩ := Option.isSome_iff_exists.1 hvs
  rw [D.equals_iff (hx.trans hv.symm),ha,hb,relationKey_inj (hx.trans hv.symm) ha hb h]
  exact ⟨rfl,rfl⟩

theorem dedup_subset (values : List Value) : dedup values ⊆ values := Grouping.firstSeen_subset _ _ _

theorem exists_dedup {values : List Value} {v : Value} (h : v ∈ values) :
    ∃ w ∈ dedup values, relationKey w = relationKey v :=
  (Grouping.exists_firstSeen h).resolve_left List.not_mem_nil

/-- Among keys asked for once, a text finds the one key that has it. -/
theorem any_equals {values : List Value} (hvalues : ∀ v ∈ values, v.kind = kind) {w : Value} (hw : w ∈ dedup values)
    {x : Value} (hx : x.kind = kind) :
    ((dedup values).any (D.equals x) && decide (relationKey x = relationKey w)) = D.equals x w := by
  rw [Bool.eq_iff_iff,Bool.and_eq_true,List.any_eq_true,decide_eq_true_iff]
  constructor
  · rintro ⟨⟨u,hu,hequals⟩,hkey⟩
    have hukey := relationKey_of_equals D hx (hvalues u (dedup_subset _ hu)) hequals
    rwa [Grouping.firstSeen_unique hw hu (hkey.symm.trans hukey)]
  · intro h
    exact ⟨⟨w,hw,h⟩,relationKey_of_equals D hx (hvalues w (dedup_subset _ hw)) h⟩

end Keys

/-! ## Links -/

theorem readLink_eq {unsigned : Bool} {parent related : Value} {link : Value × Value}
    (h : readLink unsigned [parent,related] = some link) :
    parent.readBack unsigned = some link.1 ∧ related.readBack unsigned = some link.2 := by
  simp only [readLink,Option.bind_eq_bind,Option.pure_def,Option.bind_eq_some_iff,Option.some.injEq] at h
  obtain ⟨a,ha,b,hb,rfl⟩ := h
  exact ⟨ha,hb⟩

namespace BelongsToMany

variable (r : BelongsToMany E P X J) (D : KeyedEngine P X J) (db : Tables Value)

def wholePivot : Select Value P X J := { selectPivot (r.linksFor []) with where_ := [] }

/-- The two columns of the pivot, in the order the database gives its rows. -/
def pairs : List (Value × Value) :=
  (D.delivered db (wholePivot r) []).map fun ρ =>
    (D.value ρ ⟨r.pivot,r.parentPivotKey⟩,D.value ρ ⟨r.pivot,r.relatedPivotKey⟩)

def links (keys : List Value) : List (Value × Value) :=
  ((r.pairs D db).filter fun pair => keys.any (D.equals pair.1)).filterMap fun pair =>
    readLink r.readsUnsigned [pair.1,pair.2]

theorem matched_wholePivot : D.matched db (wholePivot r) = (db r.pivot).map fun row => [(r.pivot,some row)] := by
  have hmatched : D.matched db (wholePivot r) =
      ((db r.pivot).flatMap fun row => [[(r.pivot,some row)]]).filter fun _ => true := rfl
  rw [hmatched,List.filter_true]
  induction db r.pivot with
  | nil => rfl
  | cons row rows ih => rw [List.flatMap_cons,ih,List.map_cons,List.singleton_append]

theorem mem_pairs {pair : Value × Value} :
    pair ∈ r.pairs D db ↔ ∃ row ∈ db r.pivot, pair = (row r.parentPivotKey,row r.relatedPivotKey) := by
  have hdelivered : D.delivered db (wholePivot r) [] = D.arrange (wholePivot r) db (D.matched db (wholePivot r)) := rfl
  simp only [pairs,List.mem_map,hdelivered,(D.arrange_perm _ db _).mem_iff,matched_wholePivot]
  constructor
  · rintro ⟨ρ,⟨row,hrow,rfl⟩,rfl⟩
    exact ⟨row,hrow,by simp [Language.value]⟩
  · rintro ⟨row,hrow,rfl⟩
    exact ⟨_,⟨row,hrow,rfl⟩,by simp [Language.value]⟩

theorem pivotLinks_eq (keys : List Value) :
    D.pivotLinks db r.readsUnsigned (r.linksFor keys) = some (r.links D db keys) := by
  have haccepts : D.accepts (selectPivot (r.linksFor keys)) = true := by
    have hadmits := D.admits_plain [⟨r.pivot,r.parentPivotKey⟩,⟨r.pivot,r.relatedPivotKey⟩]
    simpa [Engine.accepts,Engine.resolves,selectPivot,linksFor,Language.joinsResolve,Language.conditionNames,
      Language.clauseNames,Language.testNames] using hadmits
  have hmatched : D.matched db (selectPivot (r.linksFor keys)) = (D.matched db (wholePivot r)).filter fun ρ =>
      keys.any (D.equals (D.value ρ ⟨r.pivot,r.parentPivotKey⟩)) := by
    rw [Engine.matched,Engine.matched,List.filter_filter]
    apply List.filter_congr
    intro ρ _
    simp [selectPivot,linksFor,wholePivot,Language.condition,Language.clause,Language.test,D.meets_isIn]
  have hdelivered : D.delivered db (selectPivot (r.linksFor keys)) [⟨r.pivot,r.parentPivotKey⟩,⟨r.pivot,r.relatedPivotKey⟩] =
      (D.delivered db (wholePivot r) []).filter fun ρ => keys.any (D.equals (D.value ρ ⟨r.pivot,r.parentPivotKey⟩)) := by
    have harrange := D.arrange_filter (wholePivot r) (selectPivot (r.linksFor keys) : Select Value P X J).where_ db
      (D.matched db (wholePivot r)) fun ρ => keys.any (D.equals (D.value ρ ⟨r.pivot,r.parentPivotKey⟩))
    rw [← hmatched] at harrange
    exact harrange
  have hfetch : D.fetchAll db (selectPivot (r.linksFor keys)) = some ((D.delivered db (selectPivot (r.linksFor keys))
      [⟨r.pivot,r.parentPivotKey⟩,⟨r.pivot,r.relatedPivotKey⟩]).map fun ρ =>
        [D.value ρ ⟨r.pivot,r.parentPivotKey⟩,D.value ρ ⟨r.pivot,r.relatedPivotKey⟩]) := by
    rw [Engine.fetchAll,if_pos haccepts]
    rfl
  rw [Engine.pivotLinks]
  split_ifs with hempty
  · have hkeys : keys = [] := by simpa [linksFor] using hempty
    simp [hkeys,links]
  · rw [hfetch,hdelivered,links,pairs,Option.map_some,List.filterMap_map,List.filter_map,List.filterMap_map]
    rfl

variable {D db} {kind : Kind}

theorem mem_links {link : Value × Value} {keys : List Value} (h : link ∈ r.links D db keys) :
    ∃ row ∈ db r.pivot, keys.any (D.equals (row r.parentPivotKey)) ∧
      (row r.parentPivotKey).readBack r.readsUnsigned = some link.1 ∧
      (row r.relatedPivotKey).readBack r.readsUnsigned = some link.2 := by
  obtain ⟨pair,hpair,hread⟩ := List.mem_filterMap.1 h
  obtain ⟨hmem,hany⟩ := List.mem_filter.1 hpair
  obtain ⟨row,hrow,rfl⟩ := (r.mem_pairs D db).1 hmem
  refine ⟨row,hrow,hany,?_⟩
  exact readLink_eq hread

/-- The links of one text, among those of keys asked for once, are those of its key. -/
theorem links_filter (htyped : ∀ row ∈ db r.pivot, (row r.parentPivotKey).kind = kind) {values : List Value}
    (hvalues : ∀ v ∈ values, v.kind = kind) {w : Value} (hw : w ∈ dedup values) :
    (r.links D db (dedup values)).filter (fun link => relationKey link.1 = relationKey w) = r.links D db [w] := by
  rw [links,links,List.filter_filterMap,List.filterMap_filter,List.filterMap_filter]
  apply List.filterMap_congr
  intro pair hpair
  obtain ⟨row,hrow,rfl⟩ := (r.mem_pairs D db).1 hpair
  have hkind := htyped row hrow
  have hany := any_equals D hvalues hw hkind
  simp only [List.any_cons,List.any_nil,Bool.or_false]
  cases hread : readLink r.readsUnsigned [row r.parentPivotKey,row r.relatedPivotKey] with
  | none => simp
  | some link =>
    obtain ⟨hcontent,hsame⟩ := Value.readBack_eq (readLink_eq hread).1
    rw [Option.filter_some,relationKey_congr hsame hcontent,← hany]
    cases (dedup values).any (D.equals (row r.parentPivotKey)) <;> simp

theorem links_congr (htyped : ∀ row ∈ db r.pivot, (row r.parentPivotKey).kind = kind) {v w : Value}
    (hv : v.kind = kind) (hw : w.kind = kind) (h : v.content = w.content) : r.links D db [v] = r.links D db [w] := by
  rw [links,links]
  congr 1
  apply List.filter_congr
  intro pair hpair
  obtain ⟨row,hrow,rfl⟩ := (r.mem_pairs D db).1 hpair
  simp only [List.any_cons,List.any_nil,equals_congr D (htyped row hrow) hv hw h]

theorem linked_congr (htyped : ∀ row ∈ db r.pivot, (row r.parentPivotKey).kind = kind) {v w : Value}
    (hv : v.kind = kind) (hw : w.kind = kind) (h : v.content = w.content) : r.linked D db v = r.linked D db w := by
  rw [linked,linked]
  congr 1
  exact List.filter_congr fun row hrow => equals_congr D (htyped row hrow) hv hw h

theorem linked_null (htyped : ∀ row ∈ db r.pivot, (row r.parentPivotKey).kind = kind) {v : Value} (hv : v.kind = kind)
    (h : v.content = none) : r.linked D db v = [] := by
  rw [linked,List.map_eq_nil_iff,List.filter_eq_nil_iff]
  intro row hrow
  rw [equals_null D (htyped row hrow) hv h]
  exact Bool.false_ne_true

theorem links_null (htyped : ∀ row ∈ db r.pivot, (row r.parentPivotKey).kind = kind) {v : Value} (hv : v.kind = kind)
    (h : v.content = none) : r.links D db [v] = [] := by
  rw [List.eq_nil_iff_forall_not_mem]
  intro link hlink
  obtain ⟨row,hrow,hany,-⟩ := r.mem_links hlink
  simp [equals_null D (htyped row hrow) hv h] at hany

end BelongsToMany

/-! ## Groups -/

/-- A row's far key, as it is looked up. -/
def keyText (E : Entity) (k : KeyColumn E) (row : Model) : Option String := (valueOf E row k.name).map relationKey

theorem groupBy_groups (nearKey : String) (k : KeyColumn E) (rows : List Model) (key : String) :
    (Related.groupBy E nearKey k.name rows).groups key = rows.filter fun row => keyText E k row = some key := by
  simp only [Related.groupBy,Grouping.collect_apply]
  induction rows with
  | nil => rfl
  | cons row rows ih =>
    simp only [keyText] at ih ⊢
    cases hvalue : valueOf E row k.name with
    | none => simpa [List.filterMap_cons,List.filter_cons,hvalue] using ih
    | some v =>
      by_cases hkey : relationKey v = key
      · simpa [List.filterMap_cons,List.filter_cons,hvalue,hkey] using ih
      · simpa [List.filterMap_cons,List.filter_cons,hvalue,hkey] using ih

theorem collect_links (links : List (Value × Value)) (find : String → Option Model) (key : String) :
    Grouping.collect (links.filterMap fun link => (find (relationKey link.2)).map fun row => (relationKey link.1,row)) key =
      (links.filter fun link => relationKey link.1 = key).filterMap fun link => find (relationKey link.2) := by
  rw [Grouping.collect_apply]
  induction links with
  | nil => rfl
  | cons link links ih =>
    by_cases hkey : relationKey link.1 = key
    · cases hfind : find (relationKey link.2) with
      | none => simpa [List.filterMap_cons,List.filter_cons,hfind,hkey] using ih
      | some row => simpa [List.filterMap_cons,List.filter_cons,hfind,hkey] using ih
    · cases hfind : find (relationKey link.2) with
      | none => simpa [List.filterMap_cons,List.filter_cons,hfind,hkey] using ih
      | some row => simpa [List.filterMap_cons,List.filter_cons,hfind,hkey] using ih

section Groups

variable (D : KeyedEngine P X J) (db : Tables Value) {N : Entity} {kind : Kind} {c : Criteria Value P X J}
  {k : KeyColumn E} {parents : List Model} {nearKey : String}

theorem keysOf_kind (hnear : ∀ p ∈ parents, ∀ v, valueOf N p nearKey = some v → v.kind = kind) :
    ∀ v ∈ parents.filterMap (valueOf N · nearKey), v.kind = kind := by
  intro v hv
  obtain ⟨p,hp,hvalue⟩ := List.mem_filterMap.1 hv
  exact hnear p hp v hvalue

theorem valueOf_row (hfar : ∀ row ∈ db E.table, (row k.name).kind = kind) {model : Model} (h : model ∈ D.rows db E c) :
    ∃ x, valueOf E model k.name = some x ∧ x.kind = kind := by
  obtain ⟨row,hrow,rfl⟩ := D.exists_row db h
  exact ⟨row k.name,lookup_zip_map row k.mem,hfar row hrow⟩

/-- Through one query, the group of a key asked for is the rows that have it. -/
theorem loadKeyed_groups (hnear : ∀ p ∈ parents, ∀ v, valueOf N p nearKey = some v → v.kind = kind)
    (hfar : ∀ row ∈ db E.table, (row k.name).kind = kind) (hlimit : c.limit = none) (hoffset : c.offset.getD 0 = 0)
    (haccepts : D.accepts (selectMatching E c)) :
    ∃ loaded, loadKeyed D.toEngine db N E nearKey k c parents = some loaded ∧ loaded.nearKey = nearKey ∧
      ∀ w ∈ keysOf N parents nearKey, loaded.groups (relationKey w) = (D.rows db E c).filter (D.among k [w]) := by
  rw [loadKeyed]
  split_ifs with hempty
  · refine ⟨_,rfl,rfl,fun w hw => ?_⟩
    rw [List.isEmpty_iff.1 hempty] at hw
    exact absurd hw List.not_mem_nil
  · rw [D.matching_whereIn db hlimit hoffset haccepts]
    refine ⟨_,rfl,rfl,fun w hw => ?_⟩
    rw [groupBy_groups,List.filter_filter]
    apply List.filter_congr
    intro model hmodel
    obtain ⟨x,hx,hkind⟩ := valueOf_row D db hfar hmodel
    have hany := any_equals D (keysOf_kind hnear) hw hkind
    simp only [keyText,KeyedEngine.among,hx,Option.map_some,Option.any_some,Option.some.injEq,List.any_cons,List.any_nil,
      Bool.or_false]
    rw [← hany,Bool.and_comm]
    rfl

theorem find?_reverse_filter {α : Type} (p q : α → Bool) (l : List α) :
    (l.filter p).reverse.find? q = l.reverse.find? fun a => p a && q a := by
  rw [← List.filter_reverse,List.find?_filter]
  simp only [Bool.decide_and,Bool.decide_eq_true]

/-- A link finds its row among the rows asked for as it does among those of its own key. -/
theorem byKey_wanted (m : BelongsToMany E P X J) (hfar : ∀ row ∈ db E.table, (row m.relatedKey.name).kind = kind)
    (hpivot : ∀ row ∈ db m.pivot, (row m.parentPivotKey).kind = kind ∧ (row m.relatedPivotKey).kind = kind)
    {keys values : List Value} {v : Value} {link : Value × Value} (hlink : link ∈ m.links D db keys)
    (hv : v ∈ values) (hvalues : ∀ u ∈ values, u.kind = kind) (hcontent : v.content = link.2.content) :
    m.byKey ((D.rows db E c).filter (D.among m.relatedKey values)) (relationKey link.2) =
      (D.rows db E c).reverse.find? fun row =>
        (valueOf E row m.relatedKey.name).any (fun x => x.content.isSome) && keyText E m.relatedKey row = some (relationKey link.2) := by
  obtain ⟨row,hrow,-,-,hread⟩ := m.mem_links hlink
  have hkind2 : link.2.kind = kind := (Value.readBack_eq hread).2.trans (hpivot row hrow).2
  have hsome2 : link.2.content.isSome := by
    rw [(Value.readBack_eq hread).1,← Value.readBack_isSome m.readsUnsigned,hread]
    rfl
  rw [BelongsToMany.byKey,find?_reverse_filter,← List.head?_filter,← List.head?_filter]
  congr 1
  apply List.filter_congr
  intro model hmodel
  obtain ⟨x,hx,hkind⟩ := valueOf_row D db hfar (List.mem_reverse.1 hmodel)
  simp only [KeyedEngine.among,keyText,hx,Option.map_some,Option.any_some,Option.some.injEq]
  by_cases hkey : relationKey x = relationKey link.2
  · simp only [hkey,decide_true,Bool.and_true]
    rw [Bool.eq_iff_iff,List.any_eq_true]
    constructor
    · rintro ⟨u,hu,hequals⟩
      exact ((D.equals_iff (hkind.trans (hvalues u hu).symm)).1 hequals).1
    · intro hsome
      refine ⟨v,hv,equals_of_relationKey D hkind (hvalues v hv) hsome (by rw [hcontent]; exact hsome2) ?_⟩
      rw [hkey,relationKey_congr (hkind2.trans (hvalues v hv).symm) hcontent.symm]
  · simp [hkey]

/-- The rows that the links of one key lead to. -/
def BelongsToMany.along (m : BelongsToMany E P X J) (v : Value) : List Model :=
  (m.links D db [v]).filterMap fun link =>
    m.byKey ((D.rows db E m.criteria).filter (D.among m.relatedKey (m.linked D db v))) (relationKey link.2)

theorem mem_linked {m : BelongsToMany E P X J} {v : Value} {link : Value × Value} (h : link ∈ m.links D db [v]) :
    ∃ u ∈ m.linked D db v, u.content = link.2.content := by
  obtain ⟨row,hrow,hany,-,hread⟩ := m.mem_links h
  refine ⟨row m.relatedPivotKey,List.mem_map_of_mem (List.mem_filter.2 ⟨hrow,?_⟩),(Value.readBack_eq hread).1.symm⟩
  simpa using hany

theorem linked_kind {m : BelongsToMany E P X J}
    (hpivot : ∀ row ∈ db m.pivot, (row m.parentPivotKey).kind = kind ∧ (row m.relatedPivotKey).kind = kind) {v u : Value}
    (h : u ∈ m.linked D db v) : u.kind = kind := by
  obtain ⟨row,hrow,rfl⟩ := List.mem_map.1 h
  exact (hpivot row (List.mem_filter.1 hrow).1).2

/-- Through a pivot, the group of a key asked for is the rows along its links. -/
theorem loadMany_groups (m : BelongsToMany E P X J)
    (hnear : ∀ p ∈ parents, ∀ v, valueOf N p m.parentKey = some v → v.kind = kind)
    (hfar : ∀ row ∈ db E.table, (row m.relatedKey.name).kind = kind)
    (hpivot : ∀ row ∈ db m.pivot, (row m.parentPivotKey).kind = kind ∧ (row m.relatedPivotKey).kind = kind)
    (hlimit : m.criteria.limit = none) (hoffset : m.criteria.offset.getD 0 = 0)
    (haccepts : D.accepts (selectMatching E m.criteria)) :
    ∃ loaded, m.load D.toEngine db N parents = some loaded ∧ loaded.nearKey = m.parentKey ∧
      ∀ w ∈ keysOf N parents m.parentKey, loaded.groups (relationKey w) = m.along D db w := by
  have hfilter : ∀ w ∈ keysOf N parents m.parentKey, (m.links D db (keysOf N parents m.parentKey)).filter
      (fun link => relationKey link.1 = relationKey w) = m.links D db [w] :=
    fun w hw => m.links_filter (fun row hrow => (hpivot row hrow).1) (keysOf_kind hnear) hw
  simp only [BelongsToMany.load,m.pivotLinks_eq,Option.bind_eq_bind,Option.bind_some,Option.pure_def]
  split_ifs with hempty hlinks
  · refine ⟨_,rfl,rfl,fun w hw => ?_⟩
    rw [List.isEmpty_iff.1 hempty] at hw
    exact absurd hw List.not_mem_nil
  · refine ⟨_,rfl,rfl,fun w hw => ?_⟩
    rw [BelongsToMany.along,← hfilter w hw,List.isEmpty_iff.1 hlinks]
    rfl
  · rw [D.matching_whereIn db hlimit hoffset haccepts]
    refine ⟨_,rfl,rfl,fun w hw => ?_⟩
    simp only [collect_links]
    rw [hfilter w hw,BelongsToMany.along]
    apply List.filterMap_congr
    intro link hlink
    have hlink' : link ∈ m.links D db (keysOf N parents m.parentKey) :=
      (List.mem_filter.1 (hfilter w hw ▸ hlink)).1
    obtain ⟨u,hu,hukey⟩ := exists_dedup (List.mem_map_of_mem hlink' (f := (·.2)))
    have hkinds : ∀ x ∈ (m.links D db (keysOf N parents m.parentKey)).map (·.2), x.kind = kind ∧ x.content.isSome := by
      intro x hx
      obtain ⟨link,hlink,rfl⟩ := List.mem_map.1 hx
      obtain ⟨row,hrow,-,-,hread⟩ := m.mem_links hlink
      rw [(Value.readBack_eq hread).2,(Value.readBack_eq hread).1,← Value.readBack_isSome m.readsUnsigned,hread]
      exact ⟨(hpivot row hrow).2,rfl⟩
    obtain ⟨hukind,husome⟩ := hkinds u (dedup_subset _ hu)
    obtain ⟨hlkind,hlsome⟩ := hkinds link.2 (List.mem_map_of_mem hlink')
    have hucontent := ((D.equals_iff (hukind.trans hlkind.symm)).1
      (equals_of_relationKey D hukind hlkind husome hlsome hukey)).2
    obtain ⟨x,hx,hxcontent⟩ := mem_linked D db hlink
    rw [byKey_wanted D db m hfar hpivot hlink' hu (fun x hx => (hkinds x (dedup_subset _ hx)).1) hucontent,
      byKey_wanted D db m hfar hpivot hlink' hx (fun _ h => linked_kind D db hpivot h) hxcontent]

end Groups

/-! ## Eager loading against loading for one -/

namespace Relation

variable {r : Relation E P X J} {D : KeyedEngine P X J} {db : Tables Value} {N : Entity} {kind : Kind}
  {parents : List Model}

/-- What is loaded for a key. -/
def fan (r : Relation E P X J) (D : KeyedEngine P X J) (db : Tables Value) (v : Value) : List Model :=
  match r with
  | hasMany m => (D.rows db E m.criteria).filter (D.among m.foreignKey [v])
  | hasOne m => (D.rows db E m.children.criteria).filter (D.among m.children.foreignKey [v])
  | belongsTo m => (D.rows db E m.criteria).filter (D.among m.ownerKey [v])
  | belongsToMany m => m.along D db v

/-- The rows that belong to a key. -/
def rowsFor (r : Relation E P X J) (D : KeyedEngine P X J) (db : Tables Value) (v : Value) : List Model :=
  (D.rows db E r.criteria).filter (D.among r.farKey (r.farKeys D db v))

theorem load_groups (htyped : r.Typed db N parents kind) (hlimit : r.criteria.limit = none)
    (hoffset : r.criteria.offset.getD 0 = 0) (haccepts : D.accepts (selectMatching E r.criteria)) :
    ∃ loaded, r.load D.toEngine db N parents = some loaded ∧ loaded.nearKey = r.nearKey ∧
      ∀ w ∈ keysOf N parents r.nearKey, loaded.groups (relationKey w) = r.fan D db w := by
  cases r with
  | hasMany m => exact loadKeyed_groups D db htyped.near htyped.far hlimit hoffset haccepts
  | hasOne m => exact loadKeyed_groups D db htyped.near htyped.far hlimit hoffset haccepts
  | belongsTo m => exact loadKeyed_groups D db htyped.near htyped.far hlimit hoffset haccepts
  | belongsToMany m => exact loadMany_groups D db m htyped.near htyped.far (htyped.pivot m rfl) hlimit hoffset haccepts

theorem direct_eq (hlimit : r.criteria.limit = none) (hoffset : r.criteria.offset.getD 0 = 0)
    (haccepts : D.accepts (selectMatching E r.criteria)) {p : Model} {v : Value} (hv : valueOf N p r.nearKey = some v) :
    r.direct D db N p = some (r.rowsFor D db v) := by
  rw [direct,hv,rowsFor]
  exact D.matching_whereIn db hlimit hoffset haccepts _ _

theorem farKeys_congr (htyped : r.Typed db N parents kind) {v w : Value} (hv : v.kind = kind) (hw : w.kind = kind)
    (h : v.content = w.content) {model : Model} (hmodel : model ∈ D.rows db E r.criteria) :
    D.among r.farKey (r.farKeys D db v) model = D.among r.farKey (r.farKeys D db w) model := by
  obtain ⟨x,hx,hkind⟩ := valueOf_row D db htyped.far hmodel
  have hone : D.among r.farKey [v] model = D.among r.farKey [w] model := by
    simp [KeyedEngine.among,hx,equals_congr D hkind hv hw h]
  cases r with
  | hasMany m => exact hone
  | hasOne m => exact hone
  | belongsTo m => exact hone
  | belongsToMany m =>
    simp only [farKeys]
    rw [m.linked_congr (fun row hrow => (htyped.pivot m rfl row hrow).1) hv hw h]

theorem rowsFor_null (htyped : r.Typed db N parents kind) {v : Value} (hv : v.kind = kind) (h : v.content = none) :
    r.rowsFor D db v = [] := by
  rw [rowsFor,List.filter_eq_nil_iff]
  intro model hmodel
  obtain ⟨x,hx,hkind⟩ := valueOf_row D db htyped.far hmodel
  have hone : ¬ D.among r.farKey [v] model = true := by simp [KeyedEngine.among,hx,equals_null D hkind hv h]
  cases r with
  | hasMany m => exact hone
  | hasOne m => exact hone
  | belongsTo m => exact hone
  | belongsToMany m =>
    simp [KeyedEngine.among,farKeys,hx,m.linked_null (fun row hrow => (htyped.pivot m rfl row hrow).1) hv h]

theorem fan_congr (htyped : r.Typed db N parents kind) {v w : Value} (hv : v.kind = kind) (hw : w.kind = kind)
    (h : v.content = w.content) : r.fan D db v = r.fan D db w := by
  have hrows : r.rowsFor D db v = r.rowsFor D db w :=
    List.filter_congr fun model hmodel => farKeys_congr htyped hv hw h hmodel
  cases r with
  | hasMany m => exact hrows
  | hasOne m => exact hrows
  | belongsTo m => exact hrows
  | belongsToMany m =>
    have hparent : ∀ row ∈ db m.pivot, (row m.parentPivotKey).kind = kind :=
      fun row hrow => (htyped.pivot m rfl row hrow).1
    rw [fan,fan,BelongsToMany.along,BelongsToMany.along,m.links_congr hparent hv hw h,m.linked_congr hparent hv hw h]

theorem fan_null (htyped : r.Typed db N parents kind) {v : Value} (hv : v.kind = kind) (h : v.content = none) :
    r.fan D db v = [] := by
  cases r with
  | hasMany m => exact rowsFor_null htyped hv h
  | hasOne m => exact rowsFor_null htyped hv h
  | belongsTo m => exact rowsFor_null htyped hv h
  | belongsToMany m =>
    rw [fan,BelongsToMany.along,m.links_null (fun row hrow => (htyped.pivot m rfl row hrow).1) hv h]
    rfl

theorem of_eq {loaded : Related} (hnear : loaded.nearKey = r.nearKey) {p : Model} {v : Value}
    (hv : valueOf N p r.nearKey = some v) : loaded.of N p = loaded.groups (relationKey v) := by
  rw [Related.of,Grouping.find_of_key]
  rw [Related.keyOf,hnear,hv]
  rfl

theorem of_none {loaded : Related} (hnear : loaded.nearKey = r.nearKey) {p : Model}
    (hv : valueOf N p r.nearKey = none) : loaded.of N p = [] := by
  rw [Related.of,Grouping.find,Related.keyOf,hnear,hv]
  rfl

theorem Typed.one (htyped : r.Typed db N parents kind) {p : Model} (hp : p ∈ parents) : r.Typed db N [p] kind where
  near q hq := htyped.near q (by rw [List.mem_singleton.1 hq]; exact hp)
  far := htyped.far
  pivot := htyped.pivot

/-- Loading for one model is what is loaded for its key. -/
theorem forOne_eq (htyped : r.Typed db N parents kind) (hlimit : r.criteria.limit = none)
    (hoffset : r.criteria.offset.getD 0 = 0) (haccepts : D.accepts (selectMatching E r.criteria)) {p : Model}
    (hp : p ∈ parents) {v : Value} (hv : valueOf N p r.nearKey = some v) :
    r.forOne D.toEngine db N p = some (r.fan D db v) := by
  obtain ⟨loaded,hload,hnear,hgroups⟩ := load_groups (htyped.one hp) hlimit hoffset haccepts
  have hkeys : keysOf N [p] r.nearKey = [v] := by simp [keysOf,hv,dedup,Grouping.firstSeen]
  rw [forOne,hload,Option.map_some,of_eq hnear hv,hgroups v (by simp [hkeys])]

theorem forOne_none (htyped : r.Typed db N parents kind) (hlimit : r.criteria.limit = none)
    (hoffset : r.criteria.offset.getD 0 = 0) (haccepts : D.accepts (selectMatching E r.criteria)) {p : Model}
    (hp : p ∈ parents) (hv : valueOf N p r.nearKey = none) : r.forOne D.toEngine db N p = some [] := by
  obtain ⟨loaded,hload,hnear,-⟩ := load_groups (htyped.one hp) hlimit hoffset haccepts
  rw [forOne,hload,Option.map_some,of_none hnear hv]

/-- Rows of a unique column that hold the same there are one row. -/
theorem unique_row {column : String} (hfar : ∀ row ∈ db E.table, (row column).kind = kind)
    (hunique : (db E.table).Pairwise fun a b => D.equals (a column) (b column) = false) {row row' : Row Value}
    (hrow : row ∈ db E.table) (hrow' : row' ∈ db E.table) (hsome : (row column).content.isSome)
    (h : (row column).content = (row' column).content) : row = row' := by
  let Apart (a b : Row Value) : Prop := (a column).content.isSome → (a column).content ≠ (b column).content
  have : Std.Symm Apart := ⟨fun a b hab hb heq => hab (heq ▸ hb) heq.symm⟩
  have hapart : (db E.table).Pairwise Apart := by
    apply hunique.imp_of_mem
    intro a b ha hb hequals ha' heq
    rw [(D.equals_iff ((hfar a ha).trans (hfar b hb).symm)).2 ⟨ha',heq⟩] at hequals
    exact absurd hequals (by decide)
  by_contra hne
  exact hapart.forall hrow hrow' hne hsome h

/-- A row linked to a key is the one found under its own text. -/
theorem byKey_eq {m : BelongsToMany E P X J} (htyped : (belongsToMany m).Typed db N parents kind)
    (hunique : (belongsToMany m).UniqueRelated D db) {v : Value} {model : Model}
    (h : model ∈ (belongsToMany m).rowsFor D db v) {key : String} (hkey : keyText E m.relatedKey model = some key) :
    m.byKey ((belongsToMany m).rowsFor D db v) key = some model := by
  have hsome : (m.byKey ((belongsToMany m).rowsFor D db v) key).isSome := by
    rw [BelongsToMany.byKey,List.find?_isSome]
    exact ⟨model,List.mem_reverse.2 h,by simpa [keyText] using hkey⟩
  obtain ⟨found,hfound⟩ := Option.isSome_iff_exists.1 hsome
  have htext := List.find?_some hfound
  have hmem : found ∈ (belongsToMany m).rowsFor D db v := List.mem_reverse.1 (List.mem_of_find?_eq_some hfound)
  -- both come from rows of the table whose keys hold the same
  have hfrom : ∀ {model : Model}, model ∈ (belongsToMany m).rowsFor D db v → ∃ row ∈ db E.table,
      model = E.columns.map row ∧ (row m.relatedKey.name).kind = kind ∧ (row m.relatedKey.name).content.isSome := by
    intro model hmodel
    obtain ⟨hrows,hamong⟩ := List.mem_filter.1 hmodel
    obtain ⟨row,hrow,rfl⟩ := D.exists_row db hrows
    have hkind := htyped.far row hrow
    have hvalue : valueOf E (E.columns.map row) m.relatedKey.name = some (row m.relatedKey.name) :=
      lookup_zip_map row m.relatedKey.mem
    simp only [KeyedEngine.among,farKey,farKeys,hvalue,Option.any_some,List.any_eq_true] at hamong
    obtain ⟨u,hu,hequals⟩ := hamong
    have hukind := linked_kind D db (htyped.pivot m rfl) hu
    exact ⟨row,hrow,rfl,hkind,((D.equals_iff (hkind.trans hukind.symm)).1 hequals).1⟩
  obtain ⟨row,hrow,rfl,hkind,hcontent⟩ := hfrom h
  obtain ⟨row',hrow',rfl,hkind',hcontent'⟩ := hfrom hmem
  have hvalue : ∀ row : Row Value, valueOf E (E.columns.map row) m.relatedKey.name = some (row m.relatedKey.name) :=
    fun row => lookup_zip_map row m.relatedKey.mem
  simp only [hvalue,Option.map_some,Option.some.injEq,decide_eq_true_eq] at htext
  simp only [keyText,hvalue,Option.map_some,Option.some.injEq] at hkey
  have hsame : (row m.relatedKey.name).content = (row' m.relatedKey.name).content :=
    ((D.equals_iff (hkind.trans hkind'.symm)).1
      (equals_of_relationKey D hkind hkind' hcontent hcontent' (hkey.trans htext.symm))).2
  rw [hfound,unique_row htyped.far (hunique m rfl) hrow hrow' hcontent hsame]

/-- The rows along the links are those of the key just when the links stand as the rows do. -/
theorem along_eq_iff {m : BelongsToMany E P X J} (htyped : (belongsToMany m).Typed db N parents kind)
    (hunique : (belongsToMany m).UniqueRelated D db) (v : Value) :
    m.along D db v = (belongsToMany m).rowsFor D db v ↔
      ((m.links D db [v]).map fun link => some (relationKey link.2)).filter
        (· ∈ ((belongsToMany m).rowsFor D db v).map (keyText E m.relatedKey)) =
          ((belongsToMany m).rowsFor D db v).map (keyText E m.relatedKey) := by
  let rows := (belongsToMany m).rowsFor D db v
  have halong : m.along D db v = (m.links D db [v]).filterMap fun link => m.byKey rows (relationKey link.2) := rfl
  have htexts : ∀ {model}, model ∈ rows → ∃ key, keyText E m.relatedKey model = some key := by
    intro model hmodel
    obtain ⟨x,hx,-⟩ := valueOf_row D db htyped.far (List.mem_filter.1 hmodel).1
    exact ⟨relationKey x,by rw [keyText]; exact congrArg _ hx⟩
  have hmap : (m.along D db v).map (keyText E m.relatedKey) =
      ((m.links D db [v]).map fun link => some (relationKey link.2)).filter (· ∈ rows.map (keyText E m.relatedKey)) := by
    rw [halong]
    induction m.links D db [v] with
    | nil => rfl
    | cons link links ih =>
      rw [List.filterMap_cons,List.map_cons,List.filter_cons,← ih]
      cases hfind : m.byKey rows (relationKey link.2) with
      | none =>
        have habsent : some (relationKey link.2) ∉ rows.map (keyText E m.relatedKey) := by
          intro hmem
          obtain ⟨model,hmodel,hkey⟩ := List.mem_map.1 hmem
          rw [byKey_eq htyped hunique hmodel hkey] at hfind
          exact Option.some_ne_none _ hfind
        simp [habsent]
      | some model =>
        have hmodel : model ∈ rows := List.mem_reverse.1 (List.mem_of_find?_eq_some hfind)
        have hkey : keyText E m.relatedKey model = some (relationKey link.2) := by
          simpa [keyText] using List.find?_some hfind
        simp only [List.map_cons,hkey]
        rw [if_pos (by simpa using ⟨model,hmodel,hkey⟩)]
  rw [← hmap]
  constructor
  · intro h
    rw [h]
  · intro h
    have hback : ∀ l : List Model, l ⊆ rows →
        (l.map (keyText E m.relatedKey)).filterMap (fun key => key.bind (m.byKey rows)) = l := by
      intro l hl
      rw [List.filterMap_map]
      have hid : ∀ model ∈ l, ((fun key : Option String => key.bind (m.byKey rows)) ∘ keyText E m.relatedKey) model =
          some model := by
        intro model hmodel
        obtain ⟨key,hkey⟩ := htexts (hl hmodel)
        rw [Function.comp_apply,hkey,Option.bind_some,byKey_eq htyped hunique (hl hmodel) hkey]
      rw [List.filterMap_congr hid,List.filterMap_some]
    have hsubset : m.along D db v ⊆ rows := by
      intro model hmodel
      obtain ⟨link,-,hfind⟩ := List.mem_filterMap.1 (halong ▸ hmodel)
      exact List.mem_reverse.1 (List.mem_of_find?_eq_some hfind)
    rw [← hback _ hsubset,h,hback _ (List.Subset.refl _)]

/-- Every listed model has a key of its text that is asked for. -/
theorem exists_key {p : Model} (hp : p ∈ parents) {v : Value} (hv : valueOf N p r.nearKey = some v) :
    ∃ w ∈ keysOf N parents r.nearKey, relationKey w = relationKey v ∧ ∃ q ∈ parents, valueOf N q r.nearKey = some w := by
  have hmem : v ∈ parents.filterMap (valueOf N · r.nearKey) := List.mem_filterMap.2 ⟨p,hp,hv⟩
  obtain ⟨w,hw,hkey⟩ := exists_dedup hmem
  obtain ⟨q,hq,hvalue⟩ := List.mem_filterMap.1 (dedup_subset _ hw)
  exact ⟨w,hw,hkey,q,hq,hvalue⟩

/-- Two keys of one text hold the same, or one is `NULL` and the other the text that stands for it. -/
theorem content_cases {v w : Value} (hv : v.kind = kind) (hw : w.kind = kind) (h : relationKey w = relationKey v) :
    w.content = v.content ∨ (w.content = none ∧ v.content = some (.text nullKey)) ∨
      (v.content = none ∧ w.content = some (.text nullKey)) := by
  cases hcv : v.content with
  | none =>
    cases hcw : w.content with
    | none => exact .inl rfl
    | some y => exact .inr (.inr ⟨rfl,by rw [relationKey_eq_null (hw.trans hv.symm) hcw hcv h]⟩)
  | some x =>
    cases hcw : w.content with
    | none => exact .inr (.inl ⟨rfl,by rw [relationKey_eq_null (hv.trans hw.symm) hcv hcw h.symm]⟩)
    | some y => exact .inl (by rw [relationKey_inj (hw.trans hv.symm) hcw hcv h])

/-- Loading agrees just when the text of `NULL` is no key beside one, what is loaded for each key is
what belongs to it, and models that share a key have no rows. -/
theorem eagerAgrees_iff (htyped : r.Typed db N parents kind) (hlimit : r.criteria.limit = none)
    (hoffset : r.criteria.offset.getD 0 = 0) (haccepts : D.accepts (selectMatching E r.criteria)) :
    r.EagerAgrees D db N parents ↔ r.Clear D db N parents ∧
      (∀ p ∈ parents, ∀ v, valueOf N p r.nearKey = some v → r.fan D db v = r.rowsFor D db v) ∧
      r.Unshared D db N parents := by
  obtain ⟨loaded,hload,hnear,hgroups⟩ := load_groups htyped hlimit hoffset haccepts
  have hdirect : ∀ {p v}, valueOf N p r.nearKey = some v → r.direct D db N p = some (r.rowsFor D db v) :=
    fun hv => direct_eq hlimit hoffset haccepts hv
  have hdirectNone : ∀ {p}, valueOf N p r.nearKey = none → r.direct D db N p = some [] :=
    fun hv => by rw [direct,hv]
  have hzip : (∀ p ∈ parents, r.direct D db N p = some (loaded.of N p)) →
      (loaded.zip N parents = parents.map (fun p => (p,loaded.of N p)) ↔ r.Unshared D db N parents) := by
    intro hof
    rw [Related.zip,Unshared]
    refine (Grouping.handOut_eq_find_iff (loaded.keyOf N) loaded.groups parents).trans ?_
    apply List.Pairwise.iff_of_mem
    intro p q hp hq
    have hkey : ∀ p, loaded.keyOf N p = (valueOf N p r.nearKey).map relationKey := fun p => by rw [Related.keyOf,hnear]
    rw [hkey,hkey,hof p hp,Option.some.injEq]
    rfl
  constructor
  · rintro ⟨loaded',hload',hof,hpairs⟩
    obtain rfl : loaded = loaded' := by rw [hload] at hload'; exact Option.some.inj hload'
    have hfan : ∀ p ∈ parents, ∀ v, valueOf N p r.nearKey = some v →
        r.fan D db v = loaded.of N p ∧ r.rowsFor D db v = loaded.of N p := by
      intro p hp v hv
      obtain ⟨hone,hrows⟩ := hof p hp
      rw [forOne_eq htyped hlimit hoffset haccepts hp hv,Option.some.injEq] at hone
      rw [hdirect hv,Option.some.injEq] at hrows
      exact ⟨hone,hrows⟩
    refine ⟨?_,fun p hp v hv => (hfan p hp v hv).1.trans (hfan p hp v hv).2.symm,(hzip fun p hp => (hof p hp).2).1 hpairs⟩
    intro p hp q hq v u hv hu hnull htext
    have hkv := htyped.near p hp v hv
    have hku := htyped.near q hq u hu
    -- the group is that of the first listed of the two
    have hshared : relationKey v = relationKey u := by
      have hkind : u.kind = .text := by
        have hof := Value.ofKind htext
        cases hk : u.kind <;> rw [hk] at hof <;> simp_all [Content.OfKind]
      rw [relationKey_eq,relationKey_eq,hnull,htext,hkv.trans hku.symm,hkind]
      rfl
    have hof' : loaded.of N p = loaded.of N q := by rw [of_eq hnear hv,of_eq hnear hu,hshared]
    rw [hdirect hu,(hfan q hq u hu).2,← hof',← (hfan p hp v hv).1,fan_null htyped hkv hnull]
  · rintro ⟨hclear,hfan,hunshared⟩
    have hof : ∀ p ∈ parents, ∀ v, valueOf N p r.nearKey = some v → loaded.of N p = r.fan D db v := by
      intro p hp v hv
      obtain ⟨w,hw,hkey,q,hq,hqw⟩ := exists_key hp hv
      have hkv := htyped.near p hp v hv
      have hkw := htyped.near q hq w hqw
      rw [of_eq hnear hv,← hkey,hgroups w hw]
      rcases content_cases hkv hkw hkey with hsame | ⟨hnull,htext⟩ | ⟨hnull,htext⟩
      · exact fan_congr htyped hkw hkv hsame
      · have hempty := hclear q hq p hp w v hqw hv hnull htext
        rw [hdirect hv,Option.some.injEq] at hempty
        rw [fan_null htyped hkw hnull,hfan p hp v hv,hempty]
      · have hempty := hclear p hp q hq v w hv hqw hnull htext
        rw [hdirect hqw,Option.some.injEq] at hempty
        rw [hfan q hq w hqw,hempty,fan_null htyped hkv hnull]
    have hall : ∀ p ∈ parents, r.forOne D.toEngine db N p = some (loaded.of N p) ∧
        r.direct D db N p = some (loaded.of N p) := by
      intro p hp
      cases hv : valueOf N p r.nearKey with
      | none =>
        rw [of_none hnear hv,forOne_none htyped hlimit hoffset haccepts hp hv,hdirectNone hv]
        exact ⟨rfl,rfl⟩
      | some v =>
        rw [hof p hp v hv,forOne_eq htyped hlimit hoffset haccepts hp hv,hdirect hv,hfan p hp v hv]
        exact ⟨rfl,rfl⟩
    exact ⟨loaded,hload,hall,(hzip fun p hp => (hall p hp).2).2 hunshared⟩

theorem fan_eq_iff (htyped : r.Typed db N parents kind) (hunique : r.UniqueRelated D db)
    (hlimit : r.criteria.limit = none) (hoffset : r.criteria.offset.getD 0 = 0)
    (haccepts : D.accepts (selectMatching E r.criteria)) :
    (∀ p ∈ parents, ∀ v, valueOf N p r.nearKey = some v → r.fan D db v = r.rowsFor D db v) ↔ r.Follows D db N parents := by
  cases r with
  | hasMany m => exact iff_of_true (fun _ _ _ _ => rfl) (fun _ h => nomatch h)
  | hasOne m => exact iff_of_true (fun _ _ _ _ => rfl) (fun _ h => nomatch h)
  | belongsTo m => exact iff_of_true (fun _ _ _ _ => rfl) (fun _ h => nomatch h)
  | belongsToMany m =>
    constructor
    · intro h m' hm p hp v hv links rows hlinks hrows
      cases hm
      rw [m.pivotLinks_eq] at hlinks
      rw [direct_eq hlimit hoffset haccepts hv] at hrows
      cases hlinks
      cases hrows
      exact (along_eq_iff htyped hunique v).1 (h p hp v hv)
    · intro h p hp v hv
      exact (along_eq_iff htyped hunique v).2
        (h m rfl p hp v hv _ _ (m.pivotLinks_eq D db [v]) (direct_eq hlimit hoffset haccepts hv))

/-- An entity keyed by its `id`. -/
def entity (table : String) (columns : List String) : Entity where
  table := table
  columns := "id" :: columns
  primaryKey := ["id"]
  softDeleteColumn := none
  keyed := by simp
  keyColumns := by simp

def idColumn (table : String) (columns : List String) : KeyColumn (entity table columns) where
  name := "id"
  mem := List.mem_cons_self
  bare := by rw [columnRef,resolve,show Text.splitOnce '.' "id" = none from by decide]

def number (n : ℤ) : Value := .int .bigInt (some n)

def link (post tag : ℤ) : Row Value := fun column => if column = "post_id" then number post else number tag

/-- Two tags, and a post with both beside one with the second. -/
def tagged : Tables Value := fun table =>
  if table = "tags" then [fun _ => number 1,fun _ => number 2]
  else if table = "post_tag" then [link 1 1,link 1 2,link 2 2]
  else []

/-- The tags of a post, in some order. -/
def tags (descending : Bool) : Relation (entity "tags" []) Empty Empty Empty :=
  .belongsToMany {
    pivot := "post_tag", parentPivotKey := "post_id", relatedPivotKey := "tag_id", parentKey := "id"
    relatedKey := idColumn "tags" [], criteria := { orders := [("id",descending)] }, readsUnsigned := false }

/-- The author of a post. -/
def author (offset : Option ℕ) : Relation (entity "users" []) Empty Empty Empty :=
  .belongsTo { foreignKey := "user_id", ownerKey := idColumn "users" [], criteria := { offset } }

def users : Tables Value := fun table => if table = "users" then [fun _ => number 7,fun _ => number 8] else []

/-- A user whose key is the text that stands for a `NULL`. -/
def oddUser : Tables Value := fun table => if table = "users" then [fun _ => .string (some nullKey)] else []

theorem tags_typed : (tags false).Typed tagged (entity "posts" []) [[number 1],[number 2]] .int := by
  refine ⟨?_,?_,?_⟩
  · intro p hp v hv
    simp only [List.mem_cons,List.not_mem_nil,or_false] at hp
    rcases hp with rfl | rfl <;> cases hv <;> rfl
  · intro row hrow
    have hrows : row = (fun _ => number 1) ∨ row = (fun _ => number 2) := by simpa [tagged,entity] using hrow
    rcases hrows with rfl | rfl <;> rfl
  · intro m hm row hrow
    cases hm
    have hrows : row = link 1 1 ∨ row = link 1 2 ∨ row = link 2 2 := by simpa [tagged] using hrow
    rcases hrows with rfl | rfl | rfl <;> exact ⟨rfl,rfl⟩

theorem tags_follows : (tags false).Follows valueEngine tagged (entity "posts" []) [[number 1],[number 2]] := by
  intro m hm p hp v hv links rows hlinks hrows
  cases hm
  simp only [List.mem_cons,List.not_mem_nil,or_false] at hp
  rcases hp with rfl | rfl
  · cases hv
    cases hlinks.symm.trans (by decide : _ = some [(number 1,number 1),(number 1,number 2)])
    cases hrows.symm.trans (by decide : _ = some [[number 1],[number 2]])
    decide
  · cases hv
    cases hlinks.symm.trans (by decide : _ = some [(number 2,number 2)])
    cases hrows.symm.trans (by decide : _ = some [[number 2]])
    decide

end Relation

end Rainier.Database
