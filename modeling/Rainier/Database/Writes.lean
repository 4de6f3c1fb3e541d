import Rainier.Database.Sql

/-! # What a write by criteria touches

An `UPDATE` and a `DELETE` share their `WHERE` with the `SELECT` of the same criteria and
nothing else: joins, limit and offset are dropped. So a write touches no more than the read
returns just when dropping them takes no root row away, which no criteria with a limit can
promise.
-/
namespace Rainier.Database

variable {V P X J : Type} [DecidableEq V]

/-- The read that a write is compared with: trashed rows included, as writes are not scoped. -/
def readOf (E : Entity) (c : Criteria V P X J) : Select V P X J := selectMatching E c.includeTrashed

/-- Each of the rows is among those the read returns, by its model's columns. -/
def Contained (D : Engine V P X J) (E : Entity) (c : Criteria V P X J) (db : Tables V) (rows : List (Row V)) : Prop :=
  ∀ row ∈ rows, ∃ read, D.fetchAll db (readOf E c) = some read ∧ E.columns.map row ∈ read

/-- No write by the criteria touches a row that the read does not return. -/
def WritesContained (D : Engine V P X J) (E : Entity) (c : Criteria V P X J) (db : Tables V) : Prop :=
  Contained D E c db (D.deleted db (deleteMatching E c)) ∧
  (∀ set, Contained D E c db (D.updated db (updateMatching E c set))) ∧
  ∀ set, Contained D E c db (D.updated db (updateMatchingWith E c set))

/-- The parts of the read that a write drops do not drop the row: each inner join finds it a
partner, and if there is paging, the row stands inside the window. -/
structure Survives (D : Engine V P X J) (E : Entity) (c : Criteria V P X J) (db : Tables V) (row : Row V) : Prop where
  joined : D.combinations db (readOf E c) row ≠ []
  windowed : c.limit ≠ none ∨ c.offset.getD 0 ≠ 0 → ∃ i ρ,
    (D.delivered db (readOf E c) (selectColumns E))[i]? = some ρ ∧ D.output (selectColumns E) ρ = E.columns.map row ∧
    c.offset.getD 0 ≤ i ∧ ∀ n, c.limit = some n → i < c.offset.getD 0 + n

section Reading

variable {D : Engine V P X J} {E : Entity} {c : Criteria V P X J} {db : Tables V} {row : Row V}

theorem readOf_where : (readOf E c).where_ = criteriaCondition E c := List.append_nil _

theorem Contents.row_eq (db : Contents V E) {row row' : Row V} (h : row ∈ db.tables E.table)
    (h' : row' ∈ db.tables E.table) (hshow : E.columns.map row = E.columns.map row') : row = row' := by
  apply List.inj_on_of_nodup_map db.keyed h h'
  apply List.map_congr_left
  intro column hcolumn
  exact List.map_inj_left.1 hshow column (E.keyColumns hcolumn)

/-- A combination shows the model columns of the row it was made from. -/
theorem output_combination {ρ : Env V} (h : ρ ∈ D.combinations db (readOf E c) row) :
    D.output (selectColumns E) ρ = E.columns.map row := by
  have hroot := D.lookup_root db h
  rw [Engine.output,selectColumns,List.map_map]
  apply List.map_congr_left
  intro column _
  simp only [Function.comp_apply,Language.value]
  rw [show ρ.lookup E.table = some (some row) from hroot]

theorem mem_matched_iff (hres : Engine.resolvesIn E.table (D.conditionNames (criteriaCondition E c))) {ρ : Env V} :
    ρ ∈ D.matched db (readOf E c) ↔ ∃ row ∈ D.touched db E.table (criteriaCondition E c),
      ρ ∈ D.combinations db (readOf E c) row := by
  rw [D.matched_eq_touched (by rw [readOf_where]; exact hres),readOf_where,List.mem_flatMap]
  rfl

end Reading

/-- A row the filters match is read just when the read is accepted and the row survives what
the write drops. -/
theorem read_iff {D : Engine V P X J} {E : Entity} {c : Criteria V P X J} (db : Contents V E) {row : Row V}
    (hres : Engine.resolvesIn E.table (D.conditionNames (criteriaCondition E c)))
    (hrow : row ∈ D.touched db.tables E.table (criteriaCondition E c)) :
    (∃ read, D.fetchAll db.tables (readOf E c) = some read ∧ E.columns.map row ∈ read) ↔
      D.accepts (readOf E c) ∧ Survives D E c db.tables row := by
  have htable := (List.mem_filter.1 hrow).1
  have hfetch : D.fetchAll db.tables (readOf E c) = if D.accepts (readOf E c) then
      some ((Engine.window (readOf E c).toShape (D.delivered db.tables (readOf E c) (selectColumns E))).map
        (D.output (selectColumns E))) else none := rfl
  rw [hfetch]
  constructor
  · rintro ⟨read,hread,hshown⟩
    split_ifs at hread with haccepts
    cases hread
    obtain ⟨ρ,hρ,hout⟩ := List.mem_map.1 hshown
    obtain ⟨i,hi,hlo,hhi⟩ := Engine.mem_window.1 hρ
    refine ⟨haccepts,⟨?_,fun _ => ⟨i,ρ,hi,hout,hlo,hhi⟩⟩⟩
    -- the combination that was shown is one of this row: no other has its key
    obtain ⟨row',hrow',hcomb⟩ := (mem_matched_iff hres).1 (D.delivered_subset (List.mem_of_getElem? hi))
    have hsame := db.row_eq htable (List.mem_filter.1 hrow').1 (hout.symm.trans (output_combination hcomb))
    rw [hsame]
    exact List.ne_nil_of_mem hcomb
  · rintro ⟨haccepts,hsurvives⟩
    rw [if_pos haccepts]
    refine ⟨_,rfl,List.mem_map.2 ?_⟩
    by_cases hpaged : c.limit ≠ none ∨ c.offset.getD 0 ≠ 0
    · obtain ⟨i,ρ,hi,hout,hlo,hhi⟩ := hsurvives.windowed hpaged
      exact ⟨ρ,Engine.mem_window.2 ⟨i,hi,hlo,hhi⟩,hout⟩
    · push Not at hpaged
      obtain ⟨ρ,hρ⟩ := List.exists_mem_of_ne_nil _ hsurvives.joined
      obtain ⟨ρ',hρ',hout⟩ := D.exists_delivered (selectColumns E) ((mem_matched_iff hres).2 ⟨row,hrow,hρ⟩)
      refine ⟨ρ',?_,hout.trans (output_combination hρ)⟩
      rwa [Engine.window_unpaged _ hpaged.1 hpaged.2]

section Inputs

variable {D : Engine V P X J} {E : Entity} {c : Criteria V P X J}

theorem writesContained_iff (db : Contents V E) : WritesContained D E c db.tables ↔
    (Engine.resolvesIn E.table (D.conditionNames (criteriaCondition E c)) →
      ∀ row ∈ D.touched db.tables E.table (criteriaCondition E c),
        D.accepts (readOf E c) ∧ Survives D E c db.tables row) := by
  constructor
  · rintro ⟨hdelete,-,-⟩ hres row hrow
    have hdeleted : D.deleted db.tables (deleteMatching E c) = D.touched db.tables E.table (criteriaCondition E c) :=
      if_pos hres
    exact (read_iff db hres hrow).1 (hdelete row (hdeleted ▸ hrow))
  · intro h
    have hall : ∀ names, Contained D E c db.tables
        (if Engine.resolvesIn E.table (names ++ D.conditionNames (criteriaCondition E c))
          then D.touched db.tables E.table (criteriaCondition E c) else []) := by
      intro names row hrow
      split_ifs at hrow with hnames
      · have hres : Engine.resolvesIn E.table (D.conditionNames (criteriaCondition E c)) := by
          rw [Engine.resolvesIn,List.all_append,Bool.and_eq_true] at hnames
          exact hnames.2
        exact (read_iff db hres hrow).2 (h hres row hrow)
      · cases hrow
    exact ⟨hall [],fun set => hall _,fun set => hall _⟩

/-- A table of rows that hold one number each, and no other table. -/
def numbered (D : Engine V P X J) (E : Entity) (n : ℕ) : Contents V E where
  tables table := if table = E.table then (List.range n).map fun i _ => D.number i else []
  keyed := by
    rw [if_pos rfl,List.map_map]
    apply List.Nodup.map_on _ List.nodup_range
    intro i _ j _ h
    obtain ⟨column,hcolumn⟩ := List.exists_mem_of_ne_nil _ E.keyed
    exact D.number_injective (List.map_inj_left.1 h column hcolumn)

theorem numbered_table (n : ℕ) : (numbered D E n).tables E.table = (List.range n).map fun i _ => D.number i := if_pos rfl

theorem touched_unfiltered (db : Tables V) :
    D.touched db E.table (criteriaCondition E (c.filtered {})) = db E.table :=
  List.filter_eq_self.2 fun _ _ => rfl

theorem deleted_unfiltered (db : Tables V) : D.deleted db (deleteMatching E (c.filtered {})) = db E.table :=
  (if_pos rfl).trans (touched_unfiltered db)

/-- Without filters every row of the table is touched, so every one is to be read. -/
theorem read_of_contained (h : ∀ db : Contents V E, WritesContained D E (c.filtered {}) db.tables) (db : Contents V E) :
    ∀ row ∈ db.tables E.table, D.accepts (readOf E (c.filtered {})) ∧ Survives D E (c.filtered {}) db.tables row := by
  intro row hrow
  exact (writesContained_iff db).1 (h db) rfl row (by rwa [touched_unfiltered])

/-- A limit is too small for some table. -/
theorem limit_of_contained (h : ∀ db : Contents V E, WritesContained D E (c.filtered {}) db.tables) :
    c.limit = none := by
  by_contra hlimit
  obtain ⟨n,hn⟩ := Option.ne_none_iff_exists'.1 hlimit
  let db := numbered D E (n + 1)
  obtain ⟨read,hread,hlength⟩ : ∃ read, D.fetchAll db.tables (readOf E (c.filtered {})) = some read ∧ read.length ≤ n := by
    have haccepts := (read_of_contained h db _ (by
      rw [numbered_table,List.mem_map]; exact ⟨0,by simp,rfl⟩)).1
    refine ⟨_,if_pos haccepts,?_⟩
    have hlimit' : (readOf E (c.filtered ({} : Filters V P J))).limit = some n := hn
    rw [List.length_map,Engine.window,hlimit',List.length_take]
    exact Nat.min_le_left _ _
  have hsubset : (db.tables E.table).map (fun row => E.columns.map row) ⊆ read := by
    intro shown hshown
    obtain ⟨row,hrow,rfl⟩ := List.mem_map.1 hshown
    obtain ⟨read',hread',hmem⟩ := (h db).1 row ((deleted_unfiltered db.tables).symm ▸ hrow)
    rw [hread] at hread'
    exact Option.some.inj hread' ▸ hmem
  have hnodup : ((db.tables E.table).map (fun row => E.columns.map row)).Nodup :=
    List.Nodup.map_on (fun row hrow row' hrow' hshow => db.row_eq hrow hrow' hshow) (List.Nodup.of_map _ db.keyed)
  have hle := (List.subperm_of_subset hnodup hsubset).length_le
  rw [List.length_map,numbered_table,List.length_map,List.length_range] at hle
  omega

/-- A table of one row has no row behind an offset. -/
theorem offset_of_contained (h : ∀ db : Contents V E, WritesContained D E (c.filtered {}) db.tables) :
    c.offset.getD 0 = 0 := by
  by_contra hoffset
  let db := numbered D E 1
  have hone : ∀ table, (db.tables table).length ≤ 1 := by
    intro table
    by_cases ht : table = E.table
    · rw [ht,numbered_table]; simp
    · rw [show db.tables table = [] from if_neg ht]; simp
  have hrow : (fun _ => D.number 0) ∈ db.tables E.table := by rw [numbered_table,List.mem_map]; exact ⟨0,by simp,rfl⟩
  obtain ⟨i,ρ,hi,-,hlo,-⟩ := (read_of_contained h db _ hrow).2.windowed (.inr hoffset)
  have hmatched : (D.matched db.tables (readOf E (c.filtered {}))).length ≤ 1 := by
    apply Nat.le_trans (List.length_filter_le _ _)
    have htable : db.tables (readOf E (c.filtered ({} : Filters V P J))).table = [fun _ => D.number 0] := numbered_table 1
    rw [htable,List.flatMap_singleton]
    exact D.combine_length hone _ _
  have hbound := (List.getElem?_eq_some_iff.1 hi).1
  have hdelivered := Nat.lt_of_lt_of_le hbound (Nat.le_trans (Engine.delivered_length _ _) hmatched)
  have hlo' : c.offset.getD 0 ≤ i := hlo
  omega

theorem accepts_filtered {f : Filters V P J} (h : D.accepts (readOf E (c.filtered {})))
    (hres : Engine.resolvesIn E.table (D.conditionNames (criteriaCondition E (c.filtered f)))) :
    D.accepts (readOf E (c.filtered f)) := by
  have hwhere : (D.conditionNames (readOf E (c.filtered f)).where_).all
      (· ∈ E.table :: (criteriaJoins E c).map (·.aliased)) := by
    rw [readOf_where,List.all_eq_true]
    intro name hname
    have hroot : name = E.table := by simpa using List.all_eq_true.1 hres name hname
    simp [hroot]
  simp only [Engine.accepts,Engine.resolves,Bool.and_eq_true] at h ⊢
  exact ⟨⟨⟨h.1.1.1,hwhere⟩,h.1.2⟩,h.2⟩

end Inputs

/-- Over all filters and contents, the writes of a criteria stay inside its read just when
the read is accepted, its joins leave no root row out and it is not paged. On one input they
do just when each row the filters match survives what the writes drop. -/
theorem writes_contained_iff (D : Engine V P X J) (E : Entity) (c : Criteria V P X J) :
    (∀ db : Contents V E, WritesContained D E c db.tables ↔
      (Engine.resolvesIn E.table (D.conditionNames (criteriaCondition E c)) →
        ∀ row ∈ D.touched db.tables E.table (criteriaCondition E c),
          D.accepts (readOf E c) ∧ Survives D E c db.tables row)) ∧
    ((∀ (f : Filters V P J) (db : Contents V E), WritesContained D E (c.filtered f) db.tables) ↔
      D.accepts (readOf E (c.filtered {})) ∧
      (∀ (db : Contents V E), ∀ row ∈ db.tables E.table, D.combinations db.tables (readOf E c) row ≠ []) ∧
      c.limit = none ∧ c.offset.getD 0 = 0) := by
  refine ⟨fun db => writesContained_iff db,?_⟩
  constructor
  · intro h
    have hnone := h {}
    refine ⟨?_,fun db row hrow => (read_of_contained hnone db row hrow).2.joined,limit_of_contained hnone,
      offset_of_contained hnone⟩
    exact (read_of_contained hnone (numbered D E 1) (fun _ => D.number 0) (by
      rw [numbered_table,List.mem_map]; exact ⟨0,by simp,rfl⟩)).1
  · rintro ⟨haccepts,hjoined,hlimit,hoffset⟩ f db
    rw [writesContained_iff]
    intro hres row hrow
    refine ⟨accepts_filtered haccepts hres,⟨hjoined db row (List.mem_filter.1 hrow).1,fun hpaged => ?_⟩⟩
    rcases hpaged with hl | ho
    · exact absurd hlimit hl
    · exact absurd hoffset ho

def posts : Entity where
  table := "posts"
  columns := ["id"]
  primaryKey := ["id"]
  softDeleteColumn := none
  keyed := List.cons_ne_nil _ _
  keyColumns := fun _ h => h

/-- One post and no comments. -/
def onePost : Contents (Option ℕ) posts where
  tables table := if table = "posts" then [fun _ => some 1] else []
  keyed := by decide

/-- The posts that have a comment: the read finds none, and the delete takes them all. -/
theorem uncommented_post_deleted :
    ¬ WritesContained (numberEngine fun _ _ => true) posts { joins := [("comments","id","post_id")] } onePost.tables := by
  intro h
  obtain ⟨read,hread,hmem⟩ := h.1 (fun _ => some 1) (List.mem_of_getElem? (i := 0) rfl)
  have hnone : (numberEngine fun _ _ => true).fetchAll onePost.tables
      (readOf posts { joins := [("comments","id","post_id")] }) = some [] := by decide
  rw [hnone] at hread
  exact absurd (Option.some.inj hread ▸ hmem) List.not_mem_nil

end Rainier.Database
