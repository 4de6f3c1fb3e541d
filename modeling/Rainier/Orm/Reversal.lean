import Mathlib.Data.Set.Image
import Rainier.Orm.Schema

/-! # Taking changes back

The reverse of a change assumes that the change did something: an add that found its column or
its index there already is taken back by dropping what was there before, and a dropped index is
made again as the change describes it, not as it was. Where neither shows, the reverse
statements lead back to the schema.
-/
namespace Rainier.Orm

open Database (Dialect)

variable {V : Type}

/-- One statement of a change with the one that takes it back. -/
inductive Move (V : Type) where
  | addColumn (name : String) (column : ColumnDef V) (ifNotExists : Bool)
  | renameColumn (before after : String)
  | addIndex (index : IndexDef)
  | dropIndex (index : IndexDef)

namespace Move

def up (d : Dialect) : Move V → Ddl V
  | addColumn name column ifNotExists => .addColumn name column ifNotExists
  | renameColumn before after => .renameColumn before after
  | addIndex index => createIndexStmt d index
  | dropIndex index => dropIndexStmt index

def down (d : Dialect) : Move V → Ddl V
  | addColumn name _ _ => .dropColumn name
  | renameColumn before after => .renameColumn after before
  | addIndex index => dropIndexStmt index
  | dropIndex index => createIndexStmt d index

end Move

/-- The moves of a change. A dropped column and a raw statement have none. -/
def moves (d : Dialect) (table : String) : Change V → List (Move V)
  | .addColumn column =>
    if column.ifNotExists ∧ d = .sqlite then []
    else .addColumn column.name (column.toDef d) column.ifNotExists ::
      if column.indexed then [.addIndex (columnIndex table column)] else []
  | .renameColumn before after => [.renameColumn before after]
  | .addIndex index => [.addIndex index]
  | .dropIndex index => [.dropIndex index]
  | .dropColumn _ | .raw _ _ _ => []

/-- The index names that the changes have created so far, each with the columns there were
when it was created, under their present names. -/
abbrev Own := String → Option (Set String)

namespace Move

def owns (s : Schema V) (own : Own) : Move V → Own
  | addColumn _ _ _ => own
  | renameColumn before after => fun n => (own n).map (Set.image (renamed before after))
  | addIndex index => Function.update own index.name (some {c | s.columns c ≠ none})
  | dropIndex index => Function.update own index.name none

/-- The move takes effect, and a dropped index is as the move says. One that the changes
created themselves only has to be one that could have been created then. -/
def Tracks (s : Schema V) (own : Own) : Move V → Prop
  | addColumn name _ _ => s.columns name = none
  | renameColumn _ _ => True
  | addIndex index => s.indexes index.name = none
  | dropIndex index => s.indexes index.name = some index.index ∨
      ∃ old, own index.name = some old ∧ index.columns ≠ [] ∧ ∀ c ∈ index.columns, c ∈ old

end Move

/-- Every move tracks, each on the schema that the ones before it made. -/
def TracksAll (d : Dialect) : Own → Schema V → List (Move V) → Prop
  | _, _, [] => True
  | own, s, m :: ms => m.Tracks s own ∧ ∀ s', (m.up d).apply s = some s' → TracksAll d (m.owns s own) s' ms

/-! ## What lies between -/

/-- The two differ at most in how the changes' own indexes are defined. -/
structure Near (own : Own) (s t : Schema V) : Prop where
  columns : t.columns = s.columns
  indexes : ∀ n, t.indexes n = s.indexes n ∨
    ∃ old i, own n = some old ∧ s.indexes n ≠ none ∧ t.indexes n = some i ∧ ∀ c ∈ i.columns, c ∈ old

theorem near_none {s t : Schema V} : Near (fun _ => none) s t ↔ t = s := by
  constructor
  · rintro ⟨hcolumns,hindexes⟩
    apply Schema.ext hcolumns
    funext n
    rcases hindexes n with h | ⟨_,_,h,_⟩
    · exact h
    · cases h
  · rintro rfl
    exact ⟨rfl,fun _ => .inl rfl⟩

structure OwnOk (own : Own) (s : Schema V) : Prop where
  created : ∀ {n old}, own n = some old → s.indexes n ≠ none
  older : ∀ {n old}, own n = some old → ∀ c ∈ old, s.columns c ≠ none

/-- Going back never adds a column or an index that was not there. -/
structure Below (s t : Schema V) : Prop where
  columns : ∀ {c column}, t.columns c = some column → s.columns c = some column
  indexes : ∀ {n}, t.indexes n ≠ none → s.indexes n ≠ none

section Moves

variable {d : Dialect} {s s₁ t₁ t : Schema V} {own : Own}

theorem renamed_of_ne {before after c : String} (h : c ≠ before) : renamed before after c = c := if_neg h

@[simp] theorem renamed_self (before after : String) : renamed before after before = after := if_pos rfl

/-- Back and forth, on a column that does not have the new name yet. -/
theorem renamed_renamed {before after c : String} (h : c ≠ after) :
    renamed after before (renamed before after c) = c := by
  by_cases hb : c = before
  · rw [hb,renamed_self,renamed_self]
  · rw [renamed_of_ne hb,renamed_of_ne h]

theorem rename_rename {before after : String} {i : Index} (h : ∀ c ∈ i.columns, c ≠ after) :
    (i.rename before after).rename after before = i := by
  have hmap : (i.columns.map (renamed before after)).map (renamed after before) = i.columns := by
    rw [List.map_map]
    exact (List.map_congr_left fun c hc => renamed_renamed (h c hc)).trans (List.map_id _)
  simp only [Index.rename,hmap]

theorem ownOk_owns (m : Move V) (hown : OwnOk own s) (h : (m.up d).apply s = some s₁) : OwnOk (m.owns s own) s₁ := by
  cases m with
  | addColumn name column ifNotExists =>
    simp only [Move.up,Ddl.apply] at h
    split_ifs at h with hnone hexists
    · cases h
      refine ⟨hown.created,fun hn c hc => ?_⟩
      by_cases hname : c = name
      · simp [Schema.addColumn,hname]
      · simpa [Schema.addColumn,hname] using hown.older hn c hc
    · cases h
      exact hown
  | renameColumn before after =>
    simp only [Move.up,Ddl.apply] at h
    split_ifs at h with hcond
    cases h
    constructor
    · intro n old hn
      obtain ⟨old,hold,-⟩ := Option.map_eq_some_iff.1 hn
      simpa [Schema.renameColumn] using hown.created hold
    · intro n old hn c hc
      obtain ⟨old,hold,rfl⟩ := Option.map_eq_some_iff.1 hn
      obtain ⟨c',hc',rfl⟩ := hc
      have hc'' := hown.older hold c' hc'
      by_cases hb : c' = before
      · simpa [Schema.renameColumn,hb] using hcond.1
      · have ha : c' ≠ after := fun h => hc'' (h ▸ hcond.2)
        simpa [Schema.renameColumn,renamed_of_ne hb,ha,hb] using hc''
  | addIndex index =>
    simp only [Move.up,createIndexStmt,Ddl.apply] at h
    have hcases : s₁.columns = s.columns ∧ s₁.indexes index.name ≠ none ∧
        ∀ n, s.indexes n ≠ none → s₁.indexes n ≠ none := by
      split_ifs at h with hnone hcolumns hexists
      · cases h
        refine ⟨rfl,by simp [Schema.createIndex],fun n hn => ?_⟩
        by_cases hname : n = index.name
        · simp [Schema.createIndex,hname]
        · simpa [Schema.createIndex,hname] using hn
      · cases h
        exact ⟨rfl,hnone,fun _ hn => hn⟩
    constructor
    · intro n old hn
      by_cases hname : n = index.name
      · rw [hname]; exact hcases.2.1
      · rw [Move.owns,Function.update_of_ne hname] at hn
        exact hcases.2.2 n (hown.created hn)
    · intro n old hn c hc
      rw [hcases.1]
      by_cases hname : n = index.name
      · rw [Move.owns,hname,Function.update_self] at hn
        cases hn
        exact hc
      · rw [Move.owns,Function.update_of_ne hname] at hn
        exact hown.older hn c hc
  | dropIndex index =>
    simp only [Move.up,dropIndexStmt,Ddl.apply] at h
    split_ifs at h with hnone
    cases h
    constructor
    · intro n old hn
      by_cases hname : n = index.name
      · rw [Move.owns,hname,Function.update_self] at hn; cases hn
      · rw [Move.owns,Function.update_of_ne hname] at hn
        simpa [Schema.dropIndex,hname] using hown.created hn
    · intro n old hn c hc
      by_cases hname : n = index.name
      · rw [Move.owns,hname,Function.update_self] at hn; cases hn
      · rw [Move.owns,Function.update_of_ne hname] at hn
        exact hown.older hn c hc

/-- What a statement that succeeds has done. -/
theorem apply_createIndex {index : IndexDef} (h : (createIndexStmt d index).apply s = some s₁) :
    (s.indexes index.name = none ∧ ∃ hc, s₁ = s.createIndex index hc) ∨ (s.indexes index.name ≠ none ∧ s₁ = s) := by
  simp only [createIndexStmt,Ddl.apply] at h
  split_ifs at h with hnone hcolumns hexists
  · exact .inl ⟨hnone,hcolumns,(Option.some.inj h).symm⟩
  · exact .inr ⟨hnone,(Option.some.inj h).symm⟩

theorem apply_dropIndex {index : IndexDef} (h : (dropIndexStmt index).apply s = some s₁) :
    s.indexes index.name ≠ none ∧ s₁ = s.dropIndex index.name := by
  simp only [dropIndexStmt,Ddl.apply] at h
  split_ifs at h with hnone
  exact ⟨hnone,(Option.some.inj h).symm⟩

theorem apply_renameColumn {before after : String} (h : (Ddl.renameColumn before after).apply s = some s₁) :
    s.columns after = none ∧ ∃ hb, s₁ = s.renameColumn before after hb := by
  simp only [Ddl.apply] at h
  split_ifs at h with hcond
  exact ⟨hcond.2,hcond.1,(Option.some.inj h).symm⟩

theorem apply_addColumn {name : String} {column : ColumnDef V} {ifNotExists : Bool}
    (h : (Ddl.addColumn name column ifNotExists).apply s = some s₁) :
    (s.columns name = none ∧ s₁ = s.addColumn name column) ∨ (s.columns name ≠ none ∧ s₁ = s) := by
  simp only [Ddl.apply] at h
  split_ifs at h with hnone hexists
  · exact .inl ⟨hnone,(Option.some.inj h).symm⟩
  · exact .inr ⟨hnone,(Option.some.inj h).symm⟩

theorem apply_dropColumn {name : String} (h : (Ddl.dropColumn name).apply s = some s₁) :
    s.columns name ≠ none ∧ ∃ hf, s₁ = s.dropColumn name hf := by
  simp only [Ddl.apply] at h
  split_ifs at h with hnone hfree
  exact ⟨hnone,hfree,(Option.some.inj h).symm⟩

theorem below_down (m : Move V) (hup : (m.up d).apply s = some s₁) (h : Below s₁ t₁)
    (hdown : (m.down d).apply t₁ = some t) : Below s t := by
  cases m with
  | addColumn name column ifNotExists =>
    obtain ⟨-,hf,rfl⟩ := apply_dropColumn hdown
    have hcolumns : ∀ {c column}, c ≠ name → s₁.columns c = some column → s.columns c = some column := by
      intro c column' hc hcol
      rcases apply_addColumn hup with ⟨-,rfl⟩ | ⟨-,rfl⟩
      · simpa [Schema.addColumn,hc] using hcol
      · exact hcol
    have hindexes : s₁.indexes = s.indexes := by
      rcases apply_addColumn hup with ⟨-,rfl⟩ | ⟨-,rfl⟩ <;> rfl
    constructor
    · intro c column' hc
      by_cases hname : c = name
      · simp [Schema.dropColumn,hname] at hc
      · exact hcolumns hname (h.columns (by simpa [Schema.dropColumn,hname] using hc))
    · intro n hn
      rw [← hindexes]
      exact h.indexes hn
  | renameColumn before after =>
    obtain ⟨hnone,hb,rfl⟩ := apply_renameColumn hup
    obtain ⟨hnone',ha,rfl⟩ := apply_renameColumn hdown
    have hne : after ≠ before := fun heq => hb (heq ▸ hnone)
    constructor
    · intro c column hc
      simp only [Schema.renameColumn] at hc
      split_ifs at hc with h1 h2
      · simpa [Schema.renameColumn,h1] using h.columns hc
      · have := h.columns hc
        simpa [Schema.renameColumn,h1,h2] using this
    · intro n hn
      have := h.indexes (n := n) (by simpa [Schema.renameColumn] using hn)
      simpa [Schema.renameColumn] using this
  | addIndex index =>
    obtain ⟨-,rfl⟩ := apply_dropIndex hdown
    have hcases : s₁.columns = s.columns ∧ ∀ n, n ≠ index.name → s₁.indexes n = s.indexes n := by
      rcases apply_createIndex hup with ⟨-,hc,rfl⟩ | ⟨-,rfl⟩
      · exact ⟨rfl,fun n hn => Function.update_of_ne hn _ _⟩
      · exact ⟨rfl,fun _ _ => rfl⟩
    constructor
    · intro c column hc
      rw [← hcases.1]
      exact h.columns hc
    · intro n hn
      by_cases hname : n = index.name
      · simp [Schema.dropIndex,hname] at hn
      · rw [← hcases.2 n hname]
        exact h.indexes (by simpa [Schema.dropIndex,hname] using hn)
  | dropIndex index =>
    obtain ⟨hsome,rfl⟩ := apply_dropIndex hup
    have hcases : t.columns = t₁.columns ∧ ∀ n, n ≠ index.name → t.indexes n = t₁.indexes n := by
      rcases apply_createIndex hdown with ⟨-,hc,rfl⟩ | ⟨-,rfl⟩
      · exact ⟨rfl,fun n hn => Function.update_of_ne hn _ _⟩
      · exact ⟨rfl,fun _ _ => rfl⟩
    constructor
    · intro c column hc
      rw [hcases.1] at hc
      exact h.columns hc
    · intro n hn
      by_cases hname : n = index.name
      · rw [hname]; exact hsome
      · rw [hcases.2 n hname] at hn
        simpa [Schema.dropIndex,hname] using h.indexes hn

/-- A move that tracks is taken back. -/
theorem near_down (m : Move V) (hown : OwnOk own s) (hup : (m.up d).apply s = some s₁) (htracks : m.Tracks s own)
    (h : Near (m.owns s own) s₁ t₁) : ∃ t, (m.down d).apply t₁ = some t ∧ Near own s t := by
  cases m with
  | addColumn name column ifNotExists =>
    have hnone : s.columns name = none := htracks
    have hs₁ : s₁ = s.addColumn name column := by
      rcases apply_addColumn hup with ⟨-,rfl⟩ | ⟨hsome,-⟩
      · rfl
      · exact absurd hnone hsome
    subst hs₁
    have hfree : t₁.Free name := by
      intro n i hi hc
      rcases h.indexes n with heq | ⟨old,i',hold,-,hi',hin⟩
      · exact (s.covered (heq ▸ hi : s.indexes n = some i)).2 name hc hnone
      · rw [hi] at hi'
        cases hi'
        exact hown.older hold name (hin name hc) hnone
    have hcol : t₁.columns name ≠ none := by rw [h.columns]; simp [Schema.addColumn]
    refine ⟨t₁.dropColumn name hfree,by simp only [Move.down,Ddl.apply,if_neg hcol,dif_pos hfree],?_,h.indexes⟩
    funext c
    by_cases hc : c = name
    · simp [Schema.dropColumn,hc,hnone]
    · simp [Schema.dropColumn,hc,h.columns,Schema.addColumn]
  | renameColumn before after =>
    obtain ⟨hnone,hb,rfl⟩ := apply_renameColumn hup
    have hne : before ≠ after := fun heq => hb (heq ▸ hnone)
    have hcond : t₁.columns after ≠ none ∧ t₁.columns before = none := by
      rw [h.columns]
      exact ⟨by simpa [Schema.renameColumn] using hb,by simp [Schema.renameColumn,hne]⟩
    refine ⟨t₁.renameColumn after before hcond.1,by simp only [Move.down,Ddl.apply,dif_pos hcond],?_,fun n => ?_⟩
    · funext c
      simp only [Schema.renameColumn,h.columns]
      by_cases hcb : c = before
      · simp [hcb]
      · by_cases hca : c = after
        · simp [hca,hne.symm,hnone]
        · simp [hcb,hca]
    · rcases h.indexes n with heq | ⟨old,i,hold,hsome,hi,hin⟩
      · left
        simp only [Schema.renameColumn] at heq ⊢
        rw [heq,Option.map_map]
        cases hi : s.indexes n with
        | none => rfl
        | some i => exact congrArg some (rename_rename fun c hc hca => (s.covered hi).2 c hc (hca ▸ hnone))
      · right
        obtain ⟨old,hold',rfl⟩ := Option.map_eq_some_iff.1 hold
        refine ⟨old,i.rename after before,hold',by simpa [Schema.renameColumn] using hsome,
          by simp [Schema.renameColumn,hi],fun c hc => ?_⟩
        obtain ⟨c',hc',rfl⟩ := List.mem_map.1 hc
        obtain ⟨c'',hc'',rfl⟩ := hin c' hc'
        have hca : c'' ≠ after := fun hca => hown.older hold' c'' hc'' (hca ▸ hnone)
        rw [renamed_renamed hca]
        exact hc''
  | addIndex index =>
    have hnone : s.indexes index.name = none := htracks
    obtain ⟨-,hc,rfl⟩ : s.indexes index.name = none ∧ ∃ hc, s₁ = s.createIndex index hc := by
      rcases apply_createIndex hup with hnew | ⟨hsome,-⟩
      · exact hnew
      · exact absurd hnone hsome
    have hsome : t₁.indexes index.name ≠ none := by
      rcases h.indexes index.name with heq | ⟨_,i,_,_,hi,_⟩
      · rw [heq]; simp [Schema.createIndex]
      · rw [hi]; simp
    refine ⟨t₁.dropIndex index.name,by simp only [Move.down,dropIndexStmt,Ddl.apply,if_neg hsome],h.columns,fun n => ?_⟩
    by_cases hname : n = index.name
    · left
      simp [Schema.dropIndex,hname,hnone]
    · have hn := h.indexes n
      simpa [Schema.dropIndex,Schema.createIndex,Move.owns,hname] using hn
  | dropIndex index =>
    obtain ⟨hsome,rfl⟩ := apply_dropIndex hup
    have hnone : t₁.indexes index.name = none := by
      rcases h.indexes index.name with heq | ⟨old,_,hold,_⟩
      · rw [heq]; simp [Schema.dropIndex]
      · rw [Move.owns,Function.update_self] at hold; cases hold
    have hcolumns : index.columns ≠ [] ∧ ∀ c ∈ index.columns, t₁.columns c ≠ none := by
      rw [h.columns]
      rcases htracks with hsame | ⟨old,hold,hne,hin⟩
      · exact s.covered hsame
      · exact ⟨hne,fun c hc => hown.older hold c (hin c hc)⟩
    refine ⟨t₁.createIndex index hcolumns,
      by simp only [Move.down,createIndexStmt,Ddl.apply,if_pos hnone,dif_pos hcolumns],h.columns,fun n => ?_⟩
    by_cases hname : n = index.name
    · subst hname
      rcases htracks with hsame | ⟨old,hold,-,hin⟩
      · left
        simp [Schema.createIndex,hsame]
      · right
        exact ⟨old,index.index,hold,hsome,by simp [Schema.createIndex],hin⟩
    · have hn := h.indexes n
      simpa [Schema.dropIndex,Schema.createIndex,Move.owns,hname] using hn

/-- Only a move that tracks leads back. -/
theorem near_up (m : Move V) (hup : (m.up d).apply s = some s₁) (hbelow : Below s₁ t₁)
    (hdown : (m.down d).apply t₁ = some t) (h : Near own s t) : m.Tracks s own ∧ Near (m.owns s own) s₁ t₁ := by
  cases m with
  | addColumn name column ifNotExists =>
    obtain ⟨hcol,hf,rfl⟩ := apply_dropColumn hdown
    have hnone : s.columns name = none := by rw [← h.columns]; simp [Schema.dropColumn]
    have hs₁ : s₁ = s.addColumn name column := by
      rcases apply_addColumn hup with ⟨-,rfl⟩ | ⟨hsome,-⟩
      · rfl
      · exact absurd hnone hsome
    subst hs₁
    refine ⟨hnone,?_,h.indexes⟩
    funext c
    by_cases hc : c = name
    · obtain ⟨column',hcolumn'⟩ := Option.ne_none_iff_exists'.1 hcol
      rw [hc,hcolumn',hbelow.columns hcolumn']
    · have hthere := congrFun h.columns c
      simpa [Schema.dropColumn,Schema.addColumn,hc] using hthere
  | renameColumn before after =>
    obtain ⟨hnone,hb,rfl⟩ := apply_renameColumn hup
    obtain ⟨hnone',ha,rfl⟩ := apply_renameColumn hdown
    have hne : before ≠ after := fun heq => hb (heq ▸ hnone)
    refine ⟨trivial,?_,fun n => ?_⟩
    · funext c
      have hthere := congrFun h.columns
      simp only [Schema.renameColumn] at hthere ⊢
      by_cases hca : c = after
      · have := hthere before
        simpa [hca] using this
      · by_cases hcb : c = before
        · simp [hcb,hne,hnone']
        · have := hthere c
          simpa [hca,hcb] using this
    · have hback : ∀ i, t₁.indexes n = some i → (i.rename after before).rename before after = i :=
        fun i hi => rename_rename fun c hc hcb => (t₁.covered hi).2 c hc (hcb ▸ hnone')
      rcases h.indexes n with heq | ⟨old,i,hold,hsome,hi,hin⟩
      · left
        simp only [Schema.renameColumn] at heq ⊢
        rw [← heq,Option.map_map]
        cases hi : t₁.indexes n with
        | none => rfl
        | some i => exact congrArg some (hback i hi).symm
      · right
        obtain ⟨i,hi',rfl⟩ := Option.map_eq_some_iff.1 hi
        refine ⟨_,i,by simp only [Move.owns,hold]; rfl,by simpa [Schema.renameColumn] using hsome,hi',fun c hc => ?_⟩
        rw [← hback i hi'] at hc
        obtain ⟨c',hc',rfl⟩ := List.mem_map.1 hc
        exact ⟨c',hin c' hc',rfl⟩
  | addIndex index =>
    obtain ⟨hsome,rfl⟩ := apply_dropIndex hdown
    have hnone : s.indexes index.name = none := by
      rcases h.indexes index.name with heq | ⟨_,_,_,_,hi,_⟩
      · rw [← heq]; simp [Schema.dropIndex]
      · simp [Schema.dropIndex] at hi
    obtain ⟨-,hc,rfl⟩ : s.indexes index.name = none ∧ ∃ hc, s₁ = s.createIndex index hc := by
      rcases apply_createIndex hup with hnew | ⟨hthere,-⟩
      · exact hnew
      · exact absurd hnone hthere
    refine ⟨hnone,h.columns,fun n => ?_⟩
    by_cases hname : n = index.name
    · -- whatever it is by now, it covers columns that were there when it was created
      right
      obtain ⟨i,hi⟩ := Option.ne_none_iff_exists'.1 hsome
      refine ⟨{c | s.columns c ≠ none},i,by simp [Move.owns,hname],by simp [Schema.createIndex,hname],hname ▸ hi,fun c hc => ?_⟩
      have hcol := (t₁.covered hi).2 c hc
      rwa [show t₁.columns = s.columns from h.columns] at hcol
    · have hn := h.indexes n
      simpa [Schema.dropIndex,Schema.createIndex,Move.owns,hname] using hn
  | dropIndex index =>
    obtain ⟨hsome,rfl⟩ := apply_dropIndex hup
    have hnone : t₁.indexes index.name = none := by
      by_contra hthere
      exact hbelow.indexes hthere (by simp [Schema.dropIndex])
    obtain ⟨-,hc,rfl⟩ : t₁.indexes index.name = none ∧ ∃ hc, t = t₁.createIndex index hc := by
      rcases apply_createIndex hdown with hnew | ⟨hthere,-⟩
      · exact hnew
      · exact absurd hnone hthere
    refine ⟨?_,h.columns,fun n => ?_⟩
    · rcases h.indexes index.name with heq | ⟨old,i,hold,-,hi,hin⟩
      · left
        rw [← heq]
        simp [Schema.createIndex]
      · right
        have hindex : i = index.index := by simpa [Schema.createIndex] using hi.symm
        subst hindex
        exact ⟨old,hold,hc.1,hin⟩
    · by_cases hname : n = index.name
      · left
        simp [Schema.dropIndex,hname,hnone]
      · have hn := h.indexes n
        simpa [Schema.dropIndex,Schema.createIndex,Move.owns,hname] using hn

/-- Moves lead back just when every one tracks. -/
theorem back_iff (ms : List (Move V)) (hown : OwnOk own s) (hup : applyAll (ms.map (Move.up d)) s = some s₁) :
    ((∃ t, applyAll (ms.reverse.map (Move.down d)) s₁ = some t ∧ Near own s t) ↔ TracksAll d own s ms) ∧
    ∀ t, applyAll (ms.reverse.map (Move.down d)) s₁ = some t → Below s t := by
  induction ms generalizing own s with
  | nil =>
    cases hup
    refine ⟨⟨fun _ => trivial,fun _ => ⟨_,rfl,rfl,fun _ => .inl rfl⟩⟩,fun t ht => ?_⟩
    cases ht
    exact ⟨fun h => h,fun h => h⟩
  | cons m ms ih =>
    obtain ⟨s',hm,hrest⟩ := Option.bind_eq_some_iff.1 hup
    obtain ⟨hiff,hbelow⟩ := ih (ownOk_owns m hown hm) hrest
    have hsplit : applyAll ((m :: ms).reverse.map (Move.down d)) s₁ =
        (applyAll (ms.reverse.map (Move.down d)) s₁).bind (m.down d).apply := by
      rw [List.reverse_cons,List.map_append,applyAll_append]
      have hone : applyAll [m.down d] = (m.down d).apply := by
        funext t
        exact Option.bind_fun_some _
      rw [List.map_singleton,hone]
    rw [hsplit]
    refine ⟨?_,?_⟩
    · constructor
      · rintro ⟨t,ht,hnear⟩
        obtain ⟨t₁,ht₁,hdown⟩ := Option.bind_eq_some_iff.1 ht
        obtain ⟨htracks,hnear₁⟩ := near_up m hm (hbelow t₁ ht₁) hdown hnear
        refine ⟨htracks,fun s'' hs'' => ?_⟩
        rw [hm] at hs''
        cases hs''
        exact hiff.1 ⟨t₁,ht₁,hnear₁⟩
      · rintro ⟨htracks,hall⟩
        obtain ⟨t₁,ht₁,hnear₁⟩ := hiff.2 (hall s' hm)
        obtain ⟨t,hdown,hnear⟩ := near_down m hown hm htracks hnear₁
        exact ⟨t,by rw [ht₁]; exact hdown,hnear⟩
    · intro t ht
      obtain ⟨t₁,ht₁,hdown⟩ := Option.bind_eq_some_iff.1 ht
      exact below_down m hm (hbelow t₁ ht₁) hdown

end Moves

/-! ## Changes -/

/-- No raw statement is among the changes. -/
def Change.isRaw : Change V → Bool
  | .raw _ _ _ => true
  | _ => false

theorem changeSql_eq (d : Dialect) (table : String) {change : Change V} (hraw : change.isRaw = false)
    (hkept : ∀ name, change ≠ .dropColumn name) : changeSql d table change = (moves d table change).map (Move.up d) := by
  cases change with
  | addColumn column =>
    simp only [changeSql,moves]
    split_ifs <;> rfl
  | dropColumn name => exact absurd rfl (hkept name)
  | renameColumn before after => rfl
  | addIndex index => rfl
  | dropIndex index => rfl
  | raw only sql down => cases hraw

theorem changeReverseSql_eq (d : Dialect) (table : String) {change : Change V} (hraw : change.isRaw = false)
    (hkept : ∀ name, change ≠ .dropColumn name) :
    changeReverseSql d table change = (moves d table change).reverse.map (Move.down d) := by
  cases change with
  | addColumn column =>
    simp only [changeReverseSql,moves]
    split_ifs <;> rfl
  | dropColumn name => exact absurd rfl (hkept name)
  | renameColumn before after => rfl
  | addIndex index => rfl
  | dropIndex index => rfl
  | raw only sql down => cases hraw

namespace TableChanges

variable {t : TableChanges V} {d : Dialect}

/-- All moves of the changes, in order. -/
def allMoves (d : Dialect) (t : TableChanges V) : List (Move V) := t.changes.flatMap (moves d t.table)

theorem not_dropColumn (h : t.irreversibleBecause = none) {change : Change V} (hmem : change ∈ t.changes) (name : String) :
    change ≠ .dropColumn name := by
  rintro rfl
  rw [irreversibleBecause,List.findSome?_eq_none_iff] at h
  exact absurd (h _ hmem) (by simp)

theorem toSql_eq (hraw : ∀ change ∈ t.changes, change.isRaw = false) (h : t.irreversibleBecause = none) :
    t.toSql d = (t.allMoves d).map (Move.up d) := by
  rw [toSql,allMoves,List.map_flatMap]
  exact List.flatMap_congr fun change hmem => changeSql_eq d t.table (hraw change hmem) (not_dropColumn h hmem)

theorem toReverseSql_eq (hraw : ∀ change ∈ t.changes, change.isRaw = false) (h : t.irreversibleBecause = none) :
    t.toReverseSql d = (t.allMoves d).reverse.map (Move.down d) := by
  have hcong : t.changes.reverse.flatMap (changeReverseSql d t.table) =
      t.changes.reverse.flatMap fun change => (moves d t.table change).reverse.map (Move.down d) :=
    List.flatMap_congr fun change hmem =>
      changeReverseSql_eq d t.table (hraw change (List.mem_reverse.1 hmem)) (not_dropColumn h (List.mem_reverse.1 hmem))
  rw [toReverseSql,hcong,allMoves,List.reverse_flatMap,List.map_flatMap]
  rfl

/-- The reverse statements lead back to the schema just when every add took effect and every
index that was dropped is described as it was, or is one the changes had made. -/
theorem reverse_restores_iff (t : TableChanges V) (d : Dialect) (s s₁ : Schema V)
    (hraw : ∀ change ∈ t.changes, change.isRaw = false) (hrev : t.irreversibleBecause = none)
    (hup : applyAll (t.toSql d) s = some s₁) :
    applyAll (t.toReverseSql d) s₁ = some s ↔ TracksAll d (fun _ => none) s (t.allMoves d) := by
  have hown : OwnOk (fun _ => none) s := ⟨fun h => (by cases h),fun h => (by cases h)⟩
  rw [toSql_eq hraw hrev] at hup
  rw [toReverseSql_eq hraw hrev,← (back_iff (t.allMoves d) hown hup).1]
  constructor
  · intro h
    exact ⟨s,h,near_none.2 rfl⟩
  · rintro ⟨t',ht',hnear⟩
    rw [ht',near_none.1 hnear]

def bodyDef : ColumnDef ℕ := ⟨.basic .text,false,false,false,none,false⟩

/-- A table with one column. -/
def bodyOnly : Schema ℕ where
  columns c := if c = "body" then some bodyDef else none
  indexes _ := none
  covered h := by cases h

def renameBody : TableChanges ℕ := ⟨"posts",[.renameColumn "body" "content"]⟩

/-- A rename is taken back. -/
theorem reverse_restores_renamed : applyAll (renameBody.toReverseSql .mySql)
    (bodyOnly.renameColumn "body" "content" (by simp [bodyOnly])) = some bodyOnly := by
  have hcond : bodyOnly.columns "body" ≠ none ∧ bodyOnly.columns "content" = none := by simp [bodyOnly]
  have hup : applyAll (renameBody.toSql .mySql) bodyOnly =
      some (bodyOnly.renameColumn "body" "content" hcond.1) := by
    simp only [renameBody,toSql,List.flatMap_cons,changeSql,List.flatMap_nil,List.append_nil,applyAll,Ddl.apply,
      dif_pos hcond]
    rfl
  refine (reverse_restores_iff renameBody .mySql bodyOnly _ (by simp [renameBody,Change.isRaw]) rfl hup).2 ?_
  exact ⟨trivial,fun _ _ => trivial⟩

def addBody : TableChanges ℕ := ⟨"posts",[.addColumn { name := "body", kind := .basic .text, ifNotExists := true }]⟩

/-- A tolerant add of a column that is there does nothing, and its reverse drops the column. -/
theorem tolerant_add_reversed : addBody.irreversibleBecause = none ∧
    applyAll (addBody.toSql .postgres) bodyOnly = some bodyOnly ∧
    applyAll (addBody.toReverseSql .postgres) bodyOnly ≠ some bodyOnly := by
  have hthere : bodyOnly.columns "body" ≠ none := by simp [bodyOnly]
  have hup : applyAll (addBody.toSql .postgres) bodyOnly = some bodyOnly := by
    simp [addBody,toSql,changeSql,applyAll,Ddl.apply,hthere]
  refine ⟨rfl,hup,fun hback => ?_⟩
  have hfree : bodyOnly.Free "body" := fun n i h => by cases h
  have hdropped : applyAll (addBody.toReverseSql .postgres) bodyOnly = some (bodyOnly.dropColumn "body" hfree) := by
    simp [addBody,toReverseSql,changeReverseSql,applyAll,Ddl.apply,hthere,hfree]
  rw [hdropped] at hback
  have hcolumns := congrArg (fun s => s.columns "body") (Option.some.inj hback)
  simp [Schema.dropColumn,bodyOnly] at hcolumns

end TableChanges

end Rainier.Orm
