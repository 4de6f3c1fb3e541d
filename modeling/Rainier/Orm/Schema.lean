import Rainier.Orm.Blueprint

/-! # A table's schema

Named columns and named indexes, and the usual meaning of the statements on them. An index
covers columns that there are, so a column goes only after the indexes over it.
-/
namespace Rainier.Orm

variable {V : Type}

structure Index where
  columns : List String
  unique : Bool
  deriving DecidableEq, Repr

/-- The columns by name, and the indexes by name. -/
@[ext] structure Schema (V : Type) where
  columns : String → Option (ColumnDef V)
  indexes : String → Option Index
  covered : ∀ {name index}, indexes name = some index → index.columns ≠ [] ∧ ∀ c ∈ index.columns, columns c ≠ none

def IndexDef.index (d : IndexDef) : Index := ⟨d.columns,d.unique⟩

/-- The name of a column after a rename. -/
def renamed (before after c : String) : String := if c = before then after else c

namespace Index

/-- An index follows the columns it covers through a rename. -/
def rename (before after : String) (i : Index) : Index := { i with columns := i.columns.map (renamed before after) }

end Index

namespace Schema

variable (s : Schema V)

def addColumn (name : String) (column : ColumnDef V) : Schema V where
  columns := Function.update s.columns name (some column)
  indexes := s.indexes
  covered {n i} h := by
    refine ⟨(s.covered h).1,fun c hc => ?_⟩
    by_cases hn : c = name
    · simp [hn]
    · simpa [hn] using (s.covered h).2 c hc

/-- No index covers the column. -/
def Free (name : String) : Prop := ∀ n i, s.indexes n = some i → name ∉ i.columns

def dropColumn (name : String) (hfree : s.Free name) : Schema V where
  columns := Function.update s.columns name none
  indexes := s.indexes
  covered {n i} h := by
    refine ⟨(s.covered h).1,fun c hc => ?_⟩
    have hn : c ≠ name := fun hc' => hfree n i h (hc' ▸ hc)
    simpa [hn] using (s.covered h).2 c hc

def renameColumn (before after : String) (hbefore : s.columns before ≠ none) : Schema V where
  columns c := if c = after then s.columns before else if c = before then none else s.columns c
  indexes n := (s.indexes n).map (Index.rename before after)
  covered {n i} h := by
    obtain ⟨i,hi,rfl⟩ := Option.map_eq_some_iff.1 h
    refine ⟨by simpa [Index.rename] using (s.covered hi).1,fun c hc => ?_⟩
    obtain ⟨c',hc',rfl⟩ := List.mem_map.1 hc
    by_cases hb : c' = before
    · simpa [renamed,hb] using hbefore
    · simp only [renamed,if_neg hb]
      split_ifs with ha
      · exact hbefore
      · exact (s.covered hi).2 c' hc'

def createIndex (index : IndexDef) (hcolumns : index.columns ≠ [] ∧ ∀ c ∈ index.columns, s.columns c ≠ none) :
    Schema V where
  columns := s.columns
  indexes := Function.update s.indexes index.name (some index.index)
  covered {n i} h := by
    by_cases hn : n = index.name
    · rw [hn,Function.update_self] at h
      cases h
      exact hcolumns
    · rw [Function.update_of_ne hn] at h
      exact s.covered h

def dropIndex (name : String) : Schema V where
  columns := s.columns
  indexes := Function.update s.indexes name none
  covered {n i} h := by
    by_cases hn : n = name
    · rw [hn,Function.update_self] at h
      cases h
    · rw [Function.update_of_ne hn] at h
      exact s.covered h

end Schema

open Classical in
/-- What a statement makes of a schema, if it succeeds. A raw statement is not interpreted. -/
noncomputable def Ddl.apply : Ddl V → Schema V → Option (Schema V)
  | .addColumn name column ifNotExists, s =>
    if s.columns name = none then some (s.addColumn name column) else if ifNotExists then some s else none
  | .dropColumn name, s =>
    if s.columns name = none then none else if h : s.Free name then some (s.dropColumn name h) else none
  | .renameColumn before after, s =>
    if h : s.columns before ≠ none ∧ s.columns after = none then some (s.renameColumn before after h.1) else none
  | .createIndex index ifNotExists, s =>
    if s.indexes index.name = none then
      if h : index.columns ≠ [] ∧ ∀ c ∈ index.columns, s.columns c ≠ none then some (s.createIndex index h) else none
    else if ifNotExists then some s else none
  | .dropIndex name, s => if s.indexes name = none then none else some (s.dropIndex name)
  | .raw _, _ => none

/-- Statements one after the other. -/
noncomputable def applyAll : List (Ddl V) → Schema V → Option (Schema V)
  | [], s => some s
  | ddl :: rest, s => (ddl.apply s).bind (applyAll rest)

theorem applyAll_append (xs ys : List (Ddl V)) (s : Schema V) :
    applyAll (xs ++ ys) s = (applyAll xs s).bind (applyAll ys) := by
  induction xs generalizing s with
  | nil => rfl
  | cons x xs ih =>
    rw [List.cons_append,applyAll,applyAll,Option.bind_assoc]
    exact Option.bind_congr fun t _ => ih t

end Rainier.Orm
