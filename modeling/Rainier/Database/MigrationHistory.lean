import Mathlib.Data.List.Dedup
import Rainier.Database.Migrator

/-! # What the ledger knows of a history

A step's row is written after its last statement and removed after its last undoing one, and
nothing ties the two together. So the ledger holds exactly the steps that stand applied, save
one whose own ledger write failed. Its rows stay in the order of application, which is the
order of batch and declaration that a rollback walks back.
-/
namespace Rainier.Database

/-- The name a step was applied under. -/
def Event.appliedName : Event → Option String
  | .applied name => some name
  | _ => none

def Event.undoneName : Event → Option String
  | .undone name => some name
  | _ => none

/-- The steps that were ever applied, in the order of their last application. -/
def appliedOrder (log : List Event) : List String := (log.filterMap Event.appliedName).dedup

/-- All up statements of the step completed, and no undoing has completed since. -/
def stands (name : String) (log : List Event) : Bool :=
  log.foldl (fun s e => match e with
    | .applied n => s || n = name
    | .undone n => s && n ≠ name
    | _ => s) false

/-- The last that was to be done for the step was a ledger write, and it failed. -/
def torn (name : String) (log : List Event) : Bool :=
  log.foldl (fun s e => match e with
    | .applied n | .undone n => s && n ≠ name
    | .unrecorded n | .unforgotten n => s || n = name
    | _ => s) false

section Log

variable (log : List Event) (n name : String)

@[simp] theorem stands_applied : stands name (log ++ [.applied n]) = (stands name log || n = name) := List.foldl_concat ..

@[simp] theorem stands_undone : stands name (log ++ [.undone n]) = (stands name log && n ≠ name) := List.foldl_concat ..

@[simp] theorem stands_unrecorded : stands name (log ++ [.unrecorded n]) = stands name log := List.foldl_concat ..

@[simp] theorem stands_unforgotten : stands name (log ++ [.unforgotten n]) = stands name log := List.foldl_concat ..

@[simp] theorem torn_applied : torn name (log ++ [.applied n]) = (torn name log && n ≠ name) := List.foldl_concat ..

@[simp] theorem torn_undone : torn name (log ++ [.undone n]) = (torn name log && n ≠ name) := List.foldl_concat ..

@[simp] theorem torn_unrecorded : torn name (log ++ [.unrecorded n]) = (torn name log || n = name) := List.foldl_concat ..

@[simp] theorem torn_unforgotten : torn name (log ++ [.unforgotten n]) = (torn name log || n = name) :=
  List.foldl_concat ..

/-- Statements of a step tell nothing until the last of them. -/
@[simp] theorem stands_executed (sqls : List String) : stands name (log ++ sqls.map .executed) = stands name log := by
  rw [stands,List.foldl_append]
  induction sqls with
  | nil => rfl
  | cons sql sqls ih => exact ih

@[simp] theorem torn_executed (sqls : List String) : torn name (log ++ sqls.map .executed) = torn name log := by
  rw [torn,List.foldl_append]
  induction sqls with
  | nil => rfl
  | cons sql sqls ih => exact ih

@[simp] theorem appliedOrder_executed (sqls : List String) :
    appliedOrder (log ++ sqls.map .executed) = appliedOrder log := by
  have hnone : (sqls.map Event.executed).filterMap Event.appliedName = [] := by
    rw [List.filterMap_eq_nil_iff]
    intro e he
    obtain ⟨sql,-,rfl⟩ := List.mem_map.1 he
    rfl
  rw [appliedOrder,List.filterMap_append,hnone,List.append_nil,appliedOrder]

theorem appliedOrder_other {e : Event} (h : e.appliedName = none) : appliedOrder (log ++ [e]) = appliedOrder log := by
  simp [appliedOrder,h]

theorem dedup_concat (l : List String) : (l ++ [n]).dedup = l.dedup.filter (· ≠ n) ++ [n] := by
  induction l with
  | nil => simp
  | cons a l ih =>
    rw [List.cons_append]
    by_cases han : a = n
    · rw [List.dedup_cons_of_mem (by simp [han]),ih,han]
      by_cases hl : n ∈ l
      · rw [List.dedup_cons_of_mem hl]
      · rw [List.dedup_cons_of_notMem hl,List.filter_cons_of_neg (by simp)]
    · by_cases hl : a ∈ l
      · rw [List.dedup_cons_of_mem (by simp [hl]),ih,List.dedup_cons_of_mem hl]
      · rw [List.dedup_cons_of_notMem (by simp [hl,han]),ih,List.dedup_cons_of_notMem hl,
          List.filter_cons_of_pos (by simpa using han),List.cons_append]

/-- A step that is applied comes last, wherever it was. -/
theorem appliedOrder_applied : appliedOrder (log ++ [.applied n]) = (appliedOrder log).filter (· ≠ n) ++ [n] := by
  rw [appliedOrder,List.filterMap_append]
  exact dedup_concat n _

end Log

/-! ## The invariant -/

/-- A step counts as applied or undone at the end of all its statements. -/
def Event.Grounded (w : World) (M : Migrator) (earlier : List Event) : Event → Prop
  | .applied name => ∃ m ∈ M.migrations, m.name = name ∧ (m.up w.dialect).map .executed <:+ earlier
  | .undone name => ∃ sqls, M.undoing w name = .ok sqls ∧ sqls.map .executed <:+ earlier
  | _ => True

/-- The ledger against the history. -/
structure Faithful (w : World) (M : Migrator) (db : Db) : Prop where
  declared : ∀ row ∈ db.ledger, row.1 ∈ M.names
  once : (db.ledger.map (·.1)).Nodup
  ordered : db.ledger.Pairwise fun a b => a.2 < b.2 ∨ a.2 = b.2 ∧ M.position a.1 < M.position b.1
  inOrder : (db.ledger.map (·.1)).Sublist (appliedOrder db.log)
  exact : ∀ name, torn name db.log = false → (name ∈ db.ledger.map (·.1) ↔ stands name db.log)
  grounded : ∀ earlier e later, db.log = earlier ++ e :: later → e.Grounded w M earlier

variable {M : Migrator} {db : Db} {w : World}

theorem faithful_empty (w : World) (M : Migrator) : Faithful w M {} :=
  ⟨by simp,by simp,by simp,by simp,by simp [stands],by simp⟩

theorem grounded_concat {log : List Event} {e : Event}
    (h : ∀ earlier e later, log = earlier ++ e :: later → e.Grounded w M earlier) (he : e.Grounded w M log) :
    ∀ earlier e' later, log ++ [e] = earlier ++ e' :: later → e'.Grounded w M earlier := by
  intro earlier e' later hlog
  rcases List.eq_nil_or_concat later with rfl | ⟨later',e'',rfl⟩
  · obtain ⟨rfl,hlast⟩ := List.append_inj' hlog rfl
    rw [← List.singleton_inj.1 hlast]
    exact he
  · rw [List.concat_eq_append,← List.cons_append,← List.append_assoc] at hlog
    exact h earlier e' later' (List.append_inj_left' hlog rfl)

theorem grounded_executed {log : List Event} (sqls : List String)
    (h : ∀ earlier e later, log = earlier ++ e :: later → e.Grounded w M earlier) :
    ∀ earlier e later, log ++ sqls.map .executed = earlier ++ e :: later → e.Grounded w M earlier := by
  induction sqls generalizing log with
  | nil => simpa using h
  | cons sql sqls ih =>
    have hone := ih (grounded_concat (e := .executed sql) h trivial)
    simpa using hone

/-- The same history and ledger, at another time. -/
structure SameRecord (db db' : Db) : Prop where
  ledger : db'.ledger = db.ledger
  log : ∃ sqls : List String, db'.log = db.log ++ sqls.map .executed

theorem SameRecord.refl (db : Db) : SameRecord db db := ⟨rfl,[],by simp⟩

theorem SameRecord.trans {db₁ db₂ db₃ : Db} (h : SameRecord db₁ db₂) (h' : SameRecord db₂ db₃) : SameRecord db₁ db₃ := by
  obtain ⟨sqls,hlog⟩ := h.log
  obtain ⟨sqls',hlog'⟩ := h'.log
  exact ⟨h'.ledger.trans h.ledger,sqls ++ sqls',by rw [hlog',hlog,List.map_append,List.append_assoc]⟩

theorem Faithful.of_same {db' : Db} (h : Faithful w M db) (hs : SameRecord db db') : Faithful w M db' := by
  obtain ⟨hledger,sqls,hlog⟩ := hs
  refine ⟨?_,?_,?_,?_,?_,?_⟩
  · rw [hledger]; exact h.declared
  · rw [hledger]; exact h.once
  · rw [hledger]; exact h.ordered
  · rw [hledger,hlog,appliedOrder_executed]; exact h.inOrder
  · intro name
    rw [hledger,hlog,torn_executed,stands_executed]
    exact h.exact name
  · rw [hlog]; exact grounded_executed sqls h.grounded

namespace Migrator

theorem execute_same {w : Driver} (name sql what : String) (db : Db) : SameRecord db (execute w name sql what db).2 := by
  have hst : SameRecord db (statement w sql db).2 := by
    rw [statement]
    cases w.faults db.clock with
    | none => exact ⟨rfl,[sql],rfl⟩
    | some e => exact ⟨rfl,[],by simp [Db.tick]⟩
  rw [execute]
  cases hs : statement w sql db with
  | mk r db' =>
    rw [hs] at hst
    cases r with
    | ok u => exact hst
    | error e => dsimp only; split_ifs <;> exact hst

theorem executeAll_same {w : Driver} (name what : String) (sqls : List String) (db : Db) :
    SameRecord db (executeAll w name what sqls db).2 := by
  induction sqls generalizing db with
  | nil => exact .refl db
  | cons sql sqls ih =>
    have hone := execute_same (w := w) name sql what db
    rw [executeAll]
    cases he : execute w name sql what db with
    | mk r db' =>
      rw [he] at hone
      cases r with
      | ok u => exact hone.trans (ih db')
      | error e => exact hone

/-- Under ordinary errors, statements that all succeed are all executed. -/
theorem executeAll_ok {name what : String} {sqls : List String} {db db' : Db} {u : Unit}
    (h : executeAll w name what sqls db = (.ok u,db')) : db'.log = db.log ++ sqls.map .executed := by
  induction sqls generalizing db with
  | nil => cases h; simp
  | cons sql sqls ih =>
    rw [executeAll,execute,statement] at h
    cases hf : w.faults db.clock with
    | none =>
      rw [hf] at h
      rw [ih h]
      simp [Db.note,Db.tick]
    | some e =>
      simp only [hf,w.ordinary hf] at h
      cases h

/-- A step that was applied, and then recorded or not. -/
theorem record_faithful (h : Faithful w M db) {name : String} (batch : ℕ) (hdeclared : name ∈ M.names)
    (hnew : name ∉ db.ledger.map (·.1)) (hground : (Event.applied name).Grounded w M db.log)
    (hlast : ∀ row ∈ db.ledger, row.2 < batch ∨ row.2 = batch ∧ M.position row.1 < M.position name) :
    Faithful w M (record w name batch (db.note (.applied name))).2 := by
  have horder : (db.ledger.map (·.1)).Sublist ((appliedOrder db.log).filter (· ≠ name)) := by
    have hfilter := h.inOrder.filter (· ≠ name)
    have hkept : (db.ledger.map (·.1)).filter (· ≠ name) = db.ledger.map (·.1) := by
      rw [List.filter_eq_self]
      intro n hn
      have hne : n ≠ name := fun hname => hnew (hname ▸ hn)
      simpa using hne
    rwa [hkept] at hfilter
  have hlog := grounded_concat h.grounded hground
  rw [record]
  cases w.faults (db.note (.applied name)).clock with
  | none =>
    refine ⟨?_,?_,?_,?_,?_,hlog⟩
    · intro row hrow
      rcases List.mem_append.1 hrow with hold | hlast
      · exact h.declared row hold
      · rw [List.mem_singleton.1 hlast]; exact hdeclared
    · simp only [Db.note,List.map_append,List.map_cons,List.map_nil]
      exact List.nodup_append.2 ⟨h.once,List.nodup_singleton _,fun a ha b hb => by
        rintro rfl
        exact hnew (List.mem_singleton.1 hb ▸ ha)⟩
    · refine List.pairwise_append.2 ⟨h.ordered,List.pairwise_singleton _ _,fun a ha b hb => ?_⟩
      rw [List.mem_singleton.1 hb]
      exact hlast a ha
    · simp only [Db.note,Db.tick,List.map_append,List.map_cons,List.map_nil]
      rw [appliedOrder_applied]
      exact horder.append_right [name]
    · intro n
      have hexact := h.exact n
      by_cases hn : name = n
      · subst hn
        simp [Db.note,Db.tick]
      · simpa [Db.note,Db.tick,hn,Ne.symm hn] using hexact
  | some e =>
    refine ⟨h.declared,h.once,h.ordered,?_,?_,grounded_concat hlog trivial⟩
    · simp only [Db.note,Db.tick]
      rw [appliedOrder_other _ rfl,appliedOrder_applied]
      exact horder.trans (List.sublist_append_left _ _)
    · intro n
      have hexact := h.exact n
      simp only [Db.note,Db.tick,torn_unrecorded,torn_applied,stands_unrecorded,stands_applied]
      by_cases hn : name = n
      · simp [hn]
      · simpa [hn] using hexact

/-- A step that was undone, and then forgotten or not. -/
theorem forget_faithful (h : Faithful w M db) {name : String} (hground : (Event.undone name).Grounded w M db.log) :
    Faithful w M (forget w name (db.note (.undone name))).2 := by
  have hlog := grounded_concat h.grounded hground
  rw [forget]
  cases w.faults (db.note (.undone name)).clock with
  | none =>
    have hsub : (db.ledger.filter (·.1 ≠ name)).Sublist db.ledger := List.filter_sublist
    refine ⟨fun row hrow => h.declared row (hsub.subset hrow),(hsub.map _).nodup h.once,h.ordered.sublist hsub,
      ?_,?_,hlog⟩
    · simp only [Db.note,Db.tick]
      rw [appliedOrder_other _ rfl]
      exact (hsub.map _).trans h.inOrder
    · intro n
      have hexact := h.exact n
      by_cases hn : name = n
      · subst hn
        simp [Db.note,Db.tick]
      · have hmem : n ∈ (db.ledger.filter (·.1 ≠ name)).map (·.1) ↔ n ∈ db.ledger.map (·.1) := by
          simp only [List.mem_map,List.mem_filter]
          constructor
          · rintro ⟨row,⟨hrow,-⟩,rfl⟩; exact ⟨row,hrow,rfl⟩
          · rintro ⟨row,hrow,rfl⟩; exact ⟨row,⟨hrow,by simpa using Ne.symm hn⟩,rfl⟩
        simp only [Db.note,Db.tick,hmem,torn_undone,stands_undone]
        simpa [hn] using hexact
  | some e =>
    refine ⟨h.declared,h.once,h.ordered,?_,?_,grounded_concat hlog trivial⟩
    · simp only [Db.note,Db.tick]
      rw [appliedOrder_other _ rfl,appliedOrder_other _ rfl]
      exact h.inOrder
    · intro n
      have hexact := h.exact n
      simp only [Db.note,Db.tick,torn_unforgotten,torn_undone,stands_unforgotten,stands_undone]
      by_cases hn : name = n
      · simp [hn]
      · simpa [hn] using hexact

/-! ## Running -/

theorem position_eq {pre post : List Migration} {m : Migration} (hM : M.migrations = pre ++ m :: post) :
    M.position m.name = pre.length := by
  have hdistinct := M.distinct
  rw [hM,List.map_append,List.map_cons] at hdistinct
  have hnot : m.name ∉ pre.map (·.name) := fun hmem =>
    (List.nodup_append.1 hdistinct).2.2 _ hmem _ List.mem_cons_self rfl
  have hidx : M.names.idxOf? m.name = some pre.length := by
    rw [names,hM,List.map_append,List.map_cons,List.idxOf?_eq_some_iff]
    refine ⟨by simp,by simp,fun j hj => ?_⟩
    have hj' : j < pre.length := hj
    rw [List.getElem_append_left (by simpa using hj')]
    have hmem : (pre.map (·.name)).get ⟨j,by simpa using hj'⟩ ∈ pre.map (·.name) := List.get_mem _ _
    simp only [bne_iff_ne,ne_eq] at *
    intro heq
    exact hnot (heq ▸ hmem)
  rw [position,hidx]
  rfl

theorem position_lt {pre post : List Migration} {m : Migration} (hM : M.migrations = pre ++ m :: post) {n : String}
    (hn : n ∈ pre.map (·.name)) : M.position n < M.position m.name := by
  obtain ⟨m',hm',rfl⟩ := List.mem_map.1 hn
  obtain ⟨before,after,rfl⟩ := List.append_of_mem hm'
  have hM' : M.migrations = before ++ m' :: (after ++ m :: post) := by simpa using hM
  rw [position_eq hM,position_eq hM']
  simp

/-- The rows of the ledger are those that were there, and those this run has added. -/
theorem runSteps_faithful {snapshot : List LedgerRow} {batch : ℕ} (hbatch : ∀ row ∈ snapshot, row.2 < batch)
    (pre ms : List Migration) (hM : M.migrations = pre ++ ms) (db : Db) (h : Faithful w M db)
    (hrows : ∀ row ∈ db.ledger, row ∈ snapshot ∨ row.2 = batch ∧ row.1 ∈ pre.map (·.name)) :
    Faithful w M (runSteps w snapshot batch ms db).2 := by
  induction ms generalizing pre db with
  | nil => exact h
  | cons m ms ih =>
    have hM' : M.migrations = (pre ++ [m]) ++ ms := by simpa using hM
    have hgrow : ∀ row ∈ db.ledger, row ∈ snapshot ∨ row.2 = batch ∧ row.1 ∈ (pre ++ [m]).map (·.name) := by
      intro row hrow
      exact (hrows row hrow).imp id fun hadded => ⟨hadded.1,by simp [hadded.2]⟩
    rw [runSteps]
    split_ifs with hskip
    · exact ih (pre ++ [m]) hM' db h hgrow
    have hsame := executeAll_same (w := w) m.name "migration" (m.up w.dialect) db
    cases hexec : executeAll w m.name "migration" (m.up w.dialect) db with
    | mk r db₁ =>
      rw [hexec] at hsame
      cases r with
      | error e => exact h.of_same hsame
      | ok u =>
        have hnew : m.name ∉ db₁.ledger.map (·.1) := by
          rw [hsame.ledger]
          intro hmem
          obtain ⟨row,hrow,hname⟩ := List.mem_map.1 hmem
          rcases hrows row hrow with hold | ⟨-,hadded⟩
          · exact hskip (List.any_eq_true.2 ⟨row,hold,by simpa using hname⟩)
          · have hlt := position_lt hM hadded
            rw [hname] at hlt
            exact lt_irrefl _ hlt
        have hlast : ∀ row ∈ db₁.ledger, row.2 < batch ∨ row.2 = batch ∧ M.position row.1 < M.position m.name := by
          rw [hsame.ledger]
          intro row hrow
          exact (hrows row hrow).imp (hbatch row) fun hadded => ⟨hadded.1,position_lt hM hadded.2⟩
        have hrecord := record_faithful (w := w) (h.of_same hsame) batch
          (List.mem_map.2 ⟨m,by rw [hM]; simp,rfl⟩) hnew
          ⟨m,by rw [hM]; simp,rfl,executeAll_ok hexec ▸ List.suffix_append _ _⟩ hlast
        dsimp only
        cases hrec : record w m.name batch (db₁.note (.applied m.name)) with
        | mk r db₂ =>
          rw [hrec] at hrecord
          cases r with
          | error e => exact hrecord
          | ok u =>
            have hledger : db₂.ledger = db₁.ledger ++ [(m.name,batch)] := by
              rw [record] at hrec
              cases hf : w.faults (db₁.note (.applied m.name)).clock with
              | none => rw [hf] at hrec; cases hrec; rfl
              | some e => rw [hf] at hrec; cases hrec
            have hrest := ih (pre ++ [m]) hM' db₂ hrecord (by
              rw [hledger,hsame.ledger]
              intro row hrow
              rcases List.mem_append.1 hrow with hold | hnew
              · exact hgrow row hold
              · rw [List.mem_singleton.1 hnew]; exact .inr ⟨rfl,by simp⟩)
            dsimp only
            cases hrun : runSteps w snapshot batch ms db₂ with
            | mk r db₃ =>
              rw [hrun] at hrest
              cases r with
              | error e => exact hrest
              | ok ran => exact hrest

theorem ensureLedger_same (db : Db) : SameRecord db (ensureLedger w db).2 := by
  rw [ensureLedger]
  cases w.faults db.clock with
  | none => exact ⟨rfl,[],by simp [Db.tick]⟩
  | some e => exact ⟨rfl,[],by simp [Db.tick]⟩

/-- Reading the ledger changes nothing, and gives its rows in some order. -/
theorem ledgerRows_spec {w : Driver} (db : Db) : (ledgerRows w db).2.ledger = db.ledger ∧ (ledgerRows w db).2.log = db.log ∧
    ∀ rows, (ledgerRows w db).1 = .ok rows → rows.Perm db.ledger := by
  rw [ledgerRows,ensureLedger]
  cases w.faults db.clock with
  | some e => exact ⟨rfl,rfl,nofun⟩
  | none =>
    dsimp only
    cases w.faults db.tick.clock with
    | some e => exact ⟨rfl,rfl,nofun⟩
    | none =>
      refine ⟨rfl,rfl,fun rows hrows => ?_⟩
      cases hrows
      exact w.scan_perm _ _

theorem ledgerRows_same (db : Db) : SameRecord db (ledgerRows w db).2 :=
  ⟨(ledgerRows_spec db).1,[],by simp [(ledgerRows_spec (w := w) db).2.1]⟩

theorem le_foldl_max (l : List ℕ) (b : ℕ) : b ≤ l.foldl max b ∧ ∀ a ∈ l, a ≤ l.foldl max b := by
  induction l generalizing b with
  | nil => simp
  | cons a l ih =>
    obtain ⟨hb,hl⟩ := ih (max b a)
    refine ⟨Nat.le_trans (Nat.le_max_left b a) hb,fun x hx => ?_⟩
    rcases List.mem_cons.1 hx with rfl | hx
    · exact Nat.le_trans (Nat.le_max_right b x) hb
    · exact hl x hx

theorem run_faithful (h : Faithful w M db) : Faithful w M (run w M db).2 := by
  have hensure := ensureLedger_same (w := w) db
  rw [run]
  cases he : ensureLedger w db with
  | mk r db₁ =>
    rw [he] at hensure
    cases r with
    | error e => exact h.of_same hensure
    | ok u =>
      have hspec := ledgerRows_spec (w := w) db₁
      have hread := hensure.trans (ledgerRows_same (w := w) db₁)
      dsimp only
      cases hl : ledgerRows w db₁ with
      | mk r db₂ =>
        rw [hl] at hread hspec
        cases r with
        | error e => exact h.of_same hread
        | ok ledger =>
          apply runSteps_faithful _ [] M.migrations rfl db₂ (h.of_same hread)
          · intro row hrow
            exact .inl ((hspec.2.2 ledger rfl).mem_iff.2 (hspec.1 ▸ hrow))
          · intro row hrow
            exact Nat.lt_succ_of_le ((le_foldl_max _ 0).2 row.2 (List.mem_map.2 ⟨row,hrow,rfl⟩))

/-! ## Rolling back -/

/-- The row is of one of the highest batches: fewer than that many are above it. -/
def inRange (ledger : List LedgerRow) (batches : ℕ) (row : LedgerRow) : Bool :=
  ((ledger.map (·.2)).dedup.filter (row.2 < ·)).length < batches

theorem inRange_perm {rows ledger : List LedgerRow} (h : rows.Perm ledger) (batches : ℕ) (row : LedgerRow) :
    inRange rows batches row = inRange ledger batches row := by
  rw [inRange,inRange,((h.map _).dedup.filter _).length_eq]

/-- In a falling list, the first few reach down to an element just when fewer are above it. -/
theorem exists_take_le_iff {l : List ℕ} (hl : l.Pairwise (· > ·)) {b : ℕ} (hb : b ∈ l) (k : ℕ) :
    (∃ x ∈ l.take k, x ≤ b) ↔ (l.filter (b < ·)).length < k := by
  induction l generalizing k with
  | nil => cases hb
  | cons a l ih =>
    obtain ⟨hhead,htail⟩ := List.pairwise_cons.1 hl
    cases k with
    | zero => simp
    | succ k =>
      by_cases hab : b < a
      · have hmem : b ∈ l := by
          rcases List.mem_cons.1 hb with rfl | hmem
          · omega
          · exact hmem
        rw [List.filter_cons_of_pos (by simpa using hab),List.length_cons,Nat.succ_lt_succ_iff,← ih htail hmem]
        simp [hab]
      · have hnone : (a :: l).filter (b < ·) = [] := by
          rw [List.filter_eq_nil_iff]
          intro x hx
          rcases List.mem_cons.1 hx with rfl | hx
          · simpa using hab
          · have := hhead x hx
            simp only [decide_eq_true_eq]
            omega
        rw [hnone]
        simp only [List.take_succ_cons,List.length_nil,Nat.zero_lt_succ,iff_true]
        exact ⟨a,List.mem_cons_self,by omega⟩

theorem cutoff_le_iff {rows : List LedgerRow} {row : LedgerRow} (hrow : row ∈ rows) (k : ℕ) (hk : k ≠ 0) :
    cutoff rows k ≤ row.2 ↔ inRange rows k row := by
  let numbers := ((rows.map (·.2)).insertionSort (· ≤ ·)).dedup
  have hperm : numbers.Perm (rows.map (·.2)).dedup := (List.perm_insertionSort _ _).dedup
  have hsorted : numbers.reverse.Pairwise (· > ·) := by
    rw [List.pairwise_reverse]
    have hle := (List.pairwise_insertionSort (· ≤ ·) (rows.map (·.2))).sublist (List.dedup_sublist _)
    exact (hle.and (List.nodup_dedup _)).imp fun h => lt_of_le_of_ne h.1 h.2
  have hmem : row.2 ∈ numbers.reverse := by
    rw [List.mem_reverse,hperm.mem_iff,List.mem_dedup]
    exact List.mem_map.2 ⟨row,hrow,rfl⟩
  have hlength : (numbers.reverse.filter (row.2 < ·)).length = ((rows.map (·.2)).dedup.filter (row.2 < ·)).length :=
    (((List.reverse_perm _).trans hperm).filter _).length_eq
  have hiff := exists_take_le_iff hsorted hmem k
  rw [hlength] at hiff
  have hne : numbers.reverse.take k ≠ [] := by
    rw [ne_eq,List.take_eq_nil_iff]
    rintro (h | h)
    · exact hk h
    · rw [h] at hmem; cases hmem
  obtain ⟨low,hlow⟩ := Option.ne_none_iff_exists'.1 (mt List.min?_eq_none_iff.1 hne)
  have hcut : cutoff rows k = low := by
    rw [cutoff]
    exact congrArg (·.getD (2 ^ 63 - 1)) hlow
  rw [hcut,inRange,decide_eq_true_eq,← hiff]
  obtain ⟨hin,hmin⟩ := List.min?_eq_some_iff.1 hlow
  exact ⟨fun h => ⟨low,hin,h⟩,fun ⟨x,hx,hle⟩ => Nat.le_trans (hmin x hx) hle⟩

theorem undoneBefore_iff {a b : LedgerRow} :
    M.undoneBefore a b ↔ b.2 < a.2 ∨ a.2 = b.2 ∧ M.position b.1 ≤ M.position a.1 := by
  simp [undoneBefore]

/-- The targets are the rows in range, highest batch and latest declaration first. -/
theorem rollbackTargets_spec (M : Migrator) (k : ℕ) (db : Db) :
    (rollbackTargets w M k db).2.ledger = db.ledger ∧ (rollbackTargets w M k db).2.log = db.log ∧
    ∀ targets, (rollbackTargets w M k db).1 = .ok targets → ∃ rows : List LedgerRow, targets = rows.map (·.1) ∧
      rows.Perm (db.ledger.filter (inRange db.ledger k)) ∧ rows.Pairwise (M.undoneBefore · ·) := by
  rw [rollbackTargets]
  split_ifs with hk
  · refine ⟨rfl,rfl,fun targets h => ?_⟩
    cases h
    exact ⟨[],rfl,by simp [inRange,hk],List.Pairwise.nil⟩
  have hspec := ledgerRows_spec (w := w) db
  cases hread : ledgerRows w db with
  | mk r db' =>
    rw [hread] at hspec
    cases r with
    | error e => exact ⟨hspec.1,hspec.2.1,nofun⟩
    | ok rows =>
      have hperm := hspec.2.2 rows rfl
      dsimp only
      split_ifs with hempty
      · refine ⟨hspec.1,hspec.2.1,fun targets h => ?_⟩
        cases h
        have hledger : db.ledger = [] := by
          rw [List.isEmpty_iff.1 hempty] at hperm
          exact hperm.nil_eq.symm
        exact ⟨[],rfl,by rw [hledger]; exact .refl _,List.Pairwise.nil⟩
      · refine ⟨hspec.1,hspec.2.1,fun targets h => ?_⟩
        cases h
        refine ⟨_,rfl,(List.perm_insertionSort _ _).trans ?_,?_⟩
        · have hkept : rows.filter (cutoff rows k ≤ ·.2) = rows.filter (inRange db.ledger k) := by
            apply List.filter_congr
            intro row hrow
            rw [← inRange_perm hperm]
            exact Bool.eq_iff_iff.2 (by simpa using cutoff_le_iff hrow k hk)
          rw [hkept]
          exact hperm.filter _
        · have : Std.Total (fun a b => M.undoneBefore a b = true) := ⟨fun a b => by
            simp only [undoneBefore_iff]; omega⟩
          have : IsTrans _ (fun a b => M.undoneBefore a b = true) := ⟨fun a b c => by
            simp only [undoneBefore_iff]; omega⟩
          exact List.pairwise_insertionSort _ _

theorem position_inj {a b : String} (ha : a ∈ M.names) (hb : b ∈ M.names) (h : M.position a = M.position b) : a = b := by
  obtain ⟨m,hm,rfl⟩ := List.mem_map.1 ha
  obtain ⟨m',hm',rfl⟩ := List.mem_map.1 hb
  obtain ⟨pre,post,hM⟩ := List.append_of_mem hm
  obtain ⟨pre',post',hM'⟩ := List.append_of_mem hm'
  rw [position_eq hM,position_eq hM'] at h
  have htail := (List.append_inj (hM.symm.trans hM') h).2
  rw [(List.cons.inj htail).1]

/-- In a faithful ledger the order of batch and declaration is that of application, reversed. -/
theorem targets_eq (h : Faithful w M db) {k : ℕ} {rows : List LedgerRow}
    (hperm : rows.Perm (db.ledger.filter (inRange db.ledger k))) (hsorted : rows.Pairwise (M.undoneBefore · ·)) :
    rows = (db.ledger.filter (inRange db.ledger k)).reverse := by
  have hmem : ∀ row ∈ rows, row ∈ db.ledger := fun row hrow => (List.mem_filter.1 (hperm.mem_iff.1 hrow)).1
  refine List.Perm.eq_of_pairwise ?_ hsorted ?_ (hperm.trans (List.reverse_perm _).symm)
  · intro a b ha hb hab hba
    have hb' := (List.mem_filter.1 (List.mem_reverse.1 hb)).1
    rw [undoneBefore_iff] at hab hba
    have hname := position_inj (h.declared a (hmem a ha)) (h.declared b hb') (by omega)
    exact Prod.ext hname (by omega)
  · rw [List.pairwise_reverse]
    refine (h.ordered.sublist List.filter_sublist).imp fun hab => ?_
    rw [undoneBefore_iff]
    omega

/-- Undoing steps one after the other undoes a first part of them, all if nothing fails. -/
theorem rollbackSteps_spec (targets : List String) (db : Db) (h : Faithful w M db) :
    Faithful w M (rollbackSteps w M targets db).2 ∧
    ∃ undone, undone <+: targets ∧
      (rollbackSteps w M targets db).2.log.filterMap Event.undoneName = db.log.filterMap Event.undoneName ++ undone ∧
      ∀ rolledBack, (rollbackSteps w M targets db).1 = .ok rolledBack → rolledBack = targets ∧ undone = targets ∧
        (rollbackSteps w M targets db).2.ledger = db.ledger.filter (·.1 ∉ targets) := by
  induction targets generalizing db with
  | nil => exact ⟨h,[],List.nil_prefix,by simp [rollbackSteps],fun _ hr => by cases hr; simp [rollbackSteps]⟩
  | cons name rest ih =>
    rw [rollbackSteps]
    cases hdown : undoing w M name with
    | error e => exact ⟨h,[],List.nil_prefix,by simp,nofun⟩
    | ok down =>
      have hsame := executeAll_same (w := w) name "rollback" down db
      dsimp only
      cases hexec : executeAll w name "rollback" down db with
      | mk r db₁ =>
        rw [hexec] at hsame
        obtain ⟨sqls,hlog⟩ := hsame.log
        have hundone : db₁.log.filterMap Event.undoneName = db.log.filterMap Event.undoneName := by
          rw [hlog,List.filterMap_append,List.filterMap_map]
          simp [Function.comp_def,Event.undoneName]
        cases r with
        | error e => exact ⟨h.of_same hsame,[],List.nil_prefix,by simpa using hundone,nofun⟩
        | ok u =>
          have hground : (Event.undone name).Grounded w M db₁.log :=
            ⟨down,hdown,executeAll_ok hexec ▸ List.suffix_append _ _⟩
          have hforget := forget_faithful (h.of_same hsame) hground
          have hnote : (db₁.note (.undone name)).log.filterMap Event.undoneName =
              db.log.filterMap Event.undoneName ++ [name] := by
            simp [Db.note,Event.undoneName,hundone]
          dsimp only
          cases hf : w.faults (db₁.note (.undone name)).clock with
          | some e =>
            have hfailed : forget w name (db₁.note (.undone name)) =
                (.error e,(db₁.note (.undone name)).tick.note (.unforgotten name)) := by rw [forget,hf]
            rw [hfailed] at hforget ⊢
            refine ⟨hforget,[name],by simp,?_,nofun⟩
            have hnone : [Event.unforgotten name].filterMap Event.undoneName = [] := rfl
            exact List.filterMap_append.trans (by rw [hnone,List.append_nil]; exact hnote)
          | none =>
            have hforgot : forget w name (db₁.note (.undone name)) = (.ok (),{ (db₁.note (.undone name)).tick with
                ledger := (db₁.note (.undone name)).ledger.filter (·.1 ≠ name) }) := by rw [forget,hf]
            rw [hforgot] at hforget ⊢
            obtain ⟨hfaithful,undone,hpre,hlog',hok⟩ := ih _ hforget
            have hlog₂ := hlog'.trans (congrArg (· ++ undone) hnote)
            dsimp only
            cases hrest : rollbackSteps w M rest { (db₁.note (.undone name)).tick with
                ledger := (db₁.note (.undone name)).ledger.filter (·.1 ≠ name) } with
            | mk r db₃ =>
              rw [hrest] at hfaithful hlog₂ hok
              cases r with
              | error e =>
                exact ⟨hfaithful,name :: undone,List.cons_prefix_cons.2 ⟨rfl,hpre⟩,by simpa using hlog₂,nofun⟩
              | ok rolledBack =>
                obtain ⟨hrolled,hall,hledger⟩ := hok rolledBack rfl
                refine ⟨hfaithful,name :: undone,List.cons_prefix_cons.2 ⟨rfl,hpre⟩,by simpa using hlog₂,?_⟩
                intro _ hr
                cases hr
                refine ⟨by rw [hrolled],by rw [hall],hledger.trans ?_⟩
                have hledger₁ : (db₁.note (.undone name)).ledger = db.ledger := hsame.ledger
                rw [hledger₁,List.filter_filter]
                apply List.filter_congr
                intro row _
                rw [Bool.eq_iff_iff]
                simp [not_or,and_comm]

theorem checkAll_error {targets : List String} {name : String} (hname : name ∈ targets)
    (h : ∀ sqls, undoing w M name ≠ .ok sqls) : ∃ e, checkAll w M targets = .error e := by
  induction targets with
  | nil => cases hname
  | cons target rest ih =>
    rw [checkAll]
    cases hu : undoing w M target with
    | error e => exact ⟨e,rfl⟩
    | ok sqls =>
      rcases List.mem_cons.1 hname with rfl | hrest
      · exact absurd hu (h sqls)
      · exact ih hrest

/-- A rollback that cannot undo every step in range leaves the database as it was. -/
theorem rollback_refuses (M : Migrator) (k : ℕ) (db : Db) {row : LedgerRow} (hrow : row ∈ db.ledger)
    (hrange : inRange db.ledger k row) (hrefused : ∀ sqls, undoing w M row.1 ≠ .ok sqls) :
    (∃ e, (rollback w M k db).1 = .error e) ∧ (rollback w M k db).2.ledger = db.ledger ∧
      (rollback w M k db).2.log = db.log := by
  obtain ⟨hledger,hlog,htargets⟩ := rollbackTargets_spec (w := w) M k db
  rw [rollback]
  cases ht : rollbackTargets w M k db with
  | mk r db' =>
    rw [ht] at hledger hlog htargets
    cases r with
    | error e => exact ⟨⟨e,rfl⟩,hledger,hlog⟩
    | ok targets =>
      obtain ⟨rows,rfl,hperm,-⟩ := htargets targets rfl
      have hmem : row.1 ∈ rows.map (·.1) :=
        List.mem_map.2 ⟨row,hperm.mem_iff.2 (List.mem_filter.2 ⟨hrow,hrange⟩),rfl⟩
      obtain ⟨e,he⟩ := checkAll_error hmem hrefused
      have hne : (rows.map (·.1)).isEmpty = false := List.isEmpty_eq_false_iff.2 (List.ne_nil_of_mem hmem)
      simp only [hne,he]
      exact ⟨⟨e,rfl⟩,hledger,hlog⟩

/-! ## Histories -/

/-- The steps of the highest batches, the one applied last first. -/
def lastBatches (db : Db) (k : ℕ) : List String :=
  ((appliedOrder db.log).filter fun name => db.ledger.any fun row => row.1 = name && inRange db.ledger k row).reverse

theorem filter_eq_of_sublist {l order : List String} {p : String → Bool} (hl : l.Sublist order) (hnodup : order.Nodup)
    (hp : ∀ name, p name ↔ name ∈ l) : order.filter p = l := by
  have hsub : l.Sublist (order.filter p) := by
    have hfilter := hl.filter p
    rwa [List.filter_eq_self.2 fun name hname => (hp name).2 hname] at hfilter
  refine (hsub.eq_of_length_le ?_).symm
  exact (List.subperm_of_subset (hnodup.filter p) fun name hname => (hp name).1 (List.mem_filter.1 hname).2).length_le

theorem lastBatches_eq (h : Faithful w M db) (k : ℕ) :
    lastBatches db k = ((db.ledger.filter (inRange db.ledger k)).map (·.1)).reverse := by
  rw [lastBatches,filter_eq_of_sublist ((List.filter_sublist.map _).trans h.inOrder) (List.nodup_dedup _)]
  intro name
  simp only [List.any_eq_true,List.mem_map,List.mem_filter,Bool.and_eq_true,decide_eq_true_eq]
  constructor
  · rintro ⟨row,hrow,hname,hrange⟩; exact ⟨row,⟨hrow,hrange⟩,hname⟩
  · rintro ⟨row,⟨hrow,hrange⟩,hname⟩; exact ⟨row,hrow,hname,hrange⟩

theorem filter_lastBatches (h : Faithful w M db) (k : ℕ) :
    db.ledger.filter (·.1 ∉ lastBatches db k) = db.ledger.filter (!inRange db.ledger k ·) := by
  apply List.filter_congr
  intro row hrow
  have hmem : row.1 ∈ lastBatches db k ↔ inRange db.ledger k row := by
    rw [lastBatches_eq h,List.mem_reverse]
    constructor
    · intro hname
      obtain ⟨row',hrow',heq⟩ := List.mem_map.1 hname
      obtain ⟨hin,hrange⟩ := List.mem_filter.1 hrow'
      rwa [List.inj_on_of_nodup_map h.once hin hrow heq] at hrange
    · intro hrange
      exact List.mem_map.2 ⟨row,List.mem_filter.2 ⟨hrow,hrange⟩,rfl⟩
  rw [Bool.eq_iff_iff]
  simp [hmem]

/-- A rollback undoes the last batches from the last application back, as far as it comes. -/
theorem rollback_spec (h : Faithful w M db) (k : ℕ) : Faithful w M (rollback w M k db).2 ∧
    ∃ undone, undone <+: lastBatches db k ∧
      (rollback w M k db).2.log.filterMap Event.undoneName = db.log.filterMap Event.undoneName ++ undone ∧
      ∀ rolledBack, (rollback w M k db).1 = .ok rolledBack → rolledBack = lastBatches db k ∧ undone = lastBatches db k ∧
        (rollback w M k db).2.ledger = db.ledger.filter (!inRange db.ledger k ·) := by
  obtain ⟨hledger,hlog,htargets⟩ := rollbackTargets_spec (w := w) M k db
  rw [rollback]
  cases ht : rollbackTargets w M k db with
  | mk r db' =>
    rw [ht] at hledger hlog htargets
    have hfaithful : Faithful w M db' := h.of_same ⟨hledger,[],by simpa using hlog⟩
    have hnothing : db'.log.filterMap Event.undoneName = db.log.filterMap Event.undoneName ++ [] := by
      rw [List.append_nil]
      exact congrArg _ hlog
    cases r with
    | error e => exact ⟨hfaithful,[],List.nil_prefix,hnothing,nofun⟩
    | ok targets =>
      obtain ⟨rows,rfl,hperm,hsorted⟩ := htargets targets rfl
      have hlast : rows.map (·.1) = lastBatches db k := by
        rw [lastBatches_eq h,targets_eq h hperm hsorted,List.map_reverse]
      have hkept := filter_lastBatches h k
      simp only [hlast]
      split_ifs with hempty
      · have hnil := List.isEmpty_iff.1 hempty
        refine ⟨hfaithful,[],List.nil_prefix,hnothing,fun _ hr => ?_⟩
        cases hr
        refine ⟨hnil.symm,hnil.symm,hledger.trans ?_⟩
        rw [← hkept,hnil]
        simp
      · cases hc : checkAll w M (lastBatches db k) with
        | error e => exact ⟨hfaithful,[],List.nil_prefix,hnothing,nofun⟩
        | ok u =>
          obtain ⟨hafter,undone,hpre,hundone,hok⟩ := rollbackSteps_spec (lastBatches db k) db' hfaithful
          refine ⟨hafter,undone,hpre,hundone.trans (congrArg (·.filterMap Event.undoneName ++ undone) hlog),?_⟩
          intro rolledBack hr
          obtain ⟨hrolled,hall,hrows⟩ := hok rolledBack hr
          exact ⟨hrolled,hall,hrows.trans (by rw [← hkept]; exact congrArg _ hledger)⟩

/-- One call of a history. -/
inductive Call where
  | run
  | rollback (batches : ℕ)

def perform (w : World) (M : Migrator) (db : Db) : Call → Db
  | .run => (run w M db).2
  | .rollback batches => (rollback w M batches db).2

theorem perform_faithful (h : Faithful w M db) (call : Call) : Faithful w M (perform w M db call) := by
  cases call with
  | run => exact run_faithful h
  | rollback batches => exact (rollback_spec h batches).1

theorem foldl_faithful (calls : List Call) (h : Faithful w M db) : Faithful w M (calls.foldl (perform w M) db) := by
  induction calls generalizing db with
  | nil => exact h
  | cons call calls ih => exact ih (perform_faithful h call)

/-- After any history of calls, whichever statements failed, the ledger is faithful and the
next rollback undoes the last batches. On any database, a rollback that refuses a step leaves
everything as it was. -/
theorem migrations_tracked (w : World) (M : Migrator) :
    (∀ calls : List Call, Faithful w M (calls.foldl (perform w M) {}) ∧
      ∀ k, ∃ undone, undone <+: lastBatches (calls.foldl (perform w M) {}) k ∧
        (rollback w M k (calls.foldl (perform w M) {})).2.log.filterMap Event.undoneName =
          (calls.foldl (perform w M) {}).log.filterMap Event.undoneName ++ undone ∧
        ∀ rolledBack, (rollback w M k (calls.foldl (perform w M) {})).1 = .ok rolledBack →
          rolledBack = lastBatches (calls.foldl (perform w M) {}) k ∧
          undone = lastBatches (calls.foldl (perform w M) {}) k ∧
          (rollback w M k (calls.foldl (perform w M) {})).2.ledger = (calls.foldl (perform w M) {}).ledger.filter
            (!inRange (calls.foldl (perform w M) {}).ledger k ·)) ∧
    ∀ (db : Db) (k : ℕ), ∀ row ∈ db.ledger, inRange db.ledger k row → (∀ sqls, undoing w M row.1 ≠ .ok sqls) →
      (∃ e, (rollback w M k db).1 = .error e) ∧ (rollback w M k db).2.ledger = db.ledger ∧
        (rollback w M k db).2.log = db.log := by
  refine ⟨fun calls => ?_,fun db k row hrow hrange hrefused => rollback_refuses M k db hrow hrange hrefused⟩
  have hfaithful := foldl_faithful calls (faithful_empty w M)
  exact ⟨hfaithful,fun k => (rollback_spec hfaithful k).2⟩

/-- A connection that is lost at the fifth statement. -/
def lostInsert : World where
  dialect := .sqlite
  faults n := if n = 4 then some (.internal "connection lost") else none
  scan _ rows := rows
  ordinary {n e} h := by
    split_ifs at h
    cases h
    decide
  scan_perm _ _ := .refl _

def oneStep : Migrator where
  migrations := [⟨"0001_create_users",fun _ => ["CREATE TABLE users (id INTEGER)"],fun _ => .statements ["DROP TABLE users"]⟩]
  distinct := by simp

/-- The fifth statement of the first run writes the ledger: the step stands applied, and the
ledger does not hold it. -/
theorem applied_step_unrecorded : ¬ ∀ name, name ∈ (perform lostInsert oneStep {} .run).ledger.map (·.1) ↔
    stands name (perform lostInsert oneStep {} .run).log := by
  intro h
  have hstands : stands "0001_create_users" (perform lostInsert oneStep {} .run).log = true := by decide
  exact absurd ((h "0001_create_users").2 hstands) (by decide)

end Migrator

end Rainier.Database
