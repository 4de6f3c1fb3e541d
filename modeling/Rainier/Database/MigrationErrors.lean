import Rainier.Database.MigrationHistory

/-! # Errors that are taken for an existing index

A statement that fails is passed over when the text of its error reads like MySQL's for an
index that is already there. Any other error with such a text is passed over too, and the step
is recorded.
-/
namespace Rainier.Database

/-- The errors of statements are rendered texts, whose words are looked for in lower case. -/
def lowered (e : Error) : List Char := e.message.toList.map Char.toLower

namespace Migrator
variable {w : Driver} {ledger : List LedgerRow} {batch : ℕ}

/-- The steps and the database a run comes to, past steps that were recorded before or are now. -/
inductive Reaches (w : Driver) (ledger : List LedgerRow) (batch : ℕ) : List Migration → Db → List Migration → Db → Prop
  | here (ms : List Migration) (db : Db) : Reaches w ledger batch ms db ms db
  | skip {m : Migration} {ms ms' : List Migration} {db db' : Db} (hrecorded : ledger.any (·.1 = m.name) = true)
      (h : Reaches w ledger batch ms db ms' db') : Reaches w ledger batch (m :: ms) db ms' db'
  | next {m : Migration} {ms ms' : List Migration} {db done noted db' : Db} (hpending : ledger.any (·.1 = m.name) = false)
      (hdone : executeAll w m.name "migration" (m.up w.dialect) db = (.ok (),done))
      (hnoted : record w m.name batch (done.note (.applied m.name)) = (.ok (),noted))
      (h : Reaches w ledger batch ms noted ms' db') : Reaches w ledger batch (m :: ms) db ms' db'

/-- In a run, a statement of a step is reached and fails with an error. -/
inductive FailsIn (w : Driver) (M : Migrator) (db : Db) (m : Migration) (n : ℕ) (e : Error) : Prop
  | reached {created read start failing : Db} {rows : List LedgerRow} {rest : List Migration} {before after : List String} {sql : String}
      (hcreated : ensureLedger w db = (.ok (),created)) (hrows : ledgerRows w created = (.ok rows,read))
      (hreached : Reaches w rows ((rows.map (·.2)).foldl max 0 + 1) M.migrations read (m :: rest) start)
      (hpending : rows.any (·.1 = m.name) = false) (hstatements : m.up w.dialect = before ++ sql :: after)
      (hbefore : executeAll w m.name "migration" before start = (.ok (),failing)) (hnumber : failing.clock = n)
      (hfault : w.faults n = some e) : FailsIn w M db m n e

/-- Wherever a statement fails with the error for another reason than that its index exists, the run
returns an error and the step is not recorded. -/
def Refused (e : Error) : Prop :=
  ∀ (w : Driver) (indexExists : ℕ → Bool) (M : Migrator) (db : Db) (m : Migration) (n : ℕ),
    FailsIn w M db m n e → indexExists n = false →
      (∃ e', (run w M db).1 = .error e') ∧ m.name ∉ (run w M db).2.ledger.map (·.1)

/-! ## Where a run stops -/

theorem Reaches.suffix {ms ms' : List Migration} {db db' : Db} (h : Reaches w ledger batch ms db ms' db') : ms' <:+ ms := by
  induction h with
  | here ms db => exact List.suffix_refl ms
  | skip hrecorded h ih => exact ih.trans (List.suffix_cons _ _)
  | next hpending hdone hnoted h ih => exact ih.trans (List.suffix_cons _ _)

/-- A run that stops later stops. -/
theorem Reaches.run_error {ms ms' : List Migration} {db db' : Db} (h : Reaches w ledger batch ms db ms' db') {e : Error}
    {stopped : Db} (hstop : runSteps w ledger batch ms' db' = (.error e,stopped)) :
    runSteps w ledger batch ms db = (.error e,stopped) := by
  induction h with
  | here ms db => exact hstop
  | skip hrecorded h ih => rw [runSteps,if_pos hrecorded,ih hstop]
  | next hpending hdone hnoted h ih =>
    rw [runSteps,if_neg (by rw [hpending]; exact Bool.false_ne_true)]
    simp only [hdone,hnoted,ih hstop]

theorem record_ledger {name : String} {db db' : Db} (h : record w name batch db = (.ok (),db')) :
    db'.ledger = db.ledger ++ [(name,batch)] := by
  rw [record] at h
  split at h <;> cases h
  rfl

/-- A step that comes later has not been recorded on the way. -/
theorem Reaches.not_recorded {ms rest : List Migration} {m : Migration} {db db' : Db}
    (h : Reaches w ledger batch ms db (m :: rest) db') (hnodup : (ms.map (·.name)).Nodup)
    (hnew : m.name ∉ db.ledger.map (·.1)) : m.name ∉ db'.ledger.map (·.1) := by
  generalize hsteps : m :: rest = steps at h
  induction h with
  | here ms db => exact hnew
  | skip hrecorded h ih => exact ih (List.nodup_cons.1 hnodup).2 hnew hsteps
  | @next first ms steps db done noted db' hpending hdone hnoted h ih =>
    obtain ⟨hfirst,hrest⟩ := List.nodup_cons.1 hnodup
    refine ih hrest ?_ hsteps
    have hne : m.name ≠ first.name := by
      intro heq
      have hmem : m ∈ ms := h.suffix.subset (hsteps ▸ List.mem_cons_self)
      exact hfirst (List.mem_map.2 ⟨m,hmem,heq⟩)
    have hsame := executeAll_same (w := w) first.name "migration" (first.up w.dialect) db
    rw [hdone] at hsame
    have hledger : done.ledger = db.ledger := hsame.ledger
    rw [record_ledger hnoted]
    simp only [Db.note,hledger,List.map_append,List.mem_append,List.map_cons,List.map_nil,List.mem_singleton,not_or]
    exact ⟨hnew,hne⟩

theorem executeAll_append (name what : String) (before after : List String) {db db' : Db}
    (h : executeAll w name what before db = (.ok (),db')) :
    executeAll w name what (before ++ after) db = executeAll w name what after db' := by
  induction before generalizing db with
  | nil =>
    rw [executeAll] at h
    cases h
    rfl
  | cons sql before ih =>
    rw [executeAll] at h
    rw [List.cons_append,executeAll]
    cases hfirst : execute w name sql what db with
    | mk result next =>
      rw [hfirst] at h
      cases result with
      | ok u => exact ih h
      | error e => cases h

theorem executeAll_refused (name what sql : String) (after : List String) {db : Db} {e : Error} (hfault : w.faults db.clock = some e)
    (he : isDuplicateIndex e = false) : ∃ e', executeAll w name what (sql :: after) db = (.error e',db.tick) := by
  rw [executeAll,execute,statement,hfault]
  simp only [he]
  exact ⟨_,rfl⟩

/-- A run that comes to a statement that is refused stops there, and does not record the step. -/
theorem refused_of_ordinary {e : Error} (he : isDuplicateIndex e = false) : Refused e := by
  rintro w indexExists M db m n ⟨hcreated,hrows,hreached,hpending,hstatements,hbefore,rfl,hfault⟩ -
  rename_i created read start failing rows rest before after sql
  obtain ⟨e',hrefused⟩ := executeAll_refused m.name "migration" sql after hfault he
  have hall : executeAll w m.name "migration" (m.up w.dialect) start = (.error e',failing.tick) := by
    rw [hstatements,executeAll_append m.name "migration" before (sql :: after) hbefore,hrefused]
  have hstop : runSteps w rows ((rows.map (·.2)).foldl max 0 + 1) (m :: rest) start = (.error e',failing.tick) := by
    rw [runSteps,if_neg (by rw [hpending]; exact Bool.false_ne_true)]
    simp only [hall]
  have hrun : run w M db = (.error e',failing.tick) := by
    rw [run]
    simp only [hcreated,hrows,hreached.run_error hstop]
  refine ⟨⟨e',by rw [hrun]⟩,?_⟩
  rw [hrun]
  -- The rows that were read are those of the ledger, and the step is not among them.
  have hledger : rows.Perm read.ledger := by
    obtain ⟨hsame,-,hperm⟩ := ledgerRows_spec (w := w) created
    rw [hrows] at hsame hperm
    rw [show read.ledger = created.ledger from hsame]
    exact hperm rows rfl
  have hnew : m.name ∉ read.ledger.map (·.1) := by
    intro hmem
    obtain ⟨row,hrow,hname⟩ := List.mem_map.1 hmem
    have hany : rows.any (·.1 = m.name) = true := List.any_eq_true.2 ⟨row,hledger.mem_iff.2 hrow,decide_eq_true hname⟩
    rw [hpending] at hany
    cases hany
  have hsame := executeAll_same (w := w) m.name "migration" (m.up w.dialect) start
  rw [hall] at hsame
  have hkept : failing.tick.ledger = start.ledger := hsame.ledger
  rw [hkept]
  exact hreached.not_recorded M.distinct hnew

/-! ## One run that is enough -/

/-- Only the fourth statement fails, which is the first of a step. -/
def failsFourth (e : Error) : Driver where
  dialect := .mySql
  faults n := if n = 3 then some e else none
  scan _ rows := rows
  scan_perm _ _ := .refl _

def oneStatement (name sql : String) : Migrator where
  migrations := [⟨name,fun _ => [sql],fun _ => .irreversible "it is not undone"⟩]
  distinct := by simp

theorem run_oneStatement {e : Error} (he : isDuplicateIndex e = true) (name sql : String) :
    run (failsFourth e) (oneStatement name sql) {} = (.ok [name],⟨5,[(name,1)],[.applied name]⟩) := by
  simp [run,ensureLedger,ledgerRows,runSteps,executeAll,execute,statement,record,failsFourth,oneStatement,Db.tick,Db.note,he]

theorem failsIn_oneStatement (e : Error) (name sql : String) :
    FailsIn (failsFourth e) (oneStatement name sql) {} ⟨name,fun _ => [sql],fun _ => .irreversible "it is not undone"⟩ 3 e := by
  have hcreated : ensureLedger (failsFourth e) {} = (.ok (),⟨1,[],[]⟩) := rfl
  have hrows : ledgerRows (failsFourth e) ⟨1,[],[]⟩ = (.ok [],⟨3,[],[]⟩) := rfl
  have hbefore : executeAll (failsFourth e) name "migration" [] ⟨3,[],[]⟩ = (.ok (),⟨3,[],[]⟩) := rfl
  exact .reached hcreated hrows (.here _ _) rfl rfl hbefore rfl rfl

theorem isDuplicateIndex_iff (e : Error) :
    isDuplicateIndex e = false ↔ ¬ "duplicate key name".toList <:+: lowered e ∧ ¬ "1061".toList <:+: lowered e := by
  have hnone (a b cs : List Char) : (decide (a <:+: cs) || decide (b <:+: cs)) = false ↔ ¬ a <:+: cs ∧ ¬ b <:+: cs := by
    simp
  exact hnone _ _ _

/-- An error is refused wherever it happens exactly when its text has neither of the words looked for. -/
theorem refused_iff (e : Error) :
    Refused e ↔ ¬ "duplicate key name".toList <:+: lowered e ∧ ¬ "1061".toList <:+: lowered e := by
  rw [← isDuplicateIndex_iff]
  constructor
  · intro hrefused
    by_contra hne
    have he : isDuplicateIndex e = true := Bool.eq_true_of_not_eq_false hne
    obtain ⟨⟨e',hstopped⟩,-⟩ := hrefused (failsFourth e) (fun _ => false) (oneStatement "step" "sql") {} _ 3
      (failsIn_oneStatement e "step" "sql") rfl
    rw [run_oneStatement he] at hstopped
    cases hstopped
  · exact refused_of_ordinary

/-- A missing table with the number in its name. -/
def missingTable : Error := .internal "error returned from database: 1146 (42S02): Table 'shop.orders_1061' doesn't exist"

/-- The step that was to alter the table is recorded. -/
theorem missing_table_recorded :
    run (failsFourth missingTable) (oneStatement "0002_orders" "ALTER TABLE orders_1061 ADD COLUMN note TEXT") {} =
      (.ok ["0002_orders"],⟨5,[("0002_orders",1)],[.applied "0002_orders"]⟩) := by
  have he : isDuplicateIndex missingTable = true := by decide +kernel
  exact run_oneStatement he _ _

end Migrator
end Rainier.Database
