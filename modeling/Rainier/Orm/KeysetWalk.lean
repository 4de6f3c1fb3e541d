import Mathlib.Algebra.BigOperators.Group.List.Basic
import Mathlib.Data.Finset.Card
import Rainier.Support.Ordered
import Rainier.Orm.Cursor

/-! # Walks of a whole table

The position of a cursor is a key: what was returned is at or below it, what is to come is above.
That is kept by every call and by whatever happens to the table between the calls, and from it
follow the order of the walk, that it leaves nothing out, and that it ends.
-/
namespace Rainier.Orm
open Database (TrashScope)

variable {R M K : Type}

theorem Paged.key_of_pkFromRow (E : Paged R M K) {row : R} {k : K} (h : E.pkFromRow row = .ok k) : k = E.key row := by
  rw [pkFromRow] at h
  split at h
  · cases h
  · obtain ⟨value,hget,hvalue⟩ := bind_eq_ok.1 h
    cases value with
    | none => cases hvalue
    | some v =>
      cases hvalue
      exact E.get_key hget

/-- The models of a page have the keys of its rows. -/
theorem Paged.keys_of_mapM (E : Paged R M K) {rows : List R} {page : List M} (h : rows.mapM E.fromRow = .ok page) :
    page.map E.keyOf = rows.map E.key := by
  induction rows generalizing page with
  | nil =>
    cases h
    rfl
  | cons r rows ih =>
    rw [List.mapM_cons] at h
    obtain ⟨m,hm,h⟩ := bind_eq_ok.1 h
    obtain ⟨rest,hrest,h⟩ := bind_eq_ok.1 h
    cases h
    rw [List.map_cons,List.map_cons,E.keyOf_fromRow hm,ih hrest]

/-- A row that reads as the entity it is. -/
def Paged.Decodes (E : Paged R M K) (row : R) : Prop := (∃ m, E.fromRow row = .ok m) ∧ ∃ k, E.pkFromRow row = .ok k

theorem Paged.exists_page (E : Paged R M K) {rows : List R} (h : ∀ r ∈ rows, E.Decodes r) :
    ∃ page, rows.mapM E.fromRow = .ok page := by
  induction rows with
  | nil => exact ⟨[],rfl⟩
  | cons r rows ih =>
    obtain ⟨m,hm⟩ := (h r List.mem_cons_self).1
    obtain ⟨page,hpage⟩ := ih fun r' hr' => h r' (List.mem_cons_of_mem _ hr')
    exact ⟨m :: page,by rw [List.mapM_cons,hm,hpage]; rfl⟩

namespace Cursor

theorem freshAt_eq (pageSize : ℕ) (trash : TrashScope) (checkpoint : Option K) :
    freshAt pageSize trash checkpoint = ⟨max pageSize 1,checkpoint,false,trash⟩ := by
  cases checkpoint <;> rfl

variable [LinearOrder K] {E : Paged R M K} {c : Cursor K} {table : List R}

/-! ## What a query selects -/

/-- The rows a query goes through, before its limit. -/
def ahead (E : Paged R M K) (c : Cursor K) (table : List R) : List R :=
  (table.filter fun r => c.after.all (· < E.key r) && E.inScope c.trash r).insertionSort fun r r' => E.key r ≤ E.key r'

theorem mem_ahead {r : R} : r ∈ c.ahead E table ↔ r ∈ table ∧ (∀ a ∈ c.after, a < E.key r) ∧ E.inScope c.trash r := by
  simp [ahead,List.mem_insertionSort,Option.all_eq_true]

theorem ahead_increasing (h : (table.map E.key).Nodup) : ((c.ahead E table).map E.key).Pairwise (· < ·) := by
  have hsorted : ((c.ahead E table).map E.key).Pairwise (· ≤ ·) := by
    rw [List.pairwise_map]
    have : Std.Total fun r r' => E.key r ≤ E.key r' := ⟨fun r r' => le_total (E.key r) (E.key r')⟩
    have : IsTrans R fun r r' => E.key r ≤ E.key r' := ⟨fun _ _ _ => le_trans⟩
    exact List.pairwise_insertionSort _ _
  have hnodup : ((c.ahead E table).map E.key).Nodup := by
    have hperm := List.perm_insertionSort (fun r r' => E.key r ≤ E.key r')
      (table.filter fun r => c.after.all (· < E.key r) && E.inScope c.trash r)
    rw [ahead,(hperm.map E.key).nodup_iff]
    exact h.sublist (List.filter_sublist.map E.key)
  exact hsorted.imp₂ (fun _ _ hle hne => lt_of_le_of_ne hle hne) hnodup

theorem select_eq : c.select E table = (c.ahead E table).take c.pageSize := rfl

/-- What the limit cuts off is after everything it leaves, and then the page is full. -/
theorem lt_of_not_mem_select (h : (table.map E.key).Nodup) {r : R} (hr : r ∈ c.ahead E table)
    (hcut : r ∉ c.select E table) :
    (c.select E table).length = c.pageSize ∧ ∀ r' ∈ c.select E table, E.key r' < E.key r := by
  rw [select_eq] at hcut ⊢
  have hincreasing := List.pairwise_map.1 (ahead_increasing (c := c) h)
  rw [← List.take_append_drop c.pageSize (c.ahead E table),List.pairwise_append] at hincreasing
  rw [← List.take_append_drop c.pageSize (c.ahead E table),List.mem_append] at hr
  have hdrop := hr.resolve_left hcut
  constructor
  · rw [List.length_take]
    have hpos := List.length_pos_of_mem hdrop
    rw [List.length_drop] at hpos
    omega
  · intro r' hr'
    exact hincreasing.2.2 r' hr' r hdrop

/-! ## What a call can do -/

/-- The cases of a call. -/
inductive PageStep (E : Paged R M K) (c : Cursor K) (table : List R) (fault : Option Error) :
    PageOutcome M × Cursor K → Prop where
  | exhausted (h : c.done = true) : PageStep E c table fault (.finished,c)
  | failed (e : Error) (hwhy : fault = none → ¬ ∀ r ∈ table, E.Decodes r) : PageStep E c table fault (.error e,c)
  | panicked (hbinds : E.binds c.pageSize = false) : PageStep E c table fault (.panic,c)
  | empty (hrows : c.select E table = []) : PageStep E c table fault (.finished,{ c with done := true })
  | page {models : List M} {last : R} (hlast : (c.select E table).getLast? = some last)
      (hkeys : models.map E.keyOf = (c.select E table).map E.key) : PageStep E c table fault
        (.page models,{ c with after := some (E.key last), done := (c.select E table).length < c.pageSize })

theorem mem_of_mem_select {r : R} (h : r ∈ c.select E table) : r ∈ table :=
  (mem_ahead.1 (List.mem_of_mem_take h)).1

theorem pageStep_nextPage (c : Cursor K) (table : List R) (fault : Option Error) :
    PageStep E c table fault (c.nextPage E table fault) := by
  rw [nextPage]
  cases hdone : c.done with
  | true => exact .exhausted hdone
  | false =>
    rw [if_neg Bool.false_ne_true,fetch]
    split_ifs with hbinds
    · cases fault with
      | some e => exact .failed e fun h => nomatch h
      | none =>
        simp only [Option.elim_none]
        split
        · rename_i hlast
          exact .empty (List.getLast?_eq_none_iff.1 hlast)
        · rename_i last hlast
          split
          · rename_i hpage
            refine .failed _ fun _ hdecodes => ?_
            have hselected : ∀ r ∈ c.select E table, E.Decodes r := fun r hr => hdecodes r (mem_of_mem_select hr)
            obtain ⟨page,hok⟩ := E.exists_page hselected
            cases hpage.symm.trans hok
          · rename_i hkey
            refine .failed _ fun _ hdecodes => ?_
            obtain ⟨k,hok⟩ := (hdecodes last (mem_of_mem_select (List.mem_of_getLast? hlast))).2
            cases hkey.symm.trans hok
          · rename_i models k hpage hkey
            cases E.key_of_pkFromRow hkey
            exact .page hlast (E.keys_of_mapM hpage)
    · exact .panicked (by simpa using hbinds)

/-- With nothing ahead the walk is at its end. -/
theorem nextPage_finished (hdone : c.done = false) (hbinds : E.binds c.pageSize = true) (h : c.ahead E table = []) :
    (c.nextPage E table none).1 = .finished := by
  have hselect : c.select E table = [] := by rw [select_eq,h,List.take_nil]
  simp [nextPage,fetch,hdone,hbinds,hselect]

end Cursor

namespace Walk

variable {E : Paged R M K} {pageSize : ℕ} {trash : TrashScope} {after : Option K}

theorem pages_record (w : Walk E) (result : PageOutcome M × Cursor K) :
    (w.record result).pages = w.pages ++ result.1.models.toList := by
  cases h : result.1.models <;> simp [pages,record,h]

variable [LinearOrder K]

/-! ## The order of a walk -/

/-- Pages of one kind, none empty and none too long, in increasing order up to the position. -/
structure Positioned (pageSize : ℕ) (trash : TrashScope) (w : Walk E) : Prop where
  size : w.cursor.pageSize = max pageSize 1
  scope : w.cursor.trash = trash
  increasing : w.keys.Pairwise (· < ·)
  below : ∀ k ∈ w.keys, ∃ a ∈ w.cursor.after, k ≤ a
  bounded : ∀ page ∈ w.pages, page ≠ [] ∧ page.length ≤ max pageSize 1

theorem positioned_start (pageSize : ℕ) (trash : TrashScope) (after : Option K) (table : KeyedTable E) :
    (start pageSize trash after table).Positioned pageSize trash := by
  refine ⟨?_,?_,.nil,fun _ h => absurd h List.not_mem_nil,fun _ h => absurd h List.not_mem_nil⟩
  · rw [start,Cursor.freshAt_eq]
  · rw [start,Cursor.freshAt_eq]

/-- A call that returns no page and stays where it is. -/
theorem positioned_record {w : Walk E} (h : w.Positioned pageSize trash) {outcome : PageOutcome M}
    (hnone : outcome.models = none) (done : Bool) :
    (w.record (outcome,{ w.cursor with done })).Positioned pageSize trash := by
  have hpages : (w.record (outcome,{ w.cursor with done })).pages = w.pages := by
    rw [pages_record,hnone,Option.toList_none,List.append_nil]
  refine ⟨h.size,h.scope,?_,?_,?_⟩
  · rw [keys,hpages]
    exact h.increasing
  · rw [keys,hpages]
    exact h.below
  · rw [hpages]
    exact h.bounded

theorem positioned_page {w : Walk E} (h : w.Positioned pageSize trash) {models : List M} {last : R} (done : Bool)
    (hlast : (w.cursor.select E w.table.rows).getLast? = some last)
    (hkeys : models.map E.keyOf = (w.cursor.select E w.table.rows).map E.key) :
    (w.record (.page models,{ w.cursor with after := some (E.key last), done })).Positioned pageSize trash := by
  let rows := w.cursor.select E w.table.rows
  have hpages : (w.record (.page models,{ w.cursor with after := some (E.key last), done })).pages =
      w.pages ++ [models] := pages_record w _
  have hall : (w.record (.page models,{ w.cursor with after := some (E.key last), done })).keys =
      w.keys ++ rows.map E.key := by
    rw [keys,hpages,List.flatten_append,List.map_append,List.flatten_singleton,hkeys]
    rfl
  have hrows : (rows.map E.key).Pairwise (· < ·) := by
    have hahead := Cursor.ahead_increasing (c := w.cursor) w.table.distinct
    exact hahead.sublist ((List.take_sublist _ _).map E.key)
  have hlow : ∀ k ∈ rows.map E.key, k ≤ E.key last := by
    obtain ⟨front,hfront⟩ := List.getLast?_eq_some_iff.1 hlast
    intro k hk
    have hfront : rows = front ++ [last] := hfront
    rw [hfront,List.map_append,List.pairwise_append] at hrows
    rw [hfront,List.map_append,List.mem_append] at hk
    rcases hk with hk | hk
    · exact (hrows.2.2 k hk (E.key last) (by simp)).le
    · exact (by simpa using hk : k = E.key last).le
  have hhigh : ∀ k ∈ rows.map E.key, ∀ a ∈ w.cursor.after, a < k := by
    intro k hk a ha
    obtain ⟨r,hr,rfl⟩ := List.mem_map.1 hk
    exact (Cursor.mem_ahead.1 (List.mem_of_mem_take hr)).2.1 a ha
  have hlength : models.length = rows.length := by simpa using congrArg List.length hkeys
  refine ⟨h.size,h.scope,?_,?_,?_⟩
  · rw [hall,List.pairwise_append]
    refine ⟨h.increasing,hrows,fun k hk k' hk' => ?_⟩
    obtain ⟨a,ha,hle⟩ := h.below k hk
    exact lt_of_le_of_lt hle (hhigh k' hk' a ha)
  · rw [hall]
    intro k hk
    refine ⟨E.key last,rfl,?_⟩
    have hmem : E.key last ∈ rows.map E.key := List.mem_map_of_mem (List.mem_of_getLast? hlast)
    rcases List.mem_append.1 hk with hk | hk
    · obtain ⟨a,ha,hle⟩ := h.below k hk
      exact hle.trans (hhigh _ hmem a ha).le
    · exact hlow k hk
  · rw [hpages]
    intro page hpage
    rcases List.mem_append.1 hpage with hpage | hpage
    · exact h.bounded page hpage
    · obtain rfl := List.mem_singleton.1 hpage
      constructor
      · rintro rfl
        have hpos : 0 < rows.length := List.length_pos_of_mem (List.mem_of_getLast? hlast)
        rw [List.length_nil] at hlength
        omega
      · rw [hlength,← h.size]
        exact List.length_take_le _ _

theorem positioned_step (w : Walk E) (e : WalkEvent E) (h : w.Positioned pageSize trash) :
    (w.step pageSize trash e).Positioned pageSize trash := by
  cases e with
  | change table => exact ⟨h.size,h.scope,h.increasing,h.below,h.bounded⟩
  | resume =>
    rw [step,Cursor.freshAt_eq]
    exact ⟨rfl,rfl,h.increasing,h.below,h.bounded⟩
  | next fault =>
    have hstep := Cursor.pageStep_nextPage (E := E) w.cursor w.table.rows fault
    rw [step]
    generalize w.cursor.nextPage E w.table.rows fault = result at hstep ⊢
    cases hstep with
    | exhausted hdone => exact positioned_record h rfl w.cursor.done
    | failed e hwhy => exact positioned_record h rfl w.cursor.done
    | panicked hbinds => exact positioned_record h rfl w.cursor.done
    | empty hrows => exact positioned_record h rfl true
    | page hlast hkeys => exact positioned_page h _ hlast hkeys

/-! ## Nothing is left out -/

/-- A row with this key is in the table and in scope. -/
def Present (trash : TrashScope) (k : K) (w : Walk E) : Prop := ∃ r ∈ w.table.rows, E.key r = k ∧ E.inScope trash r

/-- A key that was returned, or is still ahead. -/
def Due (k : K) (w : Walk E) : Prop :=
  k ∈ w.keys ∨ (∀ a ∈ w.cursor.after, a < k) ∧ w.cursor.done = false ∧ .finished ∉ w.outcomes

theorem due_step (k : K) (w : Walk E) (e : WalkEvent E) (h : w.Positioned pageSize trash ∧ w.Due k)
    (hpresent : w.Present trash k) : (w.step pageSize trash e).Due k := by
  obtain ⟨hpos,hdue⟩ := h
  cases e with
  | change table => exact hdue
  | resume =>
    rw [step,Cursor.freshAt_eq]
    exact hdue.imp_right fun h => ⟨h.1,rfl,h.2.2⟩
  | next fault =>
    have hstep := Cursor.pageStep_nextPage (E := E) w.cursor w.table.rows fault
    rw [step]
    generalize w.cursor.nextPage E w.table.rows fault = result at hstep ⊢
    have hkeep : k ∈ w.keys → k ∈ (w.record result).keys := by
      intro hk
      rw [keys,pages_record,List.flatten_append,List.map_append]
      exact List.mem_append_left _ hk
    rcases hdue with hk | ⟨hafter,hdone,hfinished⟩
    · exact .inl (hkeep hk)
    obtain ⟨r,hr,rfl,hscope⟩ := hpresent
    have hahead : r ∈ w.cursor.ahead E w.table.rows := Cursor.mem_ahead.2 ⟨hr,hafter,by rw [hpos.scope]; exact hscope⟩
    cases hstep with
    | exhausted hexhausted =>
      rw [hdone] at hexhausted
      cases hexhausted
    | failed e hwhy => exact .inr ⟨hafter,hdone,by simpa [record] using hfinished⟩
    | panicked hbinds => exact .inr ⟨hafter,hdone,by simpa [record] using hfinished⟩
    | empty hrows =>
      have hcut : r ∉ w.cursor.select E w.table.rows := by rw [hrows]; exact List.not_mem_nil
      have hfull := (Cursor.lt_of_not_mem_select w.table.distinct hahead hcut).1
      rw [hrows,hpos.size,List.length_nil] at hfull
      omega
    | page hlast hkeys =>
      by_cases hr : r ∈ w.cursor.select E w.table.rows
      · left
        rw [keys,pages_record,List.flatten_append,List.map_append]
        apply List.mem_append_right
        simp only [PageOutcome.models,Option.toList_some,List.flatten_singleton]
        rw [hkeys]
        exact List.mem_map_of_mem hr
      · obtain ⟨hfull,hlt⟩ := Cursor.lt_of_not_mem_select w.table.distinct hahead hr
        refine .inr ⟨?_,?_,by simpa [record] using hfinished⟩
        · rintro a ⟨⟩
          exact hlt _ (List.mem_of_getLast? hlast)
        · simp [record,hfull]

/-! ## The end -/

/-- Only rows with these keys are in the table, all decode, and the query does not fail. -/
def Supplied (supply : Finset K) (w : Walk E) (e : WalkEvent E) : Prop :=
  (∀ r ∈ w.table.rows, E.key r ∈ supply ∧ E.Decodes r) ∧ ∀ fault, e = .next fault → fault = none

/-- Every call so far returned a page of these keys, or one has found the end. -/
def Running (supply : Finset K) (w : Walk E) : Prop :=
  (w.outcomes.length = w.pages.length ∧ ∀ k ∈ w.keys, k ∈ supply) ∨ .finished ∈ w.outcomes

theorem running_step (hsize : pageSize < 2 ^ 63) (supply : Finset K) (w : Walk E) (e : WalkEvent E)
    (h : w.Positioned pageSize trash ∧ w.Running supply) (hsupply : w.Supplied supply e) :
    (w.step pageSize trash e).Running supply := by
  obtain ⟨hpos,hrunning⟩ := h
  cases e with
  | change table => exact hrunning
  | resume => exact hrunning
  | next fault =>
    obtain ⟨htable,hfault⟩ := hsupply
    have hstep := Cursor.pageStep_nextPage (E := E) w.cursor w.table.rows fault
    rw [step]
    generalize w.cursor.nextPage E w.table.rows fault = result at hstep ⊢
    rcases hrunning with ⟨hlength,hkeys⟩ | hfinished
    · cases hstep with
      | exhausted hdone => exact .inr (by simp [record])
      | empty hrows => exact .inr (by simp [record])
      | failed e hwhy => exact absurd (fun r hr => (htable r hr).2) (hwhy (hfault fault rfl))
      | panicked hbinds =>
        rw [hpos.size,E.binds_signed _ (by omega)] at hbinds
        cases hbinds
      | page hlast hmodels =>
        refine .inl ⟨?_,?_⟩
        · rw [pages_record]
          simp [record,PageOutcome.models,hlength]
        · rw [keys,pages_record,List.flatten_append,List.map_append]
          simp only [PageOutcome.models,Option.toList_some,List.flatten_singleton]
          rw [hmodels]
          intro k hk
          rcases List.mem_append.1 hk with hk | hk
          · exact hkeys k hk
          · obtain ⟨r,hr,rfl⟩ := List.mem_map.1 hk
            exact (htable r (Cursor.mem_of_mem_select hr)).1
    · exact .inr (List.mem_append_left _ hfinished)

/-- There are no more pages than keys. -/
theorem pages_le_card {w : Walk E} (h : w.Positioned pageSize trash) {supply : Finset K} (hkeys : ∀ k ∈ w.keys, k ∈ supply) :
    w.pages.length ≤ supply.card := by
  have hpages : w.pages.length ≤ w.keys.length := by
    rw [keys,List.length_map,List.length_flatten]
    have hpos : ∀ n ∈ w.pages.map List.length, 1 ≤ n := by
      intro n hn
      obtain ⟨page,hpage,rfl⟩ := List.mem_map.1 hn
      exact List.length_pos_of_ne_nil (h.bounded page hpage).1
    simpa using List.length_le_sum_of_one_le _ hpos
  have hnodup : w.keys.Nodup := h.increasing.imp fun hlt => ne_of_lt hlt
  calc w.pages.length ≤ w.keys.length := hpages
    _ = w.keys.toFinset.card := (List.toFinset_card_of_nodup hnodup).symm
    _ ≤ supply.card := Finset.card_le_card fun k hk => hkeys k (List.mem_toFinset.1 hk)

theorem outcomes_length (events : List (WalkEvent E)) (w : Walk E) :
    (Trace.run (step pageSize trash) w events).outcomes.length = w.outcomes.length + events.countP (·.isNext) := by
  induction events generalizing w with
  | nil => rfl
  | cons e events ih =>
    rw [Trace.run_cons,ih]
    cases e with
    | change table => simp [step,WalkEvent.isNext]
    | resume => simp [step,WalkEvent.isNext]
    | next fault =>
      simp only [step,record,List.length_append,List.length_singleton,List.countP_cons,WalkEvent.isNext,if_true]
      omega

/-! ## A walk as a whole -/

/-- A fresh cursor at the checkpoint is the cursor, unless that one is done. -/
theorem freshAt_checkpoint {w : Walk E} (h : w.Positioned pageSize trash) (hdone : w.cursor.done = false) :
    Cursor.freshAt pageSize trash w.cursor.checkpoint = w.cursor := by
  rw [Cursor.freshAt_eq,← h.size,← h.scope,← hdone]
  rfl

/-- The call that ends a walk leaves nothing ahead of its checkpoint. -/
theorem ahead_nil_of_ended {w : Walk E} (h : w.Positioned pageSize trash) {fault : Option Error}
    (hdone : w.cursor.done = false) (hended : (w.step pageSize trash (.next fault)).cursor.done = true) :
    (Cursor.freshAt pageSize trash (w.step pageSize trash (.next fault)).cursor.checkpoint).ahead E w.table.rows = [] := by
  have hstep := Cursor.pageStep_nextPage (E := E) w.cursor w.table.rows fault
  rw [step] at hended ⊢
  generalize w.cursor.nextPage E w.table.rows fault = result at hstep hended ⊢
  rw [Cursor.freshAt_eq,List.eq_nil_iff_forall_not_mem]
  intro r hr
  obtain ⟨hmem,hafter,hkind⟩ := Cursor.mem_ahead.1 hr
  have hscope : E.inScope w.cursor.trash r := by
    rw [h.scope]
    exact hkind
  have hstay : w.cursor.done ≠ true := by rw [hdone]; exact Bool.false_ne_true
  cases hstep with
  | exhausted hdone => exact hstay hended
  | failed e hwhy => exact hstay hended
  | panicked hbinds => exact hstay hended
  | empty hrows =>
    have hahead : r ∈ w.cursor.ahead E w.table.rows := Cursor.mem_ahead.2 ⟨hmem,hafter,hscope⟩
    have hcut : r ∉ w.cursor.select E w.table.rows := by rw [hrows]; exact List.not_mem_nil
    have hfull := (Cursor.lt_of_not_mem_select w.table.distinct hahead hcut).1
    rw [hrows,h.size,List.length_nil] at hfull
    omega
  | page hlast hkeys =>
    have hbeyond := hafter _ rfl
    have hahead : r ∈ w.cursor.ahead E w.table.rows := by
      refine Cursor.mem_ahead.2 ⟨hmem,fun a ha => ?_,hscope⟩
      have hlow := (Cursor.mem_ahead.1 (List.mem_of_mem_take (List.mem_of_getLast? hlast))).2.1 a ha
      exact hlow.trans hbeyond
    have hshort : (w.cursor.select E w.table.rows).length < w.cursor.pageSize := by simpa [record] using hended
    by_cases hselected : r ∈ w.cursor.select E w.table.rows
    · have hpage := positioned_page h true hlast hkeys
      obtain ⟨a,ha,hle⟩ := hpage.below (E.key r) (by
        rw [keys,pages_record,List.flatten_append,List.map_append]
        apply List.mem_append_right
        simp only [PageOutcome.models,Option.toList_some,List.flatten_singleton]
        rw [hkeys]
        exact List.mem_map_of_mem hselected)
      cases ha
      exact absurd hbeyond (not_lt.2 hle)
    · have hfull := (Cursor.lt_of_not_mem_select w.table.distinct hahead hselected).1
      omega

/-- What a walk promises, whatever happens between its calls. A driver that binds a `LIMIT`
signed has nothing to bind for the larger sizes. -/
structure WalksTable (pageSize : ℕ) (trash : TrashScope) (after : Option K) (table : KeyedTable E)
    (events : List (WalkEvent E)) (w : Walk E) : Prop where
  increasing : w.keys.Pairwise (· < ·)
  bounded : ∀ page ∈ w.pages, page.length ≤ max pageSize 1
  once : ∀ k, (∀ a ∈ after, a < k) →
    Trace.Always (step pageSize trash) (Present trash k) (start pageSize trash after table) events →
    .finished ∈ w.outcomes → w.pages.countP (fun page => page.any (E.keyOf · = k)) = 1
  resumed : w.cursor.done = false → Cursor.freshAt pageSize trash w.cursor.checkpoint = w.cursor
  resumedAtEnd : ∀ fault, w.cursor.done = false → (w.step pageSize trash (.next fault)).cursor.done = true →
    pageSize < 2 ^ 63 → ((Cursor.freshAt pageSize trash
      (w.step pageSize trash (.next fault)).cursor.checkpoint).nextPage E w.table.rows none).1 = .finished
  ends : pageSize < 2 ^ 63 → ∀ supply : Finset K,
    Trace.Along (step pageSize trash) (Supplied supply) (start pageSize trash after table) events →
    supply.card < events.countP (·.isNext) → .finished ∈ w.outcomes

theorem walks_table (pageSize : ℕ) (trash : TrashScope) (after : Option K) (table : KeyedTable E)
    (events : List (WalkEvent E)) : WalksTable pageSize trash after table events
      (Trace.run (step pageSize trash) (start pageSize trash after table) events) := by
  have hstart := positioned_start pageSize trash after table
  have hpos := (Trace.always_of_step positioned_step hstart events).last
  refine ⟨hpos.increasing,fun page hpage => (hpos.bounded page hpage).2,?_,?_,?_,?_⟩
  · intro k hk hpresent hfinished
    have hfirst : (start pageSize trash after table).Due k := by
      rw [start,Cursor.freshAt_eq]
      exact .inr ⟨hk,rfl,List.not_mem_nil⟩
    have halong : Trace.Along (step pageSize trash) (fun w _ => w.Present trash k) (start pageSize trash after table) events :=
      hpresent.along fun w _ hw _ => hw
    have hdue := Trace.always_of_along (P := fun w => w.Positioned pageSize trash ∧ w.Due k)
      (fun w e h hpresent => ⟨positioned_step w e h.1,due_step k w e h hpresent⟩) ⟨hstart,hfirst⟩ halong
    have hmem := hdue.last.2.resolve_right fun h => h.2.2 hfinished
    exact Ordered.countP_any_eq_one (hpos.increasing.imp fun hlt => ne_of_lt hlt) hmem
  · exact freshAt_checkpoint hpos
  · intro fault hdone hended hsize
    apply Cursor.nextPage_finished
    · rw [Cursor.freshAt_eq]
    · rw [Cursor.freshAt_eq]
      exact E.binds_signed _ (by show max pageSize 1 < 2 ^ 63; omega)
    · exact ahead_nil_of_ended hpos hdone hended
  · intro hsize supply hsupply hcount
    have hfirst : (start pageSize trash after table).Running supply := .inl ⟨rfl,fun _ h => absurd h List.not_mem_nil⟩
    have hrunning := Trace.always_of_along (P := fun w => w.Positioned pageSize trash ∧ w.Running supply)
      (fun w e h hsupply => ⟨positioned_step w e h.1,running_step hsize supply w e h hsupply⟩) ⟨hstart,hfirst⟩ hsupply
    refine hrunning.last.2.resolve_left fun ⟨hlength,hkeys⟩ => ?_
    have hcard := pages_le_card hpos hkeys
    rw [← hlength,outcomes_length] at hcard
    simp only [start,List.length_nil,Nat.zero_add] at hcard
    omega

/-- A table of bare keys, on a driver that binds a limit signed. -/
def bareKeys : Paged ℕ ℕ ℕ where
  columns := [("id",.bigUint)]
  primaryKey := "id"
  softDeleteColumn := none
  fromRow r := .ok r
  get _ _ r := .ok (some r)
  isNull _ _ := false
  binds n := n < 2 ^ 63
  key r := r
  keyOf m := m
  get_key h := (Option.some.inj (Except.ok.inj h)).symm
  keyOf_fromRow h := (Except.ok.inj h).symm
  binds_signed _ h := decide_eq_true h

def oneRow : KeyedTable bareKeys := ⟨[7],by decide⟩

/-- A limit that the driver does not bind panics in every call. -/
theorem run_unbound (n : ℕ) {w : Walk E} (hdone : w.cursor.done = false) (hbinds : E.binds w.cursor.pageSize = false) :
    (Trace.run (step pageSize trash) w (List.replicate n (.next none))).outcomes =
      w.outcomes ++ List.replicate n .panic := by
  induction n generalizing w with
  | zero => simp
  | succ n ih =>
    have hstep : w.step pageSize trash (.next none) = w.record (.panic,w.cursor) := by
      simp [step,Cursor.nextPage,Cursor.fetch,hdone,hbinds]
    rw [List.replicate_succ,Trace.run_cons,hstep,ih (w := w.record (.panic,w.cursor)) hdone hbinds]
    simp [record,List.replicate_succ]

/-- A page size of zero returns a page all the same, and the largest one never comes to an end. -/
theorem page_sizes_out_of_range :
    (¬ ∀ page ∈ (Trace.run (step 0 .active) (start 0 .active none oneRow) [.next none]).pages, page.length ≤ 0) ∧
      ∀ n, .finished ∉ (Trace.run (step (2 ^ 64 - 1) .active) (start (2 ^ 64 - 1) .active none oneRow)
        (List.replicate n (.next none))).outcomes := by
  constructor
  · intro h
    exact absurd (h [7] (List.mem_singleton_self _)) (by decide)
  · intro n
    rw [run_unbound n rfl rfl]
    intro h
    rcases List.mem_append.1 h with h | h
    · cases h
    · cases List.eq_of_mem_replicate h

end Walk

end Rainier.Orm
