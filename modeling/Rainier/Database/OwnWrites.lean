import Rainier.Database.Sticky

/-! # Reading your own writes

Within one scope and connection there is a replica for the reads before the first query that needs
the writer, and one write endpoint for everything from then on.
-/
namespace Rainier.Database

theorem mark_setMark (m : Mark) (marks : List Mark) (c : ℕ) :
    mark (setMark m marks) c = if c = m.connection then m else mark marks c := by
  induction marks with
  | nil => by_cases h : c = m.connection <;> simp [mark,setMark,h,Ne.symm]
  | cons m' marks ih =>
    simp only [mark,setMark] at ih ⊢
    by_cases hm : m'.connection = m.connection
    · by_cases hc : c = m.connection
      · simp [hm,hc]
      · simp [hm,hc,Ne.symm hc]
    · by_cases hc : m'.connection = c
      · have hne : c ≠ m.connection := fun h => hm (hc.trans h)
        simp [hc,hne]
      · simpa [hm,hc] using ih

theorem mark_connection (marks : List Mark) (c : ℕ) : (mark marks c).connection = c := by
  rw [mark]
  cases h : marks.find? (·.connection = c) with
  | none => rfl
  | some m => simpa using List.find?_some h

/-! ## One query -/

/-- A view after a query of a connection: in the same scope, where no other connection's pins changed. -/
structure Kept (id : ℕ) (v v' : View) : Prop where
  outside : v.scope = none → v'.scope = none
  inside : ∀ marks, v.scope = some marks → ∃ marks', v'.scope = some marks' ∧ ∀ c ≠ id, mark marks' c = mark marks c

namespace Kept

variable {id : ℕ} {v v' v'' : View}

theorem of_scope_eq (h : v'.scope = v.scope) : Kept id v v' :=
  ⟨fun hnone => h.trans hnone,fun marks hmarks => ⟨marks,h.trans hmarks,fun _ _ => rfl⟩⟩

theorem trans (h : Kept id v v') (h' : Kept id v' v'') : Kept id v v'' := by
  refine ⟨fun hnone => h'.outside (h.outside hnone),fun marks hmarks => ?_⟩
  obtain ⟨marks',hmarks',hsame⟩ := h.inside marks hmarks
  obtain ⟨marks'',hmarks'',hsame'⟩ := h'.inside marks' hmarks'
  exact ⟨marks'',hmarks'',fun c hc => (hsame' c hc).trans (hsame c hc)⟩

/-- Only the entry of the connection itself is written. -/
theorem of_setMark {marks : List Mark} {m : Mark} (hmarks : v.scope = some marks) (hm : m.connection = id)
    (hscope : v'.scope = some (setMark m marks)) : Kept id v v' := by
  refine ⟨fun h => absurd (hmarks.symm.trans h) (Option.some_ne_none _),fun other hother => ⟨_,hscope,fun c hc => ?_⟩⟩
  obtain rfl := Option.some.inj (hmarks.symm.trans hother)
  rw [mark_setMark,hm,if_neg hc]

end Kept

theorem kept_writeEndpoint (s : Split) (id : ℕ) (v : View) : Kept id v (writeEndpoint id s.turnWrite v).2 := by
  cases hscope : v.scope with
  | none =>
    apply Kept.of_scope_eq
    simp only [writeEndpoint,hscope]
  | some marks =>
    cases hwrite : (mark marks id).write with
    | some w =>
      apply Kept.of_setMark (m := { mark marks id with read := .writer }) hscope (mark_connection marks id)
      simp only [writeEndpoint,hscope,hwrite]
    | none =>
      apply Kept.of_setMark (m := ⟨_,some (s.turnWrite v).1,.writer⟩) hscope (mark_connection marks id)
      simp only [writeEndpoint,hscope,hwrite]

theorem kept_readEndpoint (s : Split) (id : ℕ) (v : View) : Kept id v (readEndpoint id s.turnRead v).2 := by
  cases hscope : v.scope with
  | none =>
    apply Kept.of_scope_eq
    simp only [readEndpoint,hscope]
  | some marks =>
    cases hread : (mark marks id).read with
    | unpinned =>
      apply Kept.of_setMark (m := { mark marks id with read := .replica (s.turnRead v).1 }) hscope (mark_connection marks id)
      simp only [readEndpoint,hscope,hread]
    | writer =>
      apply Kept.of_setMark (m := mark marks id) hscope (mark_connection marks id)
      simp only [readEndpoint,hscope,hread]
    | replica r =>
      apply Kept.of_setMark (m := mark marks id) hscope (mark_connection marks id)
      simp only [readEndpoint,hscope,hread]

namespace Split

theorem kept_writeConnection (s : Split) (id : ℕ) (v : View) : Kept id v (s.writeConnection id v).2 := by
  have hkept := kept_writeEndpoint s id v
  rw [writeConnection]
  split_ifs
  · split <;> rename_i hendpoint <;> rw [hendpoint] at hkept
    · exact hkept
    · exact hkept.trans (.of_scope_eq rfl)
  · exact .of_scope_eq rfl

theorem kept_readConnection (s : Split) (id : ℕ) (v : View) : Kept id v (s.readConnection id v).2 := by
  have hkept := kept_readEndpoint s id v
  rw [readConnection]
  split_ifs
  · exact s.kept_writeConnection id v
  · split <;> rename_i hendpoint <;> rw [hendpoint] at hkept
    · exact hkept
    · exact hkept.trans (s.kept_writeConnection id _)
    · exact hkept.trans (s.kept_writeConnection id _)
  · exact .of_scope_eq rfl

end Split

theorem kept_route (split : Option Split) (q : Query) (v : View) : Kept q.connection v (route split q v).2 := by
  cases split with
  | none => cases h : q.access <;> simp only [route,h] <;> exact .of_scope_eq rfl
  | some s =>
    cases h : q.access <;> simp only [route,h]
    · exact s.kept_writeConnection _ v
    · exact s.kept_readConnection _ v
    · exact s.kept_writeConnection _ v

/-! ## Where a query in a scope goes -/

/-- A query that goes to the writer by itself: all but a plain read, and that too where there is no replica. -/
def Opens (s : Split) (access : Access) : Prop := access ≠ .read ∨ s.reads = 0

section Scoped

variable {s : Split} {q : Query} {v : View} {marks : List Mark}

theorem route_opens (h : Opens s q.access) : route (some s) q v = s.writeConnection q.connection v := by
  cases haccess : q.access with
  | write => simp only [route,haccess]; rfl
  | writerRead => simp only [route,haccess]; rfl
  | read =>
    have hreads : s.reads = 0 := h.resolve_left (not_not_intro haccess)
    simp only [route,haccess,DatabaseHandle.readConnection,Bool.false_eq_true,if_false,Split.readConnection,hreads,if_true]

theorem route_read (h : ¬ Opens s q.access) : route (some s) q v = s.readConnection q.connection v := by
  have hread : q.access = .read := not_not.1 fun hne => h (.inl hne)
  simp only [route,hread]
  rfl

/-- The first query that goes to the writer chooses the endpoint. -/
theorem writeConnection_first {id : ℕ} (hsticky : s.sticky = true) (hscope : v.scope = some marks)
    (hmark : (mark marks id).write = none) :
    ∃ w < s.writes, (s.writeConnection id v).1 = .write w ∧
      (s.writeConnection id v).2.scope = some (setMark ⟨id,some w,.writer⟩ marks) := by
  refine ⟨(s.turnWrite v).1,Nat.mod_lt _ s.writable,?_,?_⟩
  · simp [Split.writeConnection,writeEndpoint,hsticky,hscope,hmark]
  · simp [Split.writeConnection,writeEndpoint,hsticky,hscope,hmark,mark_connection]

theorem writeConnection_pinned {id w : ℕ} (hsticky : s.sticky = true) (hscope : v.scope = some marks)
    (hmark : (mark marks id).write = some w) : (s.writeConnection id v).1 = .write w ∧
      (s.writeConnection id v).2.scope = some (setMark ⟨id,some w,.writer⟩ marks) := by
  constructor
  · simp [Split.writeConnection,writeEndpoint,hsticky,hscope,hmark]
  · simp [Split.writeConnection,writeEndpoint,hsticky,hscope,hmark,mark_connection]

/-- The first plain read chooses the replica. -/
theorem readConnection_first {id : ℕ} (hsticky : s.sticky = true) (hscope : v.scope = some marks) (hreads : s.reads ≠ 0)
    (hmark : mark marks id = ⟨id,none,.unpinned⟩) :
    ∃ r < s.reads, (s.readConnection id v).1 = .read r ∧
      (s.readConnection id v).2.scope = some (setMark ⟨id,none,.replica r⟩ marks) := by
  refine ⟨(s.turnRead v).1,Nat.mod_lt _ (Nat.pos_of_ne_zero hreads),?_,?_⟩
  · simp [Split.readConnection,readEndpoint,hsticky,hscope,hmark,hreads]
  · simp [Split.readConnection,readEndpoint,hsticky,hscope,hmark,hreads]

theorem readConnection_replica {id r : ℕ} (hsticky : s.sticky = true) (hscope : v.scope = some marks) (hreads : s.reads ≠ 0)
    (hmark : mark marks id = ⟨id,none,.replica r⟩) : (s.readConnection id v).1 = .read r ∧
      (s.readConnection id v).2.scope = some (setMark ⟨id,none,.replica r⟩ marks) := by
  constructor
  · simp [Split.readConnection,readEndpoint,hsticky,hscope,hmark,hreads]
  · simp [Split.readConnection,readEndpoint,hsticky,hscope,hmark,hreads]

theorem readConnection_pinned {id w : ℕ} (hsticky : s.sticky = true) (hscope : v.scope = some marks)
    (hmark : mark marks id = ⟨id,some w,.writer⟩) : (s.readConnection id v).1 = .write w ∧
      ∃ marks', (s.readConnection id v).2.scope = some marks' ∧ mark marks' id = ⟨id,some w,.writer⟩ := by
  by_cases hreads : s.reads = 0
  · have hwrite := writeConnection_pinned (v := v) hsticky hscope (by rw [hmark])
    rw [Split.readConnection,if_pos hreads]
    exact ⟨hwrite.1,_,hwrite.2,by rw [mark_setMark,if_pos rfl]⟩
  · have hread : s.readConnection id v = s.writeConnection id { v with scope := some (setMark (mark marks id) marks) } := by
      simp [Split.readConnection,readEndpoint,hsticky,hscope,hmark,hreads]
    have hwrite := writeConnection_pinned (s := s) (v := { v with scope := some (setMark (mark marks id) marks) })
      hsticky rfl (by rw [mark_setMark,if_pos (mark_connection marks id).symm,hmark])
    rw [hread]
    exact ⟨hwrite.1,_,hwrite.2,by rw [mark_setMark,if_pos rfl]⟩

end Scoped

/-- Reads of one replica, and from the first query that goes to the writer on, one write endpoint. -/
def ReadsOwnWrites (s : Split) (seen : List Routed) : Prop :=
  ∃ r w before after, seen = before ++ after ∧
    (∀ x ∈ before, ¬ Opens s x.query.access ∧ x.endpoint = .read r ∧ r < s.reads) ∧
    (∀ x ∈ after.head?, Opens s x.query.access) ∧ ∀ x ∈ after, x.endpoint = .write w ∧ w < s.writes

/-- The pins of a scope and what its queries have seen so far. -/
inductive Pinned (s : Split) (c : ℕ) : Mark → List Routed → Prop where
  | fresh : Pinned s c ⟨c,none,.unpinned⟩ []
  | reading {r : ℕ} {seen : List Routed} (hr : r < s.reads)
      (hseen : ∀ x ∈ seen, ¬ Opens s x.query.access ∧ x.endpoint = .read r ∧ r < s.reads) :
      Pinned s c ⟨c,none,.replica r⟩ seen
  | writing {r w : ℕ} {before after : List Routed} {first : Routed} (hw : w < s.writes)
      (hbefore : ∀ x ∈ before, ¬ Opens s x.query.access ∧ x.endpoint = .read r ∧ r < s.reads)
      (hfirst : Opens s first.query.access) (hafter : ∀ x ∈ first :: after, x.endpoint = .write w) :
      Pinned s c ⟨c,some w,.writer⟩ (before ++ first :: after)

theorem readsOwnWrites_of_pinned {s : Split} {c : ℕ} {m : Mark} {seen : List Routed} (h : Pinned s c m seen) :
    ReadsOwnWrites s seen := by
  cases h with
  | fresh => exact ⟨0,0,[],[],rfl,by simp,by simp,by simp⟩
  | reading hr hseen => exact ⟨_,0,seen,[],(List.append_nil _).symm,hseen,by simp,by simp⟩
  | writing hw hbefore hfirst hafter =>
    refine ⟨_,_,_,_,rfl,hbefore,?_,fun x hx => ⟨hafter x hx,hw⟩⟩
    rintro x ⟨⟩
    exact hfirst

/-- What goes to the pinned write endpoint leaves the pin. -/
theorem pinned_append {s : Split} {c w : ℕ} {seen : List Routed} (h : Pinned s c ⟨c,some w,.writer⟩ seen) {x : Routed}
    (hx : x.endpoint = .write w) : Pinned s c ⟨c,some w,.writer⟩ (seen ++ [x]) := by
  cases h with
  | writing hw hbefore hfirst hafter =>
    rw [List.append_assoc,List.cons_append]
    refine .writing hw hbefore hfirst ?_
    rw [← List.cons_append]
    intro y hy
    rcases List.mem_append.1 hy with hy | hy
    · exact hafter y hy
    · rw [List.mem_singleton.1 hy]
      exact hx

/-- A query in the scope keeps the pins and follows them. -/
theorem pinned_query {s : Split} (hsticky : s.sticky = true) {q : Query} {v : View} {marks : List Mark}
    (hscope : v.scope = some marks) {seen : List Routed} (h : Pinned s q.connection (mark marks q.connection) seen) :
    ∃ marks', (route (some s) q v).2.scope = some marks' ∧
      Pinned s q.connection (mark marks' q.connection) (seen ++ [⟨q,(route (some s) q v).1⟩]) := by
  generalize hm : mark marks q.connection = m at h
  by_cases hopens : Opens s q.access
  · rw [route_opens hopens]
    cases h with
    | fresh =>
      obtain ⟨w,hw,hendpoint,hmarks⟩ := writeConnection_first (s := s) hsticky hscope (by rw [hm])
      refine ⟨_,hmarks,?_⟩
      rw [mark_setMark,if_pos rfl,hendpoint]
      have hnothing : ∀ x ∈ ([] : List Routed), ¬ Opens s x.query.access ∧ x.endpoint = .read 0 ∧ 0 < s.reads :=
        fun _ h => absurd h List.not_mem_nil
      exact .writing hw hnothing hopens (by simp)
    | reading hr hseen =>
      obtain ⟨w,hw,hendpoint,hmarks⟩ := writeConnection_first (s := s) hsticky hscope (by rw [hm])
      refine ⟨_,hmarks,?_⟩
      rw [mark_setMark,if_pos rfl,hendpoint]
      exact .writing hw hseen hopens (by simp)
    | writing hw hbefore hfirst hafter =>
      obtain ⟨hendpoint,hmarks⟩ := writeConnection_pinned (s := s) hsticky hscope (by rw [hm])
      refine ⟨_,hmarks,?_⟩
      rw [mark_setMark,if_pos rfl,hendpoint]
      exact pinned_append (.writing hw hbefore hfirst hafter) rfl
  · have hreads : s.reads ≠ 0 := fun h => hopens (.inr h)
    rw [route_read hopens]
    cases h with
    | fresh =>
      obtain ⟨r,hr,hendpoint,hmarks⟩ := readConnection_first hsticky hscope hreads hm
      refine ⟨_,hmarks,?_⟩
      rw [mark_setMark,if_pos rfl,hendpoint]
      refine .reading hr fun x hx => ?_
      rw [List.mem_singleton.1 hx]
      exact ⟨hopens,rfl,hr⟩
    | reading hr hseen =>
      obtain ⟨hendpoint,hmarks⟩ := readConnection_replica hsticky hscope hreads hm
      refine ⟨_,hmarks,?_⟩
      rw [mark_setMark,if_pos rfl,hendpoint]
      refine .reading hr fun x hx => ?_
      rcases List.mem_append.1 hx with hx | hx
      · exact hseen x hx
      · rw [List.mem_singleton.1 hx]
        exact ⟨hopens,rfl,hr⟩
    | writing hw hbefore hfirst hafter =>
      obtain ⟨hendpoint,marks',hmarks,hmark⟩ := readConnection_pinned hsticky hscope hm
      refine ⟨marks',hmarks,?_⟩
      rw [hmark,hendpoint]
      exact pinned_append (.writing hw hbefore hfirst hafter) rfl

/-! ## Queries of many tasks -/

namespace Traffic

/-- The queries of one scope to one connection. -/
def seen (t : Traffic) (scope c : ℕ) : List Routed :=
  t.log.filter fun x => x.query.scope = some scope && x.query.connection = c

variable {connections : ℕ → Option Split}

theorem step_log (t : Traffic) (q : Query) :
    (t.step connections q).log = t.log ++ [⟨q,(route (connections q.connection) q (t.viewOf q)).1⟩] := rfl

/-- Another scope, or another connection in the same scope, leaves the pins alone. -/
theorem mark_step_of_other (t : Traffic) {q : Query} {scope c : ℕ} (h : q.scope ≠ some scope ∨ q.connection ≠ c) :
    mark ((t.step connections q).scopes scope) c = mark (t.scopes scope) c := by
  have hkept := kept_route (connections q.connection) q (t.viewOf q)
  cases hscope : q.scope with
  | none => simp only [step,hscope]
  | some s' =>
    obtain ⟨marks',hmarks',hsame⟩ := hkept.inside (t.scopes s') (by simp [viewOf,hscope])
    simp only [step,hscope,hmarks']
    by_cases hs : scope = s'
    · have hc : q.connection ≠ c := h.resolve_left (not_not_intro (by rw [hscope,hs]))
      rw [hs,Function.update_self]
      exact hsame c (Ne.symm hc)
    · rw [Function.update_of_ne hs]

theorem seen_step_of_other (t : Traffic) {q : Query} {scope c : ℕ} (h : q.scope ≠ some scope ∨ q.connection ≠ c) :
    (t.step connections q).seen scope c = t.seen scope c := by
  have hout : ¬ (q.scope = some scope ∧ q.connection = c) := fun ⟨hs,hc⟩ => h.elim (· hs) (· hc)
  rw [seen,step_log,List.filter_append]
  simp [seen,hout]

theorem pinned_step {s : Split} {c : ℕ} (hsplit : connections c = some s) (hsticky : s.sticky = true) (scope : ℕ)
    (t : Traffic) (q : Query) (h : Pinned s c (mark (t.scopes scope) c) (t.seen scope c)) :
    Pinned s c (mark ((t.step connections q).scopes scope) c) ((t.step connections q).seen scope c) := by
  by_cases hown : q.scope = some scope ∧ q.connection = c
  · obtain ⟨hscope,rfl⟩ := hown
    have hview : (t.viewOf q).scope = some (t.scopes scope) := by simp [viewOf,hscope]
    obtain ⟨marks',hmarks',hpinned⟩ := pinned_query hsticky hview h
    have hseen : (t.step connections q).seen scope q.connection =
        t.seen scope q.connection ++ [⟨q,(route (some s) q (t.viewOf q)).1⟩] := by
      rw [seen,step_log,List.filter_append,hsplit]
      simp [seen,hscope]
    have hmarks : (t.step connections q).scopes scope = marks' := by
      simp [step,hsplit,hscope,hmarks']
    rw [hseen,hmarks]
    exact hpinned
  · have hother : q.scope ≠ some scope ∨ q.connection ≠ c := not_and_or.1 hown
    rw [mark_step_of_other t hother,seen_step_of_other t hother]
    exact h

/-- Where there is no scope a sticky connection uses its write endpoints. -/
theorem route_unscoped {s : Split} (hsticky : s.sticky = true) {q : Query} {v : View} (hscope : v.scope = none) :
    ∃ w < s.writes, (route (some s) q v).1 = .write w := by
  have hwrite : ∃ w < s.writes, (s.writeConnection q.connection v).1 = .write w :=
    ⟨(s.turnWrite v).1,Nat.mod_lt _ s.writable,by simp [Split.writeConnection,writeEndpoint,hsticky,hscope]⟩
  by_cases hopens : Opens s q.access
  · rw [route_opens hopens]
    exact hwrite
  · have hreads : s.reads ≠ 0 := fun h => hopens (.inr h)
    have hread : s.readConnection q.connection v = s.writeConnection q.connection v := by
      simp [Split.readConnection,readEndpoint,hsticky,hscope,hreads]
    rw [route_read hopens,hread]
    exact hwrite

theorem unscoped_step {s : Split} {c : ℕ} (hsplit : connections c = some s) (hsticky : s.sticky = true) (t : Traffic)
    (q : Query) (h : ∀ x ∈ t.log, x.query.scope = none → x.query.connection = c → ∃ w < s.writes, x.endpoint = .write w) :
    ∀ x ∈ (t.step connections q).log, x.query.scope = none → x.query.connection = c →
      ∃ w < s.writes, x.endpoint = .write w := by
  intro x hx hscope hc
  rw [step_log] at hx
  rcases List.mem_append.1 hx with hx | hx
  · exact h x hx hscope hc
  · obtain rfl := List.mem_singleton.1 hx
    have hview : (t.viewOf q).scope = none := by simp [viewOf,show q.scope = none from hscope]
    rw [show connections q.connection = some s from hc ▸ hsplit]
    exact route_unscoped hsticky hview

/-- In every run, a sticky connection's queries in a scope read from one replica and then from the
endpoint they write to, no other query changes the choice, and outside a scope they go to a write
endpoint. -/
theorem reads_own_writes {s : Split} {c : ℕ} (hsplit : connections c = some s) (hsticky : s.sticky = true)
    (nextWrite nextRead : ℕ → UInt64) (queries : List Query) :
    (∀ scope, ReadsOwnWrites s ((Trace.run (step connections) (start nextWrite nextRead) queries).seen scope c)) ∧
    (∀ scope q, q.scope ≠ some scope ∨ q.connection ≠ c →
      mark (((Trace.run (step connections) (start nextWrite nextRead) queries).step connections q).scopes scope) c =
        mark ((Trace.run (step connections) (start nextWrite nextRead) queries).scopes scope) c) ∧
    ∀ x ∈ (Trace.run (step connections) (start nextWrite nextRead) queries).log,
      x.query.scope = none → x.query.connection = c → ∃ w < s.writes, x.endpoint = .write w := by
  refine ⟨fun scope => ?_,fun scope q hother => mark_step_of_other _ hother,?_⟩
  · have hpinned := (Trace.always_of_step (pinned_step hsplit hsticky scope) (s := start nextWrite nextRead) .fresh queries).last
    exact readsOwnWrites_of_pinned hpinned
  · exact (Trace.always_of_step (unscoped_step hsplit hsticky) (s := start nextWrite nextRead)
      (fun _ h => absurd h List.not_mem_nil) queries).last

/-- Two primaries and two replicas. -/
def primariesAndReplicas : Split := ⟨true,2,2,by decide⟩

def replicated : ℕ → Option Split := fun _ => some primariesAndReplicas

/-- A scope that reads, writes and reads again while another one writes. -/
def busyScopes : List Query := [⟨some 0,0,.read⟩,⟨some 1,0,.write⟩,⟨some 0,0,.write⟩,⟨some 0,0,.read⟩]

theorem reads_own_writes_busy : ReadsOwnWrites primariesAndReplicas
    ((Trace.run (step replicated) (start (fun _ => 0) fun _ => 0) busyScopes).seen 0 0) := by
  have hsplit : replicated 0 = some primariesAndReplicas := rfl
  exact (reads_own_writes hsplit rfl (fun _ => 0) (fun _ => 0) busyScopes).1 0

/-- Two primaries and no replica. -/
def primariesOnly : Split := ⟨true,2,0,by decide⟩

/-- With no replica the reads before the first write go to a write endpoint. -/
theorem no_replica_to_read : ∃ x ∈ (Trace.run (step fun _ => some primariesOnly) (start (fun _ => 0) fun _ => 0)
    [⟨some 0,0,.read⟩]).seen 0 0, x.query.access = .read ∧ ¬ ∃ r, x.endpoint = .read r :=
  ⟨⟨⟨some 0,0,.read⟩,.write 0⟩,by decide,rfl,fun ⟨_,h⟩ => nomatch h⟩

end Traffic

end Rainier.Database
