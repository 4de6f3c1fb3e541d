import Rainier.OAuth.Steps

/-! # Codes and refresh tokens are spent once

A code or a refresh token is over once its row is revoked or gone. Rows that are over
stay so, because identifiers are drawn once; a request is issued a token only after it
found the row live and left it over. So no two requests are issued a token for the same
row, and none that comes later is, whatever a purge has removed by then.
-/
namespace Rainier.OAuth
open Rainier MemoryStore

inductive Ticket where
  | code (id : String)
  | refresh (id : String)
  deriving DecidableEq, Repr

/-- The row an access token is issued for. -/
def Source.ticket : Source → Option Ticket
  | .code payload => some (.code payload.authCodeId)
  | .refresh old => some (.refresh old.refreshTokenId)
  | .password | .clientCredentials => none

def Issue.isFor (t : Ticket) (i : Issue) : Bool := i.pending.source.ticket = some t

/-- The row is there and not revoked. -/
def State.Live (s : State) : Ticket → Prop
  | .code id => MemoryStore.Live AuthCodeRecord.revoked s.store.codes id
  | .refresh id => MemoryStore.Live RefreshTokenRecord.revoked s.store.refresh id

def Ticket.id : Ticket → String
  | .code id | .refresh id => id

/-- The row was created, and is revoked or gone. -/
def State.Over (s : State) (t : Ticket) : Prop := t.id ∈ s.used ∧ ¬ s.Live t

/-- What a request spends: every code, and a refresh token under rotation. -/
def Ticket.Spends (srv : AuthorizationServer) : Ticket → Prop
  | .code _ => True
  | .refresh _ => srv.rotateRefreshTokens = true

variable {srv : AuthorizationServer} {s s' : State}

theorem Source.needsSpending_of_ticket {source : Source} {t : Ticket} (h : source.ticket = some t) :
    source.needsSpending := by
  cases source with
  | code payload => trivial
  | refresh old => trivial
  | password => cases h
  | clientCredentials => cases h

/-- A row is live only if it was, or is the one this step created. -/
theorem Moves.live (h : Moves srv s s') {t : Ticket} (hl : s'.Live t) : s.Live t ∨ t.id ∉ s.used ∧ t.id ∈ s'.used := by
  have hfaded : Faded s.store s'.store → s.Live t := by
    intro hf
    cases t with
    | code id => exact hf.codes id hl
    | refresh id => exact hf.refresh id hl
  cases h with
  | quiet h => exact .inl (hfaded h.store)
  | code w a user client choice hw hid htext =>
    cases t with
    | code id =>
      rcases update_live hl with rfl | hl
      · exact .inr ⟨hid,List.mem_cons_self⟩
      · exact .inl hl
    | refresh id => exact .inl hl
  | refresh w p access choice hw hid htext =>
    cases t with
    | code id => exact .inl hl
    | refresh id =>
      rcases update_live hl with rfl | hl
      · exact .inr ⟨hid,List.mem_cons_self⟩
      · exact .inl hl
  | spend w p hw hspend => exact .inl (hfaded (faded_spend srv _ _))
  | _ => exact .inl (hfaded ⟨.refl _ _,.refl _ _⟩)

theorem Moves.used (h : Moves srv s s') : ∀ id ∈ s.used, id ∈ s'.used := by
  intro id hid
  cases h with
  | quiet h => exact h.used ▸ hid
  | code w a user client choice hw hfresh htext => exact List.mem_cons_of_mem _ hid
  | issue w p choice hw hfresh => exact List.mem_cons_of_mem _ hid
  | refresh w p access choice hw hfresh htext => exact List.mem_cons_of_mem _ hid
  | _ => exact hid

theorem Moves.over (h : Moves srv s s') {t : Ticket} (ho : s.Over t) : s'.Over t := by
  refine ⟨h.used _ ho.1,fun hl => ?_⟩
  rcases h.live hl with hl | ⟨hfresh,_⟩
  · exact ho.2 hl
  · exact hfresh ho.1

/-- A row that was spent was live, and is not any more. -/
theorem spend_eq_true {source : Source} {t : Ticket} (ht : source.ticket = some t)
    (h : (srv.spend s.store source).1 = true) (hs' : s'.store = (srv.spend s.store source).2) :
    s.Live t ∧ (t.Spends srv → ¬ s'.Live t) := by
  cases source with
  | code payload =>
    cases ht
    obtain ⟨hl,hover⟩ := claim_eq_true (fun _ => rfl) h
    refine ⟨hl,fun _ hl' => hover ?_⟩
    unfold State.Live at hl'
    rw [hs'] at hl'
    exact hl'
  | refresh old =>
    cases ht
    unfold AuthorizationServer.spend at h hs'
    dsimp only at h hs'
    split at h
    · rename_i hrotate
      rw [if_pos hrotate] at hs'
      obtain ⟨hl,hover⟩ := claim_eq_true (fun _ => rfl) h
      refine ⟨hl,fun _ hl' => hover ?_⟩
      unfold State.Live at hl'
      rw [hs'] at hl'
      exact hl'
    · rename_i hrotate
      refine ⟨?_,fun hspends => absurd hspends hrotate⟩
      cases hrow : s.store.refresh old.refreshTokenId with
      | none => simp [hrow] at h
      | some row => exact ⟨row,hrow,by simpa [hrow] using h⟩
  | password => cases ht
  | clientCredentials => cases ht

/-- Rows and requests while tickets are spent once. -/
structure SpentOnce (srv : AuthorizationServer) (s : State) : Prop where
  rows : ∀ t, s.Live t → t.id ∈ s.used
  busy : ∀ i ∈ s.issued, s.tasks i.task ≠ .idle
  issued : ∀ i ∈ s.issued, ∀ t, i.pending.source.ticket = some t → t.Spends srv → s.Over t
  claimed : ∀ w p t, (s.tasks w).claimed = some p → p.source.ticket = some t → t.Spends srv →
    s.Over t ∧ (∀ i ∈ s.issued, i.pending.source.ticket ≠ some t) ∧
      ∀ w' p', w' ≠ w → (s.tasks w').claimed = some p' → p'.source.ticket ≠ some t
  once : ∀ t, t.Spends srv → (s.issued.filter (·.isFor t)).length ≤ 1

theorem spentOnce_init (srv : AuthorizationServer) : SpentOnce srv init where
  rows t h := by
    cases t <;> (obtain ⟨row,hrow,_⟩ := h; cases hrow)
  busy i hi := by cases hi
  issued i hi := by cases hi
  claimed w p t h := by cases h
  once t ht := Nat.zero_le _

theorem SpentOnce.step_rows (h : SpentOnce srv s) (hm : Moves srv s s') : ∀ t, s'.Live t → t.id ∈ s'.used := by
  intro t hl
  rcases hm.live hl with hl | ⟨_,hused⟩
  · exact hm.used _ (h.rows t hl)
  · exact hused

theorem SpentOnce.step_busy (h : SpentOnce srv s) (hm : Moves srv s s') : ∀ i ∈ s'.issued, s'.tasks i.task ≠ .idle := by
  intro i hi
  rcases hm.issued_cases with heq | ⟨j,hj⟩
  · rw [heq] at hi
    exact hm.busy (h.busy i hi)
  · rw [hj.issued] at hi
    rcases List.mem_cons.mp hi with rfl | hi
    · exact hj.busy
    · exact hm.busy (h.busy i hi)

theorem SpentOnce.step_issued (h : SpentOnce srv s) (hm : Moves srv s s') :
    ∀ i ∈ s'.issued, ∀ t, i.pending.source.ticket = some t → t.Spends srv → s'.Over t := by
  intro i hi t ht hspends
  rcases hm.issued_cases with heq | ⟨j,hj⟩
  · rw [heq] at hi
    exact hm.over (h.issued i hi t ht hspends)
  · rw [hj.issued] at hi
    rcases List.mem_cons.mp hi with rfl | hi
    · have hclaimed : (s.tasks i.task).claimed = some i.pending := by rw [hj.task]; rfl
      exact hm.over (h.claimed _ _ t hclaimed ht hspends).1
    · exact hm.over (h.issued i hi t ht hspends)

/-- Nothing was issued or claimed for a row that is still live. -/
theorem SpentOnce.of_live (h : SpentOnce srv s) {t : Ticket} (hl : s.Live t) (hspends : t.Spends srv) :
    (∀ i ∈ s.issued, i.pending.source.ticket ≠ some t) ∧
      ∀ w p, (s.tasks w).claimed = some p → p.source.ticket ≠ some t := by
  constructor
  · intro i hi ht
    exact (h.issued i hi t ht hspends).2 hl
  · intro w p hp ht
    exact (h.claimed w p t hp ht hspends).1.2 hl

theorem SpentOnce.step_claimed (h : SpentOnce srv s) (hm : Moves srv s s') :
    ∀ w p t, (s'.tasks w).claimed = some p → p.source.ticket = some t → t.Spends srv →
      s'.Over t ∧ (∀ i ∈ s'.issued, i.pending.source.ticket ≠ some t) ∧
        ∀ w' p', w' ≠ w → (s'.tasks w').claimed = some p' → p'.source.ticket ≠ some t := by
  intro w p t hp ht hspends
  -- a task that claims `t` now found it live, so nobody else had claimed it
  have hnew : ∀ {w₁ p₁}, Claims srv s s' w₁ p₁ → p₁.source.ticket = some t →
      s.Live t ∧ s'.Over t ∧ ∀ w' p', w' ≠ w₁ → (s'.tasks w').claimed = some p' → p'.source.ticket ≠ some t := by
    intro w₁ p₁ hc ht₁
    obtain ⟨hl,hover⟩ := spend_eq_true ht₁ hc.answer hc.store
    refine ⟨hl,⟨hc.used ▸ h.rows t hl,hover hspends⟩,fun w' p' hw' hp' => ?_⟩
    rw [hc.others w' hw'] at hp'
    exact (h.of_live hl hspends).2 w' p' hp'
  rcases hm.claimed_cases hp with hold | hfree | hclaims
  · obtain ⟨hover,hissued,hothers⟩ := h.claimed w p t hold ht hspends
    refine ⟨hm.over hover,?_,fun w' p' hw' hp' ht' => ?_⟩
    · rcases hm.issued_cases with heq | ⟨j,hj⟩
      · rw [heq]
        exact hissued
      · rw [hj.issued]
        intro i hi
        rcases List.mem_cons.mp hi with rfl | hi
        · -- the token just issued was another task's
          have hw : i.task ≠ w := by
            rintro rfl
            rw [hj.after] at hp
            cases hp
          exact hothers i.task i.pending hw (by rw [hj.task]; rfl)
        · exact hissued i hi
    · rcases hm.claimed_cases hp' with hold' | hfree' | hclaims'
      · exact hothers w' p' hw' hold' ht'
      · exact hfree' (Source.needsSpending_of_ticket ht')
      · exact hover.2 (hnew hclaims' ht').1
  · exact absurd (Source.needsSpending_of_ticket ht) hfree
  · obtain ⟨hl,hover,hothers⟩ := hnew hclaims ht
    exact ⟨hover,hclaims.issued ▸ (h.of_live hl hspends).1,hothers⟩

theorem SpentOnce.step_once (h : SpentOnce srv s) (hm : Moves srv s s') :
    ∀ t, t.Spends srv → (s'.issued.filter (·.isFor t)).length ≤ 1 := by
  intro t hspends
  rcases hm.issued_cases with heq | ⟨j,hj⟩
  · rw [heq]
    exact h.once t hspends
  · rw [hj.issued]
    by_cases ht : j.pending.source.ticket = some t
    · have hclaimed : (s.tasks j.task).claimed = some j.pending := by rw [hj.task]; rfl
      have hnone : s.issued.filter (·.isFor t) = [] := by
        refine List.filter_eq_nil_iff.mpr fun i hi => ?_
        simpa [Issue.isFor] using (h.claimed _ _ t hclaimed ht hspends).2.1 i hi
      rw [List.filter_cons_of_pos (by simpa [Issue.isFor] using ht),hnone]
      exact Nat.le_refl 1
    · rw [List.filter_cons_of_neg (by simpa [Issue.isFor] using ht)]
      exact h.once t hspends

theorem SpentOnce.step (h : SpentOnce srv s) (hm : Moves srv s s') : SpentOnce srv s' :=
  ⟨h.step_rows hm,h.step_busy hm,h.step_issued hm,h.step_claimed hm,h.step_once hm⟩

/-- A ticket that is over, seen from a state in which some tasks had no request yet: those
tasks never get a token for it. -/
structure Closed (idle : ℕ → Prop) (t : Ticket) (s : State) : Prop where
  ended : s.Over t
  claimed : ∀ w, idle w → ∀ p, (s.tasks w).claimed = some p → p.source.ticket ≠ some t
  issued : ∀ i ∈ s.issued, idle i.task → i.pending.source.ticket ≠ some t

theorem Closed.step {idle : ℕ → Prop} {t : Ticket} (h : Closed idle t s) (hm : Moves srv s s') : Closed idle t s' where
  ended := hm.over h.ended
  claimed w hw p hp ht := by
    rcases hm.claimed_cases hp with hold | hfree | hclaims
    · exact h.claimed w hw p hold ht
    · exact hfree (Source.needsSpending_of_ticket ht)
    · exact h.ended.2 (spend_eq_true ht hclaims.answer hclaims.store).1
  issued i hi hw ht := by
    rcases hm.issued_cases with heq | ⟨j,hj⟩
    · rw [heq] at hi
      exact h.issued i hi hw ht
    · rw [hj.issued] at hi
      rcases List.mem_cons.mp hi with rfl | hi
      · exact h.claimed i.task hw i.pending (by rw [hj.task]; rfl) ht
      · exact h.issued i hi hw ht

theorem SpentOnce.closed (h : SpentOnce srv s) {t : Ticket} (ho : s.Over t) : Closed (fun w => s.tasks w = .idle) t s where
  ended := ho
  claimed w hw p hp := by
    rw [hw] at hp
    cases hp
  issued i hi hw := absurd hw (h.busy i hi)

/-- Whatever is inserted between the store calls of the requests: a code is issued one
access token at most, and so is a refresh token under rotation, and is over from then on.
Once a code or a refresh token is over, its row revoked or purged, no request that begins
later is issued a token for it. -/
theorem run_spent_once (srv : AuthorizationServer) (labels : List Label)
    (hfresh : Trace.Along srv.step Fresh init labels) :
    Trace.Always srv.step (fun s => (∀ id, (s.issued.filter (·.isFor (.code id))).length ≤ 1) ∧
      (srv.rotateRefreshTokens = true → ∀ id, (s.issued.filter (·.isFor (.refresh id))).length ≤ 1) ∧
      ∀ i ∈ s.issued, ∀ t, i.isFor t = true → t.Spends srv → s.Over t) init labels ∧
    ∀ before after, labels = before ++ after → ∀ t, (Trace.run srv.step init before).Over t →
      ∀ i ∈ (Trace.run srv.step init labels).issued,
        (Trace.run srv.step init before).tasks i.task = .idle → i.isFor t = false := by
  have hinv : ∀ {labels : List Label}, Trace.Along srv.step Fresh init labels →
      Trace.Always srv.step (SpentOnce srv) init labels := fun h =>
    Trace.always_of_along (fun s a h hf => h.step (step_moves srv hf)) (spentOnce_init srv) h
  constructor
  · refine (hinv hfresh).mono fun s h => ⟨fun id => h.once _ trivial,fun hrotate id => h.once _ hrotate,?_⟩
    exact fun i hi t ht hspends => h.issued i hi t (of_decide_eq_true ht) hspends
  · rintro before after rfl t hover i hi hidle
    obtain ⟨hbefore,hafter⟩ := Trace.along_append.mp hfresh
    have hclosed := Trace.always_of_along (fun s a h hf => Closed.step h (step_moves srv hf))
      ((hinv hbefore).last.closed hover) hafter
    rw [Trace.run_append] at hi
    exact decide_eq_false (hclosed.last.issued i hi hidle)

theorem race_spent_once :
    (∀ id, ((Trace.run (Small.server []).step init Small.race).issued.filter (·.isFor (.code id))).length ≤ 1) ∧
      (Trace.run (Small.server []).step init Small.race).issued.length = 1 :=
  ⟨fun id => (run_spent_once _ _ (by decide)).1.last.1 id,by decide⟩

end Rainier.OAuth
