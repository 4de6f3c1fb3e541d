import Rainier.Queue.DatabaseQueue
import Rainier.Support.Trace

/-! # A row is held by one worker

Every reservation not yet settled is written in its row, and every reserved row
belongs to such a reservation. As long as each is settled before its deadline,
`reclaim_expired` finds nothing to free, and then only the holder's own
settling statement can make a row claimable again.
-/
namespace Rainier.Queue.DatabaseQueue
variable {n : ℕ}

/-- The job a worker holds or is settling. -/
def Phase.job : Phase → Option QueuedJob
  | .holding job => some job
  | .acknowledging job => some job
  | .releasing job _ => some job
  | .recording job _ _ => some job
  | .discarding job => some job
  | _ => none

/-- The rows a worker has read and may still write. -/
def Phase.candidates : Phase → List JobRow
  | .claiming rows => rows
  | .updating row _ rest => row :: rest
  | _ => []

/-- The rows a worker is about to write back whole. -/
def Phase.stale : Phase → List JobRow
  | .reclaiming rows => rows
  | _ => []

/-- The clock reading a worker will compare rows with. -/
def Phase.reading : Phase → Option ℕ
  | .selecting _ now => some now
  | .sweeping now => some now
  | _ => none

/-- Rows and unsettled reservations say the same. -/
structure Guarded (s : World n) : Prop where
  keys : (s.rows.map JobRow.id).Nodup
  known : ∀ row ∈ s.rows, row.id ∈ s.pushed
  once : (s.reservations.map Reservation.id).Nodup
  marked : ∀ r ∈ s.reservations, ∃ row ∈ s.rows, row.id = r.id ∧ row.reservedAt.isSome = true ∧
    row.reservedUntil = some r.until'
  held : ∀ row ∈ s.rows, row.reservedAt.isSome = true → ∃ r ∈ s.reservations, r.id = row.id ∧
    row.reservedUntil = some r.until'
  owner : ∀ w job, (s.workers w).job = some job → ∃ r ∈ s.reservations, r.worker = w ∧ r.id = job.id
  stale : ∀ w, (s.workers w).stale = []
  reading : ∀ w now, (s.workers w).reading = some now → now ≤ s.clock

variable {q : DatabaseQueue} {s : World n} {w : Fin n}

theorem guarded_init (n : ℕ) : Guarded (World.init n) where
  keys := List.nodup_nil
  known _ h := by cases h
  once := List.nodup_nil
  marked _ h := by cases h
  held _ h := by cases h
  owner _ _ h := by cases h
  stale _ := rfl
  reading _ _ h := by cases h

/-- A worker that moves on without a new job, stale row or later reading. -/
theorem Guarded.goto (h : Guarded s) {phase : Phase} (hjob : ∀ job, phase.job = some job → (s.workers w).job = some job)
    (hstale : phase.stale = []) (hread : ∀ now, phase.reading = some now → now ≤ s.clock) :
    Guarded (s.goto w phase) where
  keys := h.keys
  known := h.known
  once := h.once
  marked := h.marked
  held := h.held
  owner w' job hj := by
    simp only [World.goto,Function.update_apply] at hj
    split at hj
    next he => exact he ▸ h.owner w job (hjob job hj)
    · exact h.owner w' job hj
  stale w' := by
    simp only [World.goto,Function.update_apply]
    split
    · exact hstale
    · exact h.stale w'
  reading w' now hn := by
    simp only [World.goto,Function.update_apply] at hn
    split at hn
    · exact hread now hn
    · exact h.reading w' now hn

theorem Guarded.tick (h : Guarded s) (elapsed : ℕ) : Guarded { s with clock := s.clock + elapsed } where
  keys := h.keys
  known := h.known
  once := h.once
  marked := h.marked
  held := h.held
  owner := h.owner
  stale := h.stale
  reading w now hn := Nat.le_add_right_of_le (h.reading w now hn)

theorem Guarded.push (h : Guarded s) {job : QueuedJob} (hfresh : job.id ∉ s.pushed) :
    Guarded { s with rows := s.rows ++ [.fromQueued job], pushed := s.pushed ++ [job.id] } where
  keys := by
    rw [List.map_append,List.nodup_append]
    refine ⟨h.keys,by simp,?_⟩
    rintro id hid _ hjob rfl
    obtain ⟨row,hrow,rfl⟩ := List.mem_map.mp hid
    rw [List.map_singleton,List.mem_singleton] at hjob
    have he : row.id = job.id := hjob
    exact hfresh (he ▸ h.known row hrow)
  known row hrow := by
    rcases List.mem_append.mp hrow with hrow | hrow
    · exact List.mem_append_left _ (h.known row hrow)
    · rw [List.mem_singleton.mp hrow]
      exact List.mem_append_right _ List.mem_cons_self
  once := h.once
  marked r hr := by
    obtain ⟨row,hrow,hm⟩ := h.marked r hr
    exact ⟨row,List.mem_append_left _ hrow,hm⟩
  held row hrow hres := by
    rcases List.mem_append.mp hrow with hrow | hrow
    · exact h.held row hrow hres
    · rw [List.mem_singleton.mp hrow] at hres
      cases hres
  owner := h.owner
  stale := h.stale
  reading := h.reading

/-- A row that can be claimed is under no reservation. -/
theorem Guarded.unheld (h : Guarded s) {stored : JobRow} {id : String} (hs : stored ∈ s.rows)
    (hc : claimable id stored = true) : ∀ r ∈ s.reservations, r.id ≠ id := by
  intro r hr he
  obtain ⟨row,hrow,hid,hres,_⟩ := h.marked r hr
  simp only [claimable,sameId,Bool.and_eq_true,beq_iff_eq] at hc
  have hsame : row = stored := Table.eq_of_key h.keys hrow hs (by rw [hid,he,hc.1])
  rw [hsame] at hres
  simp_all

/-- The state a successful claim leaves. -/
theorem Guarded.claim (h : Guarded s) {row stored : JobRow} {now : ℕ} {phase : Phase} {found : List Claim}
    (hs : stored ∈ s.rows) (hc : claimable row.id stored = true)
    (hjob : ∀ job, phase.job = some job → job.id = row.id) (hstale : phase.stale = [])
    (hread : phase.reading = none) :
    Guarded { s with
      rows := Table.updateWhere (claimable row.id) (q.claimed row now) s.rows
      workers := Function.update s.workers w phase
      reservations := s.reservations ++ [⟨w,row.id,q.reservedUntil now⟩]
      claims := found } where
  keys := Table.keys_updateWhere h.keys (fun _ => rfl)
  known r hr := by
    rcases Table.mem_updateWhere.mp hr with ⟨old,hold,_,rfl⟩ | ⟨hr,_⟩
    · exact h.known old hold
    · exact h.known r hr
  once := by
    rw [List.map_append,List.nodup_append]
    refine ⟨h.once,by simp,?_⟩
    rintro id hid _ hnew rfl
    obtain ⟨r,hr,rfl⟩ := List.mem_map.mp hid
    rw [List.map_singleton,List.mem_singleton] at hnew
    exact h.unheld hs hc r hr hnew
  marked r hr := by
    rcases List.mem_append.mp hr with hr | hr
    · obtain ⟨old,hold,hid,hres,huntil⟩ := h.marked r hr
      refine ⟨old,Table.mem_updateWhere.mpr (.inr ⟨hold,?_⟩),hid,hres,huntil⟩
      simp [claimable,hres]
    · rw [List.mem_singleton.mp hr]
      refine ⟨q.claimed row now stored,Table.mem_updateWhere.mpr (.inl ⟨stored,hs,hc,rfl⟩),?_,rfl,rfl⟩
      simp only [claimable,sameId,Bool.and_eq_true,beq_iff_eq] at hc
      exact hc.1
  held r hr hres := by
    rcases Table.mem_updateWhere.mp hr with ⟨old,hold,hp,rfl⟩ | ⟨hr,_⟩
    · refine ⟨_,List.mem_append_right _ List.mem_cons_self,?_,rfl⟩
      simp only [claimable,sameId,Bool.and_eq_true,beq_iff_eq] at hp
      exact hp.1.symm
    · obtain ⟨r',hr',hm⟩ := h.held r hr hres
      exact ⟨r',List.mem_append_left _ hr',hm⟩
  owner w' job hj := by
    simp only [Function.update_apply] at hj
    split at hj
    next he => exact ⟨_,List.mem_append_right _ List.mem_cons_self,he.symm,(hjob job hj).symm⟩
    · obtain ⟨r,hr,hm⟩ := h.owner w' job hj
      exact ⟨r,List.mem_append_left _ hr,hm⟩
  stale w' := by
    simp only [Function.update_apply]
    split
    · exact hstale
    · exact h.stale w'
  reading w' now' hn := by
    simp only [Function.update_apply] at hn
    split at hn
    · rw [hread] at hn
      cases hn
    · exact h.reading w' now' hn

/-- A settling statement that leaves the other rows alone and its own row free. -/
theorem Guarded.settle (h : Guarded s) {job : QueuedJob} (hw : (s.workers w).job = some job) {rows : List JobRow}
    (hkeys : (rows.map JobRow.id).Nodup) (hknown : ∀ row ∈ rows, row.id ∈ s.pushed)
    (hothers : ∀ row, row.id ≠ job.id → (row ∈ rows ↔ row ∈ s.rows))
    (hfree : ∀ row ∈ rows, row.id = job.id → row.reservedAt = none) : Guarded (s.settle w job.id rows) := by
  obtain ⟨own,hown,howner,hid⟩ := h.owner w job hw
  have hkeep : ∀ r, r ∈ s.reservations.filter (fun r => !(r.worker == w && r.id == job.id)) ↔
      r ∈ s.reservations ∧ r.id ≠ job.id := by
    intro r
    simp only [List.mem_filter,Bool.not_eq_true',Bool.and_eq_false_iff,beq_eq_false_iff_ne]
    refine and_congr_right (fun hr => ⟨?_,.inr⟩)
    rintro (hne | hne) he
    · have : r = own := List.inj_on_of_nodup_map h.once hr hown (he.trans hid.symm)
      exact hne (this ▸ howner)
    · exact hne he
  constructor
  · exact hkeys
  · exact hknown
  · exact h.once.sublist (List.filter_sublist.map _)
  · intro r hr
    obtain ⟨hr,hne⟩ := (hkeep r).mp hr
    obtain ⟨row,hrow,hrid,hm⟩ := h.marked r hr
    exact ⟨row,(hothers row (hrid ▸ hne)).mpr hrow,hrid,hm⟩
  · intro row hrow hres
    have hne : row.id ≠ job.id := by
      intro he
      rw [hfree row hrow he] at hres
      cases hres
    obtain ⟨r,hr,hrid,hm⟩ := h.held row ((hothers row hne).mp hrow) hres
    exact ⟨r,(hkeep r).mpr ⟨hr,hrid ▸ hne⟩,hrid,hm⟩
  · intro w' job' hj
    simp only [World.settle,World.goto,Function.update_apply] at hj
    split at hj
    · cases hj
    next hne =>
      obtain ⟨r,hr,hrw,hrid⟩ := h.owner w' job' hj
      refine ⟨r,(hkeep r).mpr ⟨hr,?_⟩,hrw,hrid⟩
      intro he
      have : r = own := List.inj_on_of_nodup_map h.once hr hown (he.trans hid.symm)
      exact hne (hrw ▸ this ▸ howner)
  · intro w'
    simp only [World.settle,World.goto,Function.update_apply]
    split
    · rfl
    · exact h.stale w'
  · intro w' now hn
    simp only [World.settle,World.goto,Function.update_apply] at hn
    split at hn
    · cases hn
    · exact h.reading w' now hn

theorem Guarded.settle_delete (h : Guarded s) {job : QueuedJob} (hw : (s.workers w).job = some job) :
    Guarded (s.settle w job.id (Table.deleteWhere (sameId job.id) s.rows)) := by
  refine h.settle hw (Table.keys_deleteWhere h.keys) ?_ ?_ ?_
  · intro row hrow
    exact h.known row (Table.mem_deleteWhere.mp hrow).1
  · intro row hne
    simp [Table.mem_deleteWhere,sameId,hne]
  · intro row hrow he
    have := (Table.mem_deleteWhere.mp hrow).2
    simp [sameId,he] at this

theorem Guarded.settle_release (h : Guarded s) {job : QueuedJob} (hw : (s.workers w).job = some job) (at' : ℕ) :
    Guarded (s.settle w job.id (Table.updateWhere (sameId job.id) (released at') s.rows)) := by
  refine h.settle hw (Table.keys_updateWhere h.keys (fun _ => rfl)) ?_ ?_ ?_
  · intro row hrow
    rcases Table.mem_updateWhere.mp hrow with ⟨old,hold,_,rfl⟩ | ⟨hrow,_⟩
    · exact h.known old hold
    · exact h.known row hrow
  · intro row hne
    rw [Table.mem_updateWhere]
    constructor
    · rintro (⟨old,_,hp,rfl⟩ | ⟨hrow,_⟩)
      · have he : old.id = job.id := by simpa [sameId] using hp
        exact absurd he hne
      · exact hrow
    · intro hrow
      exact .inr ⟨hrow,by simpa [sameId] using hne⟩
  · intro row hrow he
    rcases Table.mem_updateWhere.mp hrow with ⟨old,_,_,rfl⟩ | ⟨_,hp⟩
    · rfl
    · simp [sameId,he] at hp

theorem Guarded.runClaim (h : Guarded s) (w : Fin n) (row : JobRow) (now : ℕ) (rest : List JobRow) :
    Guarded (q.runClaim s w row now rest) := by
  unfold DatabaseQueue.runClaim
  cases hf : s.rows.find? (claimable row.id) with
  | none => exact h.goto (fun _ hj => by cases hj) rfl (fun _ hn => by cases hn)
  | some stored =>
    refine h.claim (List.mem_of_find?_eq_some hf) (List.find?_some hf) ?_ ?_ ?_
    · intro job hj
      unfold JobRow.intoQueued at hj
      split at hj
      next he =>
        split at he
        · cases he
          cases hj
          rfl
        · cases he
      · cases hj
    · split <;> rfl
    · split <;> rfl

/-- No statement breaks the invariant, a sweep's only if it finds no lapsed reservation. -/
theorem guarded_execute (h : Guarded s) (w : Fin n) (order : List JobRow)
    (hsweep : ∀ now, s.workers w = .sweeping now → ∀ row ∈ s.rows, lapsed now row = false) :
    Guarded (q.step s (.execute w order)) := by
  simp only [step,execute]
  split
  next queue now hw =>
    unfold World.receive
    split
    · exact h.goto (fun _ hj => by cases hj) rfl (fun _ hn => by cases hn)
    · exact h
  next row now rest hw => exact h.runClaim w row now rest
  next job hw => exact h.settle_delete (by rw [hw]; rfl)
  next job at' hw => exact h.settle_release (by rw [hw]; rfl) at'
  next job error at' hw =>
    unfold recordFailure
    split
    · exact h.goto (fun _ hj => by cases hj) rfl (fun _ hn => by cases hn)
    · have hgo : Guarded (s.goto w (.discarding job)) := h.goto (fun _ hj => hw ▸ hj) rfl (fun _ hn => by cases hn)
      exact ⟨hgo.keys,hgo.known,hgo.once,hgo.marked,hgo.held,hgo.owner,hgo.stale,hgo.reading⟩
  next job hw => exact h.settle_delete (by rw [hw]; rfl)
  next now hw =>
    unfold World.receive
    split
    next rows hrows =>
      have hnone : rows = [] := by
        refine List.eq_nil_iff_forall_not_mem.mpr ?_
        intro row hrow
        obtain ⟨hmem,hp⟩ := Table.mem_of_select hrows hrow
        rw [hsweep now hw row hmem] at hp
        cases hp
      rw [hnone]
      exact h.goto (fun _ hj => by cases hj) rfl (fun _ hn => by cases hn)
    · exact h
  next row rest hw =>
    have := h.stale w
    rw [hw] at this
    cases this
  · exact h.goto (fun _ hj => by cases hj) rfl (fun _ hn => by cases hn)
  · exact h

/-- A step keeps rows and reservations in agreement, unless it is a sweep that finds a lapsed row. -/
theorem guarded_step (h : Guarded s) (a : Label n)
    (hsweep : ∀ w order now, a = .execute w order → s.workers w = .sweeping now →
      ∀ row ∈ s.rows, lapsed now row = false) : Guarded (q.step s a) := by
  cases a with
  | tick elapsed => exact h.tick elapsed
  | push job =>
    simp only [step]
    split
    next hnew => exact h.push hnew.2
    · exact h
  | reserve w queue =>
    simp only [step]
    split
    · exact h.goto (fun _ hj => by cases hj) rfl (fun _ hn => by cases hn; exact Nat.le_refl _)
    · exact h
  | claim w =>
    simp only [step]
    split
    · exact h.goto (fun _ hj => by cases hj) rfl (fun _ hn => by cases hn)
    · exact h.goto (fun _ hj => by cases hj) rfl (fun _ hn => by cases hn)
    · exact h
  | acknowledge w =>
    simp only [step]
    split
    next hw => exact h.goto (fun _ hj => hw ▸ hj) rfl (fun _ hn => by cases hn)
    · exact h
  | release w delay =>
    simp only [step]
    split
    next hw => exact h.goto (fun _ hj => hw ▸ hj) rfl (fun _ hn => by cases hn)
    · exact h
  | fail w error =>
    simp only [step]
    split
    next hw => exact h.goto (fun _ hj => hw ▸ hj) rfl (fun _ hn => by cases hn)
    · exact h
  | reclaimExpired w =>
    simp only [step]
    split
    · exact h.goto (fun _ hj => by cases hj) rfl (fun _ hn => by cases hn; exact Nat.le_refl _)
    · exact h
  | abandon w => exact h.goto (fun _ hj => by cases hj) rfl (fun _ hn => by cases hn)
  | execute w order => exact guarded_execute h w order fun now hw => hsweep w order now rfl hw

/-! ## Exclusion -/

/-- Every reservation still open is within its deadline. -/
def OnTime (s : World n) : Prop := ∀ r ∈ s.reservations, s.clock ≤ r.until'

instance (s : World n) : Decidable (OnTime s) := inferInstanceAs (Decidable (∀ r ∈ s.reservations, _))

/-- No row is held by two workers, or under two reservations. -/
structure Exclusive (s : World n) : Prop where
  workers : ∀ w w' job job', (s.workers w).job = some job → (s.workers w').job = some job' →
    job.id = job'.id → w = w'
  reservations : (s.reservations.map Reservation.id).Nodup

/-- If the step is a claim that succeeds, its row was under no reservation. -/
def ClaimsUnheld (s : World n) : Label n → Prop
  | .execute w _ => match s.workers w with
    | .updating row _ _ => s.rows.any (claimable row.id) = true → ∀ r ∈ s.reservations, r.id ≠ row.id
    | _ => True
  | _ => True

theorem Guarded.exclusive (h : Guarded s) : Exclusive s where
  workers w w' job job' hw hw' he := by
    obtain ⟨r,hr,hrw,hrid⟩ := h.owner w job hw
    obtain ⟨r',hr',hrw',hrid'⟩ := h.owner w' job' hw'
    have : r = r' := List.inj_on_of_nodup_map h.once hr hr' (hrid.trans (he.trans hrid'.symm))
    exact hrw.symm.trans (this ▸ hrw')
  reservations := h.once

theorem Guarded.claimsUnheld (h : Guarded s) (a : Label n) : ClaimsUnheld s a := by
  cases a with
  | execute w order =>
    simp only [ClaimsUnheld]
    split
    next row now rest _ =>
      intro hany
      obtain ⟨stored,hs,hc⟩ := List.any_eq_true.mp hany
      exact h.unheld hs hc
    · trivial
  | _ => trivial

/-- While every reservation is on time there is nothing to reclaim. -/
theorem Guarded.not_lapsed (h : Guarded s) (ht : OnTime s) {now : ℕ} (hw : s.workers w = .sweeping now)
    {row : JobRow} (hrow : row ∈ s.rows) : lapsed now row = false := by
  have hnow : now ≤ s.clock := h.reading w now (by rw [hw]; rfl)
  cases hres : row.reservedAt.isSome with
  | false => simp [lapsed,hres]
  | true =>
    obtain ⟨r,hr,_,huntil⟩ := h.held row hrow hres
    have := ht r hr
    simp only [lapsed,hres,huntil,Option.any_some,Bool.true_and,decide_eq_false_iff_not]
    omega

/-- In a run in which every reservation is settled within its deadline, no row is
ever held twice, and no claim succeeds on a row that is held. -/
theorem run_exclusive (q : DatabaseQueue) (labels : List (Label n))
    (h : Trace.Always q.step OnTime (World.init n) labels) :
    Trace.Always q.step Exclusive (World.init n) labels ∧
      Trace.Along q.step ClaimsUnheld (World.init n) labels := by
  have htime : Trace.Along q.step (fun s _ => OnTime s) (World.init n) labels := h.along (fun _ _ hs _ => hs)
  have hguard : Trace.Always q.step Guarded (World.init n) labels := by
    refine Trace.always_of_along ?_ (guarded_init n) htime
    intro s a hs ht
    refine guarded_step hs a ?_
    intro w order now _ hw row hrow
    exact hs.not_lapsed ht hw hrow
  exact ⟨hguard.mono (fun _ hs => hs.exclusive),hguard.along (fun _ a hs _ => hs.claimsUnheld a)⟩

def firstWorker : Fin 2 := 0

def secondWorker : Fin 2 := 1

def mailJob : QueuedJob := .fresh "1" "mail.welcome" .null "default" 3 0

/-- Two workers read the same row; the first to claim it keeps it through the
other's sweep, and settles it a second later. -/
def contendedRun : List (Label 2) :=
  [.push mailJob,.reserve firstWorker "default",.reserve secondWorker "default",
    .execute firstWorker [.fromQueued mailJob],.execute secondWorker [.fromQueued mailJob],.claim firstWorker,
    .claim secondWorker,.execute firstWorker [],.execute secondWorker [],.claim secondWorker,
    .reclaimExpired secondWorker,.execute secondWorker [],.tick (Duration.fromSecs 1),.acknowledge firstWorker,
    .execute firstWorker []]

theorem contended_run_exclusive :
    Trace.Always new.step OnTime (World.init 2) contendedRun ∧
      Trace.Always new.step Exclusive (World.init 2) contendedRun ∧
      Trace.Along new.step ClaimsUnheld (World.init 2) contendedRun :=
  have h : Trace.Always new.step OnTime (World.init 2) contendedRun := by decide
  ⟨h,run_exclusive new contendedRun h⟩

end Rainier.Queue.DatabaseQueue
