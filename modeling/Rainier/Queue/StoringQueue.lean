import Rainier.Queue.MemoryQueue

/-! # Drivers that store jobs

What a dispatcher and the workers may rely on from a driver that stores jobs,
whichever it is. A call takes effect in full or not at all, and a call that does
not take effect says so; one that does may still be answered with an error, when
the answer is what got lost. A delivery is current as long as the driver's
settling calls act on it: a reservation that lapsed may leave a worker with one
that is not. `Consistent s held` relates the store to the deliveries that are
out, for a driver that has something to keep there.
-/
namespace Rainier.Queue

/-- The jobs in a store that are pending, reserved or awaiting retry, by id and
unique key. -/
abbrev Contents := String → Option String → Prop

namespace Contents

def added (jobs : Contents) (job : QueuedJob) : Contents := fun id key =>
  jobs id key ∨ (id = job.id ∧ key = job.uniqueKey)

def removed (jobs : Contents) (job : QueuedJob) : Contents := fun id key => jobs id key ∧ id ≠ job.id

end Contents

/-- An attempt that is not repeated ends the job. -/
def Settlement.finishes : Settlement → Bool
  | .release _ => false
  | _ => true

/-- The delivery a reservation makes, if it makes one. -/
def handedOut : Except Error (Option QueuedJob) → List QueuedJob
  | .ok (some job) => [job]
  | _ => []

structure StoringQueue (σ : Type) extends QueueDriver σ where
  new : σ
  Stored : σ → Contents
  Current : σ → QueuedJob → Prop
  Consistent : σ → List QueuedJob → Prop
  new_stored : ∀ id key, ¬ Stored new id key
  new_consistent : Consistent new []
  current_stored : ∀ {s job}, Current s job → Stored s job.id job.uniqueKey
  lose_consistent : ∀ {s held} k, Consistent s held → Consistent s (held.eraseIdx k)
  push_stored : ∀ s now job, Stored (push s now job).2 = (Stored s).added job ∨
    (∃ e, (push s now job).1 = .error e) ∧ Stored (push s now job).2 = Stored s
  push_consistent : ∀ {s held} now {job}, Consistent s held → (∀ key, ¬ Stored s job.id key) →
    (∀ other ∈ held, other.id ≠ job.id) → Consistent (push s now job).2 held
  reserve_stored : ∀ s now queue, Stored (reserve s now queue).2 = Stored s
  reserve_delivers : ∀ {s now queue job}, (reserve s now queue).1 = .ok (some job) → Stored s job.id job.uniqueKey
  reserve_consistent : ∀ {s held} now queue, Consistent s held →
    Consistent (reserve s now queue).2 (held ++ handedOut (reserve s now queue).1)
  settle_stale : ∀ {s held job} now c, Consistent s held → job ∈ held → ¬ Current s job →
    Stored (toQueueDriver.settle s now job c).2 = Stored s
  settle_kept : ∀ {s held job} now {c}, Consistent s held → job ∈ held → Current s job → c.finishes = false →
    Stored (toQueueDriver.settle s now job c).2 = Stored s
  settle_finished : ∀ {s held job} now {c}, Consistent s held → job ∈ held → Current s job → c.finishes = true →
    Stored (toQueueDriver.settle s now job c).2 = (Stored s).removed job ∨
      (∃ e, (toQueueDriver.settle s now job c).1 = .error e) ∧
        Stored (toQueueDriver.settle s now job c).2 = Stored s
  settle_consistent : ∀ {s held k job} now c, Consistent s held → held[k]? = some job →
    Consistent (toQueueDriver.settle s now job c).2 (held.eraseIdx k)

/-! ## The in-process queue -/

namespace MemoryQueue

def Stored (m : MemoryQueue) : Contents := fun id key =>
  ∃ job : QueuedJob, ((∃ q, job ∈ m.pending q) ∨ job ∈ m.reserved) ∧ job.id = id ∧ job.uniqueKey = key

/-- Every job is in one place, and what is out is reserved. -/
structure Consistent (m : MemoryQueue) (held : List QueuedJob) : Prop where
  held : held.Sublist m.reserved
  pending : ∀ q, ((m.pending q).map QueuedJob.id).Nodup
  lanes : ∀ q q' job job', job ∈ m.pending q → job' ∈ m.pending q' → job.id = job'.id → q = q'
  reserved : (m.reserved.map QueuedJob.id).Nodup
  apart : ∀ q job job', job ∈ m.pending q → job' ∈ m.reserved → job.id ≠ job'.id

variable {m : MemoryQueue} {held : List QueuedJob}

theorem mem_pending_push {job other : QueuedJob} {q : String} :
    other ∈ (m.push job).pending q ↔ other ∈ m.pending q ∨ (q = job.queue ∧ other = job) := by
  by_cases hq : q = job.queue
  · subst hq
    simp [push]
  · simp [push,hq]

theorem push_stored (m : MemoryQueue) (job : QueuedJob) : (m.push job).Stored = m.Stored.added job := by
  funext id key
  apply propext
  constructor
  · rintro ⟨other,⟨q,hq⟩ | hr,hid,hkey⟩
    · rcases mem_pending_push.mp hq with h | ⟨_,rfl⟩
      · exact .inl ⟨other,.inl ⟨q,h⟩,hid,hkey⟩
      · exact .inr ⟨hid.symm,hkey.symm⟩
    · exact .inl ⟨other,.inr hr,hid,hkey⟩
  · rintro (⟨other,⟨q,hq⟩ | hr,hid,hkey⟩ | ⟨rfl,rfl⟩)
    · exact ⟨other,.inl ⟨q,mem_pending_push.mpr (.inl hq)⟩,hid,hkey⟩
    · exact ⟨other,.inr hr,hid,hkey⟩
    · exact ⟨job,.inl ⟨job.queue,mem_pending_push.mpr (.inr ⟨rfl,rfl⟩)⟩,rfl,rfl⟩

/-- A job that is nowhere in the queue may be pushed. -/
theorem Consistent.push (h : Consistent m held) {job : QueuedJob} (hp : ∀ q, ∀ other ∈ m.pending q, other.id ≠ job.id)
    (hr : ∀ other ∈ m.reserved, other.id ≠ job.id) : Consistent (m.push job) held where
  held := h.held
  pending q := by
    by_cases hq : q = job.queue
    · subst hq
      simp only [MemoryQueue.push,Function.update_self,List.map_append,List.map_singleton]
      rw [List.nodup_append]
      refine ⟨h.pending _,by simp,?_⟩
      intro id hid id' hid' he
      rw [List.mem_singleton] at hid'
      subst hid' he
      obtain ⟨other,hother,ho⟩ := List.mem_map.mp hid
      exact hp _ other hother ho
    · simpa [MemoryQueue.push,Function.update_of_ne hq] using h.pending q
  lanes q q' one other h1 h2 he := by
    rcases mem_pending_push.mp h1 with hone | ⟨rfl,rfl⟩
    · rcases mem_pending_push.mp h2 with hother | ⟨rfl,rfl⟩
      · exact h.lanes q q' one other hone hother he
      · exact absurd he (hp q one hone)
    · rcases mem_pending_push.mp h2 with hother | ⟨rfl,rfl⟩
      · exact absurd he.symm (hp q' other hother)
      · rfl
  reserved := h.reserved
  apart q one other h1 h2 := by
    rcases mem_pending_push.mp h1 with h1 | ⟨rfl,rfl⟩
    · exact h.apart q one other h1 h2
    · exact (hr other h2).symm

theorem Consistent.unreserve (h : Consistent m held) {k : ℕ} {job : QueuedJob} (hk : held[k]? = some job) :
    Consistent (m.unreserve job) (held.eraseIdx k) where
  held := by
    have hids : (held.map QueuedJob.id).Nodup := h.reserved.sublist (h.held.map _)
    have hone : copiesOf job.id held = [job] := copiesOf_eq_singleton hids (List.mem_of_getElem? hk)
    rw [eraseIdx_eq_unreserved hk hone]
    exact h.held.filter _
  pending := h.pending
  lanes := h.lanes
  reserved := h.reserved.sublist (List.filter_sublist.map _)
  apart q one other h1 h2 := h.apart q one other h1 (List.mem_of_mem_filter h2)

theorem Consistent.unreserve_stored (h : Consistent m held) {job : QueuedJob} (hj : job ∈ held) :
    (m.unreserve job).Stored = m.Stored.removed job := by
  have hr : job ∈ m.reserved := h.held.subset hj
  funext id key
  apply propext
  constructor
  · rintro ⟨other,⟨q,hq⟩ | ho,rfl,rfl⟩
    · exact ⟨⟨other,.inl ⟨q,hq⟩,rfl,rfl⟩,h.apart q other job hq hr⟩
    · have hne := (List.mem_filter.mp ho).2
      exact ⟨⟨other,.inr (List.mem_of_mem_filter ho),rfl,rfl⟩,by simpa using hne⟩
  · rintro ⟨⟨other,⟨q,hq⟩ | ho,rfl,rfl⟩,hne⟩
    · exact ⟨other,.inl ⟨q,hq⟩,rfl,rfl⟩
    · exact ⟨other,.inr (List.mem_filter.mpr ⟨ho,by simpa using hne⟩),rfl,rfl⟩

/-- What is stored under the id of a reserved job is that job. -/
theorem Consistent.stored_reserved (h : Consistent m held) {job : QueuedJob} (hj : job ∈ held) (key : Option String) :
    m.Stored job.id key ↔ key = job.uniqueKey := by
  have hr : job ∈ m.reserved := h.held.subset hj
  constructor
  · rintro ⟨other,⟨q,hq⟩ | ho,hid,rfl⟩
    · exact absurd hid (h.apart q other job hq hr)
    · rw [List.inj_on_of_nodup_map h.reserved ho hr hid]
  · rintro rfl
    exact ⟨job,.inr hr,rfl,rfl⟩

theorem Consistent.release_stored (h : Consistent m held) {job : QueuedJob} (hj : job ∈ held) (now delay : ℕ) :
    (m.release now job delay).Stored = m.Stored := by
  rw [release,push_stored,h.unreserve_stored hj]
  funext id key
  apply propext
  by_cases hid : id = job.id
  · subst hid
    simp [Contents.added,Contents.removed,QueuedJob.delayedBy,h.stored_reserved hj]
  · simp [Contents.added,Contents.removed,QueuedJob.delayedBy,hid]

theorem Consistent.release (h : Consistent m held) {k : ℕ} {job : QueuedJob} (hk : held[k]? = some job)
    (now delay : ℕ) : Consistent (m.release now job delay) (held.eraseIdx k) := by
  have hr : job ∈ m.reserved := h.held.subset (List.mem_of_getElem? hk)
  refine (h.unreserve hk).push ?_ ?_
  · intro q other ho
    exact h.apart q other job ho hr
  · intro other ho
    simpa [QueuedJob.delayedBy] using (List.mem_filter.mp ho).2

section Reserve
variable {queue : String} {before after : List QueuedJob} {job : QueuedJob}

/-- The queue after its `job` was reserved. -/
def withReserved (m : MemoryQueue) (queue : String) (before after : List QueuedJob) (job : QueuedJob) : MemoryQueue :=
  { m with
    pending := Function.update m.pending queue (before ++ after)
    reserved := m.reserved ++ [taken job] }

theorem mem_pending_withReserved (hq : m.pending queue = before ++ job :: after) {q : String} {other : QueuedJob}
    (ho : other ∈ (m.withReserved queue before after job).pending q) : other ∈ m.pending q := by
  by_cases he : q = queue
  · subst he
    simp only [withReserved,Function.update_self,List.mem_append] at ho
    rw [hq]
    rcases ho with ho | ho
    · exact List.mem_append_left _ ho
    · exact List.mem_append_right _ (List.mem_cons_of_mem _ ho)
  · simpa [withReserved,Function.update_of_ne he] using ho

theorem withReserved_stored (hq : m.pending queue = before ++ job :: after) :
    (m.withReserved queue before after job).Stored = m.Stored := by
  have hjob : job ∈ m.pending queue := by simp [hq]
  funext id key
  apply propext
  constructor
  · rintro ⟨other,⟨q,ho⟩ | ho,rfl,rfl⟩
    · exact ⟨other,.inl ⟨q,mem_pending_withReserved hq ho⟩,rfl,rfl⟩
    · rcases List.mem_append.mp ho with ho | ho
      · exact ⟨other,.inr ho,rfl,rfl⟩
      · rw [List.mem_singleton.mp ho]
        exact ⟨job,.inl ⟨queue,hjob⟩,rfl,rfl⟩
  · rintro ⟨other,⟨q,ho⟩ | ho,rfl,rfl⟩
    · by_cases he : q = queue
      · subst he
        rw [hq,List.mem_append,List.mem_cons] at ho
        rcases ho with ho | rfl | ho
        · exact ⟨other,.inl ⟨q,by simp [withReserved,ho]⟩,rfl,rfl⟩
        · exact ⟨taken other,.inr (by simp [withReserved]),rfl,rfl⟩
        · exact ⟨other,.inl ⟨q,by simp [withReserved,ho]⟩,rfl,rfl⟩
      · exact ⟨other,.inl ⟨q,by simpa [withReserved,he] using ho⟩,rfl,rfl⟩
    · exact ⟨other,.inr (by simp [withReserved,ho]),rfl,rfl⟩

theorem Consistent.withReserved (h : Consistent m held) (hq : m.pending queue = before ++ job :: after) :
    Consistent (m.withReserved queue before after job) (held ++ [taken job]) := by
  have hjob : job ∈ m.pending queue := by simp [hq]
  have hids := h.pending queue
  rw [hq,List.map_append,List.map_cons] at hids
  have hrest : job.id ∉ (before ++ after).map QueuedJob.id := by
    rw [List.map_append]
    exact (List.nodup_middle.mp hids).notMem
  refine ⟨h.held.append (List.Sublist.refl _),?_,?_,?_,?_⟩
  · intro q
    by_cases he : q = queue
    · subst he
      simp only [MemoryQueue.withReserved,Function.update_self,List.map_append]
      exact (List.nodup_middle.mp hids).of_cons
    · simpa [MemoryQueue.withReserved,he] using h.pending q
  · intro q q' one other h1 h2 he
    exact h.lanes q q' one other (mem_pending_withReserved hq h1) (mem_pending_withReserved hq h2) he
  · simp only [MemoryQueue.withReserved,List.map_append,List.map_singleton]
    rw [List.nodup_append]
    refine ⟨h.reserved,by simp,?_⟩
    intro id hid id' hid' he
    obtain ⟨other,ho,rfl⟩ := List.mem_map.mp hid
    rw [List.mem_singleton] at hid'
    exact h.apart queue job other hjob ho (hid'.symm.trans he.symm)
  · intro q one other h1 h2 he
    rcases List.mem_append.mp h2 with h2 | h2
    · exact h.apart q one other (mem_pending_withReserved hq h1) h2 he
    · rw [List.mem_singleton.mp h2] at he
      have hqq := h.lanes q queue one job (mem_pending_withReserved hq h1) hjob he
      subst hqq
      simp only [MemoryQueue.withReserved,Function.update_self] at h1
      exact hrest (List.mem_map.mpr ⟨one,h1,he⟩)

end Reserve

theorem reserve_withReserved (m : MemoryQueue) (now : ℕ) (queue : String) :
    m.reserve now queue = (none,m) ∨ ∃ before job after, m.pending queue = before ++ job :: after ∧
      m.reserve now queue = (some (taken job),m.withReserved queue before after job) := by
  rcases reserve_cases m now queue with h | ⟨before,job,after,hq,_,h⟩
  · exact .inl h
  · exact .inr ⟨before,job,after,hq,h⟩

/-- A delivery of the in-process queue does not lapse. -/
def storing : StoringQueue MemoryQueue where
  toQueueDriver := driver
  new := .new
  Stored := Stored
  Current m job := job ∈ m.reserved
  Consistent := Consistent
  new_stored := by
    rintro id key ⟨job,⟨q,hq⟩ | hr,_⟩
    · cases hq
    · cases hr
  new_consistent :=
    ⟨List.Sublist.slnil,fun _ => List.nodup_nil,by simp [MemoryQueue.new],List.nodup_nil,by simp [MemoryQueue.new]⟩
  current_stored h := ⟨_,.inr h,rfl,rfl⟩
  lose_consistent k h := { h with held := (List.eraseIdx_sublist ..).trans h.held }
  push_stored m _ job := .inl (push_stored m job)
  push_consistent now job h hs hh := h.push (fun q other ho he => hs _ ⟨other,.inl ⟨q,ho⟩,he,rfl⟩)
    (fun other ho he => hs _ ⟨other,.inr ho,he,rfl⟩)
  reserve_stored m now queue := by
    rcases reserve_withReserved m now queue with h | ⟨before,job,after,hq,h⟩
    · simp [driver,h]
    · simp [driver,h,withReserved_stored hq]
  reserve_delivers := by
    intro m now queue got hgot
    rcases reserve_withReserved m now queue with h | ⟨before,job,after,hq,h⟩
    · simp [driver,h] at hgot
    · simp only [driver,h,Except.ok.injEq,Option.some.injEq] at hgot
      subst hgot
      exact ⟨job,.inl ⟨queue,by simp [hq]⟩,rfl,rfl⟩
  reserve_consistent := by
    intro m held now queue hc
    rcases reserve_withReserved m now queue with h | ⟨before,job,after,hq,h⟩
    · simpa [driver,h,handedOut] using hc
    · simpa [driver,h,handedOut] using hc.withReserved hq
  settle_stale now c h hj hstale := absurd (h.held.subset hj) hstale
  settle_kept := by
    intro m held job now c h hj _ hc
    cases c with
    | release delay => exact h.release_stored hj now delay
    | acknowledge => cases hc
    | fail message => cases hc
  settle_finished := by
    intro m held job now c h hj _ hc
    cases c with
    | release delay => cases hc
    | acknowledge => exact .inl (h.unreserve_stored hj)
    | fail message => exact .inl (h.unreserve_stored hj)
  settle_consistent := by
    intro m held k job now c h hk
    cases c with
    | release delay => exact h.release hk now delay
    | acknowledge => exact h.unreserve hk
    | fail message => exact { h.unreserve hk with }

end MemoryQueue
end Rainier.Queue
