import Rainier.Queue.MemoryQueue
import Rainier.Support.Trace

/-! # Workers over the in-process queue

A run is made of pushes of fresh jobs, reservations, and workers each finishing
a job they hold by one settling call. Beside the queue the state keeps what was
pushed, reserved and acknowledged, and a log of the finished attempts. A job's
life is followed through the four stages of `Stage`; every operation of the
queue moves one job one stage on and leaves the others where they are.
-/
namespace Rainier.Queue.MemoryRun
open MemoryQueue

/-- A finished attempt: the job as it was held, whether its `failed` hook was
called, and how it was settled. -/
structure Processed where
  job : QueuedJob
  hook : Bool
  settlement : Settlement
  deriving DecidableEq, Repr

structure World where
  clock : ℕ
  queue : MemoryQueue
  held : List QueuedJob
  pushed : List QueuedJob
  acknowledged : List String
  reservations : List String
  log : List Processed

inductive Label where
  | tick (elapsed : ℕ)
  | push (job : QueuedJob)
  | reserve (queue : String)
  | process (k : ℕ) (a : Attempt)

def World.init : World := ⟨0,.new,[],[],[],[],[]⟩

section Steps
variable (o : WorkerOptions) (r : JobRegistry)

/-- One pass of `process_untraced` over a job, up to its settling call. -/
def attempted (job : QueuedJob) (a : Attempt) : Processed :=
  let pass := attemptPass r job a
  let timeout := o.timeoutFor r job
  ⟨job,hookCalled timeout pass,settlement o job (runHandler timeout pass)⟩

def settled (s : World) (k : ℕ) (e : Processed) : World :=
  { s with
    queue := (driver.settle s.queue s.clock e.job e.settlement).2
    held := s.held.eraseIdx k
    acknowledged := if e.settlement = .acknowledge then s.acknowledged ++ [e.job.id] else s.acknowledged
    log := s.log ++ [e] }

def step (s : World) : Label → World
  | .tick elapsed => { s with clock := s.clock + elapsed }
  | .push job =>
    if job.attempts = 0 ∧ job.id ∉ s.pushed.map QueuedJob.id then
      { s with queue := s.queue.push job, pushed := s.pushed ++ [job] }
    else s
  | .reserve queue => match s.queue.reserve s.clock queue with
    | (none,left) => { s with queue := left }
    | (some job,left) =>
      { s with queue := left, held := s.held ++ [job], reservations := s.reservations ++ [job.id] }
  | .process k a => match s.held[k]? with
    | none => s
    | some job => settled s k (attempted o r job a)

end Steps

/-! ## The life of a job -/

inductive Stage where
  | pending
  | reserved
  | failed
  | acknowledged
  deriving DecidableEq, Repr

/-- The most attempts a job at this stage can have behind it. -/
def Stage.quota (o : WorkerOptions) (maxAttempts : ℕ) : Stage → ℕ
  | .pending => o.attemptsFor maxAttempts - 1
  | _ => o.attemptsFor maxAttempts

/-- The job pushed as `first` is at `stage`, and `last` is its latest copy: the
only one anywhere, unless it has been acknowledged. -/
structure AtStage (o : WorkerOptions) (s : World) (first : QueuedJob) (stage : Stage) (last : QueuedJob) :
    Prop where
  pending : ∀ q, copiesOf first.id (s.queue.pending q) = if stage = .pending ∧ q = first.queue then [last] else []
  reserved : copiesOf first.id s.queue.reserved = if stage = .reserved then [last] else []
  failed : copiesOf first.id (s.queue.failed.map FailedJob.job) = if stage = .failed then [last] else []
  acknowledged : s.acknowledged.count first.id = if stage = .acknowledged then 1 else 0
  id : last.id = first.id
  queue : last.queue = first.queue
  maxAttempts : last.maxAttempts = first.maxAttempts
  attempts : last.attempts = s.reservations.count first.id
  quota : last.attempts ≤ stage.quota o first.maxAttempts

/-- No trace of the id. -/
structure Absent (s : World) (id : String) : Prop where
  pushed : id ∉ s.pushed.map QueuedJob.id
  pending : ∀ q, copiesOf id (s.queue.pending q) = []
  reserved : copiesOf id s.queue.reserved = []
  failed : copiesOf id (s.queue.failed.map FailedJob.job) = []
  acknowledged : s.acknowledged.count id = 0
  reservations : s.reservations.count id = 0

/-- A step that concerns another job leaves this id as it was. -/
structure Frame (id : String) (s s' : World) : Prop where
  pushed : id ∈ s'.pushed.map QueuedJob.id → id ∈ s.pushed.map QueuedJob.id
  pending : ∀ q, copiesOf id (s'.queue.pending q) = copiesOf id (s.queue.pending q)
  reserved : copiesOf id s'.queue.reserved = copiesOf id s.queue.reserved
  failed : copiesOf id (s'.queue.failed.map FailedJob.job) = copiesOf id (s.queue.failed.map FailedJob.job)
  acknowledged : s'.acknowledged.count id = s.acknowledged.count id
  reservations : s'.reservations.count id = s.reservations.count id

/-- Every id is that of a pushed job at some stage, or is not there at all. -/
structure Books (o : WorkerOptions) (s : World) : Prop where
  ids : (s.pushed.map QueuedJob.id).Nodup
  held : s.held = s.queue.reserved
  staged : ∀ first ∈ s.pushed, ∃ stage last, AtStage o s first stage last
  strays : ∀ id, id ∉ s.pushed.map QueuedJob.id → Absent s id

variable {o : WorkerOptions} {r : JobRegistry} {s s' : World} {first last : QueuedJob} {stage : Stage}

theorem AtStage.frame (h : AtStage o s first stage last) (hf : Frame first.id s s') :
    AtStage o s' first stage last where
  pending q := (hf.pending q).trans (h.pending q)
  reserved := hf.reserved.trans h.reserved
  failed := hf.failed.trans h.failed
  acknowledged := hf.acknowledged.trans h.acknowledged
  id := h.id
  queue := h.queue
  maxAttempts := h.maxAttempts
  attempts := h.attempts.trans hf.reservations.symm
  quota := h.quota

theorem Absent.frame {id : String} (h : Absent s id) (hf : Frame id s s') : Absent s' id where
  pushed hm := h.pushed (hf.pushed hm)
  pending q := (hf.pending q).trans (h.pending q)
  reserved := hf.reserved.trans h.reserved
  failed := hf.failed.trans h.failed
  acknowledged := hf.acknowledged.trans h.acknowledged
  reservations := hf.reservations.trans h.reservations

theorem books_init (o : WorkerOptions) : Books o .init where
  ids := List.nodup_nil
  held := rfl
  staged _ h := by cases h
  strays _ h := ⟨h,fun _ => rfl,rfl,rfl,rfl,rfl⟩

/-- A step that moves one pushed job to another stage keeps the books. -/
theorem Books.move (h : Books o s) (stage : Stage) (last : QueuedJob) (hp : s'.pushed = s.pushed)
    (hh : s'.held = s'.queue.reserved)
    (hm : first ∈ s.pushed) (hstage : AtStage o s' first stage last)
    (hframe : ∀ id, id ≠ first.id → Frame id s s') : Books o s' where
  ids := hp ▸ h.ids
  held := hh
  staged other ho := by
    rw [hp] at ho
    by_cases he : other.id = first.id
    · have : other = first := List.inj_on_of_nodup_map h.ids ho hm he
      subst this
      exact ⟨stage,last,hstage⟩
    · obtain ⟨stage',last',hs⟩ := h.staged other ho
      exact ⟨stage',last',hs.frame (hframe _ he)⟩
  strays id hid := by
    rw [hp] at hid
    have hne : id ≠ first.id := by
      rintro rfl
      exact hid (List.mem_map_of_mem hm)
    exact (h.strays id hid).frame (hframe id hne)

/-- A copy waiting on a queue is the latest copy of a pushed job of that queue. -/
theorem Books.waiting (h : Books o s) {q : String} {job : QueuedJob} (hj : job ∈ s.queue.pending q) :
    ∃ first ∈ s.pushed, q = first.queue ∧ AtStage o s first .pending job := by
  have hcopy : job ∈ copiesOf job.id (s.queue.pending q) := mem_copiesOf.mpr ⟨hj,rfl⟩
  by_cases hid : job.id ∈ s.pushed.map QueuedJob.id
  · obtain ⟨first,hf,he⟩ := List.mem_map.mp hid
    obtain ⟨stage,last,hs⟩ := h.staged first hf
    rw [← he,hs.pending q] at hcopy
    split at hcopy
    next hst =>
      obtain ⟨rfl,hq⟩ := hst
      rw [List.mem_singleton.mp hcopy]
      exact ⟨first,hf,hq,hs⟩
    · cases hcopy
  · rw [(h.strays _ hid).pending q] at hcopy
    cases hcopy

/-- A reserved copy is the latest copy of a pushed job. -/
theorem Books.working (h : Books o s) {job : QueuedJob} (hj : job ∈ s.queue.reserved) :
    ∃ first ∈ s.pushed, AtStage o s first .reserved job := by
  have hcopy : job ∈ copiesOf job.id s.queue.reserved := mem_copiesOf.mpr ⟨hj,rfl⟩
  by_cases hid : job.id ∈ s.pushed.map QueuedJob.id
  · obtain ⟨first,hf,he⟩ := List.mem_map.mp hid
    obtain ⟨stage,last,hs⟩ := h.staged first hf
    rw [← he,hs.reserved] at hcopy
    split at hcopy
    next hst =>
      subst hst
      rw [List.mem_singleton.mp hcopy]
      exact ⟨first,hf,hs⟩
    · cases hcopy
  · rw [(h.strays _ hid).reserved] at hcopy
    cases hcopy

theorem pending_push (m : MemoryQueue) (job : QueuedJob) (id q : String) :
    copiesOf id ((m.push job).pending q) =
      copiesOf id (m.pending q) ++ if job.id = id ∧ q = job.queue then [job] else [] := by
  by_cases hq : q = job.queue
  · subst hq
    simp [MemoryQueue.push,copiesOf_cons]
  · simp [MemoryQueue.push,hq]

/-- The step a fresh job is pushed in. -/
theorem books_push (h : Books o s) {job : QueuedJob} (hzero : job.attempts = 0)
    (hfresh : job.id ∉ s.pushed.map QueuedJob.id) :
    Books o { s with queue := s.queue.push job, pushed := s.pushed ++ [job] } := by
  have hnone := h.strays _ hfresh
  have hpos := o.attemptsFor_pos job.maxAttempts
  have hframe : ∀ id, id ≠ job.id →
      Frame id s { s with queue := s.queue.push job, pushed := s.pushed ++ [job] } := by
    intro id hne
    refine ⟨?_,?_,rfl,rfl,rfl,rfl⟩
    · intro hm
      simpa [hne] using hm
    · intro q
      simp [pending_push,Ne.symm hne]
  refine ⟨?_,h.held,?_,?_⟩
  · rw [List.map_append,List.nodup_append]
    refine ⟨h.ids,by simp,?_⟩
    rintro id hid _ hjob rfl
    rw [List.map_singleton,List.mem_singleton] at hjob
    exact hfresh (hjob ▸ hid)
  · intro first hf
    rcases List.mem_append.mp hf with hf | hf
    · obtain ⟨stage,last,hs⟩ := h.staged first hf
      refine ⟨stage,last,hs.frame (hframe _ ?_)⟩
      intro he
      exact hfresh (he ▸ List.mem_map_of_mem hf)
    · rw [List.mem_singleton.mp hf]
      refine ⟨.pending,job,?_,hnone.reserved,hnone.failed,hnone.acknowledged,rfl,rfl,rfl,?_,?_⟩
      · intro q
        simp [pending_push,hnone.pending q]
      · exact hzero.trans hnone.reservations.symm
      · simp [Stage.quota,hzero]
  · intro id hid
    have hne : id ≠ job.id := by
      rintro rfl
      simp at hid
    exact (h.strays id (fun hm => hid (by simp [hm]))).frame (hframe id hne)

theorem books_reserve (h : Books o s) {q : String} {before after : List QueuedJob} {job : QueuedJob}
    (hq : s.queue.pending q = before ++ job :: after) :
    Books o { s with
      queue := { s.queue with
        pending := Function.update s.queue.pending q (before ++ after)
        reserved := s.queue.reserved ++ [taken job] }
      held := s.held ++ [taken job]
      reservations := s.reservations ++ [(taken job).id] } := by
  obtain ⟨first,hf,hfq,hs⟩ := h.waiting (hq ▸ List.mem_append_right before List.mem_cons_self)
  subst hfq
  have hpend := hs.pending first.queue
  simp only [hq,copiesOf_append,copiesOf_cons,hs.id,↓reduceIte,and_self] at hpend
  obtain ⟨hb,ha⟩ : copiesOf first.id before = [] ∧ copiesOf first.id after = [] := by
    have hlen := congrArg List.length hpend
    simp only [List.length_append,List.length_cons,List.length_nil] at hlen
    exact ⟨List.length_eq_zero_iff.mp (by omega),List.length_eq_zero_iff.mp (by omega)⟩
  refine h.move .reserved (taken job) rfl (by rw [h.held]) hf ?_ ?_
  · refine ⟨?_,?_,?_,?_,hs.id,hs.queue,hs.maxAttempts,?_,?_⟩
    · intro q'
      by_cases he : q' = first.queue
      · subst he
        simp [hb,ha]
      · have := hs.pending q'
        simpa [Function.update_of_ne he,he] using this
    · simp [hs.reserved,copiesOf_cons,taken,hs.id]
    · simpa using hs.failed
    · simpa using hs.acknowledged
    · simp [taken,hs.attempts,hs.id]
    · have := hs.quota
      have := o.attemptsFor_pos first.maxAttempts
      simp only [Stage.quota,taken] at *
      omega
  · intro id hne
    have hne' : ¬ job.id = id := fun he => hne (he.symm.trans hs.id)
    refine ⟨fun hm => hm,?_,?_,rfl,rfl,?_⟩
    · intro q'
      by_cases he : q' = first.queue
      · subst he
        simp [hq,copiesOf_cons,hne']
      · simp [Function.update_of_ne he]
    · simp [copiesOf_cons,taken,hne']
    · simp [taken,hne',List.count_append]

/-- The stage a settling call moves a job to. -/
def stageOf : Settlement → Stage
  | .acknowledge => .acknowledged
  | .release _ => .pending
  | .fail _ => .failed

/-- The copy a settling call leaves behind. -/
def leftOf (now : ℕ) (job : QueuedJob) : Settlement → QueuedJob
  | .release delay => job.delayedBy now delay
  | _ => job

theorem pending_settle (m : MemoryQueue) (now : ℕ) (job : QueuedJob) (c : Settlement) (id q : String) :
    copiesOf id ((driver.settle m now job c).2.pending q) = copiesOf id (m.pending q) ++
      if job.id = id ∧ stageOf c = .pending ∧ q = job.queue then [leftOf now job c] else [] := by
  cases c with
  | acknowledge => simp [QueueDriver.settle,driver,MemoryQueue.acknowledge,unreserve,stageOf]
  | fail message => simp [QueueDriver.settle,driver,MemoryQueue.fail,unreserve,stageOf]
  | release delay =>
    simp only [QueueDriver.settle,driver,MemoryQueue.release,pending_push,stageOf,leftOf,true_and]
    rfl

theorem reserved_settle (m : MemoryQueue) (now : ℕ) (job : QueuedJob) (c : Settlement) :
    (driver.settle m now job c).2.reserved = m.reserved.filter (fun reserved => reserved.id != job.id) := by
  cases c <;> rfl

theorem failed_settle (m : MemoryQueue) (now : ℕ) (job : QueuedJob) (c : Settlement) (id : String) :
    copiesOf id ((driver.settle m now job c).2.failed.map FailedJob.job) =
      copiesOf id (m.failed.map FailedJob.job) ++
        if job.id = id ∧ stageOf c = .failed then [leftOf now job c] else [] := by
  cases c with
  | acknowledge => simp [QueueDriver.settle,driver,MemoryQueue.acknowledge,unreserve,stageOf]
  | release delay => simp [QueueDriver.settle,driver,MemoryQueue.release,MemoryQueue.push,unreserve,stageOf]
  | fail message =>
    simp [QueueDriver.settle,driver,MemoryQueue.fail,stageOf,leftOf,copiesOf_cons]

theorem leftOf_same (now : ℕ) (job : QueuedJob) (c : Settlement) :
    (leftOf now job c).id = job.id ∧ (leftOf now job c).queue = job.queue ∧
      (leftOf now job c).maxAttempts = job.maxAttempts ∧ (leftOf now job c).attempts = job.attempts := by
  cases c <;> exact ⟨rfl,rfl,rfl,rfl⟩

theorem acknowledged_settled (s : World) (k : ℕ) (e : Processed) (id : String) :
    (settled s k e).acknowledged.count id = s.acknowledged.count id +
      if e.job.id = id ∧ stageOf e.settlement = .acknowledged then 1 else 0 := by
  rcases e with ⟨job,hook,c⟩
  cases c with
  | acknowledge => simp [settled,stageOf,List.count_append,List.count_singleton]
  | release delay => simp [settled,stageOf]
  | fail message => simp [settled,stageOf]

/-- The step a held job is settled in. Only a job with attempts to spare is released. -/
theorem books_settled (h : Books o s) {k : ℕ} {e : Processed} (hk : s.held[k]? = some e.job)
    (hspare : ∀ delay, e.settlement = .release delay → e.job.attempts < o.attemptsFor e.job.maxAttempts) :
    Books o (settled s k e) := by
  rw [h.held] at hk
  obtain ⟨first,hf,hs⟩ := h.working (List.mem_of_getElem? hk)
  obtain ⟨hid,hqueue,hmax,hatt⟩ := leftOf_same s.clock e.job e.settlement
  have hone : copiesOf e.job.id s.queue.reserved = [e.job] := by simpa [hs.id] using hs.reserved
  refine h.move (stageOf e.settlement) (leftOf s.clock e.job e.settlement) rfl ?_ hf ?_ ?_
  · simp only [settled,reserved_settle,h.held]
    exact eraseIdx_eq_unreserved hk hone
  · refine ⟨?_,?_,?_,?_,hid.trans hs.id,hqueue.trans hs.queue,hmax.trans hs.maxAttempts,
      hatt.trans hs.attempts,?_⟩
    · intro q
      have := hs.pending q
      simp [settled,pending_settle,this,hs.id,hs.queue]
    · simp only [settled,reserved_settle,copiesOf_unreserved,hs.id,↓reduceIte]
      cases e.settlement <;> rfl
    · simp [settled,failed_settle,hs.failed,hs.id]
    · rw [acknowledged_settled,hs.acknowledged]
      simp [hs.id]
    · have hle := hs.quota
      rw [hatt]
      cases hc : e.settlement with
      | acknowledge => exact hle
      | fail message => exact hle
      | release delay =>
        have := hspare delay hc
        rw [hs.maxAttempts] at this
        simp only [stageOf,Stage.quota]
        omega
  · intro id hne
    have hne' : ¬ e.job.id = id := fun he => hne (he.symm.trans hs.id)
    refine ⟨fun hm => hm,?_,?_,?_,?_,rfl⟩
    · intro q
      simp [settled,pending_settle,hne']
    · simp [settled,reserved_settle,copiesOf_unreserved,hne']
    · simp [settled,failed_settle,hne']
    · simp [acknowledged_settled,hne']

theorem books_step (h : Books o s) (a : Label) : Books o (step o r s a) := by
  cases a with
  | tick elapsed =>
    have hframe : ∀ id, Frame id s (step o r s (.tick elapsed)) :=
      fun _ => ⟨fun hm => hm,fun _ => rfl,rfl,rfl,rfl,rfl⟩
    refine ⟨h.ids,h.held,?_,?_⟩
    · intro first hf
      obtain ⟨stage,last,hs⟩ := h.staged first hf
      exact ⟨stage,last,hs.frame (hframe _)⟩
    · intro id hid
      exact (h.strays id hid).frame (hframe id)
  | push job =>
    simp only [step]
    split
    next hnew => exact books_push h hnew.1 hnew.2
    · exact h
  | reserve q =>
    simp only [step]
    rcases reserve_cases s.queue s.clock q with he | ⟨before,job,after,hq,_,he⟩
    · rw [he]
      exact h
    · rw [he]
      exact books_reserve h hq
  | process k a =>
    simp only [step]
    cases hk : s.held[k]? with
    | none => exact h
    | some job =>
      refine books_settled h hk ?_
      intro delay hrel
      exact (settlement_release hrel).1

/-! ## Conservation -/

/-- In how many places the id of a pushed job is found: waiting on its queue,
reserved, in the failed store, acknowledged. -/
def places (s : World) (job : QueuedJob) : ℕ :=
  (copiesOf job.id (s.queue.pending job.queue)).length + (copiesOf job.id s.queue.reserved).length +
    (copiesOf job.id (s.queue.failed.map FailedJob.job)).length + s.acknowledged.count job.id

structure Conserved (o : WorkerOptions) (s : World) (job : QueuedJob) : Prop where
  one : places s job = 1
  home : ∀ q, q ≠ job.queue → copiesOf job.id (s.queue.pending q) = []
  attempts : ∀ copy, copy ∈ s.queue.pending job.queue ∨ copy ∈ s.queue.reserved ∨
    copy ∈ s.queue.failed.map FailedJob.job → copy.id = job.id → copy.attempts = s.reservations.count job.id
  bounded : s.reservations.count job.id ≤ max (max job.maxAttempts (o.tries.getD 0)) 1

theorem AtStage.conserved (h : AtStage o s first stage last) : Conserved o s first where
  one := by
    unfold places
    rw [h.pending,h.reserved,h.failed,h.acknowledged]
    cases stage <;> simp
  home q hq := by simpa [hq] using h.pending q
  attempts copy hc he := by
    rw [← h.attempts]
    have hlast : copy = last := by
      rcases hc with hc | hc | hc
      · have := mem_copiesOf.mpr ⟨hc,he⟩
        rw [h.pending] at this
        split at this <;> simp_all
      · have := mem_copiesOf.mpr ⟨hc,he⟩
        rw [h.reserved] at this
        split at this <;> simp_all
      · have := mem_copiesOf.mpr ⟨hc,he⟩
        rw [h.failed] at this
        split at this <;> simp_all
    rw [hlast]
  bounded := by
    have := h.quota
    rw [← h.attempts]
    cases stage <;> simp only [Stage.quota,WorkerOptions.attemptsFor] at this <;> omega

/-- At every point of every run each pushed job is in exactly one place, its
attempts are its reservations, and it is not reserved more often than allowed. -/
theorem run_conserves (o : WorkerOptions) (r : JobRegistry) (labels : List Label) :
    Trace.Always (step o r) (fun s => ∀ job ∈ s.pushed, Conserved o s job) .init labels := by
  have hbooks : Trace.Always (step o r) (Books o) .init labels :=
    Trace.always_of_step (P := Books o) (fun _ a h => books_step h a) (books_init o) labels
  refine hbooks.mono ?_
  intro s h job hjob
  obtain ⟨stage,last,hs⟩ := h.staged job hjob
  exact hs.conserved

/-! ## The `failed` hook -/

/-- The runner of the job's type gets as far as the handler. -/
def reaches (r : JobRegistry) (job : QueuedJob) : Bool :=
  match r.lookup job.name with
  | some t => (t.decode job.payload).isOk
  | none => false

def inTime (timeout : Option ℕ) (a : Attempt) : Bool :=
  match timeout with
  | some t => a.handleTook ≤ t
  | none => true

/-- The runner and the worker agree on whether this attempt is the last: an error
the handler itself returns is not on an attempt past the job's own limit that
the worker still retries, and an attempt that ends in any other way is retried. -/
def HookFits (o : WorkerOptions) (r : JobRegistry) (job : QueuedJob) (a : Attempt) : Prop :=
  if reaches r job && inTime (o.timeoutFor r job) a then match a.handle with
    | .ok => True
    | .err _ => job.attempts < job.maxAttempts ∨ o.attemptsFor job.maxAttempts ≤ job.attempts
    | .panic _ => job.attempts < o.attemptsFor job.maxAttempts
  else job.attempts < o.attemptsFor job.maxAttempts

def StepHookFits (o : WorkerOptions) (r : JobRegistry) (s : World) : Label → Prop
  | .process k a => ∀ job, s.held[k]? = some job → HookFits o r job a
  | _ => True

/-- The hook has been called exactly where a job went to the failed store. -/
structure HookOnFailure (s : World) : Prop where
  exact : ∀ e ∈ s.log, e.hook = true ↔ ∃ message, e.settlement = .fail message
  once : ∀ id, s.log.countP (fun e => e.hook && e.job.id == id) =
    (copiesOf id (s.queue.failed.map FailedJob.job)).length
  spared : ∀ e ∈ s.log, ∀ delay, e.settlement = .release delay → e.hook = false

def isFail : Settlement → Bool
  | .fail _ => true
  | _ => false

/-- The failed store holds what the log says was failed. -/
def Logged (s : World) : Prop :=
  ∀ id, (copiesOf id (s.queue.failed.map FailedJob.job)).length =
    s.log.countP (fun e => isFail e.settlement && e.job.id == id)

theorem isFail_settlement (o : WorkerOptions) (job : QueuedJob) (result : Except Error Unit) :
    isFail (settlement o job result) = true ↔
      result.isOk = false ∧ o.attemptsFor job.maxAttempts ≤ job.attempts := by
  cases result with
  | ok u => simp [settlement,isFail,Except.isOk,Except.toBool]
  | error e =>
    simp only [settlement,handleFailure,Except.isOk,Except.toBool,true_and]
    split <;> simp_all [isFail]

theorem attemptPass_unreached {job : QueuedJob} (hr : reaches r job = false) (a : Attempt) :
    ∃ e, attemptPass r job a = ⟨.ok (.error e),0,none⟩ := by
  unfold attemptPass JobRegistry.run
  unfold reaches at hr
  cases hl : r.lookup job.name with
  | none => exact ⟨_,rfl⟩
  | some t =>
    simp only [hl] at hr
    cases hd : t.decode job.payload with
    | ok u => simp [hd,Except.isOk,Except.toBool] at hr
    | error reason => exact ⟨JobRegistry.undecodable job.name reason,by simp only [hd]⟩

theorem attemptPass_reached {job : QueuedJob} (hr : reaches r job = true) (a : Attempt) :
    attemptPass r job a = JobRegistry.handled ⟨job.attempts,job.maxAttempts,job.id,job.queue⟩ a := by
  unfold attemptPass JobRegistry.run
  unfold reaches at hr
  cases hl : r.lookup job.name with
  | none => simp [hl] at hr
  | some t =>
    simp only [hl] at hr
    cases hd : t.decode job.payload with
    | error reason => simp [hd,Except.isOk,Except.toBool] at hr
    | ok u => simp only [hd]

/-- The hook is called by an error the handler returns in time on the job's last
attempt by the job's own count. -/
theorem hookCalled_handled (c : JobContext) (a : Attempt) (timeout : Option ℕ) :
    hookCalled timeout (JobRegistry.handled c a) = true ↔
      inTime timeout a = true ∧ c.maxAttempts ≤ c.attempt ∧ ∃ e, a.handle = .err e := by
  rcases a with ⟨handle,took,panics,hookTook⟩
  cases handle with
  | ok => cases timeout <;> simp [JobRegistry.handled,hookCalled]
  | panic message => cases timeout <;> simp [JobRegistry.handled,hookCalled]
  | err e =>
    simp only [JobRegistry.handled,JobContext.isLastAttempt,decide_eq_true_eq]
    split
    next hlast => cases panics <;> cases timeout <;> simp [hookCalled,inTime,hlast]
    next hmore => cases timeout <;> simp [hookCalled,hmore]

/-- An attempt succeeds when the handler returns in time without an error. -/
theorem runHandler_handled (c : JobContext) (a : Attempt) (timeout : Option ℕ) :
    (runHandler timeout (JobRegistry.handled c a)).isOk = true ↔ inTime timeout a = true ∧ a.handle = .ok := by
  have hsplit : ∀ p : Pass, (runHandler timeout p).isOk = true ↔
      (∀ t, timeout = some t → p.took ≤ t) ∧ (runHandler.finish p.result).isOk = true := by
    intro p
    cases timeout with
    | none => simp [runHandler]
    | some t =>
      by_cases hlt : t < p.took
      · simp [runHandler,hlt,Nat.not_le.mpr hlt,Except.isOk,Except.toBool]
      · simp [runHandler,hlt,Nat.not_lt.mp hlt]
  rw [hsplit]
  rcases a with ⟨handle,took,panics,hookTook⟩
  cases handle with
  | ok => cases timeout <;> simp [JobRegistry.handled,runHandler.finish,inTime,Except.isOk,Except.toBool]
  | panic message => simp [JobRegistry.handled,runHandler.finish,Except.isOk,Except.toBool]
  | err e =>
    simp only [JobRegistry.handled]
    split
    · cases panics <;> simp [runHandler.finish,Except.isOk,Except.toBool]
    · simp [runHandler.finish,Except.isOk,Except.toBool]

/-- The hook is called exactly on a permanent failure when the two counts agree. -/
theorem attempted_hook_iff (o : WorkerOptions) (r : JobRegistry) (job : QueuedJob) (a : Attempt) :
    ((attempted o r job a).hook = true ↔ isFail (attempted o r job a).settlement = true) ↔ HookFits o r job a := by
  unfold attempted HookFits
  simp only [isFail_settlement]
  have hmax := o.le_attemptsFor job.maxAttempts
  cases hr : reaches r job with
  | false =>
    obtain ⟨e,he⟩ := attemptPass_unreached hr a
    have hok : (runHandler (o.timeoutFor r job) ⟨.ok (.error e),0,none⟩).isOk = false := by
      cases o.timeoutFor r job <;> simp [runHandler,runHandler.finish,Except.isOk,Except.toBool]
    simp [he,hok,hookCalled]
  | true =>
    rw [attemptPass_reached hr,hookCalled_handled,← Bool.not_eq_true,runHandler_handled]
    cases ht : inTime (o.timeoutFor r job) a with
    | false => simp
    | true => cases hh : a.handle with
      | ok => simp
      | panic message => simp
      | err e =>
        simp only [true_and,Ending.err.injEq,exists_eq',and_true,reduceCtorEq,not_false_eq_true,
          Bool.and_self,↓reduceIte]
        omega

theorem logged_step (h : Logged s) (a : Label) : Logged (step o r s a) := by
  cases a with
  | tick elapsed => exact h
  | push job =>
    simp only [step]
    split
    · exact h
    · exact h
  | reserve q =>
    simp only [step]
    rcases reserve_cases s.queue s.clock q with he | ⟨before,job,after,hq,_,he⟩
    · rw [he]
      exact h
    · rw [he]
      exact h
  | process k a =>
    simp only [step]
    cases hk : s.held[k]? with
    | none => exact h
    | some job =>
      intro id
      simp only [settled,failed_settle,List.length_append,h id,List.countP_append,List.countP_singleton]
      cases (attempted o r job a).settlement <;> simp [stageOf,isFail,apply_ite List.length]

theorem isFail_iff (c : Settlement) : isFail c = true ↔ ∃ message, c = .fail message := by
  cases c <;> simp [isFail]

/-- With the failed store logged, the property is one about each log entry. -/
theorem hookOnFailure_iff (h : Logged s) :
    HookOnFailure s ↔ ∀ e ∈ s.log, e.hook = true ↔ isFail e.settlement = true := by
  constructor
  · intro hp e he
    rw [isFail_iff]
    exact hp.exact e he
  · intro hp
    refine ⟨fun e he => (hp e he).trans (isFail_iff _),?_,?_⟩
    · intro id
      rw [h id]
      refine List.countP_congr ?_
      intro e he
      rw [Bool.and_eq_true,Bool.and_eq_true,hp e he]
    · intro e he delay hd
      have := hp e he
      simpa [hd,isFail] using this

theorem hookOnFailure_step (hl : Logged s) (h : HookOnFailure s) (a : Label) :
    HookOnFailure (step o r s a) ↔ StepHookFits o r s a := by
  rw [hookOnFailure_iff (logged_step hl a)]
  have hall := (hookOnFailure_iff hl).mp h
  cases a with
  | tick elapsed => exact iff_of_true hall trivial
  | push job =>
    refine iff_of_true ?_ trivial
    simp only [step]
    split
    · exact hall
    · exact hall
  | reserve q =>
    refine iff_of_true ?_ trivial
    simp only [step]
    rcases reserve_cases s.queue s.clock q with he | ⟨before,job,after,hq,_,he⟩
    · rw [he]
      exact hall
    · rw [he]
      exact hall
  | process k a =>
    simp only [step,StepHookFits]
    cases hk : s.held[k]? with
    | none => exact iff_of_true hall (fun _ hn => by cases hn)
    | some job =>
      simp only [settled,List.mem_append,List.mem_singleton,Option.some.injEq,forall_eq']
      rw [← attempted_hook_iff]
      constructor
      · intro hp
        exact hp _ (.inr rfl)
      · rintro hnew e (he | rfl)
        · exact hall e he
        · exact hnew

/-- In a run the hook fires exactly once for each permanent failure, and on no
attempt that is retried, exactly when at every attempt the runner and the worker
agree on whether it is the last. -/
theorem run_hook_on_failure_iff (o : WorkerOptions) (r : JobRegistry) (labels : List Label) :
    Trace.Always (step o r) HookOnFailure .init labels ↔
      Trace.Along (step o r) (StepHookFits o r) .init labels := by
  have hlogged : Logged World.init := fun _ => rfl
  have hfirst : HookOnFailure World.init := (hookOnFailure_iff hlogged).mpr (fun e he => by cases he)
  exact Trace.always_iff_along (Q := Logged) (fun _ a hl _ _ => logged_step hl a)
    (fun _ a hl hp => hookOnFailure_step hl hp a) hlogged hfirst

/-- A worker that gives every job three tries, and a job that asks for one. -/
def generousOptions : WorkerOptions := { WorkerOptions.default with tries := some 3 }

def sendOnce : QueuedJob := .fresh "1" "mail.welcome" .null "default" 1 0

def mailRegistry : JobRegistry := [("mail.welcome",⟨fun _ => .ok (),none⟩)]

def refusedRun : List Label :=
  [.push sendOnce,.reserve "default",.process 0 ⟨.err (.internal "mailbox full"),0,none,0⟩]

/-- The first error calls the hook, and the job is released for another try. -/
theorem refused_run_hooks_retried_job :
    ¬ Trace.Always (step generousOptions mailRegistry) HookOnFailure .init refusedRun := by
  intro h
  have hlog : (Trace.run (step generousOptions mailRegistry) .init refusedRun).log =
      [⟨taken sendOnce,true,.release (backoffFor 1)⟩] := by decide
  have hspared := h.last.spared
  rw [hlog] at hspared
  exact absurd (hspared _ List.mem_cons_self _ rfl) (by decide)

end Rainier.Queue.MemoryRun
