import Rainier.Queue.Driver
import Mathlib.Data.List.Basic
import Mathlib.Logic.Function.Basic

/-! # The in-process queue

A queue that has no entry in `pending` is one with no jobs waiting. The copies of
a job are recognised by its id, so the facts about the operations say what they
do to the copies of each id in the three stores.
-/
namespace Rainier.Queue

structure FailedJob where
  job : QueuedJob
  error : String
  failedAt : ℕ
  deriving DecidableEq, Repr

structure MemoryQueue where
  pending : String → List QueuedJob
  reserved : List QueuedJob
  failed : List FailedJob

namespace MemoryQueue

def new : MemoryQueue := ⟨fun _ => [],[],[]⟩

def push (m : MemoryQueue) (job : QueuedJob) : MemoryQueue :=
  { m with pending := Function.update m.pending job.queue (m.pending job.queue ++ [job]) }

/-- The copy a reservation hands out and stores. -/
def taken (job : QueuedJob) : QueuedJob := { job with attempts := job.attempts + 1 }

/-- The first available job, wherever it stands. -/
def reserve (m : MemoryQueue) (now : ℕ) (queue : String) : Option QueuedJob × MemoryQueue :=
  match (m.pending queue).find? (QueuedJob.isAvailable now) with
  | none => (none,m)
  | some job =>
    (some (taken job),
      { m with
        pending := Function.update m.pending queue ((m.pending queue).eraseP (QueuedJob.isAvailable now))
        reserved := m.reserved ++ [taken job] })

/-- Every settling call drops the reserved copies of the job's id. -/
def unreserve (m : MemoryQueue) (job : QueuedJob) : MemoryQueue :=
  { m with reserved := m.reserved.filter (fun reserved => reserved.id != job.id) }

def acknowledge (m : MemoryQueue) (job : QueuedJob) : MemoryQueue := m.unreserve job

def release (m : MemoryQueue) (now : ℕ) (job : QueuedJob) (delay : ℕ) : MemoryQueue :=
  (m.unreserve job).push (job.delayedBy now delay)

def fail (m : MemoryQueue) (now : ℕ) (job : QueuedJob) (error : String) : MemoryQueue :=
  { m.unreserve job with failed := m.failed ++ [⟨job,error,now⟩] }

def driver : QueueDriver MemoryQueue where
  push m _ job := (.ok job.id,m.push job)
  reserve m now queue := (.ok (m.reserve now queue).1,(m.reserve now queue).2)
  acknowledge m _ job := (.ok (),m.acknowledge job)
  release m now job delay := (.ok (),m.release now job delay)
  fail m now job error := (.ok (),m.fail now job error)

/-! ## The copies of one job -/

theorem copiesOf_unreserved (id : String) (job : QueuedJob) (jobs : List QueuedJob) :
    copiesOf id (jobs.filter (fun reserved => reserved.id != job.id)) =
      if job.id = id then [] else copiesOf id jobs := by
  unfold copiesOf
  rw [List.filter_filter]
  split
  next he =>
    rw [List.filter_eq_nil_iff]
    intro x _
    simp [he]
  next hne =>
    refine List.filter_congr ?_
    intro x _
    by_cases hx : x.id = id
    · simp [hx,Ne.symm hne]
    · simp [hx]

/-- Dropping the only copy by its place is dropping the job by its id. -/
theorem eraseIdx_eq_unreserved {jobs : List QueuedJob} {k : ℕ} {job : QueuedJob} (hk : jobs[k]? = some job)
    (hone : copiesOf job.id jobs = [job]) :
    jobs.eraseIdx k = jobs.filter (fun reserved => reserved.id != job.id) := by
  induction jobs generalizing k with
  | nil => simp at hk
  | cons first rest ih =>
    rw [copiesOf_cons] at hone
    cases k with
    | zero =>
      simp only [List.getElem?_cons_zero,Option.some.injEq] at hk
      subst hk
      simp only [↓reduceIte,List.cons.injEq,true_and,copiesOf,List.filter_eq_nil_iff,beq_iff_eq] at hone
      have hrest : rest.filter (fun reserved => reserved.id != first.id) = rest :=
        List.filter_eq_self.mpr (fun x hx => by simpa using hone x hx)
      simp [hrest]
    | succ k =>
      simp only [List.getElem?_cons_succ] at hk
      have hmem : job ∈ copiesOf job.id rest := mem_copiesOf.mpr ⟨List.mem_of_getElem? hk,rfl⟩
      by_cases hid : first.id = job.id
      · rw [if_pos hid] at hone
        simp only [List.cons.injEq] at hone
        rw [hone.2] at hmem
        cases hmem
      · rw [if_neg hid] at hone
        simp [hid,ih hk hone]

/-- What a reservation does, if it finds anything. -/
theorem reserve_cases (m : MemoryQueue) (now : ℕ) (queue : String) :
    (m.reserve now queue = (none,m)) ∨
    ∃ before job after, m.pending queue = before ++ job :: after ∧ job.isAvailable now = true ∧
      m.reserve now queue = (some (taken job),
        { m with
          pending := Function.update m.pending queue (before ++ after)
          reserved := m.reserved ++ [taken job] }) := by
  unfold reserve
  cases hf : (m.pending queue).find? (QueuedJob.isAvailable now) with
  | none => exact .inl rfl
  | some job =>
    right
    obtain ⟨hjob,before,after,hsplit,hbefore⟩ := List.find?_eq_some_iff_append.mp hf
    refine ⟨before,job,after,hsplit,hjob,?_⟩
    have herase : (m.pending queue).eraseP (QueuedJob.isAvailable now) = before ++ after := by
      rw [hsplit,List.eraseP_append_right _ (fun b hb => by simpa using hbefore b hb),List.eraseP_cons_of_pos hjob]
    rw [herase]

end MemoryQueue
end Rainier.Queue
