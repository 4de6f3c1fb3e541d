import Rainier.Queue.WorkerOptions

/-! # The queue port

The five calls a dispatcher and a worker make on a driver. Each is given the
clock it reads and returns the driver's answer with the state it leaves.
-/
namespace Rainier.Queue

structure QueueDriver (σ : Type) where
  push : σ → ℕ → QueuedJob → Except Error String × σ
  reserve : σ → ℕ → String → Except Error (Option QueuedJob) × σ
  acknowledge : σ → ℕ → QueuedJob → Except Error Unit × σ
  release : σ → ℕ → QueuedJob → ℕ → Except Error Unit × σ
  fail : σ → ℕ → QueuedJob → String → Except Error Unit × σ

/-- The one call with which a worker ends an attempt. -/
def QueueDriver.settle {σ : Type} (q : QueueDriver σ) (s : σ) (now : ℕ) (job : QueuedJob) :
    Settlement → Except Error Unit × σ
  | .acknowledge => q.acknowledge s now job
  | .release delay => q.release s now job delay
  | .fail message => q.fail s now job message

end Rainier.Queue
