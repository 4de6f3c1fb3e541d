import Rainier.Support.Trace
import Mathlib.Logic.Function.Basic

/-! # Calls interleaved over one shared cell

Any number of calls work on one cell, each a sequence of atomic operations. A
label names the call whose next operation is taken and what that operation reads
from outside; the operation may change the cell, moves its own call on and leaves
a trace in the log, under the name of its call. A call is inside its section when
it has read the cell and has still to write it.
-/
namespace Rainier.Calls
open Function

/-- The cell, how far each call has come, and what has happened so far. -/
structure State (σ κ ε : Type) where
  cell : σ
  calls : ℕ → κ
  log : List (ℕ × ε)

variable {α σ κ ε : Type} (advance : α → σ → κ → σ × κ × List ε)

def step (s : State σ κ ε) (a : ℕ × α) : State σ κ ε :=
  let done := advance a.2 s.cell (s.calls a.1)
  ⟨done.1,update s.calls a.1 done.2.1,s.log ++ done.2.2.map (Prod.mk a.1)⟩

variable {advance} {s : State σ κ ε} {a : ℕ × α} {cell : σ} {call : κ} {events : List ε}

/-- A step, once it is known what its operation does. -/
theorem step_eq (h : advance a.2 s.cell (s.calls a.1) = (cell,call,events)) :
    step advance s a = ⟨cell,update s.calls a.1 call,s.log ++ events.map (Prod.mk a.1)⟩ := by
  simp only [step,h]

/-- An operation that is seen as one event. -/
theorem step_event {i : ℕ} {x : α} {e : ε} (h : advance x s.cell (s.calls i) = (cell,call,[e])) :
    step advance s (i,x) = ⟨cell,update s.calls i call,s.log ++ [(i,e)]⟩ := step_eq (a := (i,x)) h

/-- A call that is through changes nothing. -/
theorem step_quiet {i : ℕ} {x : α} (h : advance x s.cell (s.calls i) = (s.cell,s.calls i,[])) :
    step advance s (i,x) = s := by
  rw [step_eq (a := (i,x)) h,update_eq_self,List.map_nil,List.append_nil]

/-- No call but `i` is in a state with `p`. -/
def Alone (p : κ → Prop) (s : State σ κ ε) (i : ℕ) : Prop := ∀ j, j ≠ i → ¬ p (s.calls j)

variable {p : κ → Prop} {i j : ℕ}

/-- What holds of a call after another has moved held of it before. -/
theorem of_update {calls : ℕ → κ} (hnew : ¬ p call) (h : p (update calls i call j)) :
    j ≠ i ∧ p (calls j) := by
  by_cases hj : j = i
  · subst hj
    rw [update_self] at h
    exact absurd h hnew
  · rw [update_of_ne hj] at h
    exact ⟨hj,h⟩

theorem eq_of_update {calls : ℕ → κ} {target : κ} (h : update calls i call j = target) (hnew : call ≠ target) :
    j ≠ i ∧ calls j = target := of_update (p := fun c => c = target) hnew h

theorem Alone.none_update (h : Alone p s i) (hnew : ¬ p call) (j : ℕ) : ¬ p (update s.calls i call j) := by
  intro hj
  obtain ⟨hne,hj⟩ := of_update hnew hj
  exact h j hne hj

theorem Alone.update_self (h : Alone p s i) (cell : σ) (call : κ) (log : List (ℕ × ε)) :
    Alone p ⟨cell,update s.calls i call,log⟩ i := by
  intro j hne
  dsimp only
  rw [update_of_ne hne]
  exact h j hne

/-- A call that none of the steps is of stays where it is. -/
theorem calls_run_of_ne {steps : List (ℕ × α)} (h : ∀ a ∈ steps, a.1 ≠ i) : (Trace.run (step advance) s steps).calls i = s.calls i := by
  induction steps generalizing s with
  | nil => rfl
  | cons a steps ih =>
    rw [Trace.run_cons,ih fun b hb => h b (List.mem_cons_of_mem a hb)]
    exact update_of_ne (Ne.symm (h a List.mem_cons_self)) _ _

end Rainier.Calls
