import Mathlib.Data.List.Basic

/-! # Runs of a total step function

A system is a state type, a label type and a total step function; a label that
is not enabled leaves the state alone. A run is a list of labels. `Always` says
a property holds in every state a run passes through, `Along` that every step
is taken in a state that permits it, and the rules below turn one-step facts
into facts about whole runs.
-/
namespace Rainier.Trace
variable {S L : Type*} (step : S → L → S)

def run (s : S) (labels : List L) : S := labels.foldl step s

@[simp] theorem run_nil (s : S) : run step s [] = s := rfl
@[simp] theorem run_cons (s : S) (a : L) (rest : List L) :
    run step s (a :: rest) = run step (step s a) rest := rfl

theorem run_append (s : S) (as bs : List L) :
    run step s (as ++ bs) = run step (run step s as) bs := List.foldl_append

/-- `P` holds in every state of the run, the first and the last included. -/
def Always (P : S → Prop) : S → List L → Prop
  | s, [] => P s
  | s, a :: rest => P s ∧ Always P (step s a) rest

/-- Every label of the run is taken in a state that permits it. -/
def Along (ok : S → L → Prop) : S → List L → Prop
  | _, [] => True
  | s, a :: rest => ok s a ∧ Along ok (step s a) rest

instance Always.decidable (P : S → Prop) [DecidablePred P] :
    (s : S) → (labels : List L) → Decidable (Always step P s labels)
  | s, [] => inferInstanceAs (Decidable (P s))
  | s, a :: rest =>
    have := Always.decidable P (step s a) rest
    inferInstanceAs (Decidable (P s ∧ Always step P (step s a) rest))

instance Along.decidable (ok : S → L → Prop) [∀ s a, Decidable (ok s a)] :
    (s : S) → (labels : List L) → Decidable (Along step ok s labels)
  | _, [] => inferInstanceAs (Decidable True)
  | s, a :: rest =>
    have := Along.decidable ok (step s a) rest
    inferInstanceAs (Decidable (ok s a ∧ Along step ok (step s a) rest))

variable {step} {P Q : S → Prop} {ok ok' : S → L → Prop} {s : S} {labels : List L}

theorem Always.head (h : Always step P s labels) : P s := by
  cases labels with
  | nil => exact h
  | cons a rest => exact h.1

theorem Always.last (h : Always step P s labels) : P (run step s labels) := by
  induction labels generalizing s with
  | nil => exact h
  | cons a rest ih => exact ih h.2

theorem Always.mono (hPQ : ∀ s, P s → Q s) (h : Always step P s labels) : Always step Q s labels := by
  induction labels generalizing s with
  | nil => exact hPQ _ h
  | cons a rest ih => exact ⟨hPQ _ h.1,ih h.2⟩

theorem Along.mono (hok : ∀ s a, ok s a → ok' s a) (h : Along step ok s labels) :
    Along step ok' s labels := by
  induction labels generalizing s with
  | nil => trivial
  | cons a rest ih => exact ⟨hok _ _ h.1,ih h.2⟩

theorem Along.and (h : Along step ok s labels) (h' : Along step ok' s labels) :
    Along step (fun s a => ok s a ∧ ok' s a) s labels := by
  induction labels generalizing s with
  | nil => trivial
  | cons a rest ih => exact ⟨⟨h.1,h'.1⟩,ih h.2 h'.2⟩

theorem along_of_forall {ok : L → Prop} (h : ∀ a ∈ labels, ok a) :
    Along step (fun _ a => ok a) s labels := by
  induction labels generalizing s with
  | nil => trivial
  | cons a rest ih => exact ⟨h a List.mem_cons_self,ih (fun b hb => h b (List.mem_cons_of_mem _ hb))⟩

theorem along_append {as bs : List L} :
    Along step ok s (as ++ bs) ↔ Along step ok s as ∧ Along step ok (run step s as) bs := by
  induction as generalizing s with
  | nil => exact ⟨fun h => ⟨trivial,h⟩,fun h => h.2⟩
  | cons a as ih =>
    rw [List.cons_append,Along,Along,ih,and_assoc]
    rfl

/-- What comes to hold in a run comes to hold by one of its steps. -/
theorem exists_turn (hs : ¬ P s) (h : P (run step s labels)) :
    ∃ before a after, labels = before ++ a :: after ∧ ¬ P (run step s before) ∧
      P (step (run step s before) a) := by
  induction labels generalizing s with
  | nil => exact absurd h hs
  | cons a rest ih =>
    by_cases ha : P (step s a)
    · exact ⟨[],a,rest,rfl,hs,ha⟩
    · obtain ⟨before,b,after,rfl,hbefore,hb⟩ := ih ha h
      exact ⟨a :: before,b,after,rfl,hbefore,hb⟩

/-- A property of every state permits every step taken from such a state. -/
theorem Always.along (hP : ∀ s a, P s → P (step s a) → ok s a) (h : Always step P s labels) :
    Along step ok s labels := by
  induction labels generalizing s with
  | nil => trivial
  | cons a rest ih => exact ⟨hP _ _ h.1 h.2.head,ih h.2⟩

/-- The invariant rule: what every permitted step preserves holds throughout. -/
theorem always_of_along (hstep : ∀ s a, P s → ok s a → P (step s a)) (hs : P s)
    (h : Along step ok s labels) : Always step P s labels := by
  induction labels generalizing s with
  | nil => exact hs
  | cons a rest ih => exact ⟨hs,ih (hstep _ _ hs h.1) h.2⟩

/-- The invariant rule for steps that need no permission. -/
theorem always_of_step (hstep : ∀ s a, P s → P (step s a)) (hs : P s) (labels : List L) :
    Always step P s labels := by
  induction labels generalizing s with
  | nil => exact hs
  | cons a rest ih => exact ⟨hs,ih (hstep _ _ hs)⟩

/-- When, under an invariant `Q`, a guarded step keeps `P` exactly if it is permitted, a
run of guarded steps keeps `P` exactly if all its steps are. -/
theorem always_iff_along_of_guard {guard : S → L → Prop} (hguard : Along step guard s labels)
    (hQ : ∀ s a, guard s a → Q s → P s → ok s a → Q (step s a))
    (hstep : ∀ s a, guard s a → Q s → P s → (P (step s a) ↔ ok s a)) (hs : Q s) (hP : P s) :
    Always step P s labels ↔ Along step ok s labels := by
  induction labels generalizing s with
  | nil => exact iff_of_true hP trivial
  | cons a rest ih =>
    obtain ⟨ha,hrest⟩ := hguard
    constructor
    · rintro ⟨_,h⟩
      have hok := (hstep s a ha hs hP).mp h.head
      exact ⟨hok,(ih hrest (hQ s a ha hs hP hok) h.head).mp h⟩
    · rintro ⟨hok,h⟩
      have hP' := (hstep s a ha hs hP).mpr hok
      exact ⟨hP,(ih hrest (hQ s a ha hs hP hok) hP').mpr h⟩

theorem always_iff_along_of_kind {kind : L → Prop} (hkind : ∀ a ∈ labels, kind a)
    (hQ : ∀ s a, kind a → Q s → P s → ok s a → Q (step s a))
    (hstep : ∀ s a, kind a → Q s → P s → (P (step s a) ↔ ok s a)) (hs : Q s) (hP : P s) :
    Always step P s labels ↔ Along step ok s labels :=
  always_iff_along_of_guard (along_of_forall hkind) hQ hstep hs hP

theorem always_iff_along (hQ : ∀ s a, Q s → P s → ok s a → Q (step s a))
    (hstep : ∀ s a, Q s → P s → (P (step s a) ↔ ok s a)) (hs : Q s) (hP : P s) :
    Always step P s labels ↔ Along step ok s labels :=
  always_iff_along_of_guard (along_of_forall (fun _ _ => trivial)) (fun s a _ => hQ s a) (fun s a _ => hstep s a) hs hP

end Rainier.Trace
