import Mathlib.Data.List.Flatten
import Mathlib.Data.List.Sort
import Mathlib.Order.Defs.LinearOrder
import Mathlib.Algebra.Order.Group.Int
import Rainier.Support.Error

/-! # The event dispatcher

Listeners are known by a number. What they do besides answering is left out, so that a delivery is
a listener and the event it was handed.
-/
namespace Rainier.Events

/-- A listener with the keys that dispatch sorts by. -/
structure Registration where
  handler : ℕ
  priority : ℤ
  sequence : ℕ
  deriving DecidableEq, Repr

/-- Higher priority first, then in the order of registration. -/
def Registration.Before (a b : Registration) : Prop :=
  b.priority < a.priority ∨ (a.priority = b.priority ∧ a.sequence ≤ b.sequence)

instance : DecidableRel Registration.Before := fun _ _ => inferInstanceAs (Decidable (_ ∨ _))

instance : Std.Total Registration.Before where
  total a b := by
    rcases lt_trichotomy a.priority b.priority with h | h | h
    · exact .inr (.inl h)
    · exact (Nat.le_total a.sequence b.sequence).imp (fun hle => .inr ⟨h,hle⟩) fun hle => .inr ⟨h.symm,hle⟩
    · exact .inl (.inl h)

instance : IsTrans Registration Registration.Before where
  trans a b c := by
    rintro (hab | ⟨hab,hle⟩) (hbc | ⟨hbc,hle'⟩)
    · exact .inl (hbc.trans hab)
    · exact .inl (hbc ▸ hab)
    · exact .inl (hab ▸ hbc)
    · exact .inr ⟨hab.trans hbc,hle.trans hle'⟩

variable {K E : Type} [DecidableEq K]

/-- `K` stands for the types of events, `E` for the events. -/
structure Dispatcher (K E : Type) where
  listeners : List (K × List Registration)
  wildcards : List Registration
  /-- There while faking. -/
  recorder : Option (List E)

/-- A listener was handed an event. -/
structure Delivery (E : Type) where
  handler : ℕ
  event : E
  deriving DecidableEq, Repr

namespace Dispatcher

variable (d : Dispatcher K E)

def registrations (kind : K) : List Registration := (d.listeners.lookup kind).getD []

/-- Whether anything listens for the type, wildcards excluded. -/
def hasListeners (kind : K) : Bool := !(d.registrations kind).isEmpty

def handlersFor (kind : K) : List Registration := (d.registrations kind).insertionSort Registration.Before

def wildcardHandlers : List Registration := d.wildcards.insertionSort Registration.Before

/-- The deliveries of an event, in the order they are made. -/
def deliveries (kind : K) (event : E) : List (Delivery E) :=
  (d.handlersFor kind ++ d.wildcardHandlers).map fun r => ⟨r.handler,event⟩

end Dispatcher

/-- A dispatcher and what it has delivered. -/
structure Bus (K E : Type) where
  dispatcher : Dispatcher K E
  delivered : List (Delivery E)

/-- What a listener answers, which may depend on all that was delivered before. -/
abbrev Answers (E : Type) := List (Delivery E) → Delivery E → Except Error Unit

/-- Delivery stops at the first error. -/
def deliver (answers : Answers E) : List (Delivery E) → List (Delivery E) → List (Delivery E) × Except Error Unit
  | delivered,[] => (delivered,.ok ())
  | delivered,next :: rest =>
    match answers delivered next with
    | .ok _ => deliver answers (delivered ++ [next]) rest
    | .error e => (delivered ++ [next],.error e)

def Bus.dispatch (answers : Answers E) (b : Bus K E) (kind : K) (event : E) : Bus K E × Except Error Unit :=
  match b.dispatcher.recorder with
  | some recorded => ({ b with dispatcher := { b.dispatcher with recorder := some (recorded ++ [event]) } },.ok ())
  | none =>
    let outcome := deliver answers b.delivered (b.dispatcher.deliveries kind event)
    ({ b with delivered := outcome.1 },outcome.2)

theorem deliver_quiet {answers : Answers E} (hquiet : ∀ log next, answers log next = .ok ()) (delivered rest : List (Delivery E)) :
    deliver answers delivered rest = (delivered ++ rest,.ok ()) := by
  induction rest generalizing delivered with
  | nil => rw [deliver,List.append_nil]
  | cons next rest ih => rw [deliver,hquiet,ih,List.append_assoc,List.singleton_append]

end Rainier.Events
