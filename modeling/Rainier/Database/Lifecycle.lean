import Rainier.Events.Dispatcher

/-! # Lifecycle events of a repository

The repository builds an event only when something listens for its type. It asks the dispatcher for
typed listeners, and so passes over those that listen to everything and over the recorder of a fake.
-/
namespace Rainier.Database
open Events

inductive Hook where
  | creating | created | updating | updated | deleting | deleted
  deriving DecidableEq, Repr

/-- The types of events: the hooks of each model, and those of the application. -/
inductive EventType where
  | lifecycle (model : String) (hook : Hook)
  | other (name : String)
  deriving DecidableEq, Repr

inductive LifecycleEvent (M : Type) where
  | creating (model : M)
  | created (model : M) (id : Int64)
  | updating (model : M)
  | updated (model : M) (rowsAffected : ℕ)
  | deleting (key : String)
  | deleted (key : String) (rowsAffected : ℕ)
  deriving DecidableEq, Repr

def LifecycleEvent.hook {M : Type} : LifecycleEvent M → Hook
  | .creating _ => .creating
  | .created _ _ => .created
  | .updating _ => .updating
  | .updated _ _ => .updated
  | .deleting _ => .deleting
  | .deleted _ _ => .deleted

/-- What a repository asks of the database during one call. -/
structure Calls (M : Type) where
  /-- `shard_key_for_insert` and the id the connector mints from it. -/
  allocateId : M → Option UInt64
  insert : M → Option UInt64 → Except Error Int64
  find : Int64 → Except Error (Option M)
  update : M → Except Error ℕ
  delete : String → Except Error ℕ

structure EntityRepository (M : Type) where
  model : String
  hasAutoIncrementKey : Bool
  db : Calls M
  events : Option (Bus EventType (LifecycleEvent M))

namespace EntityRepository

variable {M : Type} (answers : Answers (LifecycleEvent M)) (repo : EntityRepository M)

def kind (event : LifecycleEvent M) : EventType := .lifecycle repo.model event.hook

def fire (event : LifecycleEvent M) : EntityRepository M × Except Error Unit :=
  match repo.events with
  | none => (repo,.ok ())
  | some bus =>
    if !bus.dispatcher.hasListeners (repo.kind event) then (repo,.ok ())
    else
      let fired := bus.dispatch answers (repo.kind event) event
      ({ repo with events := some fired.1 },fired.2)

/-- An event, the statements, and the event that tells what they came to. -/
def around {α : Type} (before : LifecycleEvent M) (statements : Except Error α) (after : α → LifecycleEvent M) :
    EntityRepository M × Except Error α :=
  match repo.fire answers before with
  | (repo,.error e) => (repo,.error e)
  | (repo,.ok _) =>
    match statements with
    | .error e => (repo,.error e)
    | .ok a =>
      match repo.fire answers (after a) with
      | (repo,.error e) => (repo,.error e)
      | (repo,.ok _) => (repo,.ok a)

/-- The statements of `create`: the row as stored, and its id. It is read again only when the
database assigned the key. -/
def insert (model : M) : Except Error (M × Int64) := do
  let assigned := repo.db.allocateId model
  let lastInsertId ← repo.db.insert model assigned
  let id := (assigned.map (·.toInt64)).getD lastInsertId
  if assigned.isNone && 0 < id && repo.hasAutoIncrementKey then
    let found ← repo.db.find id
    return (found.getD model,id)
  else return (model,id)

def create (model : M) : EntityRepository M × Except Error M :=
  let outcome := repo.around answers (.creating model) (repo.insert model) fun stored => .created stored.1 stored.2
  (outcome.1,outcome.2.map (·.1))

def update (model : M) : EntityRepository M × Except Error ℕ :=
  repo.around answers (.updating model) (repo.db.update model) fun rows => .updated model rows

def delete (key : String) : EntityRepository M × Except Error ℕ :=
  repo.around answers (.deleting key) (repo.db.delete key) fun rows => .deleted key rows

end EntityRepository

inductive Write (M : Type) where
  | create (model : M)
  | update (model : M)
  | delete (key : String)
  deriving DecidableEq, Repr

namespace EntityRepository

variable {M : Type} (answers : Answers (LifecycleEvent M)) (repo : EntityRepository M)

def perform : Write M → EntityRepository M
  | .create model => (repo.create answers model).1
  | .update model => (repo.update answers model).1
  | .delete key => (repo.delete answers key).1

/-- The events of a write. A write that fails has no second one. -/
def lifecycle : Write M → List (LifecycleEvent M)
  | .create model => .creating model :: (repo.insert model).toOption.toList.map fun stored => .created stored.1 stored.2
  | .update model => .updating model :: (repo.db.update model).toOption.toList.map fun rows => .updated model rows
  | .delete key => .deleting key :: (repo.db.delete key).toOption.toList.map fun rows => .deleted key rows

end EntityRepository

/-! ## Who hears an event -/

section Hearing

variable {M : Type} {K E : Type} [DecidableEq K]

/-- An event reaches its own listeners and then those that hear everything, each once, by priority
and registration. -/
structure Reaches (d : Dispatcher K E) (kind : K) (event : E) (deliveries : List (Delivery E)) : Prop where
  order : ∃ typed wild : List Registration, typed.Perm (d.registrations kind) ∧ typed.Pairwise Registration.Before ∧
    wild.Perm d.wildcards ∧ wild.Pairwise Registration.Before ∧ deliveries = (typed ++ wild).map fun r => ⟨r.handler,event⟩

/-- What a bus should have done with some events: a fake records them and delivers nothing. -/
def Heard (kind : E → K) (bus bus' : Bus K E) (events : List E) : Prop :=
  match bus.dispatcher.recorder with
  | some recorded => bus'.dispatcher.recorder = some (recorded ++ events) ∧ bus'.delivered = bus.delivered
  | none => bus'.dispatcher.recorder = none ∧ ∃ reached : List (List (Delivery E)),
      List.Forall₂ (fun event deliveries => Reaches bus.dispatcher (kind event) event deliveries) events reached ∧
        bus'.delivered = bus.delivered ++ reached.flatten

/-- Nobody but the listeners of its type would hear an event, or there are some. -/
def Audible (d : Dispatcher K E) (kind : K) : Prop := d.hasListeners kind = true ∨ (d.wildcards = [] ∧ d.recorder = none)

variable {d : Dispatcher K E} {kind : E → K}

theorem reaches_deliveries (d : Dispatcher K E) (kind : K) (event : E) : Reaches d kind event (d.deliveries kind event) :=
  ⟨d.handlersFor kind,d.wildcardHandlers,List.perm_insertionSort _ _,List.pairwise_insertionSort _ _,
    List.perm_insertionSort _ _,List.pairwise_insertionSort _ _,rfl⟩

theorem length_deliveries (d : Dispatcher K E) (kind : K) (event : E) :
    (d.deliveries kind event).length = (d.registrations kind).length + d.wildcards.length := by
  simp [Dispatcher.deliveries,Dispatcher.handlersFor,Dispatcher.wildcardHandlers]

theorem Reaches.length {kind : K} {event : E} {deliveries : List (Delivery E)} (h : Reaches d kind event deliveries) :
    deliveries.length = (d.deliveries kind event).length := by
  obtain ⟨typed,wild,htyped,-,hwild,-,rfl⟩ := h.order
  rw [length_deliveries,List.length_map,List.length_append,htyped.length_eq,hwild.length_eq]

theorem length_flatten {events : List E} {reached : List (List (Delivery E))}
    (h : List.Forall₂ (fun event deliveries => Reaches d (kind event) event deliveries) events reached) :
    reached.flatten.length = (events.flatMap fun event => d.deliveries (kind event) event).length := by
  induction h with
  | nil => rfl
  | cons hfirst _ ih => rw [List.flatten_cons,List.flatMap_cons,List.length_append,List.length_append,hfirst.length,ih]

/-- What is left out of a sum that stays the same is nothing. -/
theorem eq_nil_of_length_flatMap {f : E → List (Delivery E)} {p : E → Bool} {events : List E}
    (h : ((events.filter p).flatMap f).length = (events.flatMap f).length) : ∀ event ∈ events, p event = false → f event = [] := by
  induction events with
  | nil => simp
  | cons first events ih =>
    have hle : ((events.filter p).flatMap f).length ≤ (events.flatMap f).length :=
      (List.filter_sublist.flatMap f).length_le
    rw [List.flatMap_cons,List.length_append] at h
    cases hfirst : p first with
    | true =>
      rw [List.filter_cons_of_pos hfirst,List.flatMap_cons,List.length_append] at h
      intro event hevent hp
      rcases List.mem_cons.1 hevent with rfl | hevent
      · rw [hfirst] at hp
        cases hp
      · exact ih (by omega) event hevent hp
    | false =>
      rw [List.filter_cons_of_neg (by simp [hfirst])] at h
      intro event hevent hp
      rcases List.mem_cons.1 hevent with rfl | hevent
      · exact List.length_eq_zero_iff.1 (by omega)
      · exact ih (by omega) event hevent hp

theorem flatMap_filter_of_nil {f : E → List (Delivery E)} {p : E → Bool} {events : List E}
    (h : ∀ event ∈ events, p event = false → f event = []) : (events.filter p).flatMap f = events.flatMap f := by
  induction events with
  | nil => rfl
  | cons first events ih =>
    have hrest := ih fun event hevent => h event (List.mem_cons_of_mem _ hevent)
    cases hfirst : p first with
    | true => rw [List.filter_cons_of_pos hfirst,List.flatMap_cons,List.flatMap_cons,hrest]
    | false =>
      rw [List.filter_cons_of_neg (by simp [hfirst]),List.flatMap_cons,h first List.mem_cons_self hfirst,hrest,List.nil_append]

/-- What a repository does with the events of a write when no listener fails: it passes over those that
nothing listens for by type. -/
def fired (kind : E → K) (bus : Bus K E) (events : List E) : Bus K E :=
  let heard := events.filter fun event => bus.dispatcher.hasListeners (kind event)
  match bus.dispatcher.recorder with
  | some recorded => { bus with dispatcher := { bus.dispatcher with recorder := some (recorded ++ heard) } }
  | none => { bus with delivered := bus.delivered ++ heard.flatMap fun event => bus.dispatcher.deliveries (kind event) event }

theorem deliveries_of_audible {event : E} (h : Audible d (kind event)) (hp : d.hasListeners (kind event) = false) :
    d.deliveries (kind event) event = [] := by
  have hnone := h.resolve_left (by simp [hp])
  have htyped : d.registrations (kind event) = [] := by simpa [Dispatcher.hasListeners] using hp
  apply List.length_eq_zero_iff.1
  rw [length_deliveries,htyped,hnone.1]
  rfl

theorem heard_fired_iff (kind : E → K) (bus : Bus K E) (events : List E) :
    Heard kind bus (fired kind bus events) events ↔ ∀ event ∈ events, Audible bus.dispatcher (kind event) := by
  cases hrecorder : bus.dispatcher.recorder with
  | some recorded =>
    simp only [Heard,fired,hrecorder,Audible,and_true,reduceCtorEq,and_false,or_false,Option.some.injEq,
      List.append_cancel_left_eq,List.filter_eq_self]
  | none =>
    simp only [Heard,fired,hrecorder,true_and,List.append_cancel_left_eq]
    constructor
    · rintro ⟨reached,hreached,heq⟩ event hevent
      cases hp : bus.dispatcher.hasListeners (kind event) with
      | true => exact .inl hp
      | false =>
        have hlength := length_flatten hreached
        rw [← heq] at hlength
        have hnil := congrArg List.length (eq_nil_of_length_flatMap hlength event hevent hp)
        rw [length_deliveries,List.length_nil] at hnil
        exact .inr ⟨List.length_eq_zero_iff.1 (by omega),hrecorder⟩
    · intro haudible
      refine ⟨events.map fun event => bus.dispatcher.deliveries (kind event) event,?_,?_⟩
      · rw [List.forall₂_map_right_iff]
        exact List.forall₂_same.2 fun event _ => reaches_deliveries _ _ _
      · rw [← List.flatMap_def]
        exact flatMap_filter_of_nil fun event hevent hp => deliveries_of_audible (haudible event hevent) hp

theorem fired_append (kind : E → K) (bus : Bus K E) (events events' : List E) :
    fired kind (fired kind bus events) events' = fired kind bus (events ++ events') := by
  cases hrecorder : bus.dispatcher.recorder with
  | some recorded => simp [fired,hrecorder,Dispatcher.hasListeners,Dispatcher.registrations]
  | none => simp [fired,hrecorder]

theorem fired_nil (kind : E → K) (bus : Bus K E) : fired kind bus [] = bus := by
  cases hrecorder : bus.dispatcher.recorder with
  | some recorded =>
    obtain ⟨⟨listeners,wildcards,recorder⟩,delivered⟩ := bus
    cases hrecorder
    simp [fired]
  | none => simp [fired,hrecorder]

end Hearing

/-! ## Writes -/

namespace EntityRepository

variable {M : Type} {answers : Answers (LifecycleEvent M)} {repo : EntityRepository M}
  {bus : Bus EventType (LifecycleEvent M)}

theorem fire_quiet (hquiet : ∀ log next, answers log next = .ok ()) (hbus : repo.events = some bus) (event : LifecycleEvent M) :
    repo.fire answers event = ({ repo with events := some (fired repo.kind bus [event]) },.ok ()) := by
  rw [fire,hbus]
  cases hp : bus.dispatcher.hasListeners (repo.kind event) with
  | false =>
    have hfired : fired repo.kind bus [event] = fired repo.kind bus [] := by
      simp only [fired,List.filter_cons,hp,Bool.false_eq_true,if_false]
    have hrepo : repo = { repo with events := some bus } := by rw [← hbus]
    rw [hfired,fired_nil]
    simp only [hp,Bool.not_false,if_true]
    exact congrArg (fun repo => (repo,Except.ok ())) hrepo
  | true =>
    cases hrecorder : bus.dispatcher.recorder with
    | some recorded => simp [fired,Bus.dispatch,hp,hrecorder]
    | none => simp [fired,Bus.dispatch,hp,hrecorder,deliver_quiet hquiet]

theorem around_quiet (hquiet : ∀ log next, answers log next = .ok ()) (hbus : repo.events = some bus) {α : Type}
    (before : LifecycleEvent M) (statements : Except Error α) (after : α → LifecycleEvent M) :
    (repo.around answers before statements after).1 =
      { repo with events := some (fired repo.kind bus (before :: statements.toOption.toList.map after)) } := by
  rw [around,fire_quiet hquiet hbus]
  cases statements with
  | error e => rfl
  | ok a =>
    simp only
    rw [fire_quiet hquiet rfl]
    exact congrArg (fun bus => { repo with events := some bus }) (fired_append repo.kind bus [before] [after a])

theorem perform_quiet (hquiet : ∀ log next, answers log next = .ok ()) (hbus : repo.events = some bus) (w : Write M) :
    repo.perform answers w = { repo with events := some (fired repo.kind bus (repo.lifecycle w)) } := by
  cases w with
  | create model => exact around_quiet hquiet hbus (.creating model) (repo.insert model) fun stored => .created stored.1 stored.2
  | update model => exact around_quiet hquiet hbus _ _ _
  | delete key => exact around_quiet hquiet hbus _ _ _

/-- Everyone hears of a write exactly when nobody is left out by the look for typed listeners. -/
theorem lifecycle_heard_iff (hquiet : ∀ log next, answers log next = .ok ()) (hbus : repo.events = some bus) (w : Write M) :
    (∃ bus', (repo.perform answers w).events = some bus' ∧ Heard repo.kind bus bus' (repo.lifecycle w)) ↔
      ∀ event ∈ repo.lifecycle w, Audible bus.dispatcher (repo.kind event) := by
  rw [perform_quiet hquiet hbus,← heard_fired_iff]
  constructor
  · rintro ⟨bus',heq,hheard⟩
    cases heq
    exact hheard
  · intro hheard
    exact ⟨_,rfl,hheard⟩

/-- A database that takes every row and knows of none. -/
def blank : Calls ℕ := ⟨fun _ => none,fun _ _ => .ok 0,fun _ => .ok none,fun _ => .ok 1,fun _ => .ok 1⟩

def posts (dispatcher : Dispatcher EventType (LifecycleEvent ℕ)) : EntityRepository ℕ :=
  ⟨"posts",true,blank,some ⟨dispatcher,[]⟩⟩

/-- Listeners for both hooks of an update, and one for everything. -/
def listened : Dispatcher EventType (LifecycleEvent ℕ) :=
  ⟨[(.lifecycle "posts" .updating,[⟨0,0,0⟩]),(.lifecycle "posts" .updated,[⟨1,0,1⟩])],[⟨2,0,2⟩],none⟩

theorem update_heard : ∃ bus', ((posts listened).perform (fun _ _ => .ok ()) (.update 7)).events = some bus' ∧
    Heard (posts listened).kind ⟨listened,[]⟩ bus' ((posts listened).lifecycle (.update 7)) :=
  (lifecycle_heard_iff (fun _ _ => rfl) rfl (.update 7)).2 fun event hevent => .inl (by
    rcases List.mem_cons.1 hevent with rfl | hevent
    · decide
    · obtain rfl := List.mem_singleton.1 hevent
      decide)

/-- A listener for everything hears nothing of an update that nothing listens for by type. -/
theorem wildcard_unheard : ¬ ∀ (repo : EntityRepository ℕ) (bus : Bus EventType (LifecycleEvent ℕ)) (w : Write ℕ),
    repo.events = some bus → ∃ bus', (repo.perform (fun _ _ => .ok ()) w).events = some bus' ∧
      Heard repo.kind bus bus' (repo.lifecycle w) := by
  intro h
  have hheard := h (posts ⟨[],[⟨0,0,0⟩],none⟩) ⟨⟨[],[⟨0,0,0⟩],none⟩,[]⟩ (.update 7) rfl
  rw [lifecycle_heard_iff (fun _ _ => rfl) rfl] at hheard
  rcases hheard (.updating 7) List.mem_cons_self with hlistens | ⟨hnone,-⟩
  · cases hlistens
  · cases hnone

end EntityRepository

end Rainier.Database
