import Rainier.Support.Calls
import Rainier.Support.Json

/-! # Webhook deliveries

A delivery claims the id of its event in a cache that all processes share, dispatches the event and,
where a listener fails, gives the claim back. Any number of deliveries are interleaved below, one
operation at a time; an operation may fail, and the process of a delivery may die before it.
-/
namespace Rainier.Billing
open Calls Trace Function

inductive ErrorKind where
  | badRequest
  | unauthenticated
  | unauthorized
  | notFound
  | methodNotAllowed
  | conflict
  | payloadTooLarge
  | validation
  | tooManyRequests
  | internal
  | serviceUnavailable
  | status (code : ℕ)
  deriving DecidableEq, Repr

structure Failure where
  kind : ErrorKind
  message : String
  deriving DecidableEq, Repr

/-- The fields that receiving a delivery reads. -/
structure WebhookEvent where
  id : String
  kind : String
  deriving DecidableEq, Repr

def typedEvents : List String :=
  ["checkout.session.completed","customer.subscription.created","customer.subscription.updated",
    "customer.subscription.deleted","invoice.paid","invoice.payment_failed","payment_intent.succeeded",
    "payment_intent.payment_failed","charge.refunded","customer.updated","customer.deleted"]

inductive Outcome where
  | handled (id : String)
  | duplicate (id : String)
  deriving DecidableEq, Repr

structure Response where
  status : ℕ
  body : Json
  deriving DecidableEq, Repr

/-- The answer of `Webhooks::handle` to what `receive` returned. -/
def respond : Except Failure Outcome → Response
  | .ok (.handled id) => ⟨200,.object [("received",.bool true),("id",.string id)]⟩
  | .ok (.duplicate id) => ⟨200,.object [("received",.bool true),("id",.string id),("duplicate",.bool true)]⟩
  | .error failure =>
    if failure.kind = .badRequest then ⟨400,.object [("error",.string failure.message)]⟩
    else ⟨500,.object [("error",.string "webhook handling failed")]⟩

/-! ## One delivery -/

/-- Before which operation of `receive` a delivery stands. -/
inductive Delivery where
  | arriving (event : WebhookEvent)
  | verified (event : WebhookEvent)
  | claimed (event : WebhookEvent)
  /-- `StripeEventReceived` is dispatched, the typed event is not. -/
  | received (event : WebhookEvent)
  | releasing (event : WebhookEvent) (failure : Failure)
  | returning (event : WebhookEvent) (outcome : Except Failure Outcome)
  | closed

/-- What happens to a delivery next. -/
inductive Input where
  | dies
  | next (failure : Option Failure)
  deriving DecidableEq, Repr

inductive Event where
  | dispatched (id : String)
  | answered (id : String) (response : Response)
  deriving DecidableEq, Repr

/-- The keys that are in the cache. No claim grows old. -/
abbrev Cache := String → Bool

def key (id : String) : String := "stripe:webhook:" ++ id

def advance : Input → Cache → Delivery → Cache × Delivery × List Event
  | .dies,cache,_ => (cache,.closed,[])
  -- the signature or the payload is refused
  | .next (some failure),cache,.arriving event => (cache,.returning event (.error ⟨.badRequest,failure.message⟩),[])
  | .next none,cache,.arriving event => (cache,.verified event,[])
  | .next (some failure),cache,.verified event => (cache,.returning event (.error failure),[])
  | .next none,cache,.verified event =>
    if cache (key event.id) then (cache,.returning event (.ok (.duplicate event.id)),[])
    else (update cache (key event.id) true,.claimed event,[])
  | .next (some failure),cache,.claimed event => (cache,.releasing event failure,[])
  | .next none,cache,.claimed event => (cache,.received event,[])
  | .next failure,cache,.received event =>
    -- an event without a type of its own has been dispatched
    match if event.kind ∈ typedEvents then failure else none with
    | some failure => (cache,.releasing event failure,[])
    | none => (cache,.returning event (.ok (.handled event.id)),[.dispatched event.id])
  -- a claim that cannot be given back is logged and stays
  | .next (some _),cache,.releasing event failure => (cache,.returning event (.error failure),[])
  | .next none,cache,.releasing event failure => (update cache (key event.id) false,.returning event (.error failure),[])
  | .next _,cache,.returning event outcome => (cache,.closed,[.answered event.id (respond outcome)])
  | .next _,cache,.closed => (cache,.closed,[])

abbrev Run := Calls.State Cache Delivery Event

def start (events : ℕ → WebhookEvent) : Run := ⟨fun _ => false,fun i => .arriving (events i),[]⟩

/-! ## What an answer promises -/

/-- The claim on the id is this delivery's. -/
def Holds (id : String) : Delivery → Prop
  | .claimed event => event.id = id
  | .received event => event.id = id
  | .releasing event _ => event.id = id
  | _ => False

/-- The event may yet be dispatched. -/
def AtWork (id : String) : Delivery → Prop
  | .claimed event => event.id = id
  | .received event => event.id = id
  | _ => False

def Completed (id : String) (s : Run) : Prop := ∃ i, (i,.dispatched id) ∈ s.log

def Pending (id : String) (s : Run) : Prop := ∃ i, AtWork id (s.calls i)

def Acknowledged (id : String) (s : Run) : Prop := ∃ i response, (i,.answered id response) ∈ s.log ∧ response.status = 200

/-- An event is dispatched once, and is not acknowledged and dropped. -/
def Honoured (id : String) (s : Run) : Prop :=
  (∀ i j, (i,.dispatched id) ∈ s.log → (j,.dispatched id) ∈ s.log → i = j) ∧
    (Acknowledged id s → Completed id s ∨ Pending id s)

/-- The work on the event ends here, and it is not dispatched. -/
def Drops (id : String) : Input → Delivery → Prop
  | .dies,delivery => AtWork id delivery
  | .next (some _),.claimed event => event.id = id
  | .next (some _),.received event => event.id = id ∧ event.kind ∈ typedEvents
  | _,_ => False

/-- The work on an event that was acknowledged does not fail, and no duplicate is answered once
the work has failed. -/
structure Calm (id : String) (s : Run) (a : ℕ × Input) : Prop where
  drops : Drops id a.2 (s.calls a.1) → ¬ Acknowledged id s
  duplicate : ∀ event again, s.calls a.1 = .returning event (.ok (.duplicate again)) → event.id = id → a.2 ≠ .dies →
    Completed id s ∨ Pending id s

/-! ## The claim -/

/-- One delivery at most holds a claim, and the claim on an event that was dispatched is nobody's and stays. -/
structure Inv (s : Run) : Prop where
  held : ∀ i id, Holds id (s.calls i) → s.cell (key id) = true
  alone : ∀ i j id, Holds id (s.calls i) → Holds id (s.calls j) → i = j
  kept : ∀ id, Completed id s → s.cell (key id) = true ∧ ∀ j, ¬ Holds id (s.calls j)
  once : ∀ i j id, (i,.dispatched id) ∈ s.log → (j,.dispatched id) ∈ s.log → i = j
  told : ∀ i event id, s.calls i = .returning event (.ok (.handled id)) → Completed event.id s

theorem key_inj {id id' : String} (h : key id = key id') : id = id' := by
  have hlist := congrArg String.toList h
  rw [key,key,String.toList_append,String.toList_append] at hlist
  exact String.toList_injective (List.append_cancel_left hlist)

variable {s : Run} {i : ℕ} {id : String} {delivery : Delivery} {events : List Event} {cell : Cache}

theorem holds_of_atWork (h : AtWork id delivery) : Holds id delivery := by
  cases delivery with
  | claimed event => exact h
  | received event => exact h
  | arriving event => exact h.elim
  | verified event => exact h.elim
  | releasing event failure => exact h.elim
  | returning event outcome => exact h.elim
  | closed => exact h.elim

/-- The run after an operation of one delivery. -/
def after (s : Run) (i : ℕ) (cell : Cache) (delivery : Delivery) (events : List Event) : Run :=
  ⟨cell,update s.calls i delivery,s.log ++ events.map (Prod.mk i)⟩

theorem mem_log_after {j : ℕ} {e : Event} :
    (j,e) ∈ (after s i cell delivery events).log ↔ (j,e) ∈ s.log ∨ (j = i ∧ e ∈ events) := by
  simp only [after,List.mem_append,List.mem_map,Prod.mk.injEq]
  constructor
  · rintro (h | ⟨e',he,rfl,rfl⟩)
    · exact .inl h
    · exact .inr ⟨rfl,he⟩
  · rintro (h | ⟨rfl,he⟩)
    · exact .inl h
    · exact .inr ⟨e,he,rfl,rfl⟩

theorem completed_after : Completed id (after s i cell delivery events) ↔ Completed id s ∨ .dispatched id ∈ events := by
  simp only [Completed,mem_log_after,exists_or]
  simp

theorem acknowledged_after : Acknowledged id (after s i cell delivery events) ↔
    Acknowledged id s ∨ ∃ response, .answered id response ∈ events ∧ response.status = 200 := by
  simp only [Acknowledged,mem_log_after]
  constructor
  · rintro ⟨j,response,h | ⟨rfl,h⟩,hstatus⟩
    · exact .inl ⟨j,response,h,hstatus⟩
    · exact .inr ⟨response,h,hstatus⟩
  · rintro (⟨j,response,h,hstatus⟩ | ⟨response,h,hstatus⟩)
    · exact ⟨j,response,.inl h,hstatus⟩
    · exact ⟨i,response,.inr ⟨rfl,h⟩,hstatus⟩

theorem calls_after (p : Delivery → Prop) {j : ℕ} (h : p ((after s i cell delivery events).calls j)) :
    (j = i ∧ p delivery) ∨ p (s.calls j) := by
  by_cases hj : j = i
  · subst hj
    dsimp only [after] at h
    rw [update_self] at h
    exact .inl ⟨rfl,h⟩
  · dsimp only [after] at h
    rw [update_of_ne hj] at h
    exact .inr h

theorem Inv.once_after (h : Inv s) (hdispatched : ∀ id, .dispatched id ∉ events) (j k : ℕ) (id : String)
    (hj : (j,.dispatched id) ∈ (after s i cell delivery events).log)
    (hk : (k,.dispatched id) ∈ (after s i cell delivery events).log) : j = k := by
  apply h.once j k id
  · simpa [mem_log_after,hdispatched] using hj
  · simpa [mem_log_after,hdispatched] using hk

theorem Inv.told_after (h : Inv s)
    (htold : ∀ event id, delivery = .returning event (.ok (.handled id)) → Completed event.id (after s i cell delivery events))
    (j : ℕ) (event : WebhookEvent) (id : String)
    (hj : (after s i cell delivery events).calls j = .returning event (.ok (.handled id))) :
    Completed event.id (after s i cell delivery events) := by
  rcases calls_after (· = .returning event (.ok (.handled id))) hj with ⟨-,hnew⟩ | hold
  · exact htold event id hnew
  · exact completed_after.2 (.inl (h.told j event id hold))

/-- An operation that takes no claim, gives none back and dispatches nothing. -/
theorem Inv.move (h : Inv s) (hholds : ∀ id, Holds id delivery → Holds id (s.calls i))
    (hdispatched : ∀ id, .dispatched id ∉ events)
    (htold : ∀ event id, delivery = .returning event (.ok (.handled id)) → Completed event.id s) :
    Inv (after s i s.cell delivery events) := by
  have hcalls : ∀ j id, Holds id ((after s i s.cell delivery events).calls j) → Holds id (s.calls j) := by
    intro j id hj
    rcases calls_after (Holds id) hj with ⟨hi,hnew⟩ | hold
    · rw [hi]
      exact hholds id hnew
    · exact hold
  constructor
  · exact fun j id hj => h.held j id (hcalls j id hj)
  · exact fun j k id hj hk => h.alone j k id (hcalls j id hj) (hcalls k id hk)
  · intro id hid
    have hold : Completed id s := by simpa [hdispatched] using completed_after.1 hid
    obtain ⟨hcell,hnone⟩ := h.kept id hold
    exact ⟨hcell,fun k hk => hnone k (hcalls k id hk)⟩
  · exact h.once_after hdispatched
  · exact h.told_after fun event id hnew => completed_after.2 (.inl (htold event id hnew))

theorem Inv.claim (h : Inv s) {event : WebhookEvent} (hfree : s.cell (key event.id) = false) :
    Inv (after s i (update s.cell (key event.id) true) (.claimed event) []) := by
  have hcell : ∀ id, s.cell (key id) = true → update s.cell (key event.id) true (key id) = true := by
    intro id hid
    by_cases heq : key id = key event.id
    · rw [heq,update_self]
    · rw [update_of_ne heq,hid]
  have hnone : ∀ j, ¬ Holds event.id (s.calls j) := by
    intro j hj
    rw [h.held j event.id hj] at hfree
    cases hfree
  constructor
  · intro j id hj
    rcases calls_after (Holds id) hj with ⟨-,hnew⟩ | hold
    · cases hnew
      exact update_self _ _ _
    · exact hcell id (h.held j id hold)
  · intro j k id hj hk
    rcases calls_after (Holds id) hj with ⟨hji,hnew⟩ | hold
    · rcases calls_after (Holds id) hk with ⟨hki,-⟩ | hold
      · rw [hji,hki]
      · cases hnew
        exact absurd hold (hnone k)
    · rcases calls_after (Holds id) hk with ⟨-,hnew⟩ | hold'
      · cases hnew
        exact absurd hold (hnone j)
      · exact h.alone j k id hold hold'
  · intro id hid
    have hold : Completed id s := by simpa using completed_after.1 hid
    obtain ⟨hheld,hfreed⟩ := h.kept id hold
    constructor
    · exact hcell id hheld
    · intro j hj
      rcases calls_after (Holds id) hj with ⟨-,hnew⟩ | hold
      · cases hnew
        rw [hheld] at hfree
        cases hfree
      · exact hfreed j hold
  · exact h.once_after fun id => List.not_mem_nil
  · apply h.told_after
    intro event' id hnew
    cases hnew

theorem Inv.dispatch (h : Inv s) {event : WebhookEvent} (hi : s.calls i = .received event) :
    Inv (after s i s.cell (.returning event (.ok (.handled event.id))) [.dispatched event.id]) := by
  have hmine : Holds event.id (s.calls i) := by
    rw [hi]
    rfl
  have hnot : ¬ Completed event.id s := fun hdone => (h.kept event.id hdone).2 i hmine
  have hcalls : ∀ j id, Holds id ((after s i s.cell (.returning event (.ok (.handled event.id)))
      [.dispatched event.id]).calls j) → j ≠ i ∧ Holds id (s.calls j) := by
    intro j id hj
    apply of_update _ hj
    exact fun hnew => hnew
  constructor
  · exact fun j id hj => h.held j id (hcalls j id hj).2
  · exact fun j k id hj hk => h.alone j k id (hcalls j id hj).2 (hcalls k id hk).2
  · intro id hid
    rcases completed_after.1 hid with hold | hnew
    · obtain ⟨hcell,hnone⟩ := h.kept id hold
      exact ⟨hcell,fun k hk => hnone k (hcalls k id hk).2⟩
    · cases List.mem_singleton.1 hnew
      refine ⟨h.held i _ hmine,fun k hk => ?_⟩
      obtain ⟨hne,hk⟩ := hcalls k _ hk
      exact hne (h.alone k i _ hk hmine)
  · intro j k id hj hk
    rcases mem_log_after.1 hj with hold | ⟨rfl,hnew⟩
    · rcases mem_log_after.1 hk with hold' | ⟨rfl,hnew⟩
      · exact h.once j k id hold hold'
      · cases List.mem_singleton.1 hnew
        exact absurd ⟨j,hold⟩ hnot
    · cases List.mem_singleton.1 hnew
      rcases mem_log_after.1 hk with hold | ⟨rfl,-⟩
      · exact absurd ⟨k,hold⟩ hnot
      · rfl
  · apply h.told_after
    intro event' id hnew
    cases hnew
    exact completed_after.2 (.inr (List.mem_singleton.2 rfl))

theorem Inv.release (h : Inv s) {event : WebhookEvent} {failure : Failure} (hi : s.calls i = .releasing event failure) :
    Inv (after s i (update s.cell (key event.id) false) (.returning event (.error failure)) []) := by
  have hmine : Holds event.id (s.calls i) := by
    rw [hi]
    rfl
  have hcalls : ∀ j id, Holds id ((after s i (update s.cell (key event.id) false) (.returning event (.error failure))
      []).calls j) → j ≠ i ∧ Holds id (s.calls j) := by
    intro j id hj
    apply of_update _ hj
    exact fun hnew => hnew
  have hcell : ∀ id, id ≠ event.id → update s.cell (key event.id) false (key id) = s.cell (key id) :=
    fun id hne => update_of_ne (fun heq => hne (key_inj heq)) _ _
  constructor
  · intro j id hj
    obtain ⟨hne,hold⟩ := hcalls j id hj
    have hid : id ≠ event.id := by
      rintro rfl
      exact hne (h.alone j i _ hold hmine)
    dsimp only [after]
    rw [hcell id hid]
    exact h.held j id hold
  · exact fun j k id hj hk => h.alone j k id (hcalls j id hj).2 (hcalls k id hk).2
  · intro id hid
    have hold : Completed id s := by simpa using completed_after.1 hid
    obtain ⟨hheld,hnone⟩ := h.kept id hold
    have hid : id ≠ event.id := by
      rintro rfl
      exact hnone i hmine
    dsimp only [after]
    rw [hcell id hid]
    exact ⟨hheld,fun k hk => hnone k (hcalls k id hk).2⟩
  · exact h.once_after fun id => List.not_mem_nil
  · apply h.told_after
    intro event' id hnew
    cases hnew

/-! ## One operation -/

/-- The delivery has no claim and no success to tell of. -/
def Idle (delivery : Delivery) : Prop :=
  (∀ id, ¬ Holds id delivery) ∧ ∀ event id, delivery ≠ .returning event (.ok (.handled id))

/-- All that an operation can do. -/
inductive Took (s : Run) (i : ℕ) (x : Input) : Run → Prop where
  | aside {delivery : Delivery} (hfrom : ∀ id, ¬ AtWork id (s.calls i)) (hto : Idle delivery)
      (hquiet : x = .dies ∨ ∀ event outcome, s.calls i ≠ .returning event outcome) : Took s i x (after s i s.cell delivery [])
  | claim {event : WebhookEvent} (hi : s.calls i = .verified event) (hx : x ≠ .dies) (hfree : s.cell (key event.id) = false) :
      Took s i x (after s i (update s.cell (key event.id) true) (.claimed event) [])
  | proceed {event : WebhookEvent} (hi : s.calls i = .claimed event) (hx : x = .next none) :
      Took s i x (after s i s.cell (.received event) [])
  | drop (event : WebhookEvent) {delivery : Delivery} (hi : AtWork event.id (s.calls i)) (hx : Drops event.id x (s.calls i))
      (hto : delivery = .closed ∨ ∃ failure, delivery = .releasing event failure) : Took s i x (after s i s.cell delivery [])
  | dispatch {event : WebhookEvent} (hi : s.calls i = .received event) (hx : ¬ Drops event.id x (s.calls i)) :
      Took s i x (after s i s.cell (.returning event (.ok (.handled event.id))) [.dispatched event.id])
  | release {event : WebhookEvent} {failure : Failure} (hi : s.calls i = .releasing event failure) (hx : x ≠ .dies) :
      Took s i x (after s i (update s.cell (key event.id) false) (.returning event (.error failure)) [])
  | answer {event : WebhookEvent} {outcome : Except Failure Outcome} (hi : s.calls i = .returning event outcome) (hx : x ≠ .dies) :
      Took s i x (after s i s.cell .closed [.answered event.id (respond outcome)])

theorem idle_closed : Idle .closed := ⟨fun _ h => h,fun _ _ h => by cases h⟩

theorem idle_verified (event : WebhookEvent) : Idle (.verified event) := ⟨fun _ h => h,fun _ _ h => by cases h⟩

theorem idle_returning {event : WebhookEvent} {outcome : Except Failure Outcome} (h : ∀ id, outcome ≠ .ok (.handled id)) :
    Idle (.returning event outcome) := by
  constructor
  · exact fun _ h => h
  · intro event' id heq
    cases heq
    exact h id rfl

theorem took_dies (s : Run) (i : ℕ) : Took s i .dies (after s i s.cell .closed []) := by
  cases hi : s.calls i with
  | claimed event => exact .drop event (by rw [hi]; rfl) (by rw [hi]; rfl) (.inl rfl)
  | received event => exact .drop event (by rw [hi]; rfl) (by rw [hi]; rfl) (.inl rfl)
  | arriving event => exact .aside (by simp [hi,AtWork]) idle_closed (.inl rfl)
  | verified event => exact .aside (by simp [hi,AtWork]) idle_closed (.inl rfl)
  | releasing event failure => exact .aside (by simp [hi,AtWork]) idle_closed (.inl rfl)
  | returning event outcome => exact .aside (by simp [hi,AtWork]) idle_closed (.inl rfl)
  | closed => exact .aside (by simp [hi,AtWork]) idle_closed (.inl rfl)

theorem took_of {x : Input} {from' : Delivery} {cell : Cache} {delivery : Delivery} {events : List Event} (hi : s.calls i = from')
    (hop : advance x s.cell from' = (cell,delivery,events)) (h : Took s i x (after s i cell delivery events)) :
    Took s i x (Calls.step advance s (i,x)) := by
  rw [step_eq (a := (i,x)) (by rw [hi,hop])]
  exact h

theorem took_next (s : Run) (i : ℕ) (failure : Option Failure) :
    Took s i (.next failure) (Calls.step advance s (i,.next failure)) := by
  cases hi : s.calls i with
  | arriving event =>
    cases failure with
    | some failure => exact took_of hi rfl (.aside (by simp [hi,AtWork]) (idle_returning (by simp)) (.inr (by simp [hi])))
    | none => exact took_of hi rfl (.aside (by simp [hi,AtWork]) (idle_verified event) (.inr (by simp [hi])))
  | verified event =>
    cases failure with
    | some failure => exact took_of hi rfl (.aside (by simp [hi,AtWork]) (idle_returning (by simp)) (.inr (by simp [hi])))
    | none =>
      cases hcell : s.cell (key event.id) with
      | true =>
        apply took_of hi (by rw [advance,if_pos hcell])
        exact .aside (by simp [hi,AtWork]) (idle_returning (by simp)) (.inr (by simp [hi]))
      | false =>
        apply took_of hi (by rw [advance,if_neg (by simp [hcell])])
        exact .claim hi (by simp) hcell
  | claimed event =>
    cases failure with
    | some failure => exact took_of hi rfl (.drop event (by rw [hi]; rfl) (by rw [hi]; rfl) (.inr ⟨failure,rfl⟩))
    | none => exact took_of hi rfl (.proceed hi rfl)
  | received event =>
    cases hfails : if event.kind ∈ typedEvents then failure else none with
    | some failure' =>
      apply took_of hi (by rw [advance,hfails])
      split_ifs at hfails with hkind
      subst hfails
      exact .drop event (by rw [hi]; rfl) (by rw [hi]; exact ⟨rfl,hkind⟩) (.inr ⟨failure',rfl⟩)
    | none =>
      apply took_of hi (by rw [advance,hfails])
      apply Took.dispatch hi
      rw [hi]
      cases failure with
      | some failure =>
        rintro ⟨-,hkind⟩
        rw [if_pos hkind] at hfails
        cases hfails
      | none => exact fun h => h
  | releasing event failure' =>
    cases failure with
    | some failure => exact took_of hi rfl (.aside (by simp [hi,AtWork]) (idle_returning (by simp)) (.inr (by simp [hi])))
    | none => exact took_of hi rfl (.release hi (by simp))
  | returning event outcome =>
    apply took_of (x := .next failure) hi (by rw [advance])
    exact .answer hi (by simp)
  | closed =>
    apply took_of (x := .next failure) hi (by rw [advance])
    exact .aside (by simp [hi,AtWork]) idle_closed (.inr (by simp [hi]))

theorem took_step (s : Run) (i : ℕ) (x : Input) : Took s i x (Calls.step advance s (i,x)) := by
  cases x with
  | dies => exact took_of rfl rfl (took_dies s i)
  | next failure => exact took_next s i failure

theorem Inv.step (h : Inv s) (x : Input) : Inv (Calls.step advance s (i,x)) := by
  have htook := took_step s i x
  generalize Calls.step advance s (i,x) = s' at htook ⊢
  cases htook with
  | aside hfrom hto hquiet =>
    apply h.move
    · exact fun id hid => absurd hid (hto.1 id)
    · exact fun id => List.not_mem_nil
    · exact fun event id hnew => absurd hnew (hto.2 event id)
  | claim hi hx hfree => exact h.claim hfree
  | proceed hi hx => exact h.move (by simp [hi,Holds]) (by simp) (by simp)
  | @drop event delivery hi hx hto =>
    have hmine := holds_of_atWork hi
    apply h.move
    · intro id hid
      rcases hto with rfl | ⟨failure,rfl⟩
      · exact hid.elim
      · cases hid
        exact hmine
    · exact fun id => List.not_mem_nil
    · intro event' id hnew
      rcases hto with rfl | ⟨failure,rfl⟩
      · cases hnew
      · cases hnew
  | dispatch hi hx => exact h.dispatch hi
  | release hi hx => exact h.release hi
  | answer hi hx => exact h.move (by simp [Holds]) (by simp) (by simp)

/-! ## What each operation does to the promise -/

theorem drops_atWork {x : Input} (h : Drops id x delivery) : AtWork id delivery := by
  cases x with
  | dies => exact h
  | next failure =>
    cases failure with
    | none => exact h.elim
    | some failure =>
      cases delivery with
      | claimed event => exact h
      | received event => exact h.1
      | arriving event => exact h.elim
      | verified event => exact h.elim
      | releasing event failure => exact h.elim
      | returning event outcome => exact h.elim
      | closed => exact h.elim

theorem honoured_iff (h : Inv s) : Honoured id s ↔ (Acknowledged id s → Completed id s ∨ Pending id s) :=
  ⟨fun hs => hs.2,fun hs => ⟨fun i j => h.once i j id,hs⟩⟩

/-- An operation that keeps on what is at work and answers nothing breaks no promise. -/
theorem honoured_after (hinv : Inv (after s i cell delivery events)) (hs : Honoured id s)
    (hpending : AtWork id (s.calls i) → AtWork id delivery ∨ .dispatched id ∈ events)
    (hanswered : ∀ response, .answered id response ∈ events → response.status = 200 → Completed id s ∨ Pending id s) :
    Honoured id (after s i cell delivery events) := by
  apply (honoured_iff hinv).2
  intro hack
  have hkept : Completed id s ∨ Pending id s := by
    rcases acknowledged_after.1 hack with hold | ⟨response,hnew,hstatus⟩
    · exact hs.2 hold
    · exact hanswered response hnew hstatus
  rw [completed_after]
  rcases hkept with hcompleted | ⟨j,hj⟩
  · exact .inl (.inl hcompleted)
  · by_cases hji : j = i
    · subst hji
      rcases hpending hj with hwork | hdispatched
      · refine .inr ⟨j,?_⟩
        dsimp only [after]
        rw [update_self]
        exact hwork
      · exact .inl (.inr hdispatched)
    · refine .inr ⟨j,?_⟩
      dsimp only [after]
      rw [update_of_ne hji]
      exact hj

/-- Where the only delivery at work gives up, nobody is at work any more. -/
theorem not_honoured_after (h : Inv s) (hi : AtWork id (s.calls i)) (hto : ¬ AtWork id delivery) (hack : Acknowledged id s) :
    ¬ Honoured id (after s i s.cell delivery []) := by
  intro hs
  have hmine := holds_of_atWork hi
  rcases hs.2 (acknowledged_after.2 (.inl hack)) with hcompleted | ⟨j,hj⟩
  · have hold : Completed id s := by simpa using completed_after.1 hcompleted
    exact (h.kept id hold).2 i hmine
  · obtain ⟨hne,hj⟩ := of_update hto hj
    exact hne (h.alone j i id (holds_of_atWork hj) hmine)

theorem atWork_inj {id' : String} (h : AtWork id delivery) (h' : AtWork id' delivery) : id = id' := by
  cases delivery with
  | claimed event => exact h.symm.trans h'
  | received event => exact h.symm.trans h'
  | arriving event => exact h.elim
  | verified event => exact h.elim
  | releasing event failure => exact h.elim
  | returning event outcome => exact h.elim
  | closed => exact h.elim

theorem calm_of_ne {x : Input} (hdrops : ¬ Drops id x (s.calls i))
    (hdup : ∀ event again, s.calls i ≠ .returning event (.ok (.duplicate again))) : Calm id s (i,x) :=
  ⟨fun h => absurd h hdrops,fun event again h => absurd h (hdup event again)⟩

/-- The answer to a duplicate is a promise that somebody else keeps. -/
theorem honoured_duplicate_iff {event : WebhookEvent} {again : String} {x : Input} (hs : Honoured id s)
    (hinv : Inv (after s i s.cell .closed [.answered event.id (respond (.ok (.duplicate again)))]))
    (hi : s.calls i = .returning event (.ok (.duplicate again))) (hx : x ≠ .dies) :
    Honoured id (after s i s.cell .closed [.answered event.id (respond (.ok (.duplicate again)))]) ↔ Calm id s (i,x) := by
  have hidle : ∀ id, ¬ AtWork id (s.calls i) := by simp [hi,AtWork]
  constructor
  · intro hafter
    constructor
    · exact fun hdrops => absurd (drops_atWork hdrops) (hidle id)
    · intro event' again' heq hid hnot
      cases hi.symm.trans heq
      subst hid
      have hack : Acknowledged event.id (after s i s.cell .closed [.answered event.id (respond (.ok (.duplicate again)))]) :=
        acknowledged_after.2 (.inr ⟨_,List.mem_singleton.2 rfl,rfl⟩)
      rcases hafter.2 hack with hcompleted | ⟨j,hj⟩
      · exact .inl (by simpa using completed_after.1 hcompleted)
      · exact .inr ⟨j,(of_update (fun hnew => hnew) hj).2⟩
  · intro hcalm
    apply honoured_after hinv hs
    · exact fun hwork => absurd hwork (hidle id)
    · intro response hresponse hstatus
      cases List.mem_singleton.1 hresponse
      exact hcalm.duplicate event again hi rfl hx

theorem honoured_step_iff (h : Inv s) (hs : Honoured id s) (a : ℕ × Input) :
    Honoured id (Calls.step advance s a) ↔ Calm id s a := by
  obtain ⟨i,x⟩ := a
  have hinv : Inv (Calls.step advance s (i,x)) := h.step x
  have htook := took_step s i x
  generalize Calls.step advance s (i,x) = s' at hinv htook ⊢
  cases htook with
  | aside hfrom hto hquiet =>
    apply iff_of_true
    · exact honoured_after hinv hs (fun hi => absurd hi (hfrom id)) (by simp)
    · constructor
      · exact fun hdrops => absurd (drops_atWork hdrops) (hfrom id)
      · intro event again hi hid hx
        rcases hquiet with hdies | hnot
        · exact absurd hdies hx
        · exact absurd hi (hnot event _)
  | claim hi hx hfree =>
    apply iff_of_true
    · exact honoured_after hinv hs (by simp [hi,AtWork]) (by simp)
    · exact calm_of_ne (fun hdrops => by simpa [hi,AtWork] using drops_atWork hdrops) (by simp [hi])
  | @proceed event hi hx =>
    apply iff_of_true
    · exact honoured_after hinv hs (by simp [hi,AtWork]) (by simp)
    · exact calm_of_ne (by simp [hi,hx,Drops]) (by simp [hi])
  | @drop event delivery hi hx hto =>
    have hstops : ∀ id, ¬ AtWork id delivery := by
      rcases hto with rfl | ⟨failure,rfl⟩
      · exact fun id h => h
      · exact fun id h => h
    have hdup : ∀ event' again, s.calls i ≠ .returning event' (.ok (.duplicate again)) := by
      intro event' again heq
      rw [heq] at hi
      exact hi
    by_cases hid : id = event.id
    · subst hid
      constructor
      · intro hafter
        constructor
        · exact fun _ hack => not_honoured_after h hi (hstops _) hack hafter
        · exact fun event' again heq => absurd heq (hdup event' again)
      · intro hcalm
        apply (honoured_iff hinv).2
        intro hack
        have hold : Acknowledged event.id s := by simpa using acknowledged_after.1 hack
        exact absurd hold (hcalm.drops hx)
    · have hother : ¬ AtWork id (s.calls i) := by
        intro hwork
        exact hid (atWork_inj hwork hi)
      apply iff_of_true
      · exact honoured_after hinv hs (fun hwork => absurd hwork hother) (by simp)
      · exact calm_of_ne (fun hdrops => hother (drops_atWork hdrops)) hdup
  | @dispatch event hi hx =>
    apply iff_of_true
    · apply honoured_after hinv hs
      · intro hwork
        rw [hi] at hwork
        cases hwork
        exact .inr (List.mem_singleton.2 rfl)
      · simp
    · apply calm_of_ne
      · intro hdrops
        have hwork := drops_atWork hdrops
        rw [hi] at hwork
        cases hwork
        exact hx hdrops
      · simp [hi]
  | release hi hx =>
    apply iff_of_true
    · exact honoured_after hinv hs (by simp [hi,AtWork]) (by simp)
    · exact calm_of_ne (fun hdrops => by simpa [hi,AtWork] using drops_atWork hdrops) (by simp [hi])
  | @answer event outcome hi hx =>
    have hdrops : ¬ Drops id x (s.calls i) := fun hdrops => by simpa [hi,AtWork] using drops_atWork hdrops
    cases outcome with
    | error failure =>
      apply iff_of_true
      · apply honoured_after hinv hs (by simp [hi,AtWork])
        intro response hresponse hstatus
        cases List.mem_singleton.1 hresponse
        rw [respond] at hstatus
        split_ifs at hstatus
        · cases hstatus
        · cases hstatus
      · exact calm_of_ne hdrops (by simp [hi])
    | ok outcome =>
      cases outcome with
      | handled told =>
        apply iff_of_true
        · apply honoured_after hinv hs (by simp [hi,AtWork])
          intro response hresponse hstatus
          cases List.mem_singleton.1 hresponse
          exact .inl (h.told i event told hi)
        · exact calm_of_ne hdrops (by simp [hi])
      | duplicate again => exact honoured_duplicate_iff hs hinv hi hx

/-! ## Every interleaving -/

theorem inv_start (deliveries : ℕ → WebhookEvent) : Inv (start deliveries) := by
  constructor
  · exact fun i id hi => hi.elim
  · exact fun i j id hi => hi.elim
  · rintro id ⟨i,hi⟩
    cases hi
  · intro i j id hi
    cases hi
  · intro i event id hi
    cases hi

theorem honoured_start (deliveries : ℕ → WebhookEvent) (id : String) : Honoured id (start deliveries) := by
  apply (honoured_iff (inv_start deliveries)).2
  rintro ⟨i,response,hi,-⟩
  cases hi

/-- No event is dispatched to its end by two deliveries, whatever fails. -/
theorem dispatched_once (deliveries : ℕ → WebhookEvent) (steps : List (ℕ × Input)) :
    Always (Calls.step advance) (fun s => ∀ i j id, (i,.dispatched id) ∈ s.log → (j,.dispatched id) ∈ s.log → i = j)
      (start deliveries) steps :=
  (always_of_step (fun _ a h => h.step a.2) (inv_start deliveries) steps).mono fun _ h => h.once

/-- An event that was acknowledged is handled in a run exactly if its work is not given up after an
acknowledgement and no duplicate of it is answered after its work was given up. -/
theorem honoured_along_iff (deliveries : ℕ → WebhookEvent) (id : String) (steps : List (ℕ × Input)) :
    Always (Calls.step advance) (Honoured id) (start deliveries) steps ↔
      Along (Calls.step advance) (Calm id) (start deliveries) steps :=
  always_iff_along (fun _ a h _ _ => h.step a.2) (fun _ a h hs => honoured_step_iff h hs a) (inv_start deliveries)
    (honoured_start deliveries id)

/-- Two deliveries of one event: the second is told that all is well while the first is at work, and then
a listener of the first fails. -/
def overlap : List (ℕ × Input) :=
  [(0,.next none),(0,.next none),(1,.next none),(1,.next none),(1,.next none),
    (0,.next (some ⟨.internal,"the ledger is down"⟩)),(0,.next none),(0,.next none)]

theorem acknowledged_and_dropped : ¬ ∀ (deliveries : ℕ → WebhookEvent) (id : String) (steps : List (ℕ × Input)),
    Honoured id (run (Calls.step advance) (start deliveries) steps) := by
  intro h
  have hdropped := (h (fun _ => ⟨"evt_9","invoice.payment_failed"⟩) "evt_9" overlap).2
  have hlog : (run (Calls.step advance) (start fun _ => ⟨"evt_9","invoice.payment_failed"⟩) overlap).log =
      [(1,.answered "evt_9" (respond (.ok (.duplicate "evt_9")))),
        (0,.answered "evt_9" (respond (.error ⟨.internal,"the ledger is down"⟩)))] := by
    decide
  rw [Acknowledged,Completed,hlog] at hdropped
  rcases hdropped ⟨1,_,List.mem_cons_self,rfl⟩ with ⟨i,hi⟩ | ⟨i,hi⟩
  · simp at hi
  · by_cases hmoves : ∀ a ∈ overlap, a.1 ≠ i
    · rw [calls_run_of_ne hmoves] at hi
      exact hi
    · have hone : i = 0 ∨ i = 1 := by
        simp [overlap] at hmoves
        omega
      rcases hone with rfl | rfl
      · exact hi
      · exact hi

end Rainier.Billing
