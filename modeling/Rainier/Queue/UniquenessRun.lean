import Rainier.Queue.UniquenessSteps

/-! # Runs of dispatchers and workers

The steps put together. The inline driver keeps no job and gives no lock back, so
the first dispatch through it already parts the two; over in-process queues they
stay together in every run.
-/
namespace Rainier.Queue.Uniqueness
open Cache
namespace System
variable {ι : Type} [DecidableEq ι] {σ : ι → Type} {w : System ι σ} {s s' : World σ}

omit [DecidableEq ι] in
theorem sound_init : w.Sound w.init where
  orderly := ⟨fun hs => absurd hs ((w.drivers _).new_stored _ _),fun hs => absurd hs ((w.drivers _).new_stored _ _),
    fun hs => absurd hs ((w.drivers _).new_stored _ _)⟩
  consistent i := (w.drivers i).new_consistent
  held _ _ hj := by cases hj

omit [DecidableEq ι] in
theorem tracks_init : w.Tracks w.init := by
  intro key
  refine iff_of_false (by simp [Locked,Lock.isHeld,init,MemoryCache.get,MemoryCache.empty]) ?_
  rintro ⟨i,id,hs⟩
  exact (w.drivers i).new_stored _ _ hs

/-- Nothing in the cache has expired, before the step and after it. -/
def Lasting (w : System ι σ) (s : World σ) (a : Label ι) : Prop :=
  Unexpired s.clock s.cache ∧ Unexpired (w.step s a).clock (w.step s a).cache

theorem step_send (s : World σ) (d : Dispatch) :
    (w.step s (.send d) = s ∧ ∀ destination job key, ¬ w.Takes s d destination job key) ∨
    ∃ p, d.id ∉ s.dispatched ∧ d.pending s.clock = .ok p ∧ w.step s (.send d) = w.afterSend s d p := by
  simp only [step]
  split
  next hold => exact .inl ⟨rfl,fun _ _ _ ht => ht.fresh hold⟩
  next hfresh =>
    cases hp : d.pending s.clock with
    | error e =>
      refine .inl ⟨rfl,?_⟩
      intro destination job key ht
      obtain ⟨p,ttl,hp',_⟩ := ht.routed
      rw [hp] at hp'
      cases hp'
    | ok p => exact .inr ⟨p,hfresh,rfl,rfl⟩

theorem sound_step (a : Label ι) (hl : w.Lasting s a) (h : w.Sound s) (ht : w.Tracks s) : w.Sound (w.step s a) := by
  cases a with
  | tick elapsed => exact ⟨h.orderly,h.consistent,h.held⟩
  | send d =>
    rcases step_send s d with ⟨he,_⟩ | ⟨p,hfresh,hp,he⟩
    · rwa [he]
    · rw [he]
      exact sound_send h ht hl.1 hfresh hp
  | reserve i queue => exact sound_reserve h i queue
  | process i k a =>
    simp only [step]
    split
    · exact h
    next job hk => exact sound_settled h hk rfl rfl rfl
  | lose i k =>
    refine ⟨h.orderly,?_,held_update h.held (fun other ho => h.held i other (List.mem_of_mem_eraseIdx ho))⟩
    intro j
    have := consistent_update h.consistent ((w.drivers i).lose_consistent k (h.consistent i)) j
    rwa [Function.update_eq_self] at this

theorem tracks_step (a : Label ι) (hl : w.Lasting s a) (h : w.Sound s) (ht : w.Tracks s) :
    w.Tracks (w.step s a) ↔ w.Fits s a := by
  obtain ⟨hu,hu'⟩ := hl
  cases a with
  | tick elapsed => exact iff_of_true (ht.congr hu hu' rfl (fun _ => Iff.rfl)) trivial
  | send d =>
    rcases step_send s d with ⟨he,hnone⟩ | ⟨p,hfresh,hp,he⟩
    · rw [he]
      exact iff_of_true ht (fun _ _ _ htakes => absurd htakes (hnone _ _ _))
    · rw [he] at hu' ⊢
      exact tracks_send h ht hu hfresh hp hu'
  | reserve i queue => exact iff_of_true (ht.congr hu hu' rfl (fun key => by rw [contents_reserve])) trivial
  | process i k a =>
    cases hk : (s.held i)[k]? with
    | none =>
      have he : w.step s (.process i k a) = s := by simp only [step,hk]
      rw [he]
      refine iff_of_true ht ?_
      intro job key hk'
      rw [hk] at hk'
      cases hk'
    | some job => exact tracks_settled h ht hu hu' hk (by simp only [step,hk]) (by simp only [step,hk])
  | lose i k => exact iff_of_true (ht.congr hu hu' rfl (fun _ => Iff.rfl)) trivial

/-- A manager all of whose connections are in-process queues. -/
def inProcess (queue : ι) (connections : List (String × ι)) (locks : LockManager) (options : WorkerOptions)
    (registry : JobRegistry) : System ι (fun _ => MemoryQueue) where
  manager := ⟨.store queue,connections.map (fun c => (c.1,.store c.2)),false,some locks⟩
  locks := locks
  wired := rfl
  drivers _ := MemoryQueue.storing
  options := options
  registry := registry

section InProcess
variable {queue : ι} {connections : List (String × ι)} {locks : LockManager} {options : WorkerOptions}
variable {registry : JobRegistry}

omit [DecidableEq ι] in
theorem lookup_store {name : String} {destination : Destination ι}
    (h : (connections.map (fun c => (c.1,Destination.store c.2))).lookup name = some destination) :
    ∃ i, destination = .store i := by
  induction connections with
  | nil => cases h
  | cons first rest ih =>
    rw [List.map_cons,List.lookup_cons] at h
    split at h
    · exact ⟨first.2,(Option.some.inj h).symm⟩
    · exact ih h

omit [DecidableEq ι] in
theorem resolve_store {connection : Option String} {destination : Destination ι}
    (h : (inProcess queue connections locks options registry).manager.resolve connection = .ok destination) :
    ∃ i, destination = .store i := by
  cases connection with
  | none => exact ⟨queue,(Except.ok.inj h).symm⟩
  | some name =>
    simp only [QueueManager.resolve,inProcess] at h
    split at h
    next found hfound =>
      obtain ⟨i,hi⟩ := lookup_store hfound
      exact ⟨i,(Except.ok.inj h).symm.trans hi⟩
    · cases h

omit [DecidableEq ι] in
/-- The in-process queue takes every job, and its deliveries stay current. -/
theorem fits_inProcess {s : World (fun _ : ι => MemoryQueue)}
    (h : (inProcess queue connections locks options registry).Sound s) (a : Label ι) :
    (inProcess queue connections locks options registry).Fits s a := by
  cases a with
  | tick elapsed => trivial
  | reserve i queue => trivial
  | lose i k => trivial
  | send d =>
    intro destination job key ht
    obtain ⟨p,ttl,_,hr,_,hjob⟩ := ht.routed
    obtain ⟨i,rfl⟩ := resolve_store hr
    refine ⟨rfl,i,rfl,?_⟩
    change (MemoryQueue.push (s.stores i) job).Stored job.id (some key)
    rw [MemoryQueue.push_stored,hjob]
    exact .inr ⟨rfl,rfl⟩
  | process i k a =>
    intro job key hk _ _
    have hcur : job ∈ (s.stores i).reserved := (h.consistent i).held.subset (List.mem_of_getElem? hk)
    have hok : ((inProcess queue connections locks options registry).settle s i job a).1 = .ok () := by
      unfold settle QueueDriver.settle
      split <;> rfl
    simp only [hok]
    exact .inl hcur

theorem run_sound_inProcess (labels : List (Label ι))
    (h : Trace.Always (inProcess queue connections locks options registry).step
      (fun s => Unexpired s.clock s.cache) (inProcess queue connections locks options registry).init labels) :
    Trace.Always (inProcess queue connections locks options registry).step
      (fun s => (inProcess queue connections locks options registry).Sound s ∧
        (inProcess queue connections locks options registry).Tracks s)
      (inProcess queue connections locks options registry).init labels := by
  have hlast := h.along
    (fun _ _ hu hu' => (⟨hu,hu'⟩ : (inProcess queue connections locks options registry).Lasting _ _))
  refine Trace.always_of_along ?_ ⟨sound_init,tracks_init⟩ hlast
  rintro s a ⟨hs,ht⟩ hl
  exact ⟨sound_step a hl hs ht,(tracks_step a hl hs ht).mpr (fits_inProcess hs a)⟩

end InProcess
end System

/-! ## Two runs -/

def invoice : Job := ⟨"billing.invoice",.ok .null,"default",3,some "7",Duration.fromSecs 3600⟩

def invoiceRegistry : JobRegistry := [("billing.invoice",⟨fun _ => .ok (),none⟩)]

def succeeding : Attempt := ⟨.ok,0,none,0⟩

def exploding : Attempt := ⟨.err (.internal "exploded"),0,none,0⟩

def sendInvoice (id owner : String) (a : Attempt) : Dispatch := ⟨invoice,id,owner,[],a⟩

def billing : System Unit (fun _ => MemoryQueue) := .inProcess () [] .new .default invoiceRegistry

def billed : List (Label Unit) :=
  [.send (sendInvoice "1" "a" succeeding),.reserve () "default",.process () 0 succeeding]

theorem billed_unexpired : Trace.Always billing.step (fun s => Unexpired s.clock s.cache) billing.init billed := by
  let sent := billing.step billing.init (.send (sendInvoice "1" "a" succeeding))
  have hsent : Unexpired sent.clock sent.cache := (unexpired_empty 0).insert (by decide)
  have hreserved : Unexpired (billing.step sent (.reserve () "default")).clock
      (billing.step sent (.reserve () "default")).cache := hsent
  exact ⟨unexpired_empty 0,hsent,hreserved,System.unexpired_process hreserved () 0 succeeding⟩

/-- A manager whose only driver runs jobs inline. -/
def inline : System Empty (fun _ => Unit) where
  manager := ⟨.sync ⟨invoiceRegistry⟩,[],false,some .new⟩
  locks := .new
  wired := rfl
  drivers i := nomatch i
  options := .default
  registry := invoiceRegistry

def explode (id owner : String) : Dispatch := sendInvoice id owner exploding

def exploded (id : String) : PendingDispatch :=
  ⟨.fresh id "billing.invoice" .null "default" 3 0,none,some ("queue:unique:billing.invoice:7",Duration.fromSecs 3600)⟩

end Rainier.Queue.Uniqueness
