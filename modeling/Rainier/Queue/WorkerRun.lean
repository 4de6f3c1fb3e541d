import Rainier.Queue.WorkerOptions
import Rainier.Support.Trace
import Mathlib.Data.List.Perm.Basic
import Mathlib.Data.List.Count
import Mathlib.Data.List.Range
import Mathlib.Logic.Function.Basic

/-! # The worker's run loop

One turn of `Worker::run` is a function of the loop's variables and of what the
outside answers during the turn: the stop flag, the clock, the driver, which
side of the backoff race wins, which job lands and with what outcome. A run is a
list of turns; it ends at the turn in which the loop returns. Reservations are
numbered, so that each can be followed to the turn that tallies it.
-/
namespace Rainier.Queue

structure WorkerStats where
  processed : ℕ
  released : ℕ
  failed : ℕ
  idles : ℕ
  errors : ℕ
  deriving DecidableEq, Repr

def WorkerStats.total (s : WorkerStats) : ℕ := s.processed + s.failed

/-- The jobs of each queue that are in flight; a queue with none has no entry. -/
abbrev Running := String → Option ℕ

def finished (running : Running) (queue : String) : Running :=
  match running queue with
  | some count => Function.update running queue (if count - 1 = 0 then none else some (count - 1))
  | none => running

def started (running : Running) (queue : String) : Running :=
  Function.update running queue (some ((running queue).getD 0 + 1))

def tally (stats : WorkerStats) : Except Error Outcome → WorkerStats
  | .ok .idle => { stats with idles := stats.idles + 1 }
  | .ok .processed => { stats with processed := stats.processed + 1 }
  | .ok .released => { stats with released := stats.released + 1 }
  | .ok .failed => { stats with failed := stats.failed + 1 }
  | .error _ => { stats with errors := stats.errors + 1 }

namespace WorkerRun

/-- The loop's variables. `issued` and `tallied` are ghosts: how many
reservations were made, and which of them have been tallied. -/
structure LoopState where
  stats : WorkerStats
  consecutiveErrors : ℕ
  inFlight : List (ℕ × QueuedJob)
  running : Running
  issued : ℕ
  tallied : List ℕ

/-- What the outside answers in one turn. `reserve i q` is the driver's answer
to the turn's call number `i`, made for queue `q`. -/
structure Turn where
  stopping : Bool
  elapsed : ℕ
  reserve : ℕ → String → Except Error (Option QueuedJob)
  backoffFirst : Bool
  lands : ℕ
  outcome : Except Error Outcome

inductive Flow where
  | looping (s : LoopState)
  | returned (s : LoopState) (result : Except Error WorkerStats)

def LoopState.init : LoopState := ⟨⟨0,0,0,0,0⟩,0,[],fun _ => none,0,[]⟩

def Flow.init : Flow := .looping .init

def Flow.state : Flow → LoopState
  | .looping s => s
  | .returned s _ => s

section Loop
variable (o : WorkerOptions)

def atLimit (running : Running) (queue : String) : Bool :=
  match o.queueLimits.lookup queue with
  | some limit => limit ≤ (running queue).getD 0
  | none => false

/-- Ask each queue in turn, skipping those at their limit. -/
def reserveWithin (running : Running) (reserve : ℕ → String → Except Error (Option QueuedJob)) :
    List String → ℕ → Except Error (Option QueuedJob)
  | [], _ => .ok none
  | queue :: rest, i =>
    if atLimit o running queue then reserveWithin running reserve rest i
    else match reserve i queue with
      | .error e => .error e
      | .ok (some job) => .ok (some job)
      | .ok none => reserveWithin running reserve rest (i + 1)

def finishing (s : LoopState) (t : Turn) : Bool :=
  t.stopping || o.maxJobs.any (fun max => max ≤ s.stats.total + s.inFlight.length) ||
    o.maxTime.any (fun max => max ≤ t.elapsed)

def hasRoom (s : LoopState) : Bool := s.inFlight.length < max o.concurrency 1

/-- One job in flight comes home and is tallied. -/
def land (s : LoopState) (t : Turn) : LoopState :=
  match s.inFlight[t.lands % s.inFlight.length]? with
  | none => s
  | some (number,job) =>
    { s with
      inFlight := s.inFlight.eraseIdx (t.lands % s.inFlight.length)
      running := finished s.running job.queue
      stats := tally s.stats t.outcome
      tallied := s.tallied ++ [number] }

def takeOn (s : LoopState) (job : QueuedJob) : LoopState :=
  { s with
    consecutiveErrors := 0
    running := started s.running job.queue
    inFlight := s.inFlight ++ [(s.issued,job)]
    issued := s.issued + 1 }

def noteError (s : LoopState) : LoopState :=
  { s with
    stats := { s.stats with errors := s.stats.errors + 1 }
    consecutiveErrors := s.consecutiveErrors + 1 }

def foundNothing (s : LoopState) (t : Turn) : Flow :=
  let s := { s with consecutiveErrors := 0 }
  if s.inFlight.isEmpty then
    let s := { s with stats := { s.stats with idles := s.stats.idles + 1 } }
    if o.stopWhenEmpty then .returned s (.ok s.stats) else .looping s
  else .looping (land s t)

def brokerRefused (s : LoopState) (t : Turn) (e : Error) : Flow :=
  let s := noteError s
  if o.maxConsecutiveErrors ≤ s.consecutiveErrors then .returned s (.error e)
  else if s.inFlight.isEmpty || t.backoffFirst then .looping s
  else .looping (land s t)

def turn (s : LoopState) (t : Turn) : Flow :=
  if finishing o s t && s.inFlight.isEmpty then .returned s (.ok s.stats)
  else if !finishing o s t && hasRoom o s then
    match reserveWithin o s.running t.reserve o.queues 0 with
    | .ok (some job) => .looping (takeOn s job)
    | .ok none => foundNothing o s t
    | .error e => brokerRefused o s t e
  else .looping (land s t)

/-- A loop that has returned takes no more turns. -/
def step : Flow → Turn → Flow
  | .looping s, t => turn o s t
  | .returned s result, _ => .returned s result

/-- The turn spends the last of the error budget. -/
def GivesUp (s : LoopState) (t : Turn) : Prop :=
  finishing o s t = false ∧ hasRoom o s = true ∧
    (∃ e, reserveWithin o s.running t.reserve o.queues 0 = .error e) ∧
    o.maxConsecutiveErrors ≤ s.consecutiveErrors + 1

/-- Nothing about the reservations differs between two states of the loop. -/
structure SameBooks (s s' : LoopState) : Prop where
  inFlight : s'.inFlight = s.inFlight
  running : s'.running = s.running
  issued : s'.issued = s.issued
  tallied : s'.tallied = s.tallied
  total : s'.stats.total = s.stats.total

end Loop

variable {o : WorkerOptions} {s s' : LoopState} {t : Turn}

theorem turn_givesUp (h : GivesUp o s t) : ∃ e, turn o s t = .returned (noteError s) (.error e) := by
  obtain ⟨hf,hr,⟨e,he⟩,hb⟩ := h
  refine ⟨e,?_⟩
  have hb' : o.maxConsecutiveErrors ≤ (noteError s).consecutiveErrors := hb
  simp [turn,hf,hr,he,brokerRefused,hb']

/-- Everything a turn can do: take a job on, let one land, change nothing about
the jobs, or return with none in flight unless it gives up. -/
theorem turn_cases (o : WorkerOptions) (s : LoopState) (t : Turn) :
    (∃ job, finishing o s t = false ∧ hasRoom o s = true ∧
      reserveWithin o s.running t.reserve o.queues 0 = .ok (some job) ∧
      turn o s t = .looping (takeOn s job)) ∨
    (∃ s', SameBooks s s' ∧ turn o s t = .looping (land s' t)) ∨
    (∃ s', SameBooks s s' ∧ turn o s t = .looping s') ∨
    (∃ s' r, SameBooks s s' ∧ turn o s t = .returned s' r ∧ (s.inFlight = [] ∨ GivesUp o s t)) := by
  have hself : SameBooks s s := ⟨rfl,rfl,rfl,rfl,rfl⟩
  have hnote : SameBooks s (noteError s) := ⟨rfl,rfl,rfl,rfl,rfl⟩
  unfold turn
  split
  next hdone =>
    have he : s.inFlight = [] := by simpa using (Bool.and_eq_true_iff.mp hdone).2
    exact .inr (.inr (.inr ⟨s,_,hself,rfl,.inl he⟩))
  · split
    next hroom =>
      obtain ⟨hf,hr⟩ : finishing o s t = false ∧ hasRoom o s = true := by simpa using hroom
      cases hres : reserveWithin o s.running t.reserve o.queues 0 with
      | ok found => cases found with
        | some job => exact .inl ⟨job,hf,hr,rfl,rfl⟩
        | none =>
          unfold foundNothing
          by_cases hempty : s.inFlight.isEmpty = true
          · simp only [hempty,↓reduceIte]
            split
            · refine .inr (.inr (.inr ⟨_,_,?_,rfl,.inl (by simpa using hempty)⟩))
              exact ⟨rfl,rfl,rfl,rfl,rfl⟩
            · refine .inr (.inr (.inl ⟨_,?_,rfl⟩))
              exact ⟨rfl,rfl,rfl,rfl,rfl⟩
          · simp only [hempty,Bool.false_eq_true,↓reduceIte]
            refine .inr (.inl ⟨_,?_,rfl⟩)
            exact ⟨rfl,rfl,rfl,rfl,rfl⟩
      | error e =>
        simp only [brokerRefused]
        split
        next hb => exact .inr (.inr (.inr ⟨_,_,hnote,rfl,.inr ⟨hf,hr,⟨e,hres⟩,hb⟩⟩))
        · split
          · exact .inr (.inr (.inl ⟨_,hnote,rfl⟩))
          · exact .inr (.inl ⟨_,hnote,rfl⟩)
    · exact .inr (.inl ⟨s,hself,rfl⟩)

/-- A landing takes one job out of flight, wherever it stood. -/
theorem land_cases (s : LoopState) (t : Turn) :
    (s.inFlight = [] ∧ land s t = s) ∨
    ∃ number job rest, s.inFlight.Perm ((number,job) :: rest) ∧ (land s t).inFlight = rest ∧
      (land s t).running = finished s.running job.queue ∧ (land s t).issued = s.issued ∧
      (land s t).tallied = s.tallied ++ [number] ∧ (land s t).stats = tally s.stats t.outcome := by
  unfold land
  split
  next hnone =>
    left
    refine ⟨?_,rfl⟩
    by_contra hne
    have hpos : 0 < s.inFlight.length := List.length_pos_iff.mpr hne
    have := List.getElem?_eq_none_iff.mp hnone
    exact absurd (Nat.mod_lt t.lands hpos) (by omega)
  next number job hsome =>
    right
    obtain ⟨hlt,hget⟩ := List.getElem?_eq_some_iff.mp hsome
    refine ⟨number,job,_,?_,rfl,rfl,rfl,rfl,rfl⟩
    rw [← hget]
    exact (List.getElem_cons_eraseIdx_perm hlt).symm

/-! ## Reservations are drained -/

/-- Each reservation made is in flight or has been tallied, once. -/
def Booked (s : LoopState) : Prop :=
  (s.tallied ++ s.inFlight.map Prod.fst).Perm (List.range s.issued)

theorem booked_init : Booked Flow.init.state := List.Perm.refl _

theorem Booked.same (h : Booked s) (hs : SameBooks s s') : Booked s' := by
  unfold Booked at h ⊢
  rw [hs.inFlight,hs.tallied,hs.issued]
  exact h

theorem Booked.takeOn (h : Booked s) (job : QueuedJob) : Booked (takeOn s job) := by
  unfold Booked at h ⊢
  simp only [WorkerRun.takeOn,List.map_append,List.map_cons,List.map_nil,List.range_succ,
    ← List.append_assoc]
  exact h.append_right _

theorem Booked.land (h : Booked s) (t : Turn) : Booked (land s t) := by
  rcases land_cases s t with ⟨_,he⟩ | ⟨number,job,rest,hp,hi,_,hn,ht,_⟩
  · rw [he]
    exact h
  · unfold Booked at h ⊢
    rw [hi,hn,ht,List.append_assoc]
    exact ((hp.map Prod.fst).symm.append_left _).trans h

theorem booked_turn (h : Booked s) (t : Turn) : Booked (turn o s t).state := by
  rcases turn_cases o s t with ⟨job,_,_,_,he⟩ | ⟨s',hs,he⟩ | ⟨s',hs,he⟩ | ⟨s',r,hs,he,_⟩
  · rw [he]
    exact h.takeOn job
  · rw [he]
    exact (h.same hs).land t
  · rw [he]
    exact h.same hs
  · rw [he]
    exact h.same hs

/-- If the loop has returned, nothing is in flight and every reservation was tallied once. -/
def Drained : Flow → Prop
  | .looping _ => True
  | .returned s _ => s.inFlight = [] ∧ ∀ k < s.issued, s.tallied.count k = 1

/-- The error budget is not used up while a job is in flight. -/
def SparesInFlight (o : WorkerOptions) : Flow → Turn → Prop
  | .looping s, t => GivesUp o s t → s.inFlight = []
  | .returned _ _, _ => True

theorem Booked.drained (h : Booked s) (he : s.inFlight = []) (r : Except Error WorkerStats) :
    Drained (.returned s r) := by
  refine ⟨he,?_⟩
  intro k hk
  have hp : s.tallied.Perm (List.range s.issued) := by simpa [Booked,he] using h
  rw [hp.count_eq,List.count_eq_one_of_mem (List.nodup_range) (List.mem_range.mpr hk)]

theorem drained_step {f : Flow} (hb : Booked f.state) (hd : Drained f) (t : Turn) :
    Drained (step o f t) ↔ SparesInFlight o f t := by
  cases f with
  | returned s r => exact iff_of_true hd trivial
  | looping s =>
    by_cases hg : GivesUp o s t
    · obtain ⟨e,he⟩ := turn_givesUp hg
      have hn : Booked (noteError s) := hb.same ⟨rfl,rfl,rfl,rfl,rfl⟩
      simp only [step,he]
      exact ⟨fun h _ => h.1,fun h => hn.drained (h hg) _⟩
    · refine iff_of_true ?_ (fun h => absurd h hg)
      simp only [step]
      rcases turn_cases o s t with ⟨job,_,_,_,he⟩ | ⟨s',hs,he⟩ | ⟨s',hs,he⟩ | ⟨s',r,hs,he,hr⟩
      · simp [he,Drained]
      · simp [he,Drained]
      · simp [he,Drained]
      · rw [he]
        exact (hb.same hs).drained (hs.inFlight.trans (hr.resolve_right hg)) r

theorem booked_step {f : Flow} (hb : Booked f.state) (t : Turn) : Booked (step o f t).state := by
  cases f with
  | looping s => exact booked_turn hb t
  | returned s r => exact hb

/-- A run drains everything it reserved, whichever way it returns, exactly when
it never uses up its error budget with a job in flight. -/
theorem run_drains_iff (o : WorkerOptions) (turns : List Turn) :
    Trace.Always (step o) Drained .init turns ↔ Trace.Along (step o) (SparesInFlight o) .init turns :=
  Trace.always_iff_along (Q := fun f => Booked f.state) (fun _ t hb _ _ => booked_step hb t)
    (fun _ t hb hd => drained_step hb hd t) booked_init trivial

/-- With one slot a turn reserves only when nothing is in flight. -/
theorem spares_of_one_slot (hc : o.concurrency ≤ 1) (f : Flow) (t : Turn) : SparesInFlight o f t := by
  cases f with
  | returned s r => trivial
  | looping s =>
    intro hg
    have hroom : s.inFlight.length < max o.concurrency 1 := by simpa [hasRoom] using hg.2.1
    exact List.length_eq_zero_iff.mp (by omega)

theorem run_drains_of_one_slot (hc : o.concurrency ≤ 1) (turns : List Turn) :
    Trace.Always (step o) Drained .init turns := by
  have hall : Trace.Always (step o) (fun f => Booked f.state ∧ Drained f) .init turns := by
    refine Trace.always_of_step ?_ ⟨booked_init,trivial⟩ turns
    rintro f t ⟨hb,hd⟩
    exact ⟨booked_step hb t,(drained_step hb hd t).mpr (spares_of_one_slot hc f t)⟩
  exact hall.mono (fun _ h => h.2)

/-- Two slots, and a budget that one refusal uses up. -/
def hastyOptions : WorkerOptions := { WorkerOptions.default with concurrency := 2, maxConsecutiveErrors := 1 }

def mailJob : QueuedJob := .fresh "1" "mail.welcome" .null "default" 3 0

/-- The driver hands over a job and then cannot be reached. -/
def brokerLost : List Turn :=
  [⟨false,0,fun _ _ => .ok (some mailJob),false,0,.ok .processed⟩,
    ⟨false,1,fun _ _ => .error (.internal "connection refused"),false,0,.ok .processed⟩]

/-- The run then returns its error with the job dropped in flight. -/
theorem broker_lost_drops_job : ¬ Trace.Always (step hastyOptions) Drained .init brokerLost := by
  intro h
  have hlast : Drained (Trace.run (step hastyOptions) .init brokerLost) := h.last
  exact absurd hlast.1 (by decide)

/-! ## Limits -/

def countOn (jobs : List (ℕ × QueuedJob)) (queue : String) : ℕ :=
  jobs.countP (fun p => p.2.queue == queue)

/-- What the loop promises about the jobs in flight and the jobs done. -/
structure Within (o : WorkerOptions) (s : LoopState) : Prop where
  slots : s.inFlight.length ≤ max o.concurrency 1
  counted : ∀ q, s.running q = if countOn s.inFlight q = 0 then none else some (countOn s.inFlight q)
  limits : ∀ q limit, o.queueLimits.lookup q = some limit → countOn s.inFlight q ≤ limit
  jobs : ∀ max, o.maxJobs = some max → s.stats.processed + s.stats.failed + s.inFlight.length ≤ max

/-- The driver answers a call for a queue with jobs of that queue. -/
def Honest (t : Turn) : Prop := ∀ i q job, t.reserve i q = .ok (some job) → job.queue = q

theorem within_init (o : WorkerOptions) : Within o Flow.init.state where
  slots := Nat.zero_le _
  counted _ := rfl
  limits _ _ _ := Nat.zero_le _
  jobs _ _ := Nat.zero_le _

theorem countOn_perm {as bs : List (ℕ × QueuedJob)} (h : as.Perm bs) (q : String) :
    countOn as q = countOn bs q := h.countP_eq _

theorem countOn_cons (k : ℕ) (job : QueuedJob) (rest : List (ℕ × QueuedJob)) (q : String) :
    countOn ((k,job) :: rest) q = countOn rest q + if job.queue = q then 1 else 0 := by
  simp [countOn,List.countP_cons]

theorem countOn_snoc (rest : List (ℕ × QueuedJob)) (k : ℕ) (job : QueuedJob) (q : String) :
    countOn (rest ++ [(k,job)]) q = countOn rest q + if job.queue = q then 1 else 0 := by
  simp [countOn,List.countP_append,List.countP_cons]

theorem Within.same (h : Within o s) (hs : SameBooks s s') : Within o s' where
  slots := hs.inFlight ▸ h.slots
  counted q := by rw [hs.inFlight,hs.running]; exact h.counted q
  limits q limit hl := by rw [hs.inFlight]; exact h.limits q limit hl
  jobs max hm := by
    have ht := hs.total
    unfold WorkerStats.total at ht
    rw [hs.inFlight,ht]
    exact h.jobs max hm

/-- A reserved job was asked of a queue below its limit. -/
theorem reserveWithin_some {running : Running} {reserve : ℕ → String → Except Error (Option QueuedJob)}
    {queues : List String} {i : ℕ} {job : QueuedJob}
    (h : reserveWithin o running reserve queues i = .ok (some job)) :
    ∃ q j, atLimit o running q = false ∧ reserve j q = .ok (some job) := by
  induction queues generalizing i with
  | nil => simp [reserveWithin] at h
  | cons q rest ih =>
    unfold reserveWithin at h
    split at h
    · exact ih h
    next hl =>
      split at h
      · cases h
      next hr =>
        cases h
        exact ⟨q,i,by simpa using hl,hr⟩
      · exact ih h

theorem Within.takeOn (h : Within o s) {job : QueuedJob} (hf : finishing o s t = false)
    (hr : hasRoom o s = true) (hl : atLimit o s.running job.queue = false) : Within o (takeOn s job) where
  slots := by
    simp only [hasRoom,decide_eq_true_eq] at hr
    simp only [WorkerRun.takeOn,List.length_append,List.length_singleton]
    omega
  counted q := by
    simp only [WorkerRun.takeOn,started,countOn_snoc,Function.update_apply]
    have hq := h.counted q
    by_cases he : q = job.queue
    · subst he
      rw [hq]
      by_cases hz : countOn s.inFlight job.queue = 0
      · simp [hz]
      · simp [hz]
    · simp [he,Ne.symm he,hq]
  limits q limit hlim := by
    have hle := h.limits q limit hlim
    simp only [WorkerRun.takeOn,countOn_snoc]
    by_cases he : job.queue = q
    · subst he
      simp only [atLimit,hlim,h.counted] at hl
      simp only [↓reduceIte]
      split at hl <;> simp at hl <;> omega
    · simpa [he] using hle
  jobs max hm := by
    simp only [finishing,hm,Option.any_some,Bool.or_eq_false_iff,WorkerStats.total] at hf
    obtain ⟨⟨_,hfull⟩,_⟩ := hf
    have hlt := of_decide_eq_false hfull
    simp only [WorkerRun.takeOn,List.length_append,List.length_singleton]
    omega

theorem finished_eq {running : Running} {q : String} {c : ℕ} (h : running q = some (c + 1)) (q' : String) :
    finished running q q' = if q' = q then (if c = 0 then none else some c) else running q' := by
  simp [finished,h,Function.update_apply]

theorem tally_total_le (stats : WorkerStats) (outcome : Except Error Outcome) :
    (tally stats outcome).processed + (tally stats outcome).failed ≤ stats.processed + stats.failed + 1 := by
  rcases outcome with _ | (_ | _ | _ | _) <;> simp only [tally] <;> omega

theorem Within.land (h : Within o s) (t : Turn) : Within o (land s t) := by
  rcases land_cases s t with ⟨_,he⟩ | ⟨number,job,rest,hp,hi,hrun,_,_,hst⟩
  · rw [he]
    exact h
  have hlen : s.inFlight.length = rest.length + 1 := hp.length_eq
  have hcount : ∀ q, countOn s.inFlight q = countOn rest q + if job.queue = q then 1 else 0 :=
    fun q => (countOn_perm hp q).trans (countOn_cons ..)
  have hhome : s.running job.queue = some (countOn rest job.queue + 1) := by
    rw [h.counted,hcount]
    simp
  constructor
  · have := h.slots
    rw [hi]
    omega
  · intro q
    rw [hi,hrun,finished_eq hhome]
    have hq := h.counted q
    rw [hcount] at hq
    by_cases he : q = job.queue
    · subst he
      simp
    · simpa [he,Ne.symm he] using hq
  · intro q limit hlim
    have := h.limits q limit hlim
    rw [hcount] at this
    rw [hi]
    omega
  · intro max hm
    have := h.jobs max hm
    have := tally_total_le s.stats t.outcome
    rw [hi,hst]
    omega

theorem within_turn (h : Within o s) (ht : Honest t) : Within o (turn o s t).state := by
  rcases turn_cases o s t with ⟨job,hf,hr,hres,he⟩ | ⟨s',hs,he⟩ | ⟨s',hs,he⟩ | ⟨s',r,hs,he,_⟩
  · rw [he]
    obtain ⟨q,j,hl,hj⟩ := reserveWithin_some hres
    exact h.takeOn hf hr (ht j q job hj ▸ hl)
  · rw [he]
    exact (h.same hs).land t
  · rw [he]
    exact h.same hs
  · rw [he]
    exact h.same hs

/-- At every turn of every run the slots, the per-queue counts and limits and
the job limit are kept. -/
theorem run_within_limits (o : WorkerOptions) (turns : List Turn) (h : ∀ t ∈ turns, Honest t) :
    Trace.Always (step o) (fun f => Within o f.state) .init turns := by
  refine Trace.always_of_along ?_ (within_init o) (Trace.along_of_forall h)
  intro f t hf ht
  cases f with
  | looping s => exact within_turn hf ht
  | returned s r => exact hf

/-- Two jobs of a queue limited to one, out of three slots, under a job limit. -/
def cappedOptions : WorkerOptions :=
  { WorkerOptions.default with concurrency := 3, maxJobs := some 2, queueLimits := [("default",1)] }

def busyTurns : List Turn :=
  [⟨false,0,fun _ q => .ok (some (mailJob.onQueue q)),false,0,.ok .processed⟩,
    ⟨false,1,fun _ q => .ok (some (mailJob.onQueue q)),false,0,.ok .processed⟩,
    ⟨false,2,fun _ q => .ok (some (mailJob.onQueue q)),false,0,.ok .processed⟩]

theorem busy_turns_within_limits :
    Trace.Always (step cappedOptions) (fun f => Within cappedOptions f.state) .init busyTurns :=
  run_within_limits cappedOptions busyTurns (by
    intro t ht i q job hjob
    simp only [busyTurns,List.mem_cons,List.not_mem_nil,or_false] at ht
    rcases ht with rfl | rfl | rfl <;> (cases hjob; rfl))

end WorkerRun
end Rainier.Queue
