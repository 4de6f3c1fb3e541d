import Rainier.Queue.RedisDelivery
import Mathlib.Algebra.Order.BigOperators.Group.List
import Mathlib.Algebra.Order.Ring.Nat

/-! # Obtaining a job again

After every other worker has stopped, one worker that keeps reserving, and
acknowledging what it does not look for, empties the backlog: what is delayed,
what has not been handed out, and what was handed out to the others. A kept
entry of a job is in that backlog, so the worker comes to it.
-/
namespace Rainier.Queue.RedisQueue
open Drivers Streams

/-- A step of worker `w` by itself: time passing, `w` starting again, a
reservation, an acknowledgement. -/
def Label.alone (w : ℕ) : Label → Bool
  | .tick _ => true
  | .die w' => w' == w
  | .reserve w' => w' == w
  | .acknowledge w' => w' == w
  | .execute w' _ => w' == w
  | _ => false

/-- The worker, left to itself, can come to hold the job. -/
def Obtains (q : RedisQueue) (s : World) (w : ℕ) (id : String) : Prop :=
  ∃ labels : List Label, (∀ a ∈ labels, a.alone w = true) ∧
    ∃ job k, (Trace.run q.step s labels).workers w = .holding job k ∧ job.id = id

/-- What is left to hand out. -/
def backlog (redis : Streams QueuedJob FailedJob) : ℕ :=
  redis.pending.length + redis.undelivered.length + redis.delayed.length

/-- The worker is free, everything delayed is due and everything pending has been idle long enough. -/
structure Ready (q : RedisQueue) (s : World) (w : ℕ) : Prop where
  free : s.workers w = .idle
  due : ∀ m ∈ s.redis.delayed, m.1 ≤ s.millis
  idle : ∀ p ∈ s.redis.pending, q.minIdle ≤ s.millis - p.since

/-- A job still to be obtained. -/
structure Wanted (s : World) (job : QueuedJob) : Prop where
  pushed : job ∈ s.pushed
  readable : readable job = true
  unacknowledged : job.id ∉ s.acknowledging
  unfailed : ∀ f ∈ s.redis.failed, f.job.id ≠ job.id

variable {q : RedisQueue} {s s' : World} {w : ℕ} {id : String}

theorem Obtains.of_run (labels : List Label) (hal : ∀ a ∈ labels, a.alone w = true)
    (h : Obtains q (Trace.run q.step s labels) w id) : Obtains q s w id := by
  obtain ⟨more,hmore,job,k,hw,hid⟩ := h
  refine ⟨labels ++ more,?_,job,k,?_,hid⟩
  · intro a ha
    rcases List.mem_append.mp ha with ha | ha
    · exact hal a ha
    · exact hmore a ha
  · rw [Trace.run_append]
    exact hw

theorem Obtains.of_step {a : Label} (ha : a.alone w = true) (h : Obtains q (q.step s a) w id) :
    Obtains q s w id :=
  Obtains.of_run [a] (by simpa using ha) h

theorem obtains_held {job : QueuedJob} {k : ℕ} (hw : s.workers w = .holding job k) : Obtains q s w job.id :=
  ⟨[],by simp,job,k,hw,rfl⟩

/-! ## The backlog -/

section Backlog
variable {r : Streams QueuedJob FailedJob}

/-- Finishing with an entry that is no longer to be handed out. -/
theorem backlog_finished {pending rest : List Pending} {group : Option ℕ} {fresh : List (StreamEntry QueuedJob)} {k : ℕ}
    (hpend : (pending.filter (fun p => p.id != k)).length ≤ rest.length)
    (hent : ((r.entries.filter (fun e => e.id != k)).filter (fun e => decide (group.getD 0 < e.id))).length ≤
      fresh.length) :
    backlog (({ r with group := group, pending := pending }.xack k).xdel k) ≤
      rest.length + fresh.length + r.delayed.length :=
  Nat.add_le_add_right (Nat.add_le_add hpend hent) _

/-- Taking the first pending entry again and finishing with it. -/
theorem backlog_claimed {p : Pending} {rest : List Pending} (hp : r.pending = p :: rest) (now : ℕ) :
    backlog (({ r with pending := ⟨p.id,now⟩ :: rest }.xack p.id).xdel p.id) < backlog r := by
  have hpend : (List.filter (fun p' : Pending => p'.id != p.id) (⟨p.id,now⟩ :: rest)).length ≤ rest.length := by
    simpa using List.length_filter_le _ rest
  have hent : ((r.entries.filter (fun e => e.id != p.id)).filter (fun e => decide (r.group.getD 0 < e.id))).length ≤
      r.undelivered.length := by
    rw [List.filter_comm]
    exact List.length_filter_le _ _
  have hle := backlog_finished (r := r) hpend hent
  have hbefore : backlog r = rest.length + 1 + r.undelivered.length + r.delayed.length := by
    rw [backlog,hp,List.length_cons]
  omega

/-- Taking the first entry not handed out and finishing with it. -/
theorem backlog_read {e : StreamEntry QueuedJob} {rest : List (StreamEntry QueuedJob)} (hu : r.undelivered = e :: rest)
    (now : ℕ) : backlog (({ r with group := some e.id, pending := r.pending ++ [Pending.mk e.id now] }.xack e.id).xdel
      e.id) < backlog r := by
  have hlt : r.delivered < e.id := (mem_undelivered.mp (hu ▸ List.mem_cons_self : e ∈ r.undelivered)).2
  have hpend : (List.filter (fun p : Pending => p.id != e.id) (r.pending ++ [⟨e.id,now⟩])).length ≤
      r.pending.length := by
    simpa using List.length_filter_le _ r.pending
  have hent : ((r.entries.filter (fun x => x.id != e.id)).filter
      (fun x => decide ((some e.id).getD 0 < x.id))).length ≤ rest.length := by
    have hsame : (r.entries.filter (fun x => x.id != e.id)).filter (fun x => decide ((some e.id).getD 0 < x.id)) =
        (e :: rest).filter (fun x => decide (e.id < x.id) && x.id != e.id) := by
      rw [← hu,undelivered,List.filter_filter,List.filter_filter]
      refine List.filter_congr ?_
      intro x _
      by_cases hx : e.id < x.id
      · have : r.delivered < x.id := by omega
        simp [hx,this]
      · simp [hx]
    rw [hsame]
    simpa using List.length_filter_le _ rest
  have hle := backlog_finished (r := r) hpend hent
  have hbefore : backlog r = r.pending.length + (rest.length + 1) + r.delayed.length := by
    rw [backlog,hu,List.length_cons]
  omega

end Backlog

/-! ## One reservation after another -/

/-- What the rest of the argument gives for a state with less to hand out. -/
def Recovers (q : RedisQueue) (w : ℕ) (job : QueuedJob) (bound : ℕ) : Prop :=
  ∀ s, backlog s.redis < bound → Sound s → Secured s → Ready q s w → Wanted s job → Obtains q s w job.id

variable {job : QueuedJob} {bound k : ℕ}

/-- The worker finishes with an entry and is free for the next reservation. -/
theorem obtains_of_acking (hs : Sound s) (h : Secured s) (hw : s.workers w = .acking k) (hwant : Wanted s job)
    (hback : backlog ((s.redis.xack k).xdel k) < bound) (hdue : ∀ m ∈ s.redis.delayed, m.1 ≤ s.millis)
    (hidle : ∀ p ∈ s.redis.pending, p.id ≠ k → q.minIdle ≤ s.millis - p.since) (ih : Recovers q w job bound) :
    Obtains q s w job.id := by
  have hs₁ := sound_step (q := q) hs (.execute w [])
  have h₁ := secured_step (q := q) hs h (.execute w [])
  have hs₂ := sound_step (q := q) hs₁ (.execute w [])
  have h₂ := secured_step (q := q) hs₁ h₁ (.execute w [])
  have hfirst : q.step s (.execute w []) = { s.goto w (.deleting k) with redis := s.redis.xack k } := by
    simp only [step,execute,hw]
  have hsecond : q.step (q.step s (.execute w [])) (.execute w []) =
      { s.goto w .idle with redis := (s.redis.xack k).xdel k } := by
    rw [hfirst]
    simp [step,execute,World.goto]
  refine .of_step (a := .execute w []) (by simp [Label.alone]) ?_
  refine .of_step (a := .execute w []) (by simp [Label.alone]) ?_
  rw [hsecond] at hs₂ h₂ ⊢
  refine ih _ hback hs₂ h₂ ⟨Function.update_self ..,hdue,?_⟩ ⟨hwant.pushed,hwant.readable,hwant.unacknowledged,
    hwant.unfailed⟩
  intro p hp
  obtain ⟨hp,hne⟩ := List.mem_filter.mp hp
  exact hidle p hp (by simpa using hne)

/-- An entry has been handed to the worker. -/
theorem obtains_of_receive {e : StreamEntry QueuedJob} (hs : Sound (s.receive w e)) (h : Secured (s.receive w e))
    (hwant : Wanted s job) (hback : backlog ((s.redis.xack e.id).xdel e.id) < bound)
    (hdue : ∀ m ∈ s.redis.delayed, m.1 ≤ s.millis)
    (hidle : ∀ p ∈ s.redis.pending, p.id ≠ e.id → q.minIdle ≤ s.millis - p.since) (ih : Recovers q w job bound) :
    Obtains q (s.receive w e) w job.id := by
  cases hd : decode e.body with
  | none =>
    have heq : s.receive w e = s.goto w (.acking e.id) := by simp only [World.receive,hd]
    rw [heq] at hs h ⊢
    exact obtains_of_acking hs h (Function.update_self ..) ⟨hwant.pushed,hwant.readable,hwant.unacknowledged,
      hwant.unfailed⟩ hback hdue hidle ih
  | some found =>
    have hw : (s.receive w e).workers w =
        .holding { found with deliveryHandle := some e.id, attempts := found.attempts + 1 } e.id := by
      simp only [World.receive,hd,World.goto,Function.update_self]
    by_cases hid : found.id = job.id
    · have := obtains_held (q := q) hw
      rwa [show _ = job.id from hid] at this
    · refine .of_step (a := .acknowledge w) (by simp [Label.alone]) ?_
      have hs' := sound_step (q := q) hs (.acknowledge w)
      have h' := secured_step (q := q) hs h (.acknowledge w)
      have hstep : q.step (s.receive w e) (.acknowledge w) =
          { s.goto w (.acking e.id) with
            acknowledging := s.acknowledging ++ [found.id], returned := s.returned ++ [found.id] } := by
        simp only [step,hw]
        simp [World.receive,hd,World.goto]
      rw [hstep] at hs' h' ⊢
      refine obtains_of_acking hs' h' (Function.update_self ..) ⟨hwant.pushed,hwant.readable,?_,hwant.unfailed⟩
        hback hdue hidle ih
      intro hm
      rcases List.mem_append.mp hm with hm | hm
      · exact hwant.unacknowledged hm
      · exact hid (List.mem_singleton.mp hm).symm

/-- A wanted job with nothing delayed has an entry that is still to be handed out. -/
theorem Wanted.left (h : Secured s) (hwant : Wanted s job) (hdel : s.redis.delayed = []) :
    s.redis.pending ≠ [] ∨ s.redis.undelivered ≠ [] := by
  rcases h job hwant.pushed hwant.readable hwant.unacknowledged with ⟨m,hm,_⟩ | ⟨f,hf,hid⟩ | ⟨e,he,_⟩
  · rw [hdel] at hm
    cases hm
  · exact absurd hid (hwant.unfailed f hf)
  · rcases he.deliverable with hlt | ⟨p,hp,_⟩
    · exact .inr (List.ne_nil_of_mem (mem_undelivered.mpr ⟨he.stored,hlt⟩))
    · exact .inl (List.ne_nil_of_mem hp)

/-- The worker is handed a pending entry, or else the next one of the stream. -/
theorem obtains_of_claiming (hs : Sound s) (h : Secured s) (hw : s.workers w = .claiming) (hwant : Wanted s job)
    (hgroup : s.redis.group ≠ none) (hdel : s.redis.delayed = [])
    (hidle : ∀ p ∈ s.redis.pending, q.minIdle ≤ s.millis - p.since)
    (ih : Recovers q w job (backlog s.redis)) : Obtains q s w job.id := by
  have hs₁ := sound_step (q := q) hs (.execute w [])
  have h₁ := secured_step (q := q) hs h (.execute w [])
  have hdue : ∀ m ∈ s.redis.delayed, m.1 ≤ s.millis := by
    rw [hdel]
    exact fun _ hm => by cases hm
  refine .of_step (a := .execute w []) (by simp [Label.alone]) ?_
  cases hp : s.redis.pending with
  | cons p rest =>
    obtain ⟨e,_,hid,hc⟩ := hs.ordered.xautoclaimOne_head hp (hidle p (hp ▸ List.mem_cons_self))
    have hstep : q.step s (.execute w []) =
        World.receive { s with redis := { s.redis with pending := ⟨p.id,s.millis⟩ :: rest } } w e := by
      simp only [step,execute,hw,hc]
    rw [hstep] at hs₁ h₁ ⊢
    refine obtains_of_receive hs₁ h₁ ⟨hwant.pushed,hwant.readable,hwant.unacknowledged,hwant.unfailed⟩
      (hid ▸ backlog_claimed hp s.millis) hdue ?_ ih
    intro p' hp' hne
    rcases List.mem_cons.mp hp' with rfl | hp'
    · exact absurd hid.symm hne
    · exact hidle p' (hp ▸ List.mem_cons_of_mem p hp')
  | nil =>
    have hstep : q.step s (.execute w []) = s.goto w .reading := by
      simp only [step,execute,hw,xautoclaimOne_nil hp]
      rfl
    rw [hstep] at hs₁ h₁ ⊢
    have hs₂ := sound_step (q := q) hs₁ (.execute w [])
    have h₂ := secured_step (q := q) hs₁ h₁ (.execute w [])
    refine .of_step (a := .execute w []) (by simp [Label.alone]) ?_
    rcases xreadgroupOne_cases s.redis s.millis with ⟨_,hnone | hnone⟩ | ⟨e,rest,hu,hr⟩
    · exact absurd hnone hgroup
    · exact absurd hnone ((hwant.left h hdel).resolve_left (fun hne => hne hp))
    · have hread : q.step (s.goto w .reading) (.execute w []) = World.receive { s.goto w .reading with
          redis := { s.redis with group := some e.id, pending := s.redis.pending ++ [⟨e.id,s.millis⟩] } } w e := by
        have hw' : (s.goto w .reading).workers w = .reading := Function.update_self ..
        have hr' : (s.goto w .reading).redis.xreadgroupOne (s.goto w .reading).millis = _ := hr
        simp only [step,execute,hw',hr']
      rw [hread] at hs₂ h₂ ⊢
      refine obtains_of_receive hs₂ h₂ ⟨hwant.pushed,hwant.readable,hwant.unacknowledged,hwant.unfailed⟩
        (backlog_read hu s.millis) hdue ?_ ih
      intro p hp' hne
      rcases List.mem_append.mp hp' with hp' | hp'
      · exact hidle p hp'
      · rw [List.mem_singleton.mp hp'] at hne
        exact absurd rfl hne

/-- Promoting everything delayed leaves the same amount to hand out. -/
theorem backlog_promoted {r r' : Streams QueuedJob FailedJob} {now : ℕ} {order : List (ℕ × QueuedJob)}
    (hord : Ordered r) (h : r.promoteDue now order = some r') (hdue : ∀ m ∈ r.delayed, m.1 ≤ now) :
    backlog r' = backlog r ∧ r'.delayed = [] := by
  obtain ⟨added,hbody,_,_,_,hpend,hdel,_,hund⟩ := promoteDue_spec h
  have hnone : r'.delayed = [] := by
    rw [hdel,List.filter_eq_nil_iff]
    intro m hm
    simpa using hdue m hm
  have hall : r.due now = r.delayed := List.filter_eq_self.mpr (fun m hm => by simpa using hdue m hm)
  have hlen : added.length = r.delayed.length := by
    have := hbody.length_eq
    rwa [List.length_map,List.length_map,hall] at this
  refine ⟨?_,hnone⟩
  simp only [backlog,hpend,(hund hord).2,hnone,List.length_append,List.length_nil,hlen]
  omega

/-- One reservation of a free worker, up to the claim. -/
theorem obtains_of_ready (hs : Sound s) (h : Secured s) (hready : Ready q s w) (hwant : Wanted s job)
    (ih : Recovers q w job (backlog s.redis)) : Obtains q s w job.id := by
  have hs₁ := sound_step (q := q) hs (.reserve w)
  have h₁ := secured_step (q := q) hs h (.reserve w)
  have hstep₁ : q.step s (.reserve w) = s.goto w .creating := by simp only [step,hready.free]
  rw [hstep₁] at hs₁ h₁
  refine .of_step (a := .reserve w) (by simp [Label.alone]) ?_
  rw [hstep₁]
  have hs₂ := sound_step (q := q) hs₁ (.execute w [])
  have h₂ := secured_step (q := q) hs₁ h₁ (.execute w [])
  have hstep₂ : q.step (s.goto w .creating) (.execute w []) =
      { s.goto w (.promoting s.clock) with redis := s.redis.xgroupCreate } := by
    simp [step,execute,World.goto]
  rw [hstep₂] at hs₂ h₂
  refine .of_step (a := .execute w []) (by simp [Label.alone]) ?_
  rw [hstep₂]
  obtain ⟨order,r,hr⟩ := exists_promoteDue s.redis.xgroupCreate s.millis
  have hs₃ := sound_step (q := q) hs₂ (.execute w order)
  have h₃ := secured_step (q := q) hs₂ h₂ (.execute w order)
  have hstep₃ : q.step { s.goto w (.promoting s.clock) with redis := s.redis.xgroupCreate } (.execute w order) =
      { s.goto w .claiming with redis := r } := by
    have hr' : s.redis.xgroupCreate.promoteDue (Time.timestampMillis s.clock) order = some r := hr
    simp [step,execute,World.goto,hr']
  rw [hstep₃] at hs₃ h₃
  refine .of_step (a := .execute w order) (by simp [Label.alone]) ?_
  rw [hstep₃]
  obtain ⟨hback,hdel⟩ := backlog_promoted hs.ordered.xgroupCreate hr hready.due
  obtain ⟨added,_,_,_,hg,hpend,_,hfail,_⟩ := promoteDue_spec hr
  refine obtains_of_claiming hs₃ h₃ (Function.update_self ..) ⟨hwant.pushed,hwant.readable,hwant.unacknowledged,?_⟩ ?_
    hdel ?_ ?_
  · intro f hf
    exact hwant.unfailed f (hfail ▸ hf)
  · intro hn
    rw [show r.group = _ from hg] at hn
    cases hn
  · intro p hp
    exact hready.idle p (hpend ▸ hp)
  · have hsame : backlog s.redis.xgroupCreate = backlog s.redis := rfl
    exact (hback.trans hsame).symm ▸ ih

theorem recovers (q : RedisQueue) (w : ℕ) (job : QueuedJob) (bound : ℕ) : Recovers q w job bound := by
  induction bound with
  | zero => exact fun _ hlt => absurd hlt (Nat.not_lt_zero _)
  | succ n ih =>
    intro s hlt hs h hready hwant
    refine obtains_of_ready hs h hready hwant ?_
    intro s' hlt'
    exact ih s' (by omega)

/-- However the workers were stopped, any one of them, started again and left to
itself, can obtain a wanted job. -/
theorem Wanted.obtains (hwant : Wanted s job) (hs : Sound s) (h : Secured s) (q : RedisQueue) (w : ℕ) :
    Obtains q s w job.id := by
  let scores := (s.redis.delayed.map Prod.fst).sum
  let sinces := (s.redis.pending.map Pending.since).sum
  let wait := 1000000 * (scores + sinces + q.minIdle)
  have hmillis : scores + sinces + q.minIdle ≤ Time.timestampMillis (s.clock + wait) := by
    refine Nat.le_trans ?_ (Time.timestampMillis_mono (Nat.le_add_left wait s.clock))
    exact Nat.le_of_eq (Nat.mul_div_cancel_left _ (by omega)).symm
  have hs' := sound_step (q := q) (sound_step (q := q) hs (.die w)) (.tick wait)
  have h' := secured_step (q := q) (sound_step (q := q) hs (.die w)) (secured_step (q := q) hs h (.die w)) (.tick wait)
  refine .of_step (a := .die w) (by simp [Label.alone]) (.of_step (a := .tick wait) rfl ?_)
  refine recovers q w job _ _ (Nat.lt_succ_self _) hs' h' ⟨Function.update_self ..,?_,?_⟩
    ⟨hwant.pushed,hwant.readable,hwant.unacknowledged,hwant.unfailed⟩
  · intro m hm
    have hle : m.1 ≤ scores := List.le_sum_of_mem (List.mem_map_of_mem hm)
    exact Nat.le_trans hle (by omega : scores ≤ Time.timestampMillis (s.clock + wait))
  · intro p hp
    have hle : p.since ≤ sinces := List.le_sum_of_mem (List.mem_map_of_mem hp)
    have : q.minIdle ≤ Time.timestampMillis (s.clock + wait) - p.since := by omega
    exact this

/-! ## At least once -/

/-- A copy of the job is in the stream or the sorted set. -/
def Waiting (s : World) (id : String) : Prop :=
  (∃ e ∈ s.redis.entries, e.body.id = id) ∨ ∃ m ∈ s.redis.delayed, m.2.id = id

def InFailed (s : World) (id : String) : Prop := ∃ f ∈ s.redis.failed, f.job.id = id

/-- Every job whose acknowledgement has not begun is in one of the three places,
and can be obtained from the first two. -/
def AtLeastOnce (q : RedisQueue) (s : World) : Prop :=
  ∀ job ∈ s.pushed, job.id ∉ s.acknowledging →
    (Waiting s job.id ∨ InFailed s job.id) ∧ (Waiting s job.id → ∀ w, Obtains q s w job.id)

/-- The same of the jobs whose body can be read back, and to be obtained only
while they have not failed. -/
def ReadableAtLeastOnce (q : RedisQueue) (s : World) : Prop :=
  ∀ job ∈ s.pushed, readable job = true → job.id ∉ s.acknowledging →
    (Waiting s job.id ∨ InFailed s job.id) ∧ (¬ InFailed s job.id → ∀ w, Obtains q s w job.id)

theorem Secure.stored (h : Secure s id) : Waiting s id ∨ InFailed s id := by
  rcases h with hm | hf | ⟨e,he,hid⟩
  · exact .inl (.inr hm)
  · exact .inr hf
  · exact .inl (.inl ⟨e,he.stored,hid⟩)

/-- At every point of every run, a readable job whose acknowledgement has not
begun is stored, and as long as it has not failed any worker can obtain it. -/
theorem run_readable_at_least_once (q : RedisQueue) (labels : List Label) :
    Trace.Always q.step (ReadableAtLeastOnce q) .init labels := by
  have hfirst : Sound World.init ∧ Secured World.init := ⟨sound_init,fun _ hj => by cases hj⟩
  have hall : Trace.Always q.step (fun s => Sound s ∧ Secured s) .init labels :=
    Trace.always_of_step (P := fun s => Sound s ∧ Secured s)
      (fun _ a h => ⟨sound_step h.1 a,secured_step h.1 h.2 a⟩) hfirst labels
  refine hall.mono ?_
  rintro s ⟨hs,h⟩ job hjob hr hack
  refine ⟨(h job hjob hr hack).stored,?_⟩
  intro hfail w
  exact Wanted.obtains ⟨hjob,hr,hack,fun f hf hid => hfail ⟨f,hf,hid⟩⟩ hs h q w

/-- Nothing is left to hand out, and the worker has no entry. -/
structure Emptied (s : World) (w : ℕ) : Prop where
  undelivered : s.redis.undelivered = []
  pending : s.redis.pending = []
  delayed : s.redis.delayed = []
  free : (s.workers w).entry = none

theorem Emptied.goto (h : Emptied s w) {phase : Phase} (hp : phase.entry = none) : Emptied (s.goto w phase) w where
  undelivered := h.undelivered
  pending := h.pending
  delayed := h.delayed
  free := by simpa [World.goto] using hp

theorem emptied_step (h : Emptied s w) {a : Label} (ha : a.alone w = true) : Emptied (q.step s a) w := by
  cases a with
  | tick elapsed => exact ⟨h.undelivered,h.pending,h.delayed,h.free⟩
  | push job now => cases ha
  | release w' delay => cases ha
  | fail w' error => cases ha
  | die w' =>
    obtain rfl : w' = w := by simpa [Label.alone] using ha
    exact h.goto rfl
  | reserve w' =>
    obtain rfl : w' = w := by simpa [Label.alone] using ha
    simp only [step]
    split
    · exact h.goto rfl
    · exact h
  | acknowledge w' =>
    obtain rfl : w' = w := by simpa [Label.alone] using ha
    have hfree := h.free
    simp only [step]
    split
    next hw =>
      rw [hw] at hfree
      cases hfree
    · exact h
  | execute w' order =>
    obtain rfl : w' = w := by simpa [Label.alone] using ha
    have hfree := h.free
    simp only [step,execute]
    split
    · exact ⟨h.undelivered,h.pending,h.delayed,by simp [World.goto,Phase.entry]⟩
    next now hw =>
      split
      next r hr =>
        obtain ⟨added,hbody,_,hent,hg,hpend,hdel,_,_⟩ := promoteDue_spec hr
        have hnone : added = [] := by
          have hlen := hbody.length_eq
          simpa [Streams.due,h.delayed] using hlen
        refine ⟨?_,hpend.trans h.pending,by simpa [h.delayed] using hdel,by simp [World.goto,Phase.entry]⟩
        have hd : r.delivered = s.redis.delivered := by rw [delivered,hg,delivered]
        simp only [Streams.undelivered,hent,hnone,List.append_nil,hd]
        exact h.undelivered
      · exact h
    next hw =>
      rw [xautoclaimOne_nil h.pending]
      exact h.goto rfl
    next hw =>
      rcases xreadgroupOne_cases s.redis s.millis with ⟨hn,_⟩ | ⟨e,rest,hu,_⟩
      · rw [hn]
        exact h.goto rfl
      · rw [h.undelivered] at hu
        cases hu
    all_goals first
      | exact h
      | (next hw => rw [hw] at hfree; cases hfree)

/-- Where nothing is left to hand out, nothing is obtained. -/
theorem Emptied.not_obtains (h : Emptied s w) (id : String) : ¬ Obtains q s w id := by
  rintro ⟨labels,hal,job,k,hw,_⟩
  have hall : Trace.Always q.step (fun s => Emptied s w) s labels :=
    Trace.always_of_along (fun _ _ hs ha => emptied_step hs ha) h (Trace.along_of_forall hal)
  have hfree := hall.last.free
  rw [hw] at hfree
  cases hfree

/-- One whole reservation by worker 0 that finds a new entry. -/
def reserveNew : List Label :=
  [.reserve 0,.execute 0 [],.execute 0 [],.execute 0 [],.execute 0 []]

/-- A job whose payload is too deep to be read back out of its envelope. -/
def deepJob : QueuedJob := .fresh "1" "report.build" (.nested .null 127) "default" 3 0

def deepRun : List Label := .push deepJob 0 :: reserveNew ++ [.execute 0 [],.execute 0 []]

def mailJob : QueuedJob := .fresh "1" "mail.welcome" .null "default" 1 0

/-- A job fails for the last time, and its worker dies between `XACK` and `XDEL`. -/
def leftoverRun : List Label :=
  .push mailJob 0 :: reserveNew ++ [.fail 0 "mailbox full",.execute 0 [],.execute 0 [],.die 0]

/-- The deep job is discarded and is nowhere; the failed job's entry is left in
the stream and is never handed out again. -/
theorem at_least_once_fails :
    ¬ Trace.Always new.step (AtLeastOnce new) .init deepRun ∧
      ¬ Trace.Always new.step (AtLeastOnce new) .init leftoverRun := by
  constructor
  · intro h
    have hpushed : (Trace.run new.step .init deepRun).pushed = [deepJob] := by decide +kernel
    have hack : (Trace.run new.step .init deepRun).acknowledging = [] := by decide +kernel
    have hentries : (Trace.run new.step .init deepRun).redis.entries = [] := by decide +kernel
    have hdelayed : (Trace.run new.step .init deepRun).redis.delayed = [] := by decide +kernel
    have hfailed : (Trace.run new.step .init deepRun).redis.failed = [] := by decide +kernel
    obtain ⟨hstored,_⟩ := h.last deepJob (by simp [hpushed]) (by simp [hack])
    simp [Waiting,InFailed,hentries,hdelayed,hfailed] at hstored
  · intro h
    have hempty : Emptied (Trace.run new.step .init leftoverRun) 0 := ⟨by decide,by decide,by decide,by decide⟩
    have hwaits : Waiting (Trace.run new.step .init leftoverRun) mailJob.id :=
      .inl ⟨⟨1,encode mailJob⟩,by decide,rfl⟩
    exact hempty.not_obtains mailJob.id ((h.last mailJob (by decide) (by decide)).2 hwaits 0)

end Rainier.Queue.RedisQueue
