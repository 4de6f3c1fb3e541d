import Rainier.Queue.RedisRecovery

/-! # The attempts of a job on Redis

The count is in the body, and only the copy `reserve` returns is raised. As long
as no entry of the job is claimed from another worker, there is one copy of it
at a time that can be handed out or is being worked on, and its count is the
number of times it was returned. A claimed entry still has the old count.
-/
namespace Rainier.Queue.RedisQueue
open Drivers Streams

/-- The settling calls are those a worker with these options makes. -/
def FollowsWorker (o : WorkerOptions) (s : World) : Label → Prop
  | .acknowledge w => ∀ job k, s.workers w = .holding job k → ∃ result, settlement o job result = .acknowledge
  | .release w delay => ∀ job k, s.workers w = .holding job k → ∃ result, settlement o job result = .release delay
  | .fail w error => ∀ job k, s.workers w = .holding job k → ∃ result, settlement o job result = .fail error
  | _ => True

/-- The step is not a claim that hands out an entry of the job. -/
def NotRedelivered (q : RedisQueue) (id : String) (s : World) : Label → Prop
  | .execute w _ => s.workers w = .claiming →
    ∀ e ∈ (s.redis.xautoclaimOne s.millis q.minIdle).1, e.body.id ≠ id
  | _ => True

instance (q : RedisQueue) (id : String) (s : World) (a : Label) : Decidable (NotRedelivered q id s a) := by
  unfold NotRedelivered
  split <;> infer_instance

/-- Until it is acknowledged or in the failed list, the job has been returned at
most as often as it may be attempted. -/
def Bounded (o : WorkerOptions) (id : String) (s : World) : Prop :=
  ∀ job ∈ s.pushed, job.id = id → ¬ InFailed s id → id ∉ s.acknowledging →
    s.returned.count id ≤ max (max job.maxAttempts (o.tries.getD 0)) 1

/-! ## The one live copy -/

/-- The copies of a job that have not been handed out. -/
def waitingCopies (redis : Streams QueuedJob FailedJob) (id : String) : List QueuedJob :=
  copiesOf id (redis.undelivered.map StreamEntry.body ++ redis.delayed.map Prod.snd)

/-- The copy of a job a worker has still to settle. -/
def Phase.copy (id : String) (phase : Phase) : Option QueuedJob :=
  (phase.carries.map Prod.fst).filter (fun job => job.id == id)

/-- Where the live copy of a job is. -/
inductive Place where
  | loose (copy : QueuedJob)
  | carried (w : ℕ) (copy : QueuedJob)
  | gone

def Place.copies : Place → List QueuedJob
  | .loose copy => [copy]
  | _ => []

def Place.copyAt (w : ℕ) : Place → Option QueuedJob
  | .carried w' copy => if w = w' then some copy else none
  | _ => none

/-- The live copy counts the times the job was returned. -/
structure Counts (s : World) (first copy : QueuedJob) : Prop where
  id : copy.id = first.id
  maxAttempts : copy.maxAttempts = first.maxAttempts
  attempts : copy.attempts = s.returned.count first.id

structure Located (o : WorkerOptions) (s : World) (first : QueuedJob) (place : Place) : Prop where
  waiting : waitingCopies s.redis first.id = place.copies
  carried : ∀ w, (s.workers w).copy first.id = place.copyAt w
  counts : ∀ copy, place = .loose copy ∨ (∃ w, place = .carried w copy) → Counts s first copy
  spare : ∀ copy, place = .loose copy → copy.attempts < o.attemptsFor first.maxAttempts
  retried : ∀ w retry delay k, s.workers w = .storing retry delay k → retry.id = first.id →
    retry.attempts < o.attemptsFor first.maxAttempts
  bounded : s.returned.count first.id ≤ o.attemptsFor first.maxAttempts

/-- Every pushed job is located, and nothing else was returned. -/
structure Books (o : WorkerOptions) (id : String) (s : World) : Prop where
  sound : Sound s
  located : ∀ first ∈ s.pushed, first.id = id → ∃ place, Located o s first place
  returned : ∀ id ∈ s.returned, id ∈ s.pushed.map QueuedJob.id

variable {q : RedisQueue} {o : WorkerOptions} {s s' : World} {w : ℕ}
variable {first copy : QueuedJob} {place : Place} {id : String}

theorem Place.copyAt_eq_some {c : QueuedJob} : place.copyAt w = some c ↔ place = .carried w c := by
  cases place with
  | loose copy => simp [Place.copyAt]
  | gone => simp [Place.copyAt]
  | carried w' copy =>
    simp only [Place.copyAt,Place.carried.injEq]
    split
    next h => simp [h]
    next h => simp [Ne.symm h]

theorem Phase.copy_eq_some {phase : Phase} {c : QueuedJob} :
    phase.copy id = some c ↔ (∃ k, phase.carries = some (c,k)) ∧ c.id = id := by
  cases hc : phase.carries with
  | none => simp [Phase.copy,hc]
  | some p =>
    rcases p with ⟨job,k⟩
    simp only [Phase.copy,hc,Option.map_some,Option.filter_eq_some_iff,Option.some.injEq,beq_iff_eq,Prod.mk.injEq]
    exact ⟨fun h => ⟨⟨k,h.1,rfl⟩,h.2⟩,fun ⟨⟨_,h,_⟩,h'⟩ => ⟨h,h'⟩⟩

theorem Phase.copy_eq_none {phase : Phase} (h : phase.carries = none) : phase.copy id = none := by
  simp [Phase.copy,h]

/-- A step that touches neither the copies of the job nor its count. -/
theorem Located.keep (h : Located o s first place)
    (hwait : waitingCopies s'.redis first.id = waitingCopies s.redis first.id)
    (hcopy : ∀ w, (s'.workers w).copy first.id = (s.workers w).copy first.id)
    (hstoring : ∀ w retry delay k, s'.workers w = .storing retry delay k → retry.id = first.id →
      s.workers w = .storing retry delay k)
    (hcount : s'.returned.count first.id = s.returned.count first.id) : Located o s' first place where
  waiting := hwait.trans h.waiting
  carried w := (hcopy w).trans (h.carried w)
  counts copy hp := by
    obtain ⟨hid,hmax,hatt⟩ := h.counts copy hp
    exact ⟨hid,hmax,hatt.trans hcount.symm⟩
  spare := h.spare
  retried w retry delay k hw hid := h.retried w retry delay k (hstoring w retry delay k hw hid) hid
  bounded := hcount ▸ h.bounded

/-- A worker that goes on with another phase, while the keys stay. -/
theorem Located.goto (h : Located o s first place) {phase : Phase}
    (hw : ∀ w', w' ≠ w → s'.workers w' = s.workers w') (hp : s'.workers w = phase)
    (hwait : waitingCopies s'.redis first.id = waitingCopies s.redis first.id)
    (hcopy : phase.copy first.id = (s.workers w).copy first.id)
    (hstoring : ∀ retry delay k, phase ≠ .storing retry delay k)
    (hcount : s'.returned.count first.id = s.returned.count first.id) : Located o s' first place := by
  refine h.keep hwait ?_ ?_ hcount
  · intro w'
    by_cases he : w' = w
    · rw [he,hp]
      exact hcopy
    · rw [hw w' he]
  · intro w' retry delay k hst _
    by_cases he : w' = w
    · rw [he,hp] at hst
      exact absurd hst (hstoring retry delay k)
    · rwa [hw w' he] at hst

/-- The worker that has the live copy gives it up. -/
theorem Located.drop (h : Located o s first (.carried w copy)) {phase : Phase}
    (hw : ∀ w', w' ≠ w → s'.workers w' = s.workers w') (hp : s'.workers w = phase) (hnone : phase.carries = none)
    (hwait : waitingCopies s'.redis first.id = []) (hcount : s'.returned.count first.id = s.returned.count first.id) :
    Located o s' first .gone where
  waiting := hwait
  carried w' := by
    by_cases he : w' = w
    · rw [he,hp]
      exact Phase.copy_eq_none hnone
    · rw [hw w' he,h.carried w']
      simp [Place.copyAt,he]
  counts copy hpl := by
    rcases hpl with hpl | ⟨_,hpl⟩ <;> cases hpl
  spare copy hpl := by cases hpl
  retried w' retry delay k hst hid := by
    by_cases he : w' = w
    · rw [he,hp] at hst
      rw [hst] at hnone
      cases hnone
    · rw [hw w' he] at hst
      exact h.retried w' retry delay k hst hid
  bounded := hcount ▸ h.bounded

/-- The live copy is rewritten by the worker that has it, or taken up by one. -/
theorem Located.take {phase : Phase} {k : ℕ} (h : Located o s first place)
    (hw : ∀ w', w' ≠ w → s'.workers w' = s.workers w') (hp : s'.workers w = phase)
    (hothers : ∀ w', w' ≠ w → (s.workers w').copy first.id = none)
    (hcar : phase.carries = some (copy,k)) (hwait : waitingCopies s'.redis first.id = [])
    (hcounts : Counts s' first copy)
    (hretry : ∀ retry delay k', phase = .storing retry delay k' → retry.attempts < o.attemptsFor first.maxAttempts)
    (hbound : s'.returned.count first.id ≤ o.attemptsFor first.maxAttempts) :
    Located o s' first (.carried w copy) where
  waiting := hwait
  carried w' := by
    by_cases he : w' = w
    · rw [he,hp,Place.copyAt,if_pos rfl,Phase.copy_eq_some]
      exact ⟨⟨k,hcar⟩,hcounts.id⟩
    · rw [hw w' he,hothers w' he]
      simp [Place.copyAt,he]
  counts c hpl := by
    rcases hpl with hpl | ⟨_,hpl⟩
    · cases hpl
    · cases hpl
      exact hcounts
  spare c hpl := by cases hpl
  retried w' retry delay k' hst hid := by
    by_cases he : w' = w
    · rw [he,hp] at hst
      exact hretry retry delay k' hst
    · rw [hw w' he] at hst
      exact h.retried w' retry delay k' hst hid
  bounded := hbound

/-- No other worker has a copy of a job that one worker has. -/
theorem Located.others (h : Located o s first (.carried w copy)) :
    ∀ w', w' ≠ w → (s.workers w').copy first.id = none := by
  intro w' hne
  rw [h.carried w']
  simp [Place.copyAt,hne]

/-- A worker with a copy of the job has the live one. -/
theorem Located.place_eq (h : Located o s first place) {job : QueuedJob} {k : ℕ}
    (hw : (s.workers w).carries = some (job,k)) (hid : job.id = first.id) : place = .carried w job := by
  rw [← Place.copyAt_eq_some,← h.carried w,Phase.copy_eq_some]
  exact ⟨⟨k,hw⟩,hid⟩

/-! ## What the commands do to the copies of a job -/

section Copies
variable {r r' : Streams QueuedJob FailedJob}

theorem waitingCopies_xadd (h : Ordered r) (body : QueuedJob) (id : String) :
    (waitingCopies (r.xadd body) id).Perm ((if body.id = id then [body] else []) ++ waitingCopies r id) := by
  unfold waitingCopies
  rw [h.undelivered_xadd]
  have hone : copiesOf id [body] = if body.id = id then [body] else [] := by simp [copiesOf_cons]
  simp only [List.map_append,List.map_cons,List.map_nil,copiesOf_append,hone,Streams.xadd]
  rw [List.append_assoc]
  exact List.perm_append_comm_assoc _ _ _

theorem waitingCopies_zadd {body : QueuedJob} {id : String} (hne : body.id ≠ id) (score : ℕ) :
    waitingCopies (r.zadd score body) id = waitingCopies r id := by
  have hsame : copiesOf id ((r.delayed.filter (fun m => m.2 != body)).map Prod.snd) =
      copiesOf id (r.delayed.map Prod.snd) := by
    unfold copiesOf
    rw [List.filter_map,List.filter_map,List.filter_filter]
    refine congrArg (List.map Prod.snd) (List.filter_congr ?_)
    intro m _
    by_cases hm : m.2.id = id
    · have : m.2 ≠ body := by
        rintro rfl
        exact hne hm
      simp [hm,this]
    · simp [hm]
  have hund : (r.zadd score body).undelivered = r.undelivered := rfl
  unfold waitingCopies
  rw [hund]
  simp only [Streams.zadd,List.map_append,List.map_cons,List.map_nil,copiesOf_append,hsame,copiesOf_cons,if_neg hne,
    copiesOf_nil,List.append_nil]

theorem waitingCopies_zadd_self {body : QueuedJob} (hnone : waitingCopies r body.id = []) (score : ℕ) :
    waitingCopies (r.zadd score body) body.id = [body] := by
  unfold waitingCopies at *
  have hund : (r.zadd score body).undelivered = r.undelivered := rfl
  rw [copiesOf_append,List.append_eq_nil_iff] at hnone
  have hrest : copiesOf body.id ((r.delayed.filter (fun m => m.2 != body)).map Prod.snd) = [] := by
    rw [List.eq_nil_iff_forall_not_mem]
    intro c hc
    obtain ⟨hc,hid⟩ := mem_copiesOf.mp hc
    obtain ⟨m,hm,rfl⟩ := List.mem_map.mp hc
    have : m.2 ∈ copiesOf body.id (r.delayed.map Prod.snd) :=
      mem_copiesOf.mpr ⟨List.mem_map_of_mem (List.mem_filter.mp hm).1,hid⟩
    rw [hnone.2] at this
    cases this
  rw [hund]
  simp only [Streams.zadd,List.map_append,List.map_cons,List.map_nil,copiesOf_append,hnone.1,hrest,copiesOf_cons,
    ↓reduceIte,copiesOf_nil,List.nil_append]

theorem waitingCopies_promoteDue (h : Ordered r) {now : ℕ} {order : List (ℕ × QueuedJob)}
    (hp : r.promoteDue now order = some r') (id : String) : (waitingCopies r' id).Perm (waitingCopies r id) := by
  obtain ⟨added,hbody,_,_,_,_,hdel,_,hord⟩ := promoteDue_spec hp
  unfold waitingCopies
  rw [(hord h).2,hdel,List.map_append,List.append_assoc]
  refine List.Perm.filter _ (List.Perm.append_left _ ?_)
  refine (hbody.append_right _).trans ?_
  rw [← List.map_append]
  refine List.Perm.map _ ?_
  have hsplit := List.filter_append_perm (fun m : ℕ × QueuedJob => decide (m.1 ≤ now)) r.delayed
  have hlater : r.delayed.filter (fun m => decide (now < m.1)) = r.delayed.filter (fun m => !decide (m.1 ≤ now)) := by
    refine List.filter_congr ?_
    intro m _
    rw [← decide_not,decide_eq_decide]
    exact Nat.not_le.symm
  rw [hlater]
  exact hsplit

theorem waitingCopies_xdel {k : ℕ} (hk : k ≤ r.delivered) (id : String) :
    waitingCopies (r.xdel k) id = waitingCopies r id := by
  unfold waitingCopies
  rw [undelivered_xdel hk]
  rfl

/-- A read takes the first copy, if it is one. -/
theorem waitingCopies_read (h : Ordered r) {e : StreamEntry QueuedJob} {rest : List (StreamEntry QueuedJob)}
    (hu : r.undelivered = e :: rest) (pending : List Pending) (id : String) :
    waitingCopies r id = (if e.body.id = id then [e.body] else []) ++
      waitingCopies { r with group := some e.id, pending := pending } id := by
  unfold waitingCopies
  rw [h.undelivered_read hu,hu,List.map_cons,List.cons_append,copiesOf_cons]
  split
  · rfl
  · rfl

end Copies

/-! ## One step -/

/-- Receiving an entry of another job. -/
theorem Located.receive_other (h : Located o s first place) {t : World} {e : StreamEntry QueuedJob}
    (hcopy : (s.workers w).copy first.id = none) (ht : t.workers = s.workers) (hret : t.returned = s.returned)
    (hwait : waitingCopies t.redis first.id = waitingCopies s.redis first.id) (hid : e.body.id ≠ first.id) :
    Located o (t.receive w e) first place := by
  have hothers : ∀ w', w' ≠ w → (t.receive w e).workers w' = s.workers w' := by
    intro w' hne
    rw [receive_workers t e hne,ht]
  refine h.goto hothers rfl (by rw [receive_redis]; exact hwait) ?_ ?_ ?_
  · rw [hcopy]
    unfold World.receive
    cases hd : decode e.body with
    | none => simp [World.goto,Phase.copy,Phase.carries]
    | some job =>
      simp [World.goto,Phase.copy,Phase.carries,Option.filter,decode_some hd,hid]
  · intro retry delay k
    unfold World.receive
    split <;> simp [World.goto]
  · unfold World.receive
    cases hd : decode e.body with
    | none => simp [World.goto,hret]
    | some job =>
      simp [decode_some hd,hid,hret]

/-- Reading the live copy. -/
theorem Located.receive_self (h : Located o s first (.loose copy)) {t : World} {e : StreamEntry QueuedJob}
    (ht : t.workers = s.workers) (hret : t.returned = s.returned) (hwait : waitingCopies t.redis first.id = [])
    (hbody : e.body = copy) : ∃ place', Located o (t.receive w e) first place' := by
  have hcounts := h.counts copy (.inl rfl)
  have hspare := h.spare copy rfl
  have hothers : ∀ w', w' ≠ w → (t.receive w e).workers w' = s.workers w' := by
    intro w' hne
    rw [receive_workers t e hne,ht]
  have hnone : ∀ w', (s.workers w').copy first.id = none := fun w' => by
    rw [h.carried w']
    rfl
  cases hd : decode e.body with
  | none =>
    have heq : t.receive w e = t.goto w (.acking e.id) := by simp only [World.receive,hd]
    refine ⟨.gone,?_⟩
    rw [heq] at hothers ⊢
    refine ⟨hwait,?_,?_,fun _ hp => (by cases hp),?_,?_⟩
    · intro w'
      by_cases he : w' = w
      · rw [he]
        simp [World.goto,Phase.copy,Phase.carries,Place.copyAt]
      · rw [hothers w' he,hnone w']
        rfl
    · rintro c (hp | ⟨_,hp⟩) <;> cases hp
    · intro w' retry delay k hst hid
      by_cases he : w' = w
      · rw [he] at hst
        simp [World.goto] at hst
      · rw [hothers w' he] at hst
        exact h.retried w' retry delay k hst hid
    · simpa [World.goto,hret] using h.bounded
  | some job =>
    have hjob : job = copy := (decode_some hd).trans hbody
    have hw : (t.receive w e).workers w =
        .holding { job with deliveryHandle := some e.id, attempts := job.attempts + 1 } e.id := by
      simp only [World.receive,hd,World.goto,Function.update_self]
    have hcount : (t.receive w e).returned.count first.id = s.returned.count first.id + 1 := by
      simp [World.receive,hd,hjob,hret,hcounts.id]
    refine ⟨_,h.take hothers hw (fun w' _ => hnone w') rfl (by rw [receive_redis]; exact hwait) ?_
      (fun _ _ _ hp => by cases hp) ?_⟩
    · refine ⟨?_,?_,?_⟩
      · exact hjob ▸ hcounts.id
      · exact hjob ▸ hcounts.maxAttempts
      · rw [hcount,hjob]
        exact congrArg (· + 1) hcounts.attempts
    · have := hcounts.attempts
      omega

theorem perm_copies {l : List QueuedJob} (h : l.Perm place.copies) : l = place.copies := by
  cases place with
  | loose copy => exact List.perm_singleton.mp h
  | carried w copy => exact List.perm_nil.mp h
  | gone => exact List.perm_nil.mp h

/-- A command of a worker that has no copy of the job, and takes none. -/
theorem Located.moves (h : Located o s first place) {phase : Phase} {redis : Streams QueuedJob FailedJob}
    (hold : (s.workers w).copy first.id = none) (hnew : phase.carries = none)
    (hwait : waitingCopies redis first.id = waitingCopies s.redis first.id) :
    Located o { s.goto w phase with redis := redis } first place := by
  refine h.goto (w := w) (fun _ hne => Function.update_of_ne hne _ _) (Function.update_self ..) hwait ?_ ?_ rfl
  · rw [hold]
    exact Phase.copy_eq_none hnew
  · rintro retry delay k rfl
    cases hnew

/-- Adding a copy of another job. -/
theorem Located.waiting_store (h : Located o s first place) (hs : Sound s) {retry : QueuedJob} (delay : ℕ)
    (hid : retry.id ≠ first.id) :
    waitingCopies (store s.redis retry delay) first.id = waitingCopies s.redis first.id := by
  unfold store
  split
  · have hperm := waitingCopies_xadd hs.ordered retry first.id
    rw [if_neg hid,List.nil_append,h.waiting] at hperm
    rw [h.waiting]
    exact perm_copies hperm
  · exact waitingCopies_zadd hid _

/-- The retry becomes the live copy. -/
theorem Located.stored {retry : QueuedJob} (h : Located o s first (.carried w retry)) (hs : Sound s) {delay k : ℕ}
    (hw : s.workers w = .storing retry delay k) (hid : retry.id = first.id) :
    Located o { s.goto w (.acking k) with redis := store s.redis retry delay } first (.loose retry) := by
  have hempty : waitingCopies s.redis retry.id = [] := hid ▸ h.waiting
  have hstored : waitingCopies (store s.redis retry delay) retry.id = [retry] := by
    unfold store
    split
    · have hperm := waitingCopies_xadd hs.ordered retry retry.id
      rw [if_pos rfl,hempty] at hperm
      exact List.perm_singleton.mp hperm
    · exact waitingCopies_zadd_self hempty _
  have hcounts := h.counts retry (.inr ⟨w,rfl⟩)
  have hothers : ∀ w', w' ≠ w → (s.goto w (.acking k)).workers w' = s.workers w' :=
    fun _ hne => Function.update_of_ne hne _ _
  refine ⟨?_,?_,?_,?_,?_,h.bounded⟩
  · rw [← hid]
    exact hstored
  · intro w'
    by_cases he : w' = w
    · rw [he]
      simp [World.goto,Phase.copy,Phase.carries,Place.copyAt]
    · exact (congrArg (Phase.copy first.id) (hothers w' he)).trans (h.others w' he)
  · rintro c (hp | ⟨_,hp⟩)
    · cases hp
      exact ⟨hcounts.id,hcounts.maxAttempts,hcounts.attempts⟩
    · cases hp
  · rintro c ⟨⟩
    exact h.retried w retry delay k hw hid
  · intro w' retry' delay' k' hst hid'
    by_cases he : w' = w
    · rw [he] at hst
      simp [World.goto] at hst
    · exact h.retried w' retry' delay' k' ((hothers w' he).symm.trans hst) hid'

/-- A read hands out the live copy, or an entry of another job. -/
theorem Located.read (h : Located o s first place) (hs : Sound s) (hnone : (s.workers w).copy first.id = none) (now : ℕ)
    {e : StreamEntry QueuedJob} {rest : List (StreamEntry QueuedJob)} (hu : s.redis.undelivered = e :: rest) :
    ∃ place', Located o (World.receive { s with
      redis := { s.redis with group := some e.id, pending := s.redis.pending ++ [⟨e.id,now⟩] } } w e) first place' := by
  have hcopies := waitingCopies_read hs.ordered hu (s.redis.pending ++ [⟨e.id,now⟩]) first.id
  by_cases hid : e.body.id = first.id
  · rw [if_pos hid,h.waiting] at hcopies
    cases place with
    | loose copy =>
      simp only [Place.copies,List.cons_append,List.nil_append,List.cons.injEq] at hcopies
      exact h.receive_self rfl rfl hcopies.2.symm hcopies.1.symm
    | carried w' copy => cases hcopies
    | gone => cases hcopies
  · rw [if_neg hid,List.nil_append] at hcopies
    exact ⟨place,h.receive_other hnone rfl rfl hcopies.symm hid⟩

theorem located_execute (hs : Sound s) (h : Located o s first place) (w : ℕ) (order : List (ℕ × QueuedJob))
    (hok : NotRedelivered q first.id s (.execute w order)) :
    ∃ place', Located o (q.execute s w order) first place' := by
  have hnone : (s.workers w).carries = none → (s.workers w).copy first.id = none := Phase.copy_eq_none
  unfold execute
  cases hw : s.workers w with
  | idle => exact ⟨place,by simpa only [hw] using h⟩
  | holding job k => exact ⟨place,by simpa only [hw] using h⟩
  | creating => exact ⟨place,h.moves (hnone (by rw [hw]; rfl)) rfl rfl⟩
  | promoting now =>
    dsimp only
    cases hp : s.redis.promoteDue (Time.timestampMillis now) order with
    | none => exact ⟨place,h⟩
    | some redis =>
      refine ⟨place,h.moves (hnone (by rw [hw]; rfl)) rfl ?_⟩
      rw [h.waiting]
      exact perm_copies (h.waiting ▸ waitingCopies_promoteDue hs.ordered hp first.id)
  | claiming =>
    dsimp only
    obtain ⟨found,pending,hc,_,_,_⟩ := hs.ordered.xautoclaimOne s.millis q.minIdle
    have hnot := hok hw
    rw [hc] at hnot ⊢
    cases found with
    | none => exact ⟨place,h.moves (hnone (by rw [hw]; rfl)) rfl rfl⟩
    | some e => exact ⟨place,h.receive_other (hnone (by rw [hw]; rfl)) rfl rfl rfl (hnot e rfl)⟩
  | reading =>
    dsimp only
    rcases xreadgroupOne_cases s.redis s.millis with ⟨hn,_⟩ | ⟨e,rest,hu,hread⟩
    · rw [hn]
      exact ⟨place,h.moves (hnone (by rw [hw]; rfl)) rfl rfl⟩
    · rw [hread]
      exact h.read hs (hnone (by rw [hw]; rfl)) s.millis hu
  | storing retry delay k =>
    by_cases hid : retry.id = first.id
    · have hplace := h.place_eq (w := w) (by rw [hw]; rfl) hid
      subst hplace
      exact ⟨.loose retry,h.stored hs hw hid⟩
    · refine ⟨place,h.moves ?_ rfl (h.waiting_store hs delay hid)⟩
      rw [hw]
      simp [Phase.copy,Phase.carries,Option.filter,hid]
  | recording failed k =>
    by_cases hid : failed.job.id = first.id
    · have hplace := h.place_eq (w := w) (by rw [hw]; rfl) hid
      subst hplace
      exact ⟨.gone,h.drop (fun _ hne => Function.update_of_ne hne _ _) (Function.update_self ..) rfl h.waiting rfl⟩
    · refine ⟨place,h.moves ?_ rfl rfl⟩
      rw [hw]
      simp [Phase.copy,Phase.carries,Option.filter,hid]
  | acking k => exact ⟨place,h.moves (hnone (by rw [hw]; rfl)) rfl rfl⟩
  | deleting k =>
    have hle : k ≤ s.redis.delivered := hs.handed w k (by rw [hw]; rfl)
    exact ⟨place,h.moves (hnone (by rw [hw]; rfl)) rfl (waitingCopies_xdel hle first.id)⟩

/-- A settling call begins: the worker goes on with the same job. -/
theorem Located.settling (h : Located o s first place) {job copy : QueuedJob} {k : ℕ} {phase : Phase}
    (hw : s.workers w = .holding job k) (hp : phase.carries = some (copy,k)) (hid : copy.id = job.id)
    (hmax : copy.maxAttempts = job.maxAttempts) (hatt : copy.attempts = job.attempts)
    (hretry : ∀ retry delay k', phase = .storing retry delay k' → job.id = first.id →
      job.attempts < o.attemptsFor job.maxAttempts ∧ retry.attempts = job.attempts) :
    ∃ place', Located o (s.goto w phase) first place' := by
  have hothers : ∀ w', w' ≠ w → (s.goto w phase).workers w' = s.workers w' := fun _ hne => Function.update_of_ne hne _ _
  by_cases he : job.id = first.id
  · have hplace := h.place_eq (w := w) (by rw [hw]; rfl) he
    subst hplace
    have hcounts := h.counts job (.inr ⟨w,rfl⟩)
    refine ⟨_,h.take hothers (Function.update_self ..) h.others hp h.waiting ?_ ?_ h.bounded⟩
    · exact ⟨hid.trans he,hmax.trans hcounts.maxAttempts,hatt.trans hcounts.attempts⟩
    · intro retry delay k' hst
      obtain ⟨hlt,hra⟩ := hretry retry delay k' hst he
      rw [hra,← hcounts.maxAttempts]
      exact hlt
  · have hnone : phase.copy first.id = none := by simp [Phase.copy,hp,Option.filter,hid,he]
    refine ⟨place,h.keep rfl ?_ ?_ rfl⟩
    · intro w'
      by_cases hsame : w' = w
      · rw [hsame,hw]
        simp only [World.goto,Function.update_self,hnone]
        simp [Phase.copy,Phase.carries,Option.filter,he]
      · rw [hothers w' hsame]
    · intro w' retry delay k' hst hrid
      by_cases hsame : w' = w
      · rw [hsame] at hst
        simp only [World.goto,Function.update_self] at hst
        rw [hst] at hnone
        simp [Phase.copy,Phase.carries,Option.filter,hrid] at hnone
      · rwa [hothers w' hsame] at hst

theorem Located.dropping (h : Located o s first place) {phase : Phase} (hp : phase.carries = none)
    (hw : ∀ w', w' ≠ w → s'.workers w' = s.workers w') (hw' : s'.workers w = phase) (hredis : s'.redis = s.redis)
    (hret : s'.returned = s.returned) : ∃ place', Located o s' first place' := by
  cases hc : (s.workers w).copy first.id with
  | none =>
    refine ⟨place,h.goto hw hw' (by rw [hredis]) ?_ ?_ (by rw [hret])⟩
    · rw [hc]
      exact Phase.copy_eq_none hp
    · rintro retry delay k rfl
      cases hp
  | some c =>
    have hplace : place = .carried w c := by
      rw [← Place.copyAt_eq_some,← h.carried w]
      exact hc
    subst hplace
    exact ⟨.gone,h.drop hw hw' hp (by rw [hredis]; exact h.waiting) (by rw [hret])⟩

theorem located_step (hs : Sound s) (h : Located o s first place) (hfirst : first ∈ s.pushed) {a : Label}
    (hworker : FollowsWorker o s a) (hok : NotRedelivered q first.id s a) :
    ∃ place', Located o (q.step s a) first place' := by
  cases a with
  | tick elapsed => exact ⟨place,h.keep rfl (fun _ => rfl) (fun _ _ _ _ hw _ => hw) rfl⟩
  | push job now =>
    simp only [step]
    split
    next hnew =>
      have hid : (encode job).id ≠ first.id := by
        intro (he : job.id = first.id)
        exact hnew.2.1 (he ▸ List.mem_map_of_mem hfirst)
      refine ⟨place,h.keep ?_ (fun _ => rfl) (fun _ _ _ _ hw _ => hw) rfl⟩
      simp only [pushed]
      split
      · exact waitingCopies_zadd hid _
      · have hperm := waitingCopies_xadd hs.ordered (encode job) first.id
        rw [if_neg hid,List.nil_append,h.waiting] at hperm
        rw [h.waiting]
        exact perm_copies hperm
    · exact ⟨place,h⟩
  | execute w order => exact located_execute hs h w order hok
  | die w => exact h.dropping rfl (fun _ hne => Function.update_of_ne hne _ _) (Function.update_self ..) rfl rfl
  | reserve w =>
    simp only [step]
    split
    · exact h.dropping rfl (fun _ hne => Function.update_of_ne hne _ _) (Function.update_self ..) rfl rfl
    · exact ⟨place,h⟩
  | acknowledge w =>
    simp only [step]
    split
    · exact h.dropping (w := w) rfl (fun _ hne => Function.update_of_ne hne _ _) (Function.update_self ..) rfl rfl
    · exact ⟨place,h⟩
  | release w delay =>
    simp only [step]
    split
    next job k hw =>
      obtain ⟨result,hresult⟩ := hworker job k hw
      refine h.settling hw rfl rfl rfl rfl ?_
      rintro retry delay' k' ⟨⟩ _
      exact ⟨(settlement_release hresult).1,rfl⟩
    · exact ⟨place,h⟩
  | fail w error =>
    simp only [step]
    split
    next job k hw => exact h.settling hw rfl rfl rfl rfl (fun _ _ _ hp => by cases hp)
    · exact ⟨place,h⟩

/-! ## Whole runs -/

/-- A job just pushed has one copy, which waits. -/
theorem Books.located_push (h : Books o id s) {job : QueuedJob} {now : ℕ} (hzero : job.attempts = 0)
    (hfresh : job.id ∉ s.pushed.map QueuedJob.id) :
    Located o { s with redis := pushed s job now, pushed := s.pushed ++ [job] } job (.loose (encode job)) := by
  have hunknown : ∀ body, Copied s body → body.id ≠ job.id := by
    intro body hb he
    obtain ⟨j,hj,hid,_⟩ := h.sound.copies body hb
    exact hfresh (he ▸ hid ▸ List.mem_map_of_mem hj)
  have hempty : waitingCopies s.redis (encode job).id = [] := by
    refine List.eq_nil_iff_forall_not_mem.mpr ?_
    intro c hc
    obtain ⟨hc,hid⟩ := mem_copiesOf.mp hc
    rcases List.mem_append.mp hc with hc | hc
    · obtain ⟨e,he,rfl⟩ := List.mem_map.mp hc
      exact hunknown e.body (.inl ⟨e,(mem_undelivered.mp he).1,rfl⟩) hid
    · obtain ⟨m,hm,rfl⟩ := List.mem_map.mp hc
      exact hunknown m.2 (.inr (.inl ⟨m,hm,rfl⟩)) hid
  have hzero' : s.returned.count job.id = 0 := by
    refine List.count_eq_zero.mpr ?_
    intro hm
    exact hfresh (h.returned job.id hm)
  have hpos := o.attemptsFor_pos job.maxAttempts
  refine ⟨?_,?_,?_,?_,?_,?_⟩
  · simp only [pushed,Place.copies]
    split
    · exact waitingCopies_zadd_self hempty _
    · have hperm := waitingCopies_xadd h.sound.ordered (encode job) (encode job).id
      rw [if_pos rfl,hempty] at hperm
      exact List.perm_singleton.mp hperm
  · intro w
    cases hc : (s.workers w).copy job.id with
    | none => rfl
    | some c =>
      obtain ⟨⟨k,hk⟩,hid⟩ := Phase.copy_eq_some.mp hc
      exact absurd hid (hunknown c (.inr (.inr ⟨w,k,hk⟩)))
  · rintro c (hp | ⟨_,hp⟩)
    · cases hp
      exact ⟨rfl,rfl,hzero.trans hzero'.symm⟩
    · cases hp
  · rintro c ⟨⟩
    exact hzero ▸ hpos
  · intro w retry delay k hw hid
    exact absurd hid (hunknown retry (.inr (.inr ⟨w,k,by rw [show s.workers w = _ from hw]; rfl⟩)))
  · exact hzero' ▸ Nat.zero_le _

theorem receive_returned (s : World) (w : ℕ) (e : StreamEntry QueuedJob) :
    (s.receive w e).returned = s.returned ∨ (s.receive w e).returned = s.returned ++ [e.body.id] := by
  unfold World.receive
  cases hd : decode e.body with
  | none => exact .inl rfl
  | some job => exact .inr (by rw [decode_some hd])

/-- A step returns one job at most, from an entry of the stream. -/
theorem returned_step (hs : Sound s) (a : Label) :
    (q.step s a).returned = s.returned ∨
      ∃ e ∈ s.redis.entries, (q.step s a).returned = s.returned ++ [e.body.id] := by
  cases a with
  | tick elapsed => exact .inl rfl
  | die w => exact .inl rfl
  | push job now | reserve w | acknowledge w | release w delay | fail w error =>
    simp only [step]
    split <;> exact .inl rfl
  | execute w order =>
    simp only [step,execute]
    split
    · exact .inl rfl
    · split <;> exact .inl rfl
    · obtain ⟨found,pending,hc,_,_,hfound⟩ := hs.ordered.xautoclaimOne s.millis q.minIdle
      rw [hc]
      cases found with
      | none => exact .inl rfl
      | some e => exact (receive_returned _ w e).imp_right (fun hr => ⟨e,(hfound e rfl).1,hr⟩)
    · rcases xreadgroupOne_cases s.redis s.millis with ⟨hn,_⟩ | ⟨e,rest,hu,hr⟩
      · rw [hn]
        exact .inl rfl
      · rw [hr]
        have hmem := (mem_undelivered.mp (hu ▸ List.mem_cons_self : e ∈ s.redis.undelivered)).1
        exact (receive_returned _ w e).imp_right (fun hr => ⟨e,hmem,hr⟩)
    all_goals exact .inl rfl

theorem pushed_step (q : RedisQueue) (s : World) (a : Label) :
    (q.step s a).pushed = s.pushed ∨ ∃ job now, job.attempts = 0 ∧ job.id ∉ s.pushed.map QueuedJob.id ∧
      q.step s a = { s with redis := pushed s job now, pushed := s.pushed ++ [job] } := by
  cases a with
  | tick elapsed => exact .inl rfl
  | die w => exact .inl rfl
  | push job now =>
    simp only [step]
    split
    next hnew => exact .inr ⟨job,now,hnew.1,hnew.2.1,rfl⟩
    · exact .inl rfl
  | reserve w | acknowledge w | release w delay | fail w error =>
    simp only [step]
    split <;> exact .inl rfl
  | execute w order =>
    left
    simp only [step,execute]
    split
    · rfl
    · split <;> rfl
    · split
      · exact receive_pushed ..
      · rfl
    · split
      · exact receive_pushed ..
      · rfl
    all_goals rfl

theorem books_step (h : Books o id s) {a : Label} (hworker : FollowsWorker o s a) (hok : NotRedelivered q id s a) :
    Books o id (q.step s a) := by
  have hmono : s.pushed ⊆ (q.step s a).pushed := by
    rcases pushed_step q s a with he | ⟨job,now,_,_,he⟩
    · exact he ▸ List.Subset.refl _
    · rw [he]
      exact List.subset_append_left _ _
  refine ⟨sound_step h.sound a,?_,?_⟩
  · intro first hfirst hid
    have hold : first ∈ s.pushed → ∃ place, Located o (q.step s a) first place := by
      intro hmem
      obtain ⟨place,hp⟩ := h.located first hmem hid
      exact located_step h.sound hp hmem hworker (hid ▸ hok)
    rcases pushed_step q s a with he | ⟨job,now,hzero,hfresh,he⟩
    · exact hold (he ▸ hfirst)
    · rw [he] at hfirst
      rcases List.mem_append.mp hfirst with hmem | hmem
      · exact hold hmem
      · rw [he,List.mem_singleton.mp hmem]
        exact ⟨_,h.located_push hzero hfresh⟩
  · intro id' hid'
    have hin : id' ∈ s.pushed.map QueuedJob.id := by
      rcases returned_step (q := q) h.sound a with he | ⟨e,hmem,he⟩
      · exact h.returned id' (he ▸ hid')
      · rw [he] at hid'
        rcases List.mem_append.mp hid' with hid' | hid'
        · exact h.returned id' hid'
        · obtain ⟨job,hjob,hjid,_⟩ := h.sound.copies e.body (.inl ⟨e,hmem,rfl⟩)
          rw [List.mem_singleton.mp hid',← hjid]
          exact List.mem_map_of_mem hjob
    exact List.map_subset _ hmono hin

/-- The job is returned at most as often as it may be attempted, in every run of
workers in which none of its entries is claimed from another worker. -/
theorem run_bounded (q : RedisQueue) (o : WorkerOptions) (id : String) (labels : List Label)
    (hworker : Trace.Along q.step (FollowsWorker o) .init labels)
    (hok : Trace.Along q.step (NotRedelivered q id) .init labels) :
    Trace.Always q.step (Bounded o id) .init labels := by
  have hfirst : Books o id World.init := ⟨sound_init,fun _ hj => (by cases hj),fun _ hr => by cases hr⟩
  have hall : Trace.Always q.step (Books o id) .init labels :=
    Trace.always_of_along (fun _ _ h ha => books_step h ha.1 ha.2) hfirst (hworker.and hok)
  refine hall.mono ?_
  intro s h job hjob hid _ _
  obtain ⟨place,hp⟩ := h.located job hjob hid
  exact hid ▸ hp.bounded

def retryJob : QueuedJob := .fresh "1" "mail.welcome" .null "default" 3 0

/-- The body of the job after one failed attempt. -/
def retriedJob : QueuedJob := { retryJob with attempts := 1, availableAt := Duration.fromSecs 2 }

/-- A failed attempt by worker 0, and a second attempt by worker 1 when the retry is due. -/
def retriedRun : List Label :=
  .push retryJob 0 :: reserveNew ++ [.release 0 (backoffFor 1),.execute 0 [],.execute 0 [],.execute 0 [],
    .tick (Duration.fromSecs 2),.reserve 1,.execute 1 [],.execute 1 [(2000,retriedJob)],.execute 1 [],.execute 1 []]

theorem retried_run_bounded :
    (Trace.run new.step .init retriedRun).returned = ["1","1"] ∧
      Trace.Always new.step (Bounded .default "1") .init retriedRun := by
  refine ⟨by decide,run_bounded new .default "1" retriedRun ?_ (by decide)⟩
  refine ⟨trivial,trivial,trivial,trivial,trivial,trivial,?_,trivial,trivial,trivial,trivial,trivial,trivial,trivial,
    trivial,trivial,trivial⟩
  intro job k hw
  have hheld : (Trace.run new.step .init (.push retryJob 0 :: reserveNew)).workers 0 =
      .holding { retryJob with attempts := 1, deliveryHandle := some 1 } 1 := by decide
  cases hheld.symm.trans hw
  exact ⟨.error (.internal "mailbox full"),by decide⟩

/-- A worker dies with a job that may be attempted once, and another claims the entry. -/
def crashedRun : List Label :=
  .push mailJob 0 :: reserveNew ++ [.die 0,.tick (Duration.fromSecs 90),.reserve 1,.execute 1 [],.execute 1 [],
    .execute 1 []]

/-- The job is then returned a second time, with its count still at one. -/
theorem crashed_run_exceeds_attempts :
    Trace.Along new.step (FollowsWorker .default) .init crashedRun ∧
      ¬ Trace.Always new.step (Bounded .default "1") .init crashedRun := by
  refine ⟨by repeat' constructor,?_⟩
  intro h
  have hreturned : (Trace.run new.step .init crashedRun).returned = ["1","1"] := by decide
  have hfailed : (Trace.run new.step .init crashedRun).redis.failed = [] := by decide
  have hle := h.last mailJob (by decide) rfl (by simp [InFailed,hfailed]) (by decide)
  rw [hreturned] at hle
  exact absurd hle (by decide)

end Rainier.Queue.RedisQueue
