import Rainier.Queue.RedisQueue
import Rainier.Support.Trace

/-! # Delivery at least once

A readable job whose acknowledgement has not begun always has a secure copy: one
in the sorted set, one in the failed list, or an entry that can still be handed
out and that no worker is about to acknowledge. Every call that gives up an
entry stores another copy first.
-/
namespace Rainier.Queue.RedisQueue
open Drivers Streams

/-- The entry a call works on. -/
def Phase.entry : Phase → Option ℕ
  | .holding _ k => some k
  | .storing _ _ k => some k
  | .recording _ k => some k
  | .acking k => some k
  | .deleting k => some k
  | _ => none

/-- The job a call still has to settle. -/
def Phase.carries : Phase → Option (QueuedJob × ℕ)
  | .holding job k => some (job,k)
  | .storing retry _ k => some (retry,k)
  | .recording failed k => some (failed.job,k)
  | _ => none

/-- The entry a call is about to give up. -/
def Phase.drops : Phase → Option ℕ
  | .acking k => some k
  | .deleting k => some k
  | _ => none

/-- The job, or a later state of it, is somewhere it can be handed out from. -/
def Copied (s : World) (body : QueuedJob) : Prop :=
  (∃ e ∈ s.redis.entries, e.body = body) ∨ (∃ m ∈ s.redis.delayed, m.2 = body) ∨
    ∃ w k, (s.workers w).carries = some (body,k)

structure Sound (s : World) : Prop where
  ordered : Ordered s.redis
  ids : (s.pushed.map QueuedJob.id).Nodup
  handed : ∀ w k, (s.workers w).entry = some k → k ≤ s.redis.delivered
  gone : ∀ w k, s.workers w = .deleting k → ∀ p ∈ s.redis.pending, p.id ≠ k
  copies : ∀ body, Copied s body → ∃ job ∈ s.pushed, job.id = body.id ∧ job.payload = body.payload
  carried : ∀ w job k, (s.workers w).carries = some (job,k) → ∀ e ∈ s.redis.entries, e.id = k → e.body.id = job.id

/-- How a step of worker `w` may change the keys: entries are only added at the
end, and only what had not been handed out becomes pending. -/
structure Evolves (s s' : World) (w : ℕ) : Prop where
  workers : ∀ w', w' ≠ w → s'.workers w' = s.workers w'
  pushed : s'.pushed = s.pushed
  ordered : Ordered s'.redis
  delivered : s.redis.delivered ≤ s'.redis.delivered
  entries : ∀ e ∈ s'.redis.entries, e ∈ s.redis.entries ∨ (s.redis.lastId < e.id ∧ Copied s e.body)
  delayed : ∀ m ∈ s'.redis.delayed, Copied s m.2
  pending : ∀ p ∈ s'.redis.pending, (∃ p' ∈ s.redis.pending, p'.id = p.id) ∨ s.redis.delivered < p.id

/-- What a worker's new phase may refer to. -/
structure Fits (s : World) (redis : Streams QueuedJob FailedJob) (phase : Phase) : Prop where
  handed : ∀ k, phase.entry = some k → k ≤ redis.delivered
  gone : ∀ k, phase = .deleting k → ∀ p ∈ redis.pending, p.id ≠ k
  carries : ∀ job k, phase.carries = some (job,k) → (∃ body, Copied s body ∧ body.id = job.id ∧
    body.payload = job.payload) ∧ ∀ e ∈ redis.entries, e.id = k → e.body.id = job.id

variable {q : RedisQueue} {s s' : World} {w : ℕ} {e' : StreamEntry QueuedJob}

theorem entry_of_carries {phase : Phase} {job : QueuedJob} {k : ℕ} (h : phase.carries = some (job,k)) :
    phase.entry = some k := by
  cases phase <;> simp_all [Phase.carries,Phase.entry]

theorem sound_init : Sound .init where
  ordered := ordered_empty
  ids := List.nodup_nil
  handed _ _ h := by cases h
  gone _ _ h := by cases h
  copies _ h := by
    rcases h with ⟨_,he,_⟩ | ⟨_,hm,_⟩ | ⟨_,_,hc⟩
    · cases he
    · cases hm
    · cases hc
  carried _ _ _ h := by cases h

theorem Sound.evolve (h : Sound s) (hev : Evolves s s' w) (hfit : Fits s s'.redis (s'.workers w)) : Sound s' := by
  have hother : ∀ w' (P : Phase → Prop), (w' = w → P (s'.workers w)) → (w' ≠ w → P (s.workers w')) →
      P (s'.workers w') := by
    intro w' P hsame hdiff
    by_cases he : w' = w
    · rw [he]
      exact hsame he
    · rw [hev.workers w' he]
      exact hdiff he
  constructor
  · exact hev.ordered
  · rw [hev.pushed]
    exact h.ids
  · intro w' k
    refine hother w' (fun phase => phase.entry = some k → k ≤ s'.redis.delivered) (fun _ => hfit.handed k) ?_
    intro _ hk
    exact (h.handed w' k hk).trans hev.delivered
  · intro w' k
    refine hother w' (fun phase => phase = .deleting k → ∀ p ∈ s'.redis.pending, p.id ≠ k) (fun _ => hfit.gone k) ?_
    intro _ hk p hp
    have hle : k ≤ s.redis.delivered := h.handed w' k (by rw [hk]; rfl)
    rcases hev.pending p hp with ⟨p',hp',hid⟩ | hlt
    · exact hid ▸ h.gone w' k hk p' hp'
    · omega
  · intro body hb
    rw [hev.pushed]
    rcases hb with ⟨e,he,rfl⟩ | ⟨m,hm,rfl⟩ | ⟨w',k,hk⟩
    · rcases hev.entries e he with he | ⟨_,hc⟩
      · exact h.copies _ (.inl ⟨e,he,rfl⟩)
      · exact h.copies _ hc
    · exact h.copies _ (hev.delayed m hm)
    · by_cases he : w' = w
      · subst he
        obtain ⟨⟨old,hold,hid,hpay⟩,_⟩ := hfit.carries body k hk
        obtain ⟨job,hjob,hid',hpay'⟩ := h.copies old hold
        exact ⟨job,hjob,hid'.trans hid,hpay'.trans hpay⟩
      · rw [hev.workers w' he] at hk
        exact h.copies _ (.inr (.inr ⟨w',k,hk⟩))
  · intro w' job k
    refine hother w' (fun phase => phase.carries = some (job,k) → ∀ e ∈ s'.redis.entries, e.id = k →
      e.body.id = job.id) (fun _ hk => (hfit.carries job k hk).2) ?_
    intro _ hk e he hid
    rcases hev.entries e he with he | ⟨hlt,_⟩
    · exact h.carried w' job k hk e he hid
    · have hle : k ≤ s.redis.delivered := h.handed w' k (entry_of_carries hk)
      have := h.ordered.delivered
      omega

/-- A step that leaves the keys alone. -/
theorem Sound.evolves_goto (h : Sound s) (w : ℕ) (phase : Phase) : Evolves s (s.goto w phase) w where
  workers _ hne := Function.update_of_ne hne _ _
  pushed := rfl
  ordered := h.ordered
  delivered := Nat.le_refl _
  entries _ he := .inl he
  delayed m hm := .inr (.inl ⟨m,hm,rfl⟩)
  pending p hp := .inl ⟨p,hp,rfl⟩

theorem fits_without_entry {redis : Streams QueuedJob FailedJob} {phase : Phase} (h : phase.entry = none) :
    Fits s redis phase where
  handed k hk := by rw [h] at hk; cases hk
  gone k hk := by rw [hk] at h; cases h
  carries job k hk := by cases phase <;> simp_all [Phase.entry,Phase.carries]

/-- Going on with the same job and entry. -/
theorem Sound.fits_goto (h : Sound s) {phase : Phase} {job : QueuedJob} {k : ℕ}
    (hw : (s.workers w).carries = some (job,k)) (hphase : phase.entry = some k) (hdel : ∀ k, phase ≠ .deleting k)
    (hcar : ∀ job' k', phase.carries = some (job',k') → job'.id = job.id ∧ job'.payload = job.payload ∧ k' = k) :
    Fits s s.redis phase where
  handed k' hk' := by
    rw [hphase] at hk'
    cases hk'
    exact h.handed w k (entry_of_carries hw)
  gone k' hk' := absurd hk' (hdel k')
  carries job' k' hk' := by
    obtain ⟨hid,hpay,rfl⟩ := hcar job' k' hk'
    refine ⟨⟨job,.inr (.inr ⟨w,k',hw⟩),hid.symm,hpay.symm⟩,?_⟩
    intro e he hek
    rw [hid]
    exact h.carried w job k' hw e he hek

theorem decode_some {body job : QueuedJob} (h : decode body = some job) : job = body := by
  unfold decode at h
  split at h
  · exact (Option.some.inj h).symm
  · cases h

/-- The end of a reservation: the entry was handed out before, or just now. -/
theorem fits_receive (hcopy : ∃ e ∈ s.redis.entries, e.body = e'.body) (hord : Ordered s'.redis)
    (hmem : e' ∈ s'.redis.entries) (hle : e'.id ≤ s'.redis.delivered) :
    Fits s (World.receive s' w e').redis ((World.receive s' w e').workers w) := by
  unfold World.receive
  cases hd : decode e'.body with
  | none =>
    simp only [World.goto,Function.update_self]
    refine ⟨?_,fun _ hk => (by cases hk),fun _ _ hk => by cases hk⟩
    rintro k ⟨⟩
    exact hle
  | some job =>
    simp only [World.goto,Function.update_self]
    have hjob : job = e'.body := decode_some hd
    refine ⟨?_,fun _ hk => (by cases hk),?_⟩
    · rintro k ⟨⟩
      exact hle
    · rintro job' k ⟨⟩
      refine ⟨⟨job,.inl (hjob ▸ hcopy),rfl,rfl⟩,?_⟩
      intro e he hid
      rw [hord.eq_of_id he hmem hid,← hjob]

theorem receive_redis (s : World) (w : ℕ) (e : StreamEntry QueuedJob) : (s.receive w e).redis = s.redis := by
  unfold World.receive
  split <;> rfl

theorem receive_pushed (s : World) (w : ℕ) (e : StreamEntry QueuedJob) : (s.receive w e).pushed = s.pushed := by
  unfold World.receive
  split <;> rfl

theorem receive_acknowledging (s : World) (w : ℕ) (e : StreamEntry QueuedJob) :
    (s.receive w e).acknowledging = s.acknowledging := by
  unfold World.receive
  split <;> rfl

theorem receive_workers (s : World) {w w' : ℕ} (e : StreamEntry QueuedJob) (hne : w' ≠ w) :
    (s.receive w e).workers w' = s.workers w' := by
  unfold World.receive
  split <;> exact Function.update_of_ne hne _ _

theorem evolves_keys {redis : Streams QueuedJob FailedJob} (hw : ∀ w', w' ≠ w → s'.workers w' = s.workers w')
    (hp : s'.pushed = s.pushed) (hr : s'.redis = redis) (ho : Ordered redis)
    (he : ∀ e ∈ redis.entries, e ∈ s.redis.entries) (hg : redis.delivered = s.redis.delivered)
    (hd : ∀ m ∈ redis.delayed, m ∈ s.redis.delayed)
    (hpend : ∀ p ∈ redis.pending, ∃ p' ∈ s.redis.pending, p'.id = p.id) : Evolves s s' w where
  workers := hw
  pushed := hp
  ordered := hr ▸ ho
  delivered := by rw [hr,hg]
  entries e hmem := .inl (he e (hr ▸ hmem))
  delayed m hm := .inr (.inl ⟨m,hd m (hr ▸ hm),rfl⟩)
  pending p hmem := .inl (hpend p (hr ▸ hmem))

/-- A command that adds no entry and hands nothing out, after which the worker goes on to `phase`. -/
theorem Sound.moves (h : Sound s) (w : ℕ) {phase : Phase} {redis : Streams QueuedJob FailedJob} (ho : Ordered redis)
    (he : ∀ e ∈ redis.entries, e ∈ s.redis.entries) (hg : redis.delivered = s.redis.delivered)
    (hd : ∀ m ∈ redis.delayed, m ∈ s.redis.delayed)
    (hpend : ∀ p ∈ redis.pending, ∃ p' ∈ s.redis.pending, p'.id = p.id) (hfit : Fits s redis phase) :
    Sound { s.goto w phase with redis := redis } := by
  refine h.evolve (w := w) (evolves_keys (fun _ hne => Function.update_of_ne hne _ _) rfl rfl ho he hg hd hpend) ?_
  simpa only [World.goto,Function.update_self] using hfit

theorem fits_acking {redis : Streams QueuedJob FailedJob} {k : ℕ} (hle : k ≤ redis.delivered) :
    Fits s redis (.acking k) where
  handed k' hk' := by
    cases hk'
    exact hle
  gone _ hk := by cases hk
  carries _ _ hk := by cases hk

theorem Sound.promoted (h : Sound s) (w : ℕ) {now : ℕ} {order : List (ℕ × QueuedJob)}
    {redis : Streams QueuedJob FailedJob} (hp : s.redis.promoteDue now order = some redis) :
    Sound { s.goto w .claiming with redis := redis } := by
  obtain ⟨added,hbody,hid,hent,hg,hpend,hdel,_,hord⟩ := promoteDue_spec hp
  refine h.evolve (w := w) ⟨fun _ hne => Function.update_of_ne hne _ _,rfl,(hord h.ordered).1,?_,?_,?_,?_⟩ ?_
  · simp only [delivered,hg,Nat.le_refl]
  · intro e he
    simp only [hent] at he
    rcases List.mem_append.mp he with he | he
    · exact .inl he
    · refine .inr ⟨hid e he,.inr (.inl ?_)⟩
      have hmem : e.body ∈ (s.redis.due now).map Prod.snd := hbody.mem_iff.mp (List.mem_map_of_mem he)
      obtain ⟨m,hm,hmb⟩ := List.mem_map.mp hmem
      exact ⟨m,(List.mem_filter.mp hm).1,hmb⟩
  · intro m hm
    simp only [hdel] at hm
    exact .inr (.inl ⟨m,(List.mem_filter.mp hm).1,rfl⟩)
  · intro p hmem
    simp only [hpend] at hmem
    exact .inl ⟨p,hmem,rfl⟩
  · simp only [World.goto,Function.update_self]
    exact fits_without_entry rfl

/-- An entry that was handed out before is handed out again. -/
theorem Sound.claimed (h : Sound s) (w : ℕ) {pending : List Pending} {e : StreamEntry QueuedJob}
    (hpend : ∀ p ∈ pending, ∃ p' ∈ s.redis.pending, p'.id = p.id) (ho : Ordered { s.redis with pending := pending })
    (he : e ∈ s.redis.entries ∧ ∃ p ∈ s.redis.pending, p.id = e.id) :
    Sound (World.receive { s with redis := { s.redis with pending := pending } } w e) := by
  obtain ⟨hmem,p,hp,hid⟩ := he
  refine h.evolve (w := w) (evolves_keys (fun _ hne => receive_workers _ e hne) (receive_pushed _ w e)
    (receive_redis _ w e) ho (fun _ he => he) rfl (fun _ hm => hm) hpend) ?_
  exact fits_receive ⟨e,hmem,rfl⟩ ho hmem (hid ▸ (h.ordered.handed p hp).1)

/-- The first entry that was not handed out is handed out. -/
theorem Sound.read (h : Sound s) (w now : ℕ) {e : StreamEntry QueuedJob} {rest : List (StreamEntry QueuedJob)}
    (hu : s.redis.undelivered = e :: rest) :
    Sound (World.receive { s with
      redis := { s.redis with group := some e.id, pending := s.redis.pending ++ [⟨e.id,now⟩] } } w e) := by
  obtain ⟨hmem,hlt⟩ := mem_undelivered.mp (hu ▸ List.mem_cons_self : e ∈ s.redis.undelivered)
  have hord := h.ordered.read hu now
  refine h.evolve (w := w) ⟨fun _ hne => receive_workers _ e hne,receive_pushed _ w e,?_,?_,?_,?_,?_⟩ ?_
  · rw [receive_redis]
    exact hord
  · rw [receive_redis]
    exact Nat.le_of_lt hlt
  · intro e' he'
    rw [receive_redis] at he'
    exact .inl he'
  · intro m hm
    rw [receive_redis] at hm
    exact .inr (.inl ⟨m,hm,rfl⟩)
  · intro p hp
    rw [receive_redis] at hp
    rcases List.mem_append.mp hp with hp | hp
    · exact .inl ⟨p,hp,rfl⟩
    · rw [List.mem_singleton.mp hp]
      exact .inr hlt
  · exact fits_receive ⟨e,hmem,rfl⟩ hord hmem (Nat.le_refl _)

theorem Sound.stored (h : Sound s) {w : ℕ} {retry : QueuedJob} {delay k : ℕ}
    (hw : s.workers w = .storing retry delay k) :
    Sound { s.goto w (.acking k) with redis := store s.redis retry delay } := by
  have hcopy : Copied s retry := .inr (.inr ⟨w,k,by rw [hw]; rfl⟩)
  have hle : k ≤ s.redis.delivered := h.handed w k (by rw [hw]; rfl)
  unfold store
  split
  · refine h.evolve (w := w) ⟨fun _ hne => Function.update_of_ne hne _ _,rfl,h.ordered.xadd retry,Nat.le_refl _,
      ?_,fun m hm => .inr (.inl ⟨m,hm,rfl⟩),fun p hp => .inl ⟨p,hp,rfl⟩⟩ ?_
    · intro e he
      rcases List.mem_append.mp he with he | he
      · exact .inl he
      · rw [List.mem_singleton.mp he]
        exact .inr ⟨Nat.lt_succ_self _,hcopy⟩
    · simp only [World.goto,Function.update_self]
      exact fits_acking hle
  · refine h.evolve (w := w) ⟨fun _ hne => Function.update_of_ne hne _ _,rfl,h.ordered.zadd _ retry,Nat.le_refl _,
      fun e he => .inl he,?_,fun p hp => .inl ⟨p,hp,rfl⟩⟩ ?_
    · intro m hm
      rcases List.mem_append.mp hm with hm | hm
      · exact .inr (.inl ⟨m,(List.mem_filter.mp hm).1,rfl⟩)
      · rw [List.mem_singleton.mp hm]
        exact hcopy
    · simp only [World.goto,Function.update_self]
      exact fits_acking hle

theorem Sound.acked (h : Sound s) {w k : ℕ} (hw : s.workers w = .acking k) :
    Sound { s.goto w (.deleting k) with redis := s.redis.xack k } := by
  have hle : k ≤ s.redis.delivered := h.handed w k (by rw [hw]; rfl)
  refine h.moves w (h.ordered.xack k) (fun _ he => he) rfl (fun _ hm => hm)
    (fun p hp => ⟨p,(List.mem_filter.mp hp).1,rfl⟩) ⟨?_,?_,fun _ _ hk => by cases hk⟩
  · rintro k' ⟨⟩
    exact hle
  · rintro k' ⟨⟩ p hp
    simpa using (List.mem_filter.mp hp).2

theorem sound_execute (h : Sound s) (w : ℕ) (order : List (ℕ × QueuedJob)) : Sound (q.execute s w order) := by
  unfold execute
  cases hw : s.workers w with
  | idle => simpa only [hw] using h
  | holding job k => simpa only [hw] using h
  | creating =>
    exact h.moves w h.ordered.xgroupCreate (fun _ he => he) rfl (fun _ hm => hm) (fun p hp => ⟨p,hp,rfl⟩)
      (fits_without_entry rfl)
  | promoting now =>
    dsimp only
    cases hp : s.redis.promoteDue (Time.timestampMillis now) order with
    | none => exact h
    | some redis => exact h.promoted w hp
  | claiming =>
    dsimp only
    obtain ⟨found,pending,hc,hids,hord,hfound⟩ := h.ordered.xautoclaimOne s.millis q.minIdle
    have hpend : ∀ p ∈ pending, ∃ p' ∈ s.redis.pending, p'.id = p.id := by
      intro p hp
      exact List.mem_map.mp (hids ▸ List.mem_map_of_mem hp)
    rw [hc]
    cases found with
    | none => exact h.moves w hord (fun _ he => he) rfl (fun _ hm => hm) hpend (fits_without_entry rfl)
    | some e => exact h.claimed w hpend hord (hfound e rfl)
  | reading =>
    dsimp only
    rcases xreadgroupOne_cases s.redis s.millis with ⟨hn,_⟩ | ⟨e,rest,hu,hr⟩
    · rw [hn]
      exact h.moves w h.ordered (fun _ he => he) rfl (fun _ hm => hm) (fun p hp => ⟨p,hp,rfl⟩) (fits_without_entry rfl)
    · rw [hr]
      exact h.read w s.millis hu
  | storing retry delay k => exact h.stored hw
  | recording failed k =>
    have hle : k ≤ s.redis.delivered := h.handed w k (by rw [hw]; rfl)
    exact h.moves w (h.ordered.lpush failed) (fun _ he => he) rfl (fun _ hm => hm) (fun p hp => ⟨p,hp,rfl⟩)
      (fits_acking hle)
  | acking k => exact h.acked hw
  | deleting k =>
    exact h.moves w (h.ordered.xdel (h.gone w k hw)) (fun _ he => (List.mem_filter.mp he).1) rfl (fun _ hm => hm)
      (fun p hp => ⟨p,hp,rfl⟩) (fits_without_entry rfl)

theorem Sound.push (h : Sound s) {job : QueuedJob} (now : ℕ) (hfresh : job.id ∉ s.pushed.map QueuedJob.id) :
    Sound { s with redis := pushed s job now, pushed := s.pushed ++ [job] } := by
  have hredis : Ordered (pushed s job now) ∧ (pushed s job now).delivered = s.redis.delivered ∧
      (pushed s job now).pending = s.redis.pending ∧
      (∀ e ∈ (pushed s job now).entries, e ∈ s.redis.entries ∨ (s.redis.lastId < e.id ∧ e.body = encode job)) ∧
      ∀ m ∈ (pushed s job now).delayed, m ∈ s.redis.delayed ∨ m.2 = encode job := by
    unfold pushed
    split
    · refine ⟨h.ordered.zadd _ _,rfl,rfl,fun e he => .inl he,?_⟩
      intro m hm
      rcases List.mem_append.mp hm with hm | hm
      · exact .inl (List.mem_filter.mp hm).1
      · exact .inr (by rw [List.mem_singleton.mp hm])
    · refine ⟨h.ordered.xadd _,rfl,rfl,?_,fun m hm => .inl hm⟩
      intro e he
      rcases List.mem_append.mp he with he | he
      · exact .inl he
      · rw [List.mem_singleton.mp he]
        exact .inr ⟨Nat.lt_succ_self _,rfl⟩
  obtain ⟨hord,hdel,hpend,hent,hwait⟩ := hredis
  refine ⟨hord,?_,?_,?_,?_,?_⟩
  · rw [List.map_append,List.nodup_append]
    refine ⟨h.ids,by simp,?_⟩
    rintro id hid _ hnew rfl
    rw [List.map_singleton,List.mem_singleton] at hnew
    exact hfresh (hnew ▸ hid)
  · intro w k hk
    exact hdel ▸ h.handed w k hk
  · intro w k hk
    exact hpend ▸ h.gone w k hk
  · intro body hb
    have hold : Copied s body → ∃ j ∈ s.pushed ++ [job], j.id = body.id ∧ j.payload = body.payload := by
      intro hc
      obtain ⟨j,hj,hm⟩ := h.copies body hc
      exact ⟨j,List.mem_append_left _ hj,hm⟩
    have hnew : encode job = body → ∃ j ∈ s.pushed ++ [job], j.id = body.id ∧ j.payload = body.payload := by
      rintro rfl
      exact ⟨job,List.mem_append_right _ List.mem_cons_self,rfl,rfl⟩
    rcases hb with ⟨e,he,rfl⟩ | ⟨m,hm,rfl⟩ | ⟨w,k,hk⟩
    · rcases hent e he with he | ⟨_,he⟩
      · exact hold (.inl ⟨e,he,rfl⟩)
      · exact hnew he.symm
    · rcases hwait m hm with hm | hm
      · exact hold (.inr (.inl ⟨m,hm,rfl⟩))
      · exact hnew hm.symm
    · exact hold (.inr (.inr ⟨w,k,hk⟩))
  · intro w job' k hk e he hid
    rcases hent e he with he | ⟨hlt,_⟩
    · exact h.carried w job' k hk e he hid
    · have hle : k ≤ s.redis.delivered := h.handed w k (entry_of_carries hk)
      have := h.ordered.delivered
      omega

theorem sound_step (h : Sound s) (a : Label) : Sound (q.step s a) := by
  cases a with
  | tick elapsed => exact ⟨h.ordered,h.ids,h.handed,h.gone,h.copies,h.carried⟩
  | push job now =>
    simp only [step]
    split
    next hnew => exact h.push _ hnew.2.1
    · exact h
  | execute w order => exact sound_execute h w order
  | die w =>
    simp only [step]
    refine h.evolve (w := w) (h.evolves_goto w .idle) ?_
    simp only [World.goto,Function.update_self]
    exact fits_without_entry rfl
  | reserve w =>
    simp only [step]
    split
    · refine h.evolve (w := w) (h.evolves_goto w .creating) ?_
      simp only [World.goto,Function.update_self]
      exact fits_without_entry rfl
    · exact h
  | acknowledge w =>
    simp only [step]
    split
    next job k hw =>
      refine h.evolve (w := w) (evolves_keys (fun _ hne => Function.update_of_ne hne _ _) rfl rfl h.ordered
        (fun _ he => he) rfl (fun _ hm => hm) (fun p hp => ⟨p,hp,rfl⟩)) ?_
      simp only [World.goto,Function.update_self]
      have hcarries : (s.workers w).carries = some (job,k) := by rw [hw]; rfl
      exact h.fits_goto hcarries rfl (fun _ hk => (by cases hk))
        (fun _ _ hk => by cases hk)
    · exact h
  | release w delay =>
    simp only [step]
    split
    next job k hw =>
      refine h.evolve (w := w) (h.evolves_goto w _) ?_
      simp only [World.goto,Function.update_self]
      have hcarries : (s.workers w).carries = some (job,k) := by rw [hw]; rfl
      exact h.fits_goto hcarries rfl (fun _ hk => (by cases hk))
        (fun _ _ hk => by cases hk; exact ⟨rfl,rfl,rfl⟩)
    · exact h
  | fail w error =>
    simp only [step]
    split
    next job k hw =>
      refine h.evolve (w := w) (h.evolves_goto w _) ?_
      simp only [World.goto,Function.update_self]
      have hcarries : (s.workers w).carries = some (job,k) := by rw [hw]; rfl
      exact h.fits_goto hcarries rfl (fun _ hk => (by cases hk))
        (fun _ _ hk => by cases hk; exact ⟨rfl,rfl,rfl⟩)
    · exact h

/-! ## Secure copies -/

/-- An entry that can be handed out and that no call is about to give up. -/
structure Kept (s : World) (e : StreamEntry QueuedJob) : Prop where
  stored : e ∈ s.redis.entries
  deliverable : Deliverable s.redis e
  undropped : ∀ w, (s.workers w).drops ≠ some e.id

def Secure (s : World) (id : String) : Prop :=
  (∃ m ∈ s.redis.delayed, m.2.id = id) ∨ (∃ f ∈ s.redis.failed, f.job.id = id) ∨ ∃ e, Kept s e ∧ e.body.id = id

def Secured (s : World) : Prop :=
  ∀ job ∈ s.pushed, readable job = true → job.id ∉ s.acknowledging → Secure s job.id

variable {id : String}

theorem Secure.mono (h : Secure s id) (hfailed : ∀ f ∈ s.redis.failed, f ∈ s'.redis.failed)
    (hdelayed : ∀ m ∈ s.redis.delayed, m.2.id = id → Secure s' id)
    (hentry : ∀ e, Kept s e → e.body.id = id → Kept s' e) : Secure s' id := by
  rcases h with ⟨m,hm,hid⟩ | ⟨f,hf,hid⟩ | ⟨e,he,hid⟩
  · exact hdelayed m hm hid
  · exact .inr (.inl ⟨f,hfailed f hf,hid⟩)
  · exact .inr (.inr ⟨e,hentry e he hid,hid⟩)

theorem entry_of_drops {phase : Phase} {k : ℕ} (h : phase.drops = some k) : phase.entry = some k := by
  cases phase <;> simp_all [Phase.drops,Phase.entry]

/-- An entry just added is kept. -/
theorem Sound.kept_fresh (h : Sound s) {e : StreamEntry QueuedJob} (he : e ∈ s.redis.entries)
    (hlt : s.redis.delivered < e.id) : Kept s e where
  stored := he
  deliverable := .inl hlt
  undropped w hd := by
    have := h.handed w _ (entry_of_drops hd)
    omega

/-- What a step by `w` drops that was not dropped before. -/
theorem Kept.mono {e : StreamEntry QueuedJob} (h : Kept s e) (hw : ∀ w', w' ≠ w → s'.workers w' = s.workers w')
    (he : e ∈ s'.redis.entries) (hd : Deliverable s'.redis e) (hdrop : (s'.workers w).drops ≠ some e.id) :
    Kept s' e where
  stored := he
  deliverable := hd
  undropped w' := by
    by_cases hsame : w' = w
    · exact hsame ▸ hdrop
    · rw [hw w' hsame]
      exact h.undropped w'

/-- A step that leaves the keys alone and drops nothing. -/
theorem Secure.goto {phase : Phase} (h : Secure s id) (hdrop : phase.drops = none) :
    Secure (s.goto w phase) id := by
  refine h.mono (fun _ hf => hf) (fun m hm hid => .inl ⟨m,hm,hid⟩) ?_
  intro e he _
  refine he.mono (w := w) (fun _ hne => Function.update_of_ne hne _ _) he.stored he.deliverable ?_
  simp [World.goto,hdrop]

/-- An entry of a job that can be read is not discarded. -/
theorem Sound.receive_drops (h : Sound s) {job : QueuedJob} (hjob : job ∈ s.pushed) (hr : readable job = true)
    {e e₀ : StreamEntry QueuedJob} (he : e ∈ s.redis.entries) (he₀ : e₀ ∈ s.redis.entries) (hid : e.body.id = job.id) :
    ((World.receive s' w e₀).workers w).drops ≠ some e.id := by
  unfold World.receive
  cases hd : decode e₀.body with
  | some job' => simp [World.goto,Phase.drops]
  | none =>
    simp only [World.goto,Function.update_self,Phase.drops,ne_eq,Option.some.injEq]
    intro heq
    have hsame : e₀ = e := h.ordered.eq_of_id he₀ he heq
    obtain ⟨job',hjob',hid',hpay⟩ := h.copies e.body (.inl ⟨e,he,rfl⟩)
    have : job' = job := List.inj_on_of_nodup_map h.ids hjob' hjob (hid'.trans hid)
    have hread : readable e.body = true := by
      unfold readable at hr ⊢
      rw [← hpay,this]
      exact hr
    simp [decode,hsame,hread] at hd

/-- A step by `w` that forgets no failure and no delayed job, and keeps every entry of a readable job. -/
theorem Secured.keeps (h : Secured s) (w : ℕ) (hpushed : s'.pushed = s.pushed)
    (hack : s'.acknowledging = s.acknowledging) (hw : ∀ w', w' ≠ w → s'.workers w' = s.workers w')
    (hfailed : ∀ f ∈ s.redis.failed, f ∈ s'.redis.failed) (hdelayed : ∀ m ∈ s.redis.delayed, m ∈ s'.redis.delayed)
    (hentry : ∀ job ∈ s.pushed, readable job = true → ∀ e, Kept s e → e.body.id = job.id →
      e ∈ s'.redis.entries ∧ Deliverable s'.redis e ∧ (s'.workers w).drops ≠ some e.id) : Secured s' := by
  intro job hjob hr hnot
  rw [hpushed] at hjob
  rw [hack] at hnot
  refine (h job hjob hr hnot).mono hfailed (fun m hm hid => .inl ⟨m,hdelayed m hm,hid⟩) ?_
  intro e he hid
  obtain ⟨hmem,hdel,hdrop⟩ := hentry job hjob hr e he hid
  exact he.mono hw hmem hdel hdrop

/-- The command only changed the keys, and the worker goes on to a phase that gives nothing up. -/
theorem Secured.moves (h : Secured s) (w : ℕ) {phase : Phase} {redis : Streams QueuedJob FailedJob}
    (hdrop : phase.drops = none) (hfailed : ∀ f ∈ s.redis.failed, f ∈ redis.failed)
    (hdelayed : ∀ m ∈ s.redis.delayed, m ∈ redis.delayed)
    (hentry : ∀ e ∈ s.redis.entries, Deliverable s.redis e → e ∈ redis.entries ∧ Deliverable redis e) :
    Secured { s.goto w phase with redis := redis } := by
  refine h.keeps w rfl rfl (fun _ hne => Function.update_of_ne hne _ _) hfailed hdelayed ?_
  intro job _ _ e he _
  obtain ⟨hmem,hdel⟩ := hentry e he.stored he.deliverable
  exact ⟨hmem,hdel,by simp [World.goto,hdrop]⟩

/-- What was due is on the stream now. -/
theorem Secured.promoted (h : Secured s) (hs : Sound s) (w : ℕ) {now : ℕ} {order : List (ℕ × QueuedJob)}
    {redis : Streams QueuedJob FailedJob} (hp : s.redis.promoteDue now order = some redis) :
    Secured { s.goto w .claiming with redis := redis } := by
  obtain ⟨added,hbody,hid,hent,hg,hpend,hdel,hfail,_⟩ := promoteDue_spec hp
  have hsound := hs.promoted w hp
  intro job hjob hr hack
  refine (h job hjob hr hack).mono (fun _ hf => hfail ▸ hf) ?_ ?_
  · intro m hm hmid
    by_cases hdue : m.1 ≤ now
    · have hmem : m.2 ∈ added.map StreamEntry.body :=
        hbody.mem_iff.mpr (List.mem_map_of_mem (List.mem_filter.mpr ⟨hm,by simpa using hdue⟩))
      obtain ⟨e,he,heb⟩ := List.mem_map.mp hmem
      refine .inr (.inr ⟨e,hsound.kept_fresh (hent ▸ List.mem_append_right _ he) ?_,heb ▸ hmid⟩)
      have := hs.ordered.delivered
      have := hid e he
      simp only [delivered,hg] at *
      omega
    · refine .inl ⟨m,?_,hmid⟩
      rw [hdel]
      exact List.mem_filter.mpr ⟨hm,by simpa using hdue⟩
  · intro e he _
    refine he.mono (w := w) (fun _ hne => Function.update_of_ne hne _ _) (hent ▸ List.mem_append_left _ he.stored) ?_ ?_
    · have := he.deliverable
      simp only [Deliverable,delivered,hg,hpend] at *
      exact this
    · simp [World.goto,Phase.drops]

/-- A reservation hands out `e₀`, which is not one of the entries a readable job is lost with. -/
theorem Secured.received (h : Secured s) (hs : Sound s) (w : ℕ) {redis : Streams QueuedJob FailedJob}
    {e₀ : StreamEntry QueuedJob} (he₀ : e₀ ∈ s.redis.entries) (hfailed : redis.failed = s.redis.failed)
    (hdelayed : redis.delayed = s.redis.delayed) (hentries : redis.entries = s.redis.entries)
    (hdel : ∀ e ∈ s.redis.entries, Deliverable s.redis e → Deliverable redis e) :
    Secured (World.receive { s with redis := redis } w e₀) := by
  refine h.keeps w (receive_pushed _ w e₀) (receive_acknowledging _ w e₀)
    (fun _ hne => receive_workers _ e₀ hne) ?_ ?_ ?_
  · intro f hf
    rwa [receive_redis,hfailed]
  · intro m hm
    rwa [receive_redis,hdelayed]
  · intro job hjob hr e he hid
    rw [receive_redis]
    exact ⟨hentries ▸ he.stored,hdel e he.stored he.deliverable,hs.receive_drops hjob hr he.stored he₀ hid⟩

/-- The retry is stored before its old entry is given up. -/
theorem Secured.stored (h : Secured s) (hs : Sound s) {w : ℕ} {retry : QueuedJob} {delay k : ℕ}
    (hw : s.workers w = .storing retry delay k) :
    Secured { s.goto w (.acking k) with redis := store s.redis retry delay } := by
  have hsound := hs.stored hw
  intro job hjob hr hack
  by_cases hid : retry.id = job.id
  · unfold store at hsound ⊢
    split at hsound
    next hz =>
      rw [if_pos hz]
      refine .inr (.inr ⟨⟨s.redis.lastId + 1,retry⟩,hsound.kept_fresh ?_ ?_,hid⟩)
      · exact List.mem_append_right _ List.mem_cons_self
      · exact Nat.lt_succ_of_le hs.ordered.delivered
    next hz =>
      rw [if_neg hz]
      exact .inl ⟨_,List.mem_append_right _ List.mem_cons_self,hid⟩
  · have hcarried := hs.carried w retry k (by rw [hw]; rfl)
    have hstore : (∀ e, Deliverable s.redis e → Deliverable (store s.redis retry delay) e) ∧
        (∀ e ∈ s.redis.entries, e ∈ (store s.redis retry delay).entries) ∧
        (∀ m ∈ s.redis.delayed, m.2.id = job.id → m ∈ (store s.redis retry delay).delayed) ∧
        (store s.redis retry delay).failed = s.redis.failed := by
      unfold store
      split
      · exact ⟨fun _ hd => hd,fun _ he => List.mem_append_left _ he,fun _ hm _ => hm,rfl⟩
      · refine ⟨fun _ hd => hd,fun _ he => he,?_,rfl⟩
        intro m hm hmid
        refine List.mem_append_left _ (List.mem_filter.mpr ⟨hm,?_⟩)
        have : m.2 ≠ retry := by
          rintro he
          exact hid (he ▸ hmid)
        simpa using this
    obtain ⟨hdel,hent,hwait,hfail⟩ := hstore
    refine (h job hjob hr hack).mono (fun _ hf => hfail ▸ hf) (fun m hm hmid => .inl ⟨m,hwait m hm hmid,hmid⟩) ?_
    intro e he heid
    refine he.mono (w := w) (fun _ hne => Function.update_of_ne hne _ _) (hent e he.stored) (hdel e he.deliverable) ?_
    simp only [World.goto,Function.update_self,Phase.drops,ne_eq,Option.some.injEq]
    intro hk
    exact hid ((hcarried e he.stored hk.symm).symm.trans heid)

/-- The failure is recorded before the entry is given up. -/
theorem Secured.recorded (h : Secured s) (hs : Sound s) {w : ℕ} {failed : FailedJob} {k : ℕ}
    (hw : s.workers w = .recording failed k) :
    Secured { s.goto w (.acking k) with redis := s.redis.lpush failed } := by
  intro job hjob hr hack
  by_cases hid : failed.job.id = job.id
  · exact .inr (.inl ⟨failed,List.mem_cons_self,hid⟩)
  · refine (h job hjob hr hack).mono (fun _ hf => List.mem_cons_of_mem _ hf) (fun m hm hid => .inl ⟨m,hm,hid⟩) ?_
    intro e he heid
    refine he.mono (w := w) (fun _ hne => Function.update_of_ne hne _ _) he.stored he.deliverable ?_
    simp only [World.goto,Function.update_self,Phase.drops,ne_eq,Option.some.injEq]
    intro hk
    have := hs.carried w failed.job k (by rw [hw]; rfl) e he.stored hk.symm
    exact hid (this.symm.trans heid)

theorem Kept.ne_dropped {e : StreamEntry QueuedJob} {k : ℕ} (h : Kept s e) (hw : (s.workers w).drops = some k) :
    e.id ≠ k := by
  rintro rfl
  exact h.undropped w hw

theorem Secured.acked (h : Secured s) {w k : ℕ} (hw : s.workers w = .acking k) :
    Secured { s.goto w (.deleting k) with redis := s.redis.xack k } := by
  refine h.keeps w rfl rfl (fun _ hne => Function.update_of_ne hne _ _) (fun _ hf => hf) (fun _ hm => hm) ?_
  intro job _ _ e he _
  have hne : e.id ≠ k := he.ne_dropped (by rw [hw]; rfl)
  refine ⟨he.stored,?_,by simpa [World.goto,Phase.drops] using Ne.symm hne⟩
  rcases he.deliverable with hlt | ⟨p,hp,hpid⟩
  · exact .inl hlt
  · exact .inr ⟨p,List.mem_filter.mpr ⟨hp,by simpa [hpid] using hne⟩,hpid⟩

theorem Secured.deleted (h : Secured s) {w k : ℕ} (hw : s.workers w = .deleting k) :
    Secured { s.goto w .idle with redis := s.redis.xdel k } := by
  refine h.keeps w rfl rfl (fun _ hne => Function.update_of_ne hne _ _) (fun _ hf => hf) (fun _ hm => hm) ?_
  intro job _ _ e he _
  have hne : e.id ≠ k := he.ne_dropped (by rw [hw]; rfl)
  exact ⟨List.mem_filter.mpr ⟨he.stored,by simpa using hne⟩,he.deliverable,by simp [World.goto,Phase.drops]⟩

theorem secured_execute (hs : Sound s) (h : Secured s) (w : ℕ) (order : List (ℕ × QueuedJob)) :
    Secured (q.execute s w order) := by
  unfold execute
  cases hw : s.workers w with
  | idle => simpa only [hw] using h
  | holding job k => simpa only [hw] using h
  | creating => exact h.moves w rfl (fun _ hf => hf) (fun _ hm => hm) (fun _ he hd => ⟨he,hd⟩)
  | promoting now =>
    dsimp only
    cases hp : s.redis.promoteDue (Time.timestampMillis now) order with
    | none => exact h
    | some redis => exact h.promoted hs w hp
  | claiming =>
    dsimp only
    obtain ⟨found,pending,hc,hids,_,hfound⟩ := hs.ordered.xautoclaimOne s.millis q.minIdle
    have hkeep : ∀ e, Deliverable s.redis e → Deliverable { s.redis with pending := pending } e := by
      rintro e (hlt | ⟨p,hp,hid⟩)
      · exact .inl hlt
      · exact .inr (List.mem_map.mp (hids ▸ hid ▸ List.mem_map_of_mem hp))
    rw [hc]
    cases found with
    | none => exact h.moves w rfl (fun _ hf => hf) (fun _ hm => hm) (fun e he hd => ⟨he,hkeep e hd⟩)
    | some e₀ => exact h.received hs w (hfound e₀ rfl).1 rfl rfl rfl (fun e _ hd => hkeep e hd)
  | reading =>
    dsimp only
    rcases xreadgroupOne_cases s.redis s.millis with ⟨hn,_⟩ | ⟨e₀,rest,hu,hread⟩
    · rw [hn]
      exact h.moves w rfl (fun _ hf => hf) (fun _ hm => hm) (fun _ he hd => ⟨he,hd⟩)
    · rw [hread]
      obtain ⟨hmem,_⟩ := mem_undelivered.mp (hu ▸ List.mem_cons_self : e₀ ∈ s.redis.undelivered)
      refine h.received hs w hmem rfl rfl rfl ?_
      rintro e he (hlt | ⟨p,hp,hpid⟩)
      · rcases hs.ordered.head_undelivered hu he hlt with rfl | hlater
        · exact .inr ⟨_,List.mem_append_right _ List.mem_cons_self,rfl⟩
        · exact .inl hlater
      · exact .inr ⟨p,List.mem_append_left _ hp,hpid⟩
  | storing retry delay k => exact h.stored hs hw
  | recording failed k => exact h.recorded hs hw
  | acking k => exact h.acked hw
  | deleting k => exact h.deleted hw

theorem secured_push (hs : Sound s) (h : Secured s) {job : QueuedJob} {now : ℕ}
    (hfresh : job.id ∉ s.pushed.map QueuedJob.id) :
    Secured { s with redis := pushed s job now, pushed := s.pushed ++ [job] } := by
  have hsound := hs.push now hfresh
  intro job' hjob' hr hack
  rcases List.mem_append.mp hjob' with hold | hnew
  · have hne : job'.id ≠ job.id := fun he => hfresh (he ▸ List.mem_map_of_mem hold)
    have hkeys : (∀ e, Deliverable s.redis e → Deliverable (pushed s job now) e) ∧
        (∀ e ∈ s.redis.entries, e ∈ (pushed s job now).entries) ∧
        (∀ m ∈ s.redis.delayed, m.2.id = job'.id → m ∈ (pushed s job now).delayed) ∧
        (pushed s job now).failed = s.redis.failed := by
      unfold pushed
      split
      · refine ⟨fun _ hd => hd,fun _ he => he,?_,rfl⟩
        intro m hm hmid
        refine List.mem_append_left _ (List.mem_filter.mpr ⟨hm,?_⟩)
        have : m.2 ≠ encode job := by
          intro he
          rw [he] at hmid
          exact hne hmid.symm
        simpa using this
      · exact ⟨fun _ hd => hd,fun _ he => List.mem_append_left _ he,fun _ hm _ => hm,rfl⟩
    obtain ⟨hdel,hent,hwait,hfail⟩ := hkeys
    refine (h job' hold hr hack).mono (fun _ hf => hfail ▸ hf) (fun m hm hmid => .inl ⟨m,hwait m hm hmid,hmid⟩) ?_
    intro e he _
    exact ⟨hent e he.stored,hdel e he.deliverable,he.undropped⟩
  · rw [List.mem_singleton.mp hnew]
    unfold pushed at hsound ⊢
    split at hsound
    next hz =>
      rw [if_pos hz]
      exact .inl ⟨_,List.mem_append_right _ List.mem_cons_self,rfl⟩
    next hz =>
      rw [if_neg hz]
      refine .inr (.inr ⟨⟨s.redis.lastId + 1,encode job⟩,hsound.kept_fresh ?_ ?_,rfl⟩)
      · exact List.mem_append_right _ List.mem_cons_self
      · exact Nat.lt_succ_of_le hs.ordered.delivered

theorem secured_step (hs : Sound s) (h : Secured s) (a : Label) : Secured (q.step s a) := by
  cases a with
  | tick elapsed =>
    intro job hjob hr hack
    exact (h job hjob hr hack).mono (fun _ hf => hf) (fun m hm hid => .inl ⟨m,hm,hid⟩)
      (fun e he _ => ⟨he.stored,he.deliverable,he.undropped⟩)
  | push job now =>
    simp only [step]
    split
    next hnew => exact secured_push hs h hnew.2.1
    · exact h
  | execute w order => exact secured_execute hs h w order
  | die w => exact fun job hjob hr hack => (h job hjob hr hack).goto rfl
  | acknowledge w =>
    simp only [step]
    split
    next held k hw =>
      intro job hjob hr hack
      have hne : job.id ≠ held.id := by
        intro he
        exact hack (List.mem_append_right _ (by simp [he]))
      refine (h job hjob hr (fun hm => hack (List.mem_append_left _ hm))).mono (fun _ hf => hf)
        (fun m hm hid => .inl ⟨m,hm,hid⟩) ?_
      intro e he heid
      refine he.mono (w := w) (fun _ hne => Function.update_of_ne hne _ _) he.stored he.deliverable ?_
      simp only [World.goto,Function.update_self,Phase.drops,ne_eq,Option.some.injEq]
      intro hk
      have := hs.carried w held k (by rw [hw]; rfl) e he.stored hk.symm
      exact hne (heid.symm.trans this)
    · exact h
  | reserve w | release w delay | fail w error =>
    simp only [step]
    split
    · exact fun job hjob hr hack => (h job hjob hr hack).goto rfl
    · exact h

end Rainier.Queue.RedisQueue
