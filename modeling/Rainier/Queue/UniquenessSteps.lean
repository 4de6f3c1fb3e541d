import Rainier.Queue.Uniqueness

/-! # One call, and what it does to locks and keys

Each call of a dispatcher or a worker is taken apart once into the few things it
can do to the cache and the stores. From that follow, for every call, that it
keeps the stores in order and the exact condition under which the locks still
agree with the keys.
-/
namespace Rainier.Queue.Uniqueness
open Cache
namespace System
variable {ι : Type} [DecidableEq ι] {σ : ι → Type} {w : System ι σ} {s s' : World σ}

/-! ## A dispatch -/

theorem configured (now : ℕ) (settings : List Setting) (p : PendingDispatch) :
    (settings.foldl (configure now) p).unique = p.unique ∧
      (settings.foldl (configure now) p).job.id = p.job.id ∧
      (settings.foldl (configure now) p).job.uniqueKey = p.job.uniqueKey := by
  induction settings generalizing p with
  | nil => exact ⟨rfl,rfl,rfl⟩
  | cons first rest ih =>
    obtain ⟨hunique,hid,hkey⟩ := ih (configure now p first)
    cases first <;> exact ⟨hunique,hid,hkey⟩

theorem pending_ok {now : ℕ} {d : Dispatch} {p : PendingDispatch} (h : d.pending now = .ok p) :
    p.job.id = d.id ∧ p.job.uniqueKey = none := by
  unfold Dispatch.pending QueueManager.pending QueuedJob.fromJob at h
  cases hpay : d.job.payload with
  | error e =>
    rw [hpay] at h
    cases h
  | ok payload =>
    rw [hpay] at h
    simp only [Except.map,Except.ok.injEq] at h
    subst h
    exact ⟨(configured now _ _).2.1,(configured now _ _).2.2⟩

section Push
variable (w) (now : ℕ) (a : Attempt) (b : Backends σ) (destination : Destination ι) (job : QueuedJob)

def pushed : Backends σ :=
  (w.manager.pushTo (fun i => (w.drivers i).toQueueDriver) now a b destination job).2

variable {w now a b destination job}

theorem pushed_cache : (w.pushed now a b destination job).cache = b.cache := by
  unfold pushed QueueManager.pushTo
  split
  · rfl
  · cases destination <;> rfl

variable (w now a b destination job)

theorem pushed_contents :
    w.contents (w.pushed now a b destination job).stores = w.contents b.stores ∨
    ∃ i, w.manager.faking = false ∧ destination = .store i ∧
      w.contents (w.pushed now a b destination job).stores =
        Function.update (w.contents b.stores) i ((w.contents b.stores i).added job) := by
  unfold pushed QueueManager.pushTo
  cases hf : w.manager.faking with
  | true => exact .inl rfl
  | false =>
    cases destination with
    | sync q => exact .inl rfl
    | store i =>
      simp only [Bool.false_eq_true,↓reduceIte,contents_update]
      rcases (w.drivers i).push_stored (b.stores i) now job with h | ⟨_,h⟩
      · exact .inr ⟨i,trivial,rfl,by rw [h]; rfl⟩
      · left
        rw [h]
        exact Function.update_eq_self i (w.contents b.stores)

theorem pushed_store (i : ι) (hf : w.manager.faking = false) :
    w.contents (w.pushed now a b (.store i) job).stores i =
      (w.drivers i).Stored ((w.drivers i).push (b.stores i) now job).2 := by
  simp [pushed,QueueManager.pushTo,hf,contents_update]

variable {w now a b destination job}

theorem pushed_consistent {held : ι → List QueuedJob} (h : ∀ i, (w.drivers i).Consistent (b.stores i) (held i))
    (hstored : ∀ i key, ¬ w.contents b.stores i job.id key) (hheld : ∀ i, ∀ other ∈ held i, other.id ≠ job.id)
    (j : ι) : (w.drivers j).Consistent ((w.pushed now a b destination job).stores j) (held j) := by
  unfold pushed QueueManager.pushTo
  split
  · exact h j
  · cases destination with
    | sync q => exact h j
    | store i =>
      have hi := (w.drivers i).push_consistent now (h i) (hstored i) (hheld i)
      have := consistent_update h hi j
      rwa [Function.update_eq_self] at this

end Push

omit [DecidableEq ι] in
theorem settleGuard_backends (guard : LockGuard) (result : Except (Option String) (Except Error String))
    (b : Backends σ) : { b with cache := QueueManager.settleGuard guard result b.cache } = b := by
  have : QueueManager.settleGuard guard result b.cache = b.cache := by
    unfold QueueManager.settleGuard
    split <;> rfl
  rw [this]

/-- The backends once the dispatch has its lock. -/
def locking (w : System ι σ) (s : World σ) (d : Dispatch) (key : String) (ttl : ℕ) : Backends σ :=
  { s.toBackends with
    cache := s.cache.insert (w.locks.lock key ttl).key ⟨d.owner,MemoryCache.expiry s.clock (some ttl)⟩ }

/-- A dispatch changes nothing, or pushes a job without a key, or takes its lock and
pushes a job with the key. -/
theorem sent_cases (hu : Unexpired s.clock s.cache) {d : Dispatch} {p : PendingDispatch}
    (hfresh : d.id ∉ s.dispatched) (hp : d.pending s.clock = .ok p) :
    ((w.sent s d p).2 = s.toBackends ∧ ∀ destination job key, ¬ w.Takes s d destination job key) ∨
    (∃ destination, (w.sent s d p).2 = w.pushed s.clock d.attempt s.toBackends destination p.job ∧
      ∀ destination job key, ¬ w.Takes s d destination job key) ∨
    ∃ destination key ttl, w.Takes s d destination { p.job with uniqueKey := some key } key ∧
      (∀ destination' job key', w.Takes s d destination' job key' → destination' = destination ∧
        job = { p.job with uniqueKey := some key } ∧ key' = key) ∧
      (w.sent s d p).2 = w.pushed s.clock d.attempt (w.locking s d key ttl) destination
        { p.job with uniqueKey := some key } := by
  have hroute : ∀ destination job key, w.Takes s d destination job key →
      w.manager.resolve p.connection = .ok destination ∧ (∃ ttl, p.unique = some (key,ttl)) ∧
        job = { p.job with uniqueKey := some key } := by
    intro destination job key ht
    obtain ⟨p',ttl,hp',hr,hun,hjob⟩ := ht.routed
    rw [hp,Except.ok.injEq] at hp'
    subst hp'
    exact ⟨hr,⟨ttl,hun⟩,hjob⟩
  unfold sent PendingDispatch.send
  cases hr : w.manager.resolve p.connection with
  | error e =>
    refine .inl ⟨rfl,?_⟩
    intro destination job key ht
    have := (hroute destination job key ht).1
    rw [hr] at this
    cases this
  | ok destination =>
    cases hun : p.unique with
    | none =>
      refine .inr (.inl ⟨destination,rfl,?_⟩)
      intro destination' job key ht
      obtain ⟨_,⟨ttl,hk⟩,_⟩ := hroute destination' job key ht
      rw [hun] at hk
      cases hk
    | some unique =>
      obtain ⟨key,ttl⟩ := unique
      have honly : ∀ destination' job key', w.Takes s d destination' job key' → destination' = destination ∧
          job = { p.job with uniqueKey := some key } ∧ key' = key := by
        intro destination' job key' ht
        obtain ⟨hd,⟨ttl',hk⟩,hj⟩ := hroute destination' job key' ht
        rw [hr,Except.ok.injEq] at hd
        rw [hun,Option.some.injEq,Prod.mk.injEq] at hk
        obtain ⟨rfl,rfl⟩ := hk
        exact ⟨hd.symm,hj,rfl⟩
      simp only [QueueManager.claim,w.wired]
      by_cases hl : w.Locked s key
      · refine .inl ⟨?_,?_⟩
        · rw [hu.acquire_none (l := w.locks.lock key ttl) ((locked_iff hu).mp hl)]
        · intro destination' job key' ht
          obtain ⟨_,_,rfl⟩ := honly destination' job key' ht
          exact ht.free hl
      · have hfree : s.cache (w.locks.lock key ttl).key = none := not_not.mp (fun h => hl ((locked_iff hu).mpr h))
        refine .inr (.inr ⟨destination,key,ttl,⟨hfresh,hl,p,ttl,hp,hr,hun,rfl⟩,honly,?_⟩)
        rw [acquire_some d.owner hfree]
        exact settleGuard_backends _ _ _

/-- The state a dispatch leaves. -/
def afterSend (w : System ι σ) (s : World σ) (d : Dispatch) (p : PendingDispatch) : World σ :=
  { s with toBackends := (w.sent s d p).2, dispatched := s.dispatched ++ [d.id] }

omit [DecidableEq ι] in
theorem Sound.unknown (h : w.Sound s) {id : String} (hid : id ∉ s.dispatched) (i : ι) (key : Option String) :
    ¬ w.contents s.stores i id key := fun hs => hid (h.orderly.known hs)

section Taking
variable {d : Dispatch} {destination : Destination ι} {job : QueuedJob} {key : String} {ttl : ℕ}

omit [DecidableEq ι] in
theorem locked_locking (hu : Unexpired s.clock s.cache) (hu' : Unexpired s'.clock s'.cache)
    (hcache : s'.cache = (w.locking s d key ttl).cache) (key' : String) :
    w.Locked s' key' ↔ w.Locked s key' ∨ key' = key := by
  rw [locked_iff hu',locked_iff hu,hcache]
  by_cases hk : key' = key
  · subst hk
    simp [locking,LockManager.lock]
  · have hne : (w.locks.lock key' 0).key ≠ (w.locks.lock key ttl).key := fun h => hk (LockManager.lock_key_inj h)
    simp [locking,MemoryCache.insert_other hne,hk]

/-- With its lock taken, a dispatch keeps the key with the lock exactly if the job is stored. -/
theorem tracks_taking (h : w.Sound s) (ht : w.Tracks s) (hu : Unexpired s.clock s.cache)
    (hu' : Unexpired s'.clock s'.cache) (hid : job.id ∉ s.dispatched) (hkey : job.uniqueKey = some key)
    (hfree : ¬ w.Locked s key) (hcache : s'.cache = (w.locking s d key ttl).cache)
    (hstores : s'.stores = (w.pushed s.clock d.attempt (w.locking s d key ttl) destination job).stores) :
    w.Tracks s' ↔ w.manager.faking = false ∧ ∃ i, destination = .store i ∧
      (w.drivers i).Stored ((w.drivers i).push (s.stores i) s.clock job).2 job.id (some key) := by
  have hlocked := locked_locking hu hu' hcache
  rcases w.pushed_contents s.clock d.attempt (w.locking s d key ttl) destination job with hc | ⟨i,hf,rfl,hc⟩
  · refine iff_of_false ?_ ?_
    · intro htr
      have hcar := (htr key).mp ((hlocked key).mpr (.inr rfl))
      rw [hstores,hc] at hcar
      exact hfree ((ht key).mpr hcar)
    · rintro ⟨hf,i,rfl,hs⟩
      have hpush := w.pushed_store s.clock d.attempt (w.locking s d key ttl) job i hf
      rw [hc] at hpush
      exact h.unknown hid i (some key) (hpush ▸ hs)
  · refine iff_of_true ?_ ⟨hf,i,rfl,?_⟩
    · intro key'
      rw [hlocked,ht key',hstores,hc,carried_added,hkey,Option.some.injEq,eq_comm (a := key)]
      rfl
    · have hpush := w.pushed_store s.clock d.attempt (w.locking s d key ttl) job i hf
      rw [hc,Function.update_self] at hpush
      have hadded : ((w.contents (w.locking s d key ttl).stores i).added job) job.id (some key) := .inr ⟨rfl,hkey.symm⟩
      exact hpush ▸ hadded

end Taking

theorem tracks_send (h : w.Sound s) (ht : w.Tracks s) (hu : Unexpired s.clock s.cache) {d : Dispatch}
    {p : PendingDispatch} (hfresh : d.id ∉ s.dispatched) (hp : d.pending s.clock = .ok p)
    (hu' : Unexpired (w.afterSend s d p).clock (w.afterSend s d p).cache) :
    w.Tracks (w.afterSend s d p) ↔ w.Fits s (.send d) := by
  obtain ⟨hid,hkey⟩ := pending_ok hp
  rcases sent_cases hu hfresh hp with ⟨he,hnone⟩ | ⟨destination,he,hnone⟩ | ⟨destination,key,ttl,htakes,honly,he⟩
  · refine iff_of_true (ht.congr hu hu' ?_ ?_) (fun _ _ _ htakes => absurd htakes (hnone _ _ _))
    · simp [afterSend,he]
    · simp [afterSend,he]
  · refine iff_of_true (ht.congr hu hu' ?_ ?_) (fun _ _ _ htakes => absurd htakes (hnone _ _ _))
    · simp [afterSend,he,pushed_cache]
    · intro key
      simp only [afterSend,he]
      rcases w.pushed_contents s.clock d.attempt s.toBackends destination p.job with hc | ⟨i,_,_,hc⟩
      · rw [hc]
      · rw [hc,carried_added,hkey]
        simp
  · have hcache : (w.afterSend s d p).cache = (w.locking s d key ttl).cache := by simp [afterSend,he,pushed_cache]
    rw [tracks_taking h ht hu hu' (hid ▸ hfresh) rfl htakes.free hcache (congrArg Backends.stores he)]
    constructor
    · intro hkept destination' job key' htakes'
      obtain ⟨rfl,rfl,rfl⟩ := honly destination' job key' htakes'
      exact hkept
    · intro hfits
      exact hfits _ _ _ htakes

/-- A new job whose key nobody carries may be pushed. -/
theorem sound_pushed (h : w.Sound s) {now : ℕ} {a : Attempt} {b : Backends σ} {destination : Destination ι}
    {job : QueuedJob} (hb : b.stores = s.stores) (hid : job.id ∉ s.dispatched)
    (hkey : ∀ key, job.uniqueKey = some key → ¬ Carried (w.contents s.stores) key)
    (hstores : s'.stores = (w.pushed now a b destination job).stores) (hheld : s'.held = s.held)
    (hids : s'.dispatched = s.dispatched ++ [job.id]) : w.Sound s' where
  orderly := by
    rw [hstores,hids]
    rcases w.pushed_contents now a b destination job with hc | ⟨i,_,_,hc⟩
    · rw [hc,hb]
      exact h.orderly.mono (List.subset_append_left _ _)
    · rw [hc,hb]
      exact h.orderly.added hid hkey
  consistent i := by
    rw [hstores,hheld]
    refine pushed_consistent (fun j => by rw [hb]; exact h.consistent j) ?_ ?_ i
    · intro j key
      rw [hb]
      exact h.unknown hid j key
    · intro j other ho he
      exact hid (he ▸ h.held j other ho)
  held i job hj := by
    rw [hheld] at hj
    rw [hids]
    exact List.mem_append_left _ (h.held i job hj)

theorem sound_send (h : w.Sound s) (ht : w.Tracks s) (hu : Unexpired s.clock s.cache) {d : Dispatch}
    {p : PendingDispatch} (hfresh : d.id ∉ s.dispatched) (hp : d.pending s.clock = .ok p) :
    w.Sound (w.afterSend s d p) := by
  obtain ⟨hid,hkey⟩ := pending_ok hp
  have hids : (w.afterSend s d p).dispatched = s.dispatched ++ [p.job.id] := by rw [hid]; rfl
  rcases sent_cases hu hfresh hp with ⟨he,_⟩ | ⟨destination,he,_⟩ | ⟨destination,key,ttl,htakes,_,he⟩
  · have hstores : (w.afterSend s d p).stores = s.stores := congrArg Backends.stores he
    refine ⟨?_,?_,fun i job hj => List.mem_append_left _ (h.held i job hj)⟩
    · rw [hstores]
      exact h.orderly.mono (List.subset_append_left _ _)
    · rw [hstores]
      exact h.consistent
  · refine sound_pushed h rfl (hid ▸ hfresh) ?_ (congrArg Backends.stores he) rfl hids
    intro key hk
    rw [hkey] at hk
    cases hk
  · have hb : (w.locking s d key ttl).stores = s.stores := rfl
    refine sound_pushed h hb (hid ▸ hfresh) ?_ (congrArg Backends.stores he) rfl hids
    intro key' hk hc
    obtain rfl : key = key' := Option.some.inj hk
    exact htakes.free ((ht key).mpr hc)

/-! ## A worker's turn -/

section Settle
variable {i : ι} {k : ℕ} {job : QueuedJob} {a : Attempt}

/-- A settling call leaves the stores as they were, or removes the job for good. -/
theorem settled_contents (h : w.Sound s) (hk : (s.held i)[k]? = some job) (a : Attempt) :
    (w.contents (Function.update s.stores i (w.settle s i job a).2) = w.contents s.stores ∧
      ((w.settle s i job a).1 = .ok () → (w.settlementOf job a).finishes = true →
        ¬ (w.drivers i).Current (s.stores i) job)) ∨
    ((w.drivers i).Current (s.stores i) job ∧ (w.settlementOf job a).finishes = true ∧
      w.contents (Function.update s.stores i (w.settle s i job a).2) =
        Function.update (w.contents s.stores) i ((w.contents s.stores i).removed job)) := by
  have hheld := List.mem_of_getElem? hk
  have hsame : (w.drivers i).Stored (w.settle s i job a).2 = (w.drivers i).Stored (s.stores i) →
      w.contents (Function.update s.stores i (w.settle s i job a).2) = w.contents s.stores := by
    intro he
    rw [contents_update,he]
    exact Function.update_eq_self i (w.contents s.stores)
  by_cases hcur : (w.drivers i).Current (s.stores i) job
  · cases hf : (w.settlementOf job a).finishes with
    | false =>
      refine .inl ⟨hsame ((w.drivers i).settle_kept s.clock (h.consistent i) hheld hcur hf),?_⟩
      intro _ hf'
      cases hf'
    | true =>
      rcases (w.drivers i).settle_finished s.clock (h.consistent i) hheld hcur hf with he | ⟨⟨e,herr⟩,he⟩
      · refine .inr ⟨hcur,rfl,?_⟩
        rw [contents_update,settle,he]
        rfl
      · refine .inl ⟨hsame he,?_⟩
        intro hok
        rw [settle,herr] at hok
        cases hok
  · exact .inl ⟨hsame ((w.drivers i).settle_stale s.clock _ (h.consistent i) hheld hcur),fun _ _ => hcur⟩

omit [DecidableEq ι] in
/-- A lock is given up by a finishing call that went well, and by nothing else. -/
theorem finished_cases (s : World σ) (i : ι) (job : QueuedJob) (a : Attempt) :
    (w.finished s i job a = s.cache ∧ ∀ key, job.uniqueKey = some key →
      (w.settlementOf job a).finishes = true → ∃ e, (w.settle s i job a).1 = .error e) ∨
    ∃ key, job.uniqueKey = some key ∧ (w.settle s i job a).1 = .ok () ∧ (w.settlementOf job a).finishes = true ∧
      w.finished s i job a = s.cache.remove (w.locks.lock key 0).key := by
  unfold finished
  cases hs : (w.settle s i job a).1 with
  | error e => exact .inl ⟨rfl,fun _ _ _ => ⟨e,rfl⟩⟩
  | ok u =>
    cases hf : (w.settlementOf job a).finishes with
    | false => exact .inl ⟨by simp,fun _ _ hf' => by cases hf'⟩
    | true =>
      cases hk : job.uniqueKey with
      | none => exact .inl ⟨by simp [releaseUniqueness,hk],fun _ hk' => by cases hk'⟩
      | some key =>
        refine .inr ⟨key,rfl,rfl,rfl,?_⟩
        simp [releaseUniqueness,hk,Lock.forceRelease,MemoryCache.forget,LockManager.lock]

omit [DecidableEq ι] in
theorem locked_released (hu : Unexpired s.clock s.cache) (hu' : Unexpired s'.clock s'.cache) {key : String}
    (hcache : s'.cache = s.cache.remove (w.locks.lock key 0).key) (key' : String) :
    w.Locked s' key' ↔ w.Locked s key' ∧ key' ≠ key := by
  rw [locked_iff hu',locked_iff hu,hcache]
  by_cases hk : key' = key
  · subst hk
    simp
  · have hne : (w.locks.lock key' 0).key ≠ (w.locks.lock key 0).key := fun h => hk (LockManager.lock_key_inj h)
    simp [MemoryCache.remove_other hne,hk]

/-- The call did not give the lock up. -/
theorem tracks_unreleased (h : w.Sound s) (ht : w.Tracks s) (hu : Unexpired s.clock s.cache)
    (hu' : Unexpired s'.clock s'.cache) (hk : (s.held i)[k]? = some job) (hcache : s'.cache = s.cache)
    (hstores : s'.stores = Function.update s.stores i (w.settle s i job a).2)
    (herr : ∀ key, job.uniqueKey = some key → (w.settlementOf job a).finishes = true →
      ∃ e, (w.settle s i job a).1 = .error e) :
    w.Tracks s' ↔ w.Fits s (.process i k a) := by
  have hafter : w.contents s'.stores i = (w.drivers i).Stored (w.settle s i job a).2 := by simp [hstores,contents]
  rcases settled_contents h hk a with ⟨hc,_⟩ | ⟨hcur,hf,hc⟩
  · rw [← hstores] at hc
    refine iff_of_true (ht.congr hu hu' hcache (fun key => by rw [hc])) ?_
    intro job' key hk' hkey hf
    obtain rfl : job = job' := Option.some.inj (hk.symm.trans hk')
    obtain ⟨e,he⟩ := herr key hkey hf
    simp only [he]
    intro hcur
    have hstored := (w.drivers i).current_stored hcur
    rw [hkey] at hstored
    rw [← hafter,hc]
    exact hstored
  · rw [← hstores] at hc
    have hstored := (w.drivers i).current_stored hcur
    have hcarried : ∀ key, Carried (w.contents s'.stores) key ↔
        Carried (w.contents s.stores) key ∧ job.uniqueKey ≠ some key := by
      intro key
      rw [hc]
      exact h.orderly.carried_removed hstored
    cases hkey : job.uniqueKey with
    | none =>
      refine iff_of_true (ht.congr hu hu' hcache (fun key => by simp [hcarried key,hkey])) ?_
      intro job' key hk' hkey'
      obtain rfl : job = job' := Option.some.inj (hk.symm.trans hk')
      rw [hkey] at hkey'
      cases hkey'
    | some key =>
      refine iff_of_false ?_ ?_
      · intro htr
        have hlocked : w.Locked s' key := by
          rw [locked_iff hu',hcache,← locked_iff hu,ht key]
          exact ⟨i,job.id,hkey ▸ hstored⟩
        exact ((hcarried key).mp ((htr key).mp hlocked)).2 hkey
      · intro hfits
        obtain ⟨e,he⟩ := herr key hkey hf
        have hstill := hfits job key hk hkey hf
        simp only [he] at hstill
        have hgone := hstill hcur
        rw [← hafter,hc,Function.update_self] at hgone
        exact hgone.2 rfl

theorem tracks_settled (h : w.Sound s) (ht : w.Tracks s) (hu : Unexpired s.clock s.cache)
    (hu' : Unexpired s'.clock s'.cache) (hk : (s.held i)[k]? = some job) (hcache : s'.cache = w.finished s i job a)
    (hstores : s'.stores = Function.update s.stores i (w.settle s i job a).2) :
    w.Tracks s' ↔ w.Fits s (.process i k a) := by
  rcases finished_cases s i job a with ⟨hsame,herr⟩ | ⟨key,hkey,hok,hf,hgone⟩
  · exact tracks_unreleased h ht hu hu' hk (hcache.trans hsame) hstores herr
  have hlocked := locked_released hu hu' (hcache.trans hgone)
  have hfits : w.Fits s (.process i k a) ↔
      (w.drivers i).Current (s.stores i) job ∨ ¬ Carried (w.contents s.stores) key := by
    constructor
    · intro hfits
      simpa only [hok] using hfits job key hk hkey hf
    · intro hor job' key' hk' hkey' _
      obtain rfl : job = job' := Option.some.inj (hk.symm.trans hk')
      obtain rfl : key = key' := Option.some.inj (hkey.symm.trans hkey')
      simpa only [hok] using hor
  rw [hfits]
  rcases settled_contents h hk a with ⟨hc,hstale⟩ | ⟨hcur,_,hc⟩
  · rw [← hstores] at hc
    constructor
    · intro htr
      refine .inr (fun hcar => ?_)
      rw [← hc] at hcar
      exact ((hlocked key).mp ((htr key).mpr hcar)).2 rfl
    · rintro (hcur | hfree)
      · exact absurd hcur (hstale hok hf)
      · intro key'
        rw [hlocked,ht key',hc]
        refine and_iff_left_of_imp (fun hcar he => ?_)
        subst he
        exact hfree hcar
  · rw [← hstores] at hc
    refine iff_of_true ?_ (.inl hcur)
    intro key'
    rw [hlocked,ht key',hc,h.orderly.carried_removed ((w.drivers i).current_stored hcur),hkey,ne_eq,ne_eq,
      Option.some.injEq,eq_comm (a := key)]

theorem sound_settled (h : w.Sound s) (hk : (s.held i)[k]? = some job)
    (hstores : s'.stores = Function.update s.stores i (w.settle s i job a).2)
    (hheld : s'.held = Function.update s.held i ((s.held i).eraseIdx k)) (hids : s'.dispatched = s.dispatched) :
    w.Sound s' where
  orderly := by
    rw [hids,hstores]
    rcases settled_contents h hk a with ⟨hc,_⟩ | ⟨_,_,hc⟩
    · rw [hc]
      exact h.orderly
    · rw [hc]
      exact h.orderly.removed
  consistent j := by
    rw [hstores,hheld]
    exact consistent_update h.consistent ((w.drivers i).settle_consistent s.clock _ (h.consistent i) hk) j
  held := by
    rw [hheld,hids]
    exact held_update h.held (fun other ho => h.held i other (List.mem_of_mem_eraseIdx ho))

end Settle

/-- A worker's turn lets no lock expire. -/
theorem unexpired_process (hu : Unexpired s.clock s.cache) (i : ι) (k : ℕ) (a : Attempt) :
    Unexpired (w.step s (.process i k a)).clock (w.step s (.process i k a)).cache := by
  simp only [step]
  split
  · exact hu
  next job hk =>
    rcases finished_cases (w := w) s i job a with ⟨he,_⟩ | ⟨key,_,_,_,he⟩
    · simpa only [he] using hu
    · simpa only [he] using hu.remove _

theorem contents_reserve (s : World σ) (i : ι) (queue : String) :
    w.contents (w.step s (.reserve i queue)).stores = w.contents s.stores := by
  simp only [step,contents_update,(w.drivers i).reserve_stored]
  exact Function.update_eq_self i (w.contents s.stores)

theorem sound_reserve (h : w.Sound s) (i : ι) (queue : String) : w.Sound (w.step s (.reserve i queue)) where
  orderly := by
    rw [contents_reserve]
    exact h.orderly
  consistent := consistent_update h.consistent ((w.drivers i).reserve_consistent s.clock queue (h.consistent i))
  held := by
    refine held_update h.held ?_
    intro job hj
    rcases List.mem_append.mp hj with hj | hj
    · exact h.held i job hj
    · unfold handedOut at hj
      split at hj
      next got hgot =>
        rw [List.mem_singleton.mp hj]
        exact h.orderly.known ((w.drivers i).reserve_delivers hgot)
      · cases hj

end System
end Rainier.Queue.Uniqueness
