import Rainier.Scheduler.Schedule

/-! # One server for a minute

A claim on a minute is a lease of sixty seconds from the moment it is taken. As long as no machine
comes to a task later than that after it was claimed, the claim stands in its way, and the task
runs once for the minute.
-/
namespace Rainier.Scheduler
open Cache

variable {tasks : List ScheduledTask} {locks : LockManager}

/-- The task under a name that belongs to one server runs once for a minute. -/
def Cluster.OncePerMinute (tasks : List ScheduledTask) (s : Cluster) : Prop :=
  ∀ t ∈ tasks, t.oneServer = true → ∀ minute, s.executions.count (t.name,minute) ≤ 1

/-- A machine is about to claim a minute that was claimed more than a minute ago. -/
def Cluster.late (locks : LockManager) (s : Cluster) : Event → Bool
  | .advance machine condition _ .ok =>
    match s.machines machine with
    | .pass at' (task :: _) => task.oneServer && (!task.conditional || condition) && s.claims.any fun c =>
        c.1 = (task.claimLock locks (minuteOf at')).key && c.2 + Duration.fromSecs 60 ≤ s.clock
    | .idle | .pass _ [] | .claimed _ _ _ | .running _ _ _ => false
  | .advance _ _ _ .failed | .advance _ _ _ .lost | .tick _ | .start _ _ | .crash _ => false

/-! ## Keys -/

theorem claimLock_ne_overlapLock (t t' : ScheduledTask) (minute ttl : ℕ) :
    (t.claimLock locks minute).key ≠ (t'.overlapLock locks ttl).key := by
  intro h
  have hname := LockManager.lock_key_inj h
  have hchars := congrArg (fun s : String => s.toList.take 11) hname
  simp only [String.append_assoc,String.toList_append,List.take_append] at hchars
  exact absurd hchars (by simp)

/-! ## Leases -/

/-- The key is taken for sixty seconds from this moment on. -/
def Held (cache : MemoryCache) (key : String) (since : ℕ) : Prop :=
  ∃ e, cache key = some e ∧ ∀ now < since + Duration.fromSecs 60, e.isLive now = true

section Leases

variable {cache : MemoryCache} {l : Lock} {now since : ℕ} {key owner : String}

theorem acquire_cache (l : Lock) (now : ℕ) (cache : MemoryCache) (owner : String) :
    (l.acquire now cache owner).2 =
      if (cache.live now l.key).isSome then cache else cache.insert l.key ⟨owner,MemoryCache.expiry now (some l.ttl)⟩ := by
  rw [Lock.acquire,MemoryCache.add]
  split_ifs <;> rfl

theorem acquire_guard (l : Lock) (now : ℕ) (cache : MemoryCache) (owner : String) :
    (l.acquire now cache owner).1 = if (cache.live now l.key).isSome then none else some ⟨l.key,owner⟩ := by
  rw [Lock.acquire,MemoryCache.add]
  split_ifs <;> rfl

theorem held_insert (cache : MemoryCache) (key owner : String) (now : ℕ) :
    Held (cache.insert key ⟨owner,MemoryCache.expiry now (some (Duration.fromSecs 60))⟩) key now := by
  refine ⟨_,MemoryCache.insert_same _,fun later hlater => ?_⟩
  have hstd : Duration.fromStd (Duration.fromSecs 60) = some (Duration.fromSecs 60) := by decide
  simp only [MemoryCache.expiry,Option.bind_some,hstd,Option.map_some,Entry.isLive]
  exact decide_eq_true hlater

/-- Whoever comes in time finds the key taken. -/
theorem acquire_none_of_held (h : Held cache l.key since) (hnow : now < since + Duration.fromSecs 60) :
    (l.acquire now cache owner).1 = none := by
  obtain ⟨e,he,hlive⟩ := h
  rw [acquire_guard,if_pos]
  rw [MemoryCache.live_eq_some.2 ⟨he,hlive now hnow⟩]
  rfl

theorem held_acquire_of_ne (h : Held cache key since) (hne : key ≠ l.key) : Held (l.acquire now cache owner).2 key since := by
  obtain ⟨e,he,hlive⟩ := h
  refine ⟨e,?_,hlive⟩
  rw [acquire_cache]
  split_ifs
  · exact he
  · rw [MemoryCache.insert_other hne]
    exact he

/-- Another attempt at the lock leaves it or renews it. -/
theorem held_acquire (h : Held cache l.key since) (httl : l.ttl = Duration.fromSecs 60) :
    Held (l.acquire now cache owner).2 l.key since := by
  rw [acquire_cache]
  split_ifs with hlive
  · exact h
  · have hlapsed : since + Duration.fromSecs 60 ≤ now := by
      by_contra hnow
      obtain ⟨e,he,hall⟩ := h
      apply hlive
      rw [MemoryCache.live_eq_some.2 ⟨he,hall now (by omega)⟩]
      rfl
    obtain ⟨e,he,hall⟩ := held_insert cache l.key owner now
    rw [httl]
    exact ⟨e,he,fun later hlater => hall later (by omega)⟩

theorem held_release_of_ne (h : Held cache key since) {g : LockGuard} (hne : key ≠ g.key) :
    Held (g.release now cache).2 key since := by
  obtain ⟨e,he,hlive⟩ := h
  refine ⟨e,?_,hlive⟩
  rw [LockGuard.release,MemoryCache.forgetIf]
  split
  · split_ifs
    · exact (MemoryCache.remove_other hne).trans he
    · exact he
  · exact he

end Leases

/-! ## One execution for one claim -/

/-- The tasks a machine has before it. -/
def Phase.ahead : Phase → List ScheduledTask
  | .idle => []
  | .pass _ rest | .running _ _ rest => rest
  | .claimed _ task rest => task :: rest

/-- A task that was claimed for a minute and is about to run. -/
def Phase.Claims (t : ScheduledTask) (minute : ℕ) (phase : Phase) : Prop :=
  ∃ at' rest, phase = .claimed at' t rest ∧ minuteOf at' = minute

namespace Cluster

/-- Some machine has taken the claim. -/
def Taken (locks : LockManager) (s : Cluster) (t : ScheduledTask) (minute : ℕ) : Prop :=
  ∃ c ∈ s.claims, c.1 = (t.claimLock locks minute).key

/-- The leases of the claims stand, and each has led to one execution at most. -/
structure Exclusive (tasks : List ScheduledTask) (locks : LockManager) (s : Cluster) : Prop where
  known : ∀ m, ∀ t ∈ (s.machines m).ahead, t ∈ tasks
  held : ∀ c ∈ s.claims, Held s.cache c.1 c.2
  keys : ∀ c ∈ s.claims, ∃ t minute, c.1 = (ScheduledTask.claimLock t locks minute).key
  guards : ∀ m at' g rest, s.machines m = .running at' (some g) rest → ∃ t ttl, g.key = (ScheduledTask.overlapLock t locks ttl).key
  executed : ∀ t ∈ tasks, t.oneServer = true → ∀ minute, (t.name,minute) ∈ s.executions → s.Taken locks t minute
  pending : ∀ m t minute, t.oneServer = true → (s.machines m).Claims t minute →
    s.Taken locks t minute ∧ (t.name,minute) ∉ s.executions
  alone : ∀ m m' t minute, t.oneServer = true → (s.machines m).Claims t minute → (s.machines m').Claims t minute → m = m'
  once : s.OncePerMinute tasks

theorem goTo_self (s : Cluster) (m : ℕ) (phase : Phase) : (s.goTo m phase).machines m = phase := Function.update_self ..

theorem goTo_of_ne (s : Cluster) {m m' : ℕ} (h : m' ≠ m) (phase : Phase) : (s.goTo m phase).machines m' = s.machines m' :=
  Function.update_of_ne h ..

/-- A machine goes on without a claim. -/
theorem exclusive_goTo {s : Cluster} (h : s.Exclusive tasks locks) (m : ℕ) {phase : Phase} (hknown : ∀ t ∈ phase.ahead, t ∈ tasks)
    (hguard : ∀ at' g rest, phase = .running at' (some g) rest → ∃ t ttl, g.key = (ScheduledTask.overlapLock t locks ttl).key)
    (hfree : ∀ t minute, t.oneServer = true → ¬ phase.Claims t minute) : (s.goTo m phase).Exclusive tasks locks := by
  have hclaims : ∀ m' t minute, t.oneServer = true → ((s.goTo m phase).machines m').Claims t minute →
      (s.machines m').Claims t minute := by
    intro m' t minute hone hclaim
    by_cases hm : m' = m
    · rw [hm,goTo_self] at hclaim
      exact absurd hclaim (hfree t minute hone)
    · rw [goTo_of_ne s hm] at hclaim
      exact hclaim
  refine ⟨fun m' t ht => ?_,h.held,h.keys,fun m' at' g rest hrun => ?_,h.executed,?_,?_,h.once⟩
  · by_cases hm : m' = m
    · rw [hm,goTo_self] at ht
      exact hknown t ht
    · rw [goTo_of_ne s hm] at ht
      exact h.known m' t ht
  · by_cases hm : m' = m
    · rw [hm,goTo_self] at hrun
      exact hguard at' g rest hrun
    · rw [goTo_of_ne s hm] at hrun
      exact h.guards m' at' g rest hrun
  · exact fun m' t minute hone hclaim => h.pending m' t minute hone (hclaims m' t minute hone hclaim)
  · exact fun m' m'' t minute hone hclaim hclaim' =>
      h.alone m' m'' t minute hone (hclaims m' t minute hone hclaim) (hclaims m'' t minute hone hclaim')

/-- The store changes, but no lease ends. -/
theorem exclusive_cache {s : Cluster} (h : s.Exclusive tasks locks) {cache : MemoryCache}
    (hheld : ∀ c ∈ s.claims, Held cache c.1 c.2) : { s with cache }.Exclusive tasks locks :=
  ⟨h.known,hheld,h.keys,h.guards,h.executed,h.pending,h.alone,h.once⟩

theorem held_claimLock {s : Cluster} (h : s.Exclusive tasks locks) (t : ScheduledTask) (minute : ℕ) (owner : String) :
    ∀ c ∈ s.claims, Held ((t.claimLock locks minute).acquire s.clock s.cache owner).2 c.1 c.2 := by
  intro c hc
  by_cases hkey : c.1 = (t.claimLock locks minute).key
  · have hheld := h.held c hc
    rw [hkey] at hheld ⊢
    exact held_acquire hheld rfl
  · exact held_acquire_of_ne (h.held c hc) hkey

theorem held_overlapLock {s : Cluster} (h : s.Exclusive tasks locks) (t : ScheduledTask) (ttl : ℕ) (owner : String) :
    ∀ c ∈ s.claims, Held ((t.overlapLock locks ttl).acquire s.clock s.cache owner).2 c.1 c.2 := by
  intro c hc
  obtain ⟨t',minute,hkey⟩ := h.keys c hc
  apply held_acquire_of_ne (h.held c hc)
  rw [hkey]
  exact claimLock_ne_overlapLock t' t minute ttl

theorem exclusive_pass {s : Cluster} (h : s.Exclusive tasks locks) (m at' : ℕ) {rest : List ScheduledTask}
    (hrest : ∀ t ∈ rest, t ∈ tasks) : (s.goTo m (.pass at' rest)).Exclusive tasks locks :=
  exclusive_goTo h m hrest (fun _ _ _ heq => nomatch heq) fun _ _ _ ⟨_,_,heq,_⟩ => nomatch heq

/-- The claim is taken, and nobody had it before. -/
theorem exclusive_taken {s : Cluster} (h : s.Exclusive tasks locks) {m at' : ℕ} {task : ScheduledTask}
    {rest : List ScheduledTask} (hahead : ∀ t ∈ task :: rest, t ∈ tasks) (hone : task.oneServer = true)
    (hnew : ¬ s.Taken locks task (minuteOf at')) {cache : MemoryCache} (hheld : ∀ c ∈ s.claims, Held cache c.1 c.2)
    (hlease : Held cache (task.claimLock locks (minuteOf at')).key s.clock) :
    ({ s with cache, claims := s.claims ++ [((task.claimLock locks (minuteOf at')).key,s.clock)] }.goTo m
      (.claimed at' task rest)).Exclusive tasks locks := by
  have hmono : ∀ t minute, s.Taken locks t minute →
      Taken locks { s with cache, claims := s.claims ++ [((task.claimLock locks (minuteOf at')).key,s.clock)] } t minute :=
    fun t minute ⟨c,hc,hkey⟩ => ⟨c,List.mem_append_left _ hc,hkey⟩
  refine ⟨fun m' t ht => ?_,fun c hc => ?_,fun c hc => ?_,fun m' at'' g rest' hrun => ?_,?_,?_,?_,h.once⟩
  · by_cases hm : m' = m
    · rw [hm,goTo_self] at ht
      exact hahead t ht
    · rw [goTo_of_ne _ hm] at ht
      exact h.known m' t ht
  · rcases List.mem_append.1 hc with hc | hc
    · exact hheld c hc
    · obtain rfl := List.mem_singleton.1 hc
      exact hlease
  · rcases List.mem_append.1 hc with hc | hc
    · exact h.keys c hc
    · obtain rfl := List.mem_singleton.1 hc
      exact ⟨task,minuteOf at',rfl⟩
  · by_cases hm : m' = m
    · rw [hm,goTo_self] at hrun
      cases hrun
    · rw [goTo_of_ne _ hm] at hrun
      exact h.guards m' at'' g rest' hrun
  · exact fun t ht hone' minute hexecuted => hmono t minute (h.executed t ht hone' minute hexecuted)
  · intro m' t minute hone' hclaim
    by_cases hm : m' = m
    · rw [hm,goTo_self] at hclaim
      obtain ⟨_,_,heq,rfl⟩ := hclaim
      cases heq
      refine ⟨⟨_,List.mem_append_right _ (List.mem_singleton_self _),rfl⟩,fun hexecuted => ?_⟩
      exact hnew (h.executed task (hahead task List.mem_cons_self) hone _ hexecuted)
    · rw [goTo_of_ne _ hm] at hclaim
      obtain ⟨htaken,hfresh⟩ := h.pending m' t minute hone' hclaim
      exact ⟨hmono t minute htaken,hfresh⟩
  · have hother : ∀ m', m' ≠ m → ∀ t minute, t.oneServer = true → (s.machines m').Claims t minute →
        ¬ (Phase.claimed at' task rest).Claims t minute := by
      rintro m' - t minute hone' hclaim ⟨_,_,heq,rfl⟩
      cases heq
      exact hnew (h.pending m' task _ hone hclaim).1
    intro m' m'' t minute hone' hclaim hclaim'
    by_cases hm : m' = m <;> by_cases hm' : m'' = m
    · rw [hm,hm']
    · rw [hm,goTo_self] at hclaim
      rw [goTo_of_ne _ hm'] at hclaim'
      exact absurd hclaim (hother m'' hm' t minute hone' hclaim')
    · rw [goTo_of_ne _ hm] at hclaim
      rw [hm',goTo_self] at hclaim'
      exact absurd hclaim' (hother m' hm t minute hone' hclaim)
    · rw [goTo_of_ne _ hm] at hclaim
      rw [goTo_of_ne _ hm'] at hclaim'
      exact h.alone m' m'' t minute hone' hclaim hclaim'

/-- The execution that a claim leads to. -/
theorem exclusive_execute (hnames : (tasks.map (·.name)).Nodup) {s : Cluster} (h : s.Exclusive tasks locks) {m at' : ℕ}
    {task : ScheduledTask} {rest : List ScheduledTask} (hphase : s.machines m = .claimed at' task rest)
    {guard : Option LockGuard} (hguard : ∀ g ∈ guard, ∃ t ttl, g.key = (ScheduledTask.overlapLock t locks ttl).key) :
    (s.execute m at' task guard rest).Exclusive tasks locks := by
  have htask : task ∈ tasks := h.known m task (by rw [hphase]; exact List.mem_cons_self)
  have hown : (s.machines m).Claims task (minuteOf at') := ⟨at',rest,hphase,rfl⟩
  have hsame : ∀ t ∈ tasks, t.name = task.name → t = task := fun t ht => List.inj_on_of_nodup_map hnames ht htask
  have hclaims : ∀ m' t minute, ((s.execute m at' task guard rest).machines m').Claims t minute →
      m' ≠ m ∧ (s.machines m').Claims t minute := by
    intro m' t minute hclaim
    by_cases hm : m' = m
    · rw [hm,execute,goTo_self] at hclaim
      obtain ⟨_,_,heq,-⟩ := hclaim
      cases heq
    · rw [execute,goTo_of_ne _ hm] at hclaim
      exact ⟨hm,hclaim⟩
  refine ⟨fun m' t ht => ?_,h.held,h.keys,fun m' at'' g rest' hrun => ?_,?_,?_,?_,?_⟩
  · by_cases hm : m' = m
    · rw [hm,execute,goTo_self] at ht
      exact h.known m t (by rw [hphase]; exact List.mem_cons_of_mem _ ht)
    · rw [execute,goTo_of_ne _ hm] at ht
      exact h.known m' t ht
  · by_cases hm : m' = m
    · rw [hm,execute,goTo_self] at hrun
      cases hrun
      exact hguard g rfl
    · rw [execute,goTo_of_ne _ hm] at hrun
      exact h.guards m' at'' g rest' hrun
  · intro t ht hone minute hexecuted
    rcases List.mem_append.1 hexecuted with hexecuted | hexecuted
    · exact h.executed t ht hone minute hexecuted
    · obtain ⟨hname,rfl⟩ := Prod.mk.inj (List.mem_singleton.1 hexecuted)
      obtain rfl := hsame t ht hname
      exact (h.pending m t _ hone hown).1
  · intro m' t minute hone hclaim
    obtain ⟨hm,hbefore⟩ := hclaims m' t minute hclaim
    obtain ⟨htaken,hfresh⟩ := h.pending m' t minute hone hbefore
    refine ⟨htaken,fun hexecuted => ?_⟩
    rcases List.mem_append.1 hexecuted with hexecuted | hexecuted
    · exact hfresh hexecuted
    · obtain ⟨hname,rfl⟩ := Prod.mk.inj (List.mem_singleton.1 hexecuted)
      have ht : t ∈ tasks := by
        obtain ⟨_,_,heq,-⟩ := hbefore
        exact h.known m' t (by rw [heq]; exact List.mem_cons_self)
      obtain rfl := hsame t ht hname
      exact hm (h.alone m' m t _ hone hbefore hown)
  · intro m' m'' t minute hone hclaim hclaim'
    exact h.alone m' m'' t minute hone (hclaims m' t minute hclaim).2 (hclaims m'' t minute hclaim').2
  · intro t ht hone minute
    show (s.executions ++ [(task.name,minuteOf at')]).count (t.name,minute) ≤ 1
    rw [List.count_append]
    by_cases heq : (task.name,minuteOf at') = (t.name,minute)
    · obtain ⟨hname,rfl⟩ := Prod.mk.inj heq
      obtain rfl := hsame t ht hname.symm
      rw [List.count_eq_zero_of_not_mem (h.pending m t _ hone hown).2,List.count_singleton_self]
    · rw [List.count_singleton,if_neg (by simpa using heq)]
      exact h.once t ht hone minute

/-! ## Runs -/

theorem exclusive_claim {s : Cluster} (h : s.Exclusive tasks locks) {m at' : ℕ} {task : ScheduledTask}
    {rest : List ScheduledTask} (hphase : s.machines m = .pass at' (task :: rest)) (condition : Bool) (owner : String)
    (answer : Answer) (hlate : s.late locks (.advance m condition owner answer) = false) :
    (s.claim locks m at' task rest condition owner answer).Exclusive tasks locks := by
  have hahead : ∀ t ∈ task :: rest, t ∈ tasks := fun t ht => h.known m t (by rw [hphase]; exact ht)
  have hrest : ∀ t ∈ rest, t ∈ tasks := fun t ht => hahead t (List.mem_cons_of_mem _ ht)
  have hheld := held_claimLock h task (minuteOf at') owner
  rw [claim]
  split_ifs with hcondition hone
  · exact exclusive_pass h m at' hrest
  · have hmay : (!task.conditional || condition) = true := by
      revert hcondition
      cases task.conditional <;> cases condition <;> simp
    cases answer with
    | failed => exact exclusive_pass h m at' hrest
    | lost => exact exclusive_pass (exclusive_cache h hheld) m at' hrest
    | ok =>
      cases hguard : ((task.claimLock locks (minuteOf at')).acquire s.clock s.cache owner).1 with
      | none =>
        simp only [hguard]
        exact exclusive_pass (exclusive_cache h hheld) m at' hrest
      | some g =>
        simp only [hguard]
        have hnew : ¬ s.Taken locks task (minuteOf at') := by
          rintro ⟨c,hc,hkey⟩
          have hprompt : s.clock < c.2 + Duration.fromSecs 60 := by
            by_contra hnot
            have htrue : s.late locks (.advance m condition owner .ok) = true := by
              simp only [late,hphase,Bool.and_eq_true,List.any_eq_true,decide_eq_true_eq]
              exact ⟨⟨hone,hmay⟩,c,hc,hkey,by omega⟩
            rw [hlate] at htrue
            cases htrue
          have hlease := h.held c hc
          rw [hkey] at hlease
          rw [acquire_none_of_held hlease hprompt] at hguard
          cases hguard
        have hlease : Held ((task.claimLock locks (minuteOf at')).acquire s.clock s.cache owner).2
            (task.claimLock locks (minuteOf at')).key s.clock := by
          rw [acquire_guard] at hguard
          rw [acquire_cache]
          split_ifs at hguard ⊢
          exact held_insert s.cache _ owner s.clock
        exact exclusive_taken h hahead hone hnew hheld hlease
  · refine exclusive_goTo h m hahead (fun _ _ _ heq => nomatch heq) fun t minute hone' ⟨_,_,heq,_⟩ => ?_
    cases heq
    exact hone hone'

theorem exclusive_work (hnames : (tasks.map (·.name)).Nodup) {s : Cluster} (h : s.Exclusive tasks locks) {m at' : ℕ}
    {task : ScheduledTask} {rest : List ScheduledTask} (hphase : s.machines m = .claimed at' task rest) (owner : String)
    (answer : Answer) : (s.work locks m at' task rest owner answer).Exclusive tasks locks := by
  have hrest : ∀ t ∈ rest, t ∈ tasks := fun t ht => h.known m t (by rw [hphase]; exact List.mem_cons_of_mem _ ht)
  cases hoverlap : task.overlap with
  | none =>
    simp only [work,hoverlap]
    exact exclusive_execute hnames h hphase fun _ hg => nomatch hg
  | some ttl =>
    have hcache := exclusive_cache h (held_overlapLock h task ttl owner)
    simp only [work,hoverlap]
    cases answer with
    | failed => exact exclusive_pass h m at' hrest
    | lost => exact exclusive_pass hcache m at' hrest
    | ok =>
      cases hguard : ((task.overlapLock locks ttl).acquire s.clock s.cache owner).1 with
      | none =>
        simp only
        exact exclusive_pass hcache m at' hrest
      | some g =>
        simp only
        apply exclusive_execute hnames hcache hphase
        rintro g' ⟨⟩
        rw [acquire_guard] at hguard
        split_ifs at hguard
        exact ⟨task,ttl,by rw [← Option.some.inj hguard]⟩

theorem exclusive_finish {s : Cluster} (h : s.Exclusive tasks locks) {m at' : ℕ} {guard : Option LockGuard}
    {rest : List ScheduledTask} (hphase : s.machines m = .running at' guard rest) (answer : Answer) :
    (s.finish m at' guard rest answer).Exclusive tasks locks := by
  have hrest : ∀ t ∈ rest, t ∈ tasks := fun t ht => h.known m t (by rw [hphase]; exact ht)
  cases guard with
  | none => exact exclusive_pass h m at' hrest
  | some g =>
    have hreleased : ∀ c ∈ s.claims, Held (g.release s.clock s.cache).2 c.1 c.2 := by
      intro c hc
      obtain ⟨t,minute,hkey⟩ := h.keys c hc
      obtain ⟨t',ttl,hkey'⟩ := h.guards m at' g rest hphase
      apply held_release_of_ne (h.held c hc)
      rw [hkey,hkey']
      exact claimLock_ne_overlapLock t t' minute ttl
    cases answer with
    | failed => exact exclusive_pass h m at' hrest
    | lost => exact exclusive_pass (exclusive_cache h hreleased) m at' hrest
    | ok => exact exclusive_pass (exclusive_cache h hreleased) m at' hrest

theorem exclusive_step (hnames : (tasks.map (·.name)).Nodup) (s : Cluster) (e : Event) (h : s.Exclusive tasks locks)
    (hlate : s.late locks e = false) : (s.step tasks locks e).Exclusive tasks locks := by
  have hidle : ∀ m, (s.goTo m .idle).Exclusive tasks locks := fun m =>
    exclusive_goTo h m (fun _ ht => nomatch ht) (fun _ _ _ heq => nomatch heq) fun _ _ _ ⟨_,_,heq,_⟩ => nomatch heq
  cases e with
  | tick d => exact ⟨h.known,h.held,h.keys,h.guards,h.executed,h.pending,h.alone,h.once⟩
  | crash m => exact hidle m
  | start m at' =>
    rw [step]
    split
    · exact exclusive_pass h m at' fun t ht => List.mem_of_mem_filter ht
    · exact h
    · exact h
    · exact h
  | advance m condition owner answer =>
    rw [step]
    split
    · exact h
    · exact hidle m
    · rename_i hphase
      exact exclusive_claim h hphase condition owner answer hlate
    · rename_i hphase
      exact exclusive_work hnames h hphase owner answer
    · rename_i hphase
      exact exclusive_finish h hphase answer

/-- Where no machine comes to a task more than a minute after it was claimed, a task that belongs to
one server runs once for a minute, over all machines. -/
theorem once_per_minute (tasks : List ScheduledTask) (locks : LockManager) (hnames : (tasks.map (·.name)).Nodup)
    (cache : MemoryCache) (clock : ℕ) (events : List Event)
    (h : Trace.Along (step tasks locks) (fun s e => s.late locks e = false) (init cache clock) events) :
    Trace.Always (step tasks locks) (OncePerMinute tasks) (init cache clock) events := by
  have hinit : (init cache clock).Exclusive tasks locks := by
    constructor
    case known => exact fun _ _ ht => absurd ht List.not_mem_nil
    case held => exact fun _ hc => absurd hc List.not_mem_nil
    case keys => exact fun _ hc => absurd hc List.not_mem_nil
    case guards => exact fun _ _ _ _ heq => nomatch heq
    case executed => exact fun _ _ _ _ he => absurd he List.not_mem_nil
    case pending => exact fun _ _ _ _ ⟨_,_,heq,_⟩ => nomatch heq
    case alone => exact fun _ _ _ _ _ ⟨_,_,heq,_⟩ => nomatch heq
    case once => exact fun _ _ _ _ => Nat.zero_le 1
  exact (Trace.always_of_along (exclusive_step hnames) hinit h).mono fun _ hs => hs.once

/-- `* * * * *`. -/
def everyMinute : CronExpression where
  source := "* * * * *"
  minutes := ⟨Finset.range 60,true⟩
  hours := ⟨Finset.range 24,true⟩
  daysOfMonth := ⟨(Finset.range 32).erase 0,true⟩
  months := ⟨(Finset.range 13).erase 0,true⟩
  daysOfWeek := ⟨Finset.range 7,true⟩

/-- An import on every machine, and then a report on one. -/
def importAndReport : List ScheduledTask :=
  [⟨"import",everyMinute,none,false,none,false⟩,⟨"report",everyMinute,none,false,none,true⟩]

/-- Two machines start a pass, and the second one begins its import. -/
def bothStart : List Event := [.start 0 0,.start 1 0] ++ List.replicate 2 (.advance 1 true "b" .ok)

/-- Both go through the pass, the second one as soon as the first is through. -/
def promptPasses : List Event :=
  bothStart ++ List.replicate 6 (.advance 0 true "a" .ok) ++ List.replicate 3 (.advance 1 true "c" .ok)

theorem once_per_minute_prompt : Trace.Always (step importAndReport .new) (OncePerMinute importAndReport)
    (init .empty 0) promptPasses :=
  once_per_minute importAndReport .new (by decide) .empty 0 promptPasses (by decide)

/-- The import of the second machine takes a minute and a second. -/
def slowPass : List Event :=
  bothStart ++ List.replicate 6 (.advance 0 true "a" .ok) ++ .tick (Duration.fromSecs 61) ::
    List.replicate 3 (.advance 1 true "c" .ok)

/-- Then both run the report of that minute. -/
theorem report_run_twice : ¬ Trace.Always (step importAndReport .new) (OncePerMinute importAndReport)
    (init .empty 0) slowPass := by
  intro h
  have honce := h.last ⟨"report",everyMinute,none,false,none,true⟩ (by simp [importAndReport]) rfl 0
  have htwice : (Trace.run (step importAndReport .new) (init .empty 0) slowPass).executions.count ("report",0) = 2 := by
    decide
  rw [htwice] at honce
  exact absurd honce (by decide)

end Cluster

end Rainier.Scheduler
