import Rainier.Cache.Lock
import Rainier.Support.Trace
import Mathlib.Data.List.Nodup

/-! # Leases over whole runs

Any number of tasks, in any number of processes, take and give back locks in one
cache. An acquire tries once, or polls until its deadline, with a new token for
every try; `run` holds its guard while the work lasts and releases it whatever came
of it. The ghosts record every lease that was granted, what has become of it, and
the tokens minted so far.
-/
namespace Rainier.Cache.LockRun
open Rainier

def pollInterval : ℕ := Duration.fromMillis 100

/-- `lock.acquire()`, or `lock.run(work)`, on a lock that may wait. -/
structure Request where
  lock : Lock
  wait : Option ℕ
  runs : Bool
  deriving DecidableEq, Repr

inductive Phase where
  | idle
  | acquiring (r : Request) (deadline : Option ℕ) (wakes : ℕ)
  | holding (g : LockGuard)
  | working (g : LockGuard)
  deriving DecidableEq, Repr

def Phase.guard : Phase → Option LockGuard
  | .holding g | .working g => some g
  | .idle | .acquiring _ _ _ => none

structure Lease where
  guard : LockGuard
  since : ℕ
  ttl : ℕ
  released : Bool
  deriving DecidableEq, Repr

/-- The entry the lease was granted with. -/
def Lease.entry (ℓ : Lease) : Entry := ⟨ℓ.guard.owner,MemoryCache.expiry ℓ.since (some ℓ.ttl)⟩

/-- The lifetime is over; one that chrono cannot hold never is. -/
def Lease.lapsed (now : ℕ) (ℓ : Lease) : Bool :=
  match MemoryCache.expiry ℓ.since (some ℓ.ttl) with
  | some at' => at' ≤ now
  | none => false

def Lease.give (g : LockGuard) (ℓ : Lease) : Lease := if ℓ.guard = g then { ℓ with released := true } else ℓ

structure State where
  cache : MemoryCache
  clock : ℕ
  tasks : ℕ → Phase
  leases : List Lease
  minted : List String

inductive Label where
  | tick (d : ℕ)
  | acquire (w : ℕ) (r : Request)
  | attempt (w : ℕ) (owner : String)
  | release (w : ℕ)
  | keep (w : ℕ)
  | finish (w : ℕ)
  | drop (w : ℕ)
  deriving DecidableEq, Repr

def init : State := ⟨MemoryCache.empty,0,fun _ => .idle,[],[]⟩

def State.goto (s : State) (w : ℕ) (p : Phase) : State := { s with tasks := Function.update s.tasks w p }

@[simp] theorem tasks_goto_same (s : State) (w : ℕ) (p : Phase) : (s.goto w p).tasks w = p := Function.update_self ..

theorem tasks_goto_of_ne (s : State) {w w' : ℕ} (h : w' ≠ w) (p : Phase) : (s.goto w p).tasks w' = s.tasks w' :=
  Function.update_of_ne h ..

/-- One round of `acquire`, with the token it has minted. -/
def attempt (s : State) (w : ℕ) (r : Request) (deadline : Option ℕ) (owner : String) : State :=
  let (guard,cache) := r.lock.acquire s.clock s.cache owner
  let s := { s with cache := cache, minted := owner :: s.minted }
  match guard with
  | some g =>
    let lease : Lease := ⟨g,s.clock,r.lock.ttl,false⟩
    { s with leases := s.leases ++ [lease] }.goto w (if r.runs then .working g else .holding g)
  | none => match deadline with
    | some at' =>
      if s.clock + pollInterval < at' then s.goto w (.acquiring r deadline (s.clock + pollInterval)) else s.goto w .idle
    | none => s.goto w .idle

/-- `release`, which takes the guard whatever it answers. -/
def give (s : State) (w : ℕ) (g : LockGuard) : State :=
  { s with cache := (g.release s.clock s.cache).2, leases := s.leases.map (Lease.give g) }.goto w .idle

def step (s : State) : Label → State
  | .tick d => { s with clock := s.clock + d }
  | .acquire w r => match s.tasks w with
    | .idle => s.goto w (.acquiring r (r.wait.map (s.clock + ·)) s.clock)
    | _ => s
  | .attempt w owner => match s.tasks w with
    | .acquiring r deadline wakes => if wakes ≤ s.clock then attempt s w r deadline owner else s
    | _ => s
  | .release w => match s.tasks w with
    | .holding g => give s w g
    | _ => s
  | .keep w => match s.tasks w with
    | .holding g => { s with cache := g.keep s.cache }.goto w .idle
    | _ => s
  | .finish w => match s.tasks w with
    | .working g => give s w g
    | _ => s
  | .drop w => match s.tasks w with
    | .holding g | .working g => { s with cache := g.drop s.cache }.goto w .idle
    | _ => s

/-- A token is minted once. -/
def FreshOwner (s : State) : Label → Prop
  | .attempt _ owner => owner ∉ s.minted
  | _ => True

instance (s : State) : (a : Label) → Decidable (FreshOwner s a)
  | .attempt _ owner => inferInstanceAs (Decidable (owner ∉ s.minted))
  | .tick _ | .acquire _ _ | .release _ | .keep _ | .finish _ | .drop _ => inferInstanceAs (Decidable True)

/-- What a lease is good for. At most one of the tokens is the live value of a key. A
lease that has neither lapsed nor been released keeps every acquire of its name out.
A lapsed one is released in vain, and its release changes nothing. -/
structure LeaseSafe (s : State) : Prop where
  recorded : ∀ w g, (s.tasks w).guard = some g → ∃ ℓ ∈ s.leases, ℓ.guard = g
  one : ∀ ℓ ∈ s.leases, ∀ ℓ' ∈ s.leases, ∀ e, s.cache.live s.clock ℓ.guard.key = some e →
    ℓ'.guard.key = ℓ.guard.key → ℓ.guard.owner = e.value → ℓ'.guard.owner = e.value → ℓ = ℓ'
  exclusive : ∀ ℓ ∈ s.leases, ℓ.released = false → ℓ.lapsed s.clock = false →
    ∀ l : Lock, l.key = ℓ.guard.key → ∀ owner, l.acquire s.clock s.cache owner = (none,s.cache)
  stale : ∀ ℓ ∈ s.leases, ℓ.lapsed s.clock = true → ℓ.guard.release s.clock s.cache = (false,s.cache)

/-! ## The invariant -/

/-- Leases, entries and guards belong together. -/
structure Sound (s : State) : Prop where
  owners : (s.leases.map (fun ℓ => ℓ.guard.owner)).Nodup
  minted : ∀ ℓ ∈ s.leases, ℓ.guard.owner ∈ s.minted
  entries : ∀ key e, s.cache key = some e → ∃ ℓ ∈ s.leases, ℓ.guard.key = key ∧ ℓ.entry = e
  standing : ∀ ℓ ∈ s.leases, ℓ.released = false → ℓ.lapsed s.clock = false →
    s.cache ℓ.guard.key = some ℓ.entry
  held : ∀ w g, (s.tasks w).guard = some g → ∃ ℓ ∈ s.leases, ℓ.guard = g ∧ ℓ.released = false
  single : ∀ w w' g, (s.tasks w).guard = some g → (s.tasks w').guard = some g → w = w'

variable {s : State} {w : ℕ}

theorem sound_init : Sound init where
  owners := List.nodup_nil
  minted := fun _ h => by cases h
  entries := fun _ _ h => by cases h
  standing := fun _ h => by cases h
  held := fun _ _ h => by cases h
  single := fun _ _ _ h => by cases h

theorem Lease.isLive_entry (now : ℕ) (ℓ : Lease) : ℓ.entry.isLive now = !ℓ.lapsed now := by
  unfold Lease.entry Entry.isLive Lease.lapsed
  dsimp only
  cases MemoryCache.expiry ℓ.since (some ℓ.ttl) with
  | none => rfl
  | some at' =>
    by_cases h : at' ≤ now
    · simp [h]
    · simp [h,Nat.not_le.mp h]

theorem Lease.lapsed_mono {now later : ℕ} (hle : now ≤ later) {ℓ : Lease} (h : ℓ.lapsed later = false) :
    ℓ.lapsed now = false := by
  unfold Lease.lapsed at h ⊢
  cases hx : MemoryCache.expiry ℓ.since (some ℓ.ttl) with
  | none => rfl
  | some at' =>
    rw [hx] at h
    have hlater : ¬ at' ≤ later := of_decide_eq_false h
    exact decide_eq_false (fun hnow => hlater (hnow.trans hle))

@[simp] theorem Lease.guard_give (g : LockGuard) (ℓ : Lease) : (ℓ.give g).guard = ℓ.guard := by
  unfold Lease.give
  split <;> rfl

@[simp] theorem Lease.entry_give (g : LockGuard) (ℓ : Lease) : (ℓ.give g).entry = ℓ.entry := by
  unfold Lease.give
  split <;> rfl

@[simp] theorem Lease.lapsed_give (g : LockGuard) (now : ℕ) (ℓ : Lease) : (ℓ.give g).lapsed now = ℓ.lapsed now := by
  unfold Lease.give
  split <;> rfl

theorem Lease.released_give {g : LockGuard} {ℓ : Lease} (h : (ℓ.give g).released = false) :
    ℓ.guard ≠ g ∧ ℓ.released = false := by
  unfold Lease.give at h
  split at h
  · cases h
  next hne => exact ⟨hne,h⟩

/-- One token, one lease. -/
theorem Sound.eq_of_owner (h : Sound s) {ℓ ℓ' : Lease} (hℓ : ℓ ∈ s.leases) (hℓ' : ℓ' ∈ s.leases)
    (he : ℓ.guard.owner = ℓ'.guard.owner) : ℓ = ℓ' := List.inj_on_of_nodup_map h.owners hℓ hℓ' he

/-- An entry that holds a lease's token is the lease's own. -/
theorem Sound.entry_of_value (h : Sound s) {ℓ : Lease} (hℓ : ℓ ∈ s.leases) {key : String} {e : Entry}
    (he : s.cache key = some e) (hv : e.value = ℓ.guard.owner) : e = ℓ.entry := by
  obtain ⟨ℓ',hℓ',-,rfl⟩ := h.entries key e he
  rw [h.eq_of_owner hℓ' hℓ hv]

theorem Sound.leaseSafe (h : Sound s) : LeaseSafe s where
  recorded := fun w g hw => by
    obtain ⟨ℓ,hℓ,hg,-⟩ := h.held w g hw
    exact ⟨ℓ,hℓ,hg⟩
  one := fun ℓ hℓ ℓ' hℓ' e _ _ he he' => h.eq_of_owner hℓ hℓ' (he.trans he'.symm)
  exclusive := fun ℓ hℓ hr hl l hkey owner => by
    have hlive : s.cache.live s.clock l.key = some ℓ.entry := by
      rw [hkey,MemoryCache.live_eq_some,ℓ.isLive_entry,hl]
      exact ⟨h.standing ℓ hℓ hr hl,rfl⟩
    simp [Lock.acquire,MemoryCache.add,hlive]
  stale := fun ℓ hℓ hl => by
    unfold LockGuard.release MemoryCache.forgetIf
    cases he : s.cache ℓ.guard.key with
    | none => rfl
    | some e =>
      dsimp only
      split
      next hc =>
        -- the token at the key would make the entry the lease's own, which is over
        obtain ⟨hlive,hv⟩ := Bool.and_eq_true_iff.mp hc
        rw [h.entry_of_value hℓ he (beq_iff_eq.mp hv),ℓ.isLive_entry,hl] at hlive
        cases hlive
      · rfl

/-! ## Steps -/

/-- Where a task goes without a guard of its own, the rest stays as it was. -/
theorem Sound.goto (h : Sound s) {p : Phase} (hp : ∀ g, p.guard = some g → (s.tasks w).guard = some g) :
    Sound (s.goto w p) := by
  have hsub : ∀ w' g, ((s.goto w p).tasks w').guard = some g → (s.tasks w').guard = some g := by
    intro w' g hg
    by_cases he : w' = w
    · subst he
      rw [tasks_goto_same] at hg
      exact hp g hg
    · rwa [tasks_goto_of_ne s he] at hg
  exact ⟨h.owners,h.minted,h.entries,h.standing,fun w' g hg => h.held w' g (hsub w' g hg),
    fun w' w'' g hg hg' => h.single w' w'' g (hsub w' g hg) (hsub w'' g hg')⟩

theorem Sound.tick (h : Sound s) (d : ℕ) : Sound { s with clock := s.clock + d } :=
  ⟨h.owners,h.minted,h.entries,
    fun ℓ hℓ hr hl => h.standing ℓ hℓ hr (Lease.lapsed_mono (Nat.le_add_right _ _) hl),h.held,h.single⟩

theorem Sound.mint (h : Sound s) (owner : String) : Sound { s with minted := owner :: s.minted } :=
  ⟨h.owners,fun ℓ hℓ => List.mem_cons_of_mem _ (h.minted ℓ hℓ),h.entries,h.standing,h.held,h.single⟩

/-- A token that was never minted is no guard's. -/
theorem Sound.fresh_guard (h : Sound s) {owner : String} (hf : owner ∉ s.minted) {w : ℕ} {g : LockGuard}
    (hw : (s.tasks w).guard = some g) : g.owner ≠ owner := by
  obtain ⟨ℓ,hℓ,rfl,-⟩ := h.held w g hw
  exact fun he => hf (he ▸ h.minted ℓ hℓ)

/-- A free key is leased under a new token. -/
theorem Sound.grant (h : Sound s) {l : Lock} {owner : String} (hf : owner ∉ s.minted)
    (hfree : s.cache.live s.clock l.key = none) {ℓ₀ : Lease} (hℓ₀ : ℓ₀ = ⟨⟨l.key,owner⟩,s.clock,l.ttl,false⟩) :
    Sound { s with
      cache := s.cache.insert l.key ℓ₀.entry
      minted := owner :: s.minted
      leases := s.leases ++ [ℓ₀] } := by
  have hkey : ℓ₀.guard.key = l.key := by rw [hℓ₀]
  have howner : ℓ₀.guard.owner = owner := by rw [hℓ₀]
  refine ⟨?_,?_,?_,?_,?_,h.single⟩
  · rw [List.map_append]
    refine List.Nodup.append h.owners (List.nodup_singleton _) ?_
    intro o ho ho'
    obtain ⟨ℓ,hℓ,rfl⟩ := List.mem_map.mp ho
    rw [List.map_singleton,List.mem_singleton,howner] at ho'
    exact hf (ho' ▸ h.minted ℓ hℓ)
  · intro ℓ hℓ
    rcases List.mem_append.mp hℓ with hℓ | hℓ
    · exact List.mem_cons_of_mem _ (h.minted ℓ hℓ)
    · rw [List.mem_singleton.mp hℓ,howner]
      exact List.mem_cons_self
  · intro key e he
    dsimp only at he
    by_cases hk : key = l.key
    · subst hk
      rw [MemoryCache.insert_same,Option.some.injEq] at he
      exact ⟨ℓ₀,List.mem_append_right _ (List.mem_singleton_self _),hkey,he⟩
    · rw [MemoryCache.insert_other hk] at he
      obtain ⟨ℓ,hℓ,hkey,hentry⟩ := h.entries key e he
      exact ⟨ℓ,List.mem_append_left _ hℓ,hkey,hentry⟩
  · intro ℓ hℓ hr hl
    dsimp only at hl ⊢
    rcases List.mem_append.mp hℓ with hℓ | hℓ
    · have hstand := h.standing ℓ hℓ hr hl
      have hk : ℓ.guard.key ≠ l.key := by
        intro hk
        have hlive : s.cache.live s.clock l.key = some ℓ.entry := by
          rw [← hk,MemoryCache.live_eq_some,ℓ.isLive_entry,hl]
          exact ⟨hstand,rfl⟩
        rw [hfree] at hlive
        cases hlive
      rw [MemoryCache.insert_other hk]
      exact hstand
    · rw [List.mem_singleton.mp hℓ,hkey]
      exact MemoryCache.insert_same _
  · intro w' g hg
    obtain ⟨ℓ,hℓ,hguard,hr⟩ := h.held w' g hg
    exact ⟨ℓ,List.mem_append_left _ hℓ,hguard,hr⟩

/-- A task takes a guard nobody holds. -/
theorem Sound.take (h : Sound s) {p : Phase} {g : LockGuard} (hp : p.guard = some g)
    (hlease : ∃ ℓ ∈ s.leases, ℓ.guard = g ∧ ℓ.released = false)
    (hnew : ∀ w', (s.tasks w').guard ≠ some g) : Sound (s.goto w p) := by
  refine ⟨h.owners,h.minted,h.entries,h.standing,?_,?_⟩
  · intro w' g' hg'
    by_cases he : w' = w
    · subst he
      rw [tasks_goto_same,hp,Option.some.injEq] at hg'
      exact hg' ▸ hlease
    · rw [tasks_goto_of_ne _ he] at hg'
      exact h.held w' g' hg'
  · intro w' w'' g' hg' hg''
    by_cases he : w' = w <;> by_cases he' : w'' = w
    · rw [he,he']
    · subst he
      rw [tasks_goto_same,hp] at hg'
      rw [tasks_goto_of_ne _ he',← hg'] at hg''
      exact absurd hg'' (hnew w'')
    · subst he'
      rw [tasks_goto_same,hp] at hg''
      rw [tasks_goto_of_ne _ he,← hg''] at hg'
      exact absurd hg' (hnew w')
    · rw [tasks_goto_of_ne _ he] at hg'
      rw [tasks_goto_of_ne _ he'] at hg''
      exact h.single w' w'' g' hg' hg''

theorem sound_attempt (h : Sound s) {r : Request} {deadline : Option ℕ} {wakes : ℕ} {owner : String}
    (hw : s.tasks w = .acquiring r deadline wakes) (hf : owner ∉ s.minted) :
    Sound (attempt s w r deadline owner) := by
  unfold attempt Lock.acquire MemoryCache.add
  cases hl : s.cache.live s.clock r.lock.key with
  | none =>
    simp only [Option.isSome_none,Bool.false_eq_true,↓reduceIte]
    refine (h.grant hf hl rfl).take (g := ⟨r.lock.key,owner⟩) ?_ ?_ ?_
    · split <;> rfl
    · exact ⟨_,List.mem_append_right _ (List.mem_singleton_self _),rfl,rfl⟩
    · exact fun w' hg => h.fresh_guard hf hg rfl
  | some e =>
    simp only [Option.isSome_some,↓reduceIte]
    have hmint := h.mint owner
    cases deadline with
    | none => exact hmint.goto (fun _ hg => by cases hg)
    | some at' =>
      dsimp only
      split
      · exact hmint.goto (fun _ hg => by cases hg)
      · exact hmint.goto (fun _ hg => by cases hg)

/-- A release takes away the guard's own entry or none. -/
theorem release_cache (g : LockGuard) (now : ℕ) (c : MemoryCache) :
    (g.release now c).2 = c ∨ ∃ e, c g.key = some e ∧ e.value = g.owner ∧ (g.release now c).2 = c.remove g.key := by
  unfold LockGuard.release MemoryCache.forgetIf
  cases he : c g.key with
  | none => exact .inl rfl
  | some e =>
    dsimp only
    split
    next hc => exact .inr ⟨e,rfl,beq_iff_eq.mp (Bool.and_eq_true_iff.mp hc).2,rfl⟩
    · exact .inl rfl

theorem sound_give (h : Sound s) {g : LockGuard} (hw : (s.tasks w).guard = some g) : Sound (give s w g) := by
  have htask : ∀ w' g', ((give s w g).tasks w').guard = some g' → w' ≠ w ∧ (s.tasks w').guard = some g' := by
    intro w' g' hg'
    by_cases he : w' = w
    · subst he
      rw [give,tasks_goto_same] at hg'
      cases hg'
    · rw [give,tasks_goto_of_ne _ he] at hg'
      exact ⟨he,hg'⟩
  have hcache := release_cache g s.clock s.cache
  refine ⟨?_,?_,?_,?_,?_,?_⟩
  · simpa [give,State.goto,List.map_map,Function.comp_def] using h.owners
  · intro _ hgiven
    obtain ⟨ℓ,hℓ,rfl⟩ := List.mem_map.mp hgiven
    rw [Lease.guard_give]
    exact h.minted ℓ hℓ
  · intro key e he
    have hold : s.cache key = some e := by
      rcases hcache with hc | ⟨_,-,-,hc⟩
      · exact hc ▸ he
      · have he : (g.release s.clock s.cache).2 key = some e := he
        rw [hc] at he
        by_cases hk : key = g.key
        · rw [hk,MemoryCache.remove_same] at he
          cases he
        · rwa [MemoryCache.remove_other hk] at he
    obtain ⟨ℓ,hℓ,hkey,hentry⟩ := h.entries key e hold
    exact ⟨ℓ.give g,List.mem_map_of_mem hℓ,by rw [Lease.guard_give,hkey],by rw [Lease.entry_give,hentry]⟩
  · intro _ hgiven hr hl
    obtain ⟨ℓ,hℓ,rfl⟩ := List.mem_map.mp hgiven
    obtain ⟨hne,hr⟩ := Lease.released_give hr
    rw [Lease.lapsed_give] at hl
    rw [Lease.guard_give,Lease.entry_give]
    have hstand := h.standing ℓ hℓ hr hl
    show (g.release s.clock s.cache).2 _ = _
    rcases hcache with hc | ⟨e,he,hv,hc⟩
    · rw [hc]
      exact hstand
    · have hk : ℓ.guard.key ≠ g.key := by
        intro hk
        rw [hk,he,Option.some.injEq] at hstand
        refine hne ?_
        have ho : ℓ.guard.owner = g.owner := by rw [← hv,hstand]; rfl
        cases hg : ℓ.guard
        cases g
        simp_all
      rw [hc,MemoryCache.remove_other hk]
      exact hstand
  · intro w' g' hg'
    obtain ⟨hne,hg'⟩ := htask w' g' hg'
    obtain ⟨ℓ,hℓ,hguard,hr⟩ := h.held w' g' hg'
    have hother : ℓ.guard ≠ g := by
      intro he
      exact hne (h.single w' w g (by rw [hg',← hguard,he]) hw)
    exact ⟨ℓ,List.mem_map.mpr ⟨ℓ,hℓ,by rw [Lease.give,if_neg hother]⟩,hguard,hr⟩
  · intro w' w'' g' hg' hg''
    exact h.single w' w'' g' (htask w' g' hg').2 (htask w'' g' hg'').2

theorem sound_step (h : Sound s) (a : Label) (hf : FreshOwner s a) : Sound (step s a) := by
  cases a with
  | tick d => exact h.tick d
  | acquire w r =>
    simp only [step]
    split
    · exact h.goto (fun _ hg => by cases hg)
    · exact h
  | attempt w owner =>
    simp only [step]
    split
    next r deadline wakes hw =>
      split
      · exact sound_attempt h hw hf
      · exact h
    · exact h
  | release w =>
    simp only [step]
    split
    next g hw => exact sound_give h (by rw [hw]; rfl)
    · exact h
  | keep w =>
    simp only [step]
    split
    · exact h.goto (fun _ hg => by cases hg)
    · exact h
  | finish w =>
    simp only [step]
    split
    next g hw => exact sound_give h (by rw [hw]; rfl)
    · exact h
  | drop w =>
    simp only [step]
    split
    · exact h.goto (fun _ hg => by cases hg)
    · exact h.goto (fun _ hg => by cases hg)
    · exact h

/-- However tasks take, keep, drop and give back their locks, and however time passes,
every lease is safe at every moment, as long as no token is minted twice. -/
theorem run_lease_safe (labels : List Label) (hfresh : Trace.Along step FreshOwner init labels) :
    Trace.Always step LeaseSafe init labels := by
  have hsound := Trace.always_of_along (P := Sound) (fun _ a hs hf => sound_step hs a hf) sound_init hfresh
  exact hsound.mono (fun _ hs => hs.leaseSafe)

/-- A holder overruns its minute, a second one takes the lock, and the first releases. -/
def overrun : List Label :=
  let nightly := LockManager.new.lock "nightly" (Duration.fromSecs 60)
  [.acquire 0 ⟨nightly,none,true⟩,.attempt 0 "a",.tick (Duration.fromSecs 61),
    .acquire 1 ⟨nightly,some (Duration.fromSecs 2),false⟩,.attempt 1 "b",.finish 0,
    .acquire 2 ⟨nightly,none,false⟩,.attempt 2 "c"]

theorem overrun_lease_safe :
    Trace.Along step FreshOwner init overrun ∧ Trace.Always step LeaseSafe init overrun := by
  have hfresh : Trace.Along step FreshOwner init overrun := by decide
  exact ⟨hfresh,run_lease_safe overrun hfresh⟩

/-- The second holder still has the lock, and the third went without. -/
example : (Trace.run step init overrun).tasks 1 = .holding ⟨"lock:nightly","b"⟩ ∧
    (Trace.run step init overrun).tasks 2 = .idle := by decide

end Rainier.Cache.LockRun
