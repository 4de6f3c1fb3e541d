import Mathlib.Data.Finset.Card
import Mathlib.Data.List.Basic
import Mathlib.Logic.Function.Basic

/-! # The container

Types are bound to factories, which resolve what they need from this container or another one. What
is being resolved on the thread is kept in one stack for all containers, by type.
-/
namespace Rainier.Container

/-- The containers are told apart by `C`, the types by `T`. -/
structure Factory (C T : Type) where
  needs : List (C × T)
  /-- Whether it fails with what it needs. -/
  fails : Bool
  deriving DecidableEq, Repr

inductive Binding (C T : Type) where
  | transient (factory : Factory C T)
  | shared (factory : Factory C T) (perScope : Bool)
  deriving DecidableEq, Repr

/-- All bindings of all containers: there are finitely many. -/
structure Containers (C T : Type) where
  binding : C × T → Option (Binding C T)
  types : Finset T
  mem_types : ∀ p b, binding p = some b → p.2 ∈ types

/-- The slot of a shared binding holds its instance, and is locked while that is built. -/
structure State (C T : Type) where
  slots : C × T → Option ℕ
  resolving : List T
  locked : List (C × T)
  /-- The factories that succeeded, in order. An instance is known by its place. -/
  built : List (C × T)

inductive Failure (C T : Type) where
  | unbound (type : T)
  | circular (chain : List T)
  | factory (failed : C × T)
  deriving DecidableEq, Repr

variable {C T : Type} [DecidableEq C] [DecidableEq T]

/-- `none` where nothing is returned. -/
abbrev Resolver (C T : Type) : Type := State C T → C × T → Option (State C T × Except (Failure C T) ℕ)

def resolveAll (resolver : Resolver C T) (s : State C T) : List (C × T) → Option (State C T × Option (Failure C T))
  | [] => some (s,none)
  | p :: rest =>
    match resolver s p with
    | none => none
    | some (s,.error e) => some (s,some e)
    | some (s,.ok _) => resolveAll resolver s rest

def Factory.run (resolver : Resolver C T) (s : State C T) (p : C × T) (factory : Factory C T) :
    Option (State C T × Except (Failure C T) ℕ) :=
  match resolveAll resolver s factory.needs with
  | none => none
  | some (s,some e) => some (s,.error e)
  | some (s,none) =>
    if factory.fails then some (s,.error (.factory p))
    else some ({ s with built := s.built ++ [p] },.ok s.built.length)

/-- A mutex that is held is waited for in vain: there is only this thread. -/
def build (resolver : Resolver C T) (s : State C T) (p : C × T) : Binding C T → Option (State C T × Except (Failure C T) ℕ)
  | .transient factory => factory.run resolver s p
  | .shared factory _ =>
    if p ∈ s.locked then none
    else
      match s.slots p with
      | some existing => some (s,.ok existing)
      | none =>
        match factory.run resolver { s with locked := p :: s.locked } p with
        | none => none
        | some (s,.error e) => some ({ s with locked := s.locked.erase p },.error e)
        | some (s,.ok built) =>
          some ({ s with slots := Function.update s.slots p (some built), locked := s.locked.erase p },.ok built)

/-- The guard is dropped whatever the factory returns. -/
def step (w : Containers C T) (resolver : Resolver C T) : Resolver C T := fun s p =>
  match w.binding p with
  | none => some (s,.error (.unbound p.2))
  | some binding =>
    if p.2 ∈ s.resolving then some (s,.error (.circular (s.resolving ++ [p.2])))
    else
      match build resolver { s with resolving := s.resolving ++ [p.2] } p binding with
      | none => none
      | some (s,r) => some ({ s with resolving := s.resolving.dropLast },r)

/-- `resolve::<T>` of a container, to the given depth. -/
def resolve (w : Containers C T) : ℕ → Resolver C T
  | 0 => fun _ _ => none
  | n + 1 => step w (resolve w n)

/-- `flush_scoped` -/
def flushScoped (w : Containers C T) (s : State C T) (container : C) : State C T :=
  { s with slots := fun p =>
    match w.binding p with
    | some (.shared _ true) => if p.1 = container then none else s.slots p
    | _ => s.slots p }

/-! ## What every resolution keeps -/

/-- From one state to another, with nothing under way that was not before. -/
structure Kept (w : Containers C T) (s s' : State C T) : Prop where
  resolving : s'.resolving = s.resolving
  locked : s'.locked = s.locked
  keeps : ∀ q i, s.slots q = some i → s'.slots q = some i
  /-- An instance is new, and the binding's own. -/
  fresh : ∀ q i, s.slots q = none → s'.slots q = some i → s.built.length ≤ i ∧ s'.built[i]? = some q
  log : s.built <+: s'.built
  /-- A shared factory succeeds where its slot gets filled, and nowhere else. -/
  once : ∀ q factory perScope, w.binding q = some (.shared factory perScope) →
    s'.built.count q = s.built.count q + if s.slots q = none ∧ s'.slots q ≠ none then 1 else 0
  /-- What is being resolved is not resolved again. -/
  busy : ∀ q, q.2 ∈ s.resolving → s'.slots q = s.slots q ∧ s'.built.count q = s.built.count q

section Kept

variable {w : Containers C T} {s s' s'' : State C T} {resolver : Resolver C T} {p : C × T}

theorem Kept.refl (s : State C T) : Kept w s s where
  resolving := rfl
  locked := rfl
  keeps _ _ h := h
  fresh _ _ hnone hsome := by
    rw [hnone] at hsome
    cases hsome
  log := List.prefix_rfl
  once _ _ _ _ := by simp
  busy _ _ := ⟨rfl,rfl⟩

theorem Kept.trans (h : Kept w s s') (h' : Kept w s' s'') : Kept w s s'' where
  resolving := h'.resolving.trans h.resolving
  locked := h'.locked.trans h.locked
  keeps q i hq := h'.keeps q i (h.keeps q i hq)
  fresh q i hnone hsome := by
    cases hq : s'.slots q with
    | none =>
      obtain ⟨hle,hi⟩ := h'.fresh q i hq hsome
      exact ⟨h.log.length_le.trans hle,hi⟩
    | some j =>
      rw [h'.keeps q j hq] at hsome
      cases hsome
      obtain ⟨hle,hi⟩ := h.fresh q i hnone hq
      obtain ⟨new,hnew⟩ := h'.log
      refine ⟨hle,?_⟩
      rw [← hnew,List.getElem?_append_left (List.getElem?_eq_some_iff.1 hi).1,hi]
  log := h.log.trans h'.log
  once q factory perScope hq := by
    rw [h'.once q factory perScope hq,h.once q factory perScope hq]
    cases hs : s.slots q with
    | some i => simp [h.keeps q i hs]
    | none =>
      cases hs' : s'.slots q with
      | some i => simp [h'.keeps q i hs']
      | none => simp
  busy q hq := by
    obtain ⟨hslots,hcount⟩ := h.busy q hq
    obtain ⟨hslots',hcount'⟩ := h'.busy q (by rw [h.resolving]; exact hq)
    exact ⟨hslots'.trans hslots,hcount'.trans hcount⟩

/-- A resolver that keeps what is to be kept, and whose instance of a shared binding is in its slot. -/
structure Keeps (w : Containers C T) (resolver : Resolver C T) : Prop where
  kept : ∀ {s p s' r}, resolver s p = some (s',r) → Kept w s s'
  slot : ∀ {s p s' i factory perScope}, w.binding p = some (.shared factory perScope) → resolver s p = some (s',.ok i) →
    s'.slots p = some i

theorem Keeps.resolveAll (h : Keeps w resolver) {needs : List (C × T)} {r : Option (Failure C T)}
    (hr : Container.resolveAll resolver s needs = some (s',r)) : Kept w s s' := by
  induction needs generalizing s with
  | nil =>
    cases hr
    exact .refl _
  | cons p rest ih =>
    rw [Container.resolveAll] at hr
    cases hp : resolver s p with
    | none =>
      rw [hp] at hr
      cases hr
    | some pair =>
      obtain ⟨s₁,e | i⟩ := pair
      · rw [hp] at hr
        cases hr
        exact h.kept hp
      · rw [hp] at hr
        exact (h.kept hp).trans (ih hr)

/-- A factory that succeeds is entered in the log, after all that it needs. -/
theorem Keeps.run (h : Keeps w resolver) {factory : Factory C T} {r : Except (Failure C T) ℕ}
    (hr : factory.run resolver s p = some (s',r)) : ∃ s₁, Kept w s s₁ ∧ ((∃ e, r = .error e) ∧ s' = s₁ ∨
      r = .ok s₁.built.length ∧ factory.fails = false ∧ s' = { s₁ with built := s₁.built ++ [p] }) := by
  rw [Factory.run] at hr
  cases hall : Container.resolveAll resolver s factory.needs with
  | none =>
    rw [hall] at hr
    cases hr
  | some pair =>
    obtain ⟨s₁,e | e⟩ := pair
    · rw [hall] at hr
      dsimp only at hr
      split at hr
      · cases hr
        exact ⟨_,h.resolveAll hall,.inl ⟨⟨_,rfl⟩,rfl⟩⟩
      · next hfails =>
        cases hr
        exact ⟨_,h.resolveAll hall,.inr ⟨rfl,by simpa using hfails,rfl⟩⟩
    · rw [hall] at hr
      cases hr
      exact ⟨_,h.resolveAll hall,.inl ⟨⟨_,rfl⟩,rfl⟩⟩

/-- What is kept with more under way is kept when that is left again. -/
theorem Kept.leave {s₀ s₁ : State C T} {t : T} (h : Kept w s₀ s₁) (hslots : s₀.slots = s.slots) (hbuilt : s₀.built = s.built)
    (hresolving : s₀.resolving = s.resolving ++ [t]) (hslots' : s'.slots = s₁.slots) (hbuilt' : s'.built = s₁.built)
    (hresolving' : s'.resolving = s.resolving) (hlocked : s'.locked = s.locked) : Kept w s s' where
  resolving := hresolving'
  locked := hlocked
  keeps q i := by
    rw [← hslots,hslots']
    exact h.keeps q i
  fresh q i := by
    rw [← hslots,hslots',hbuilt',← hbuilt]
    exact h.fresh q i
  log := by
    rw [← hbuilt,hbuilt']
    exact h.log
  once q := by
    rw [← hslots,hslots',← hbuilt,hbuilt']
    exact h.once q
  busy q hq := by
    rw [← hslots,hslots',← hbuilt,hbuilt']
    exact h.busy q (by rw [hresolving]; exact List.mem_append_left _ hq)

/-- A transient factory is entered in the log only. -/
theorem Kept.transient {factory : Factory C T} (h : Kept w s s') (hp : w.binding p = some (.transient factory))
    (hidle : p.2 ∉ s.resolving) : Kept w s { s' with built := s'.built ++ [p] } where
  resolving := h.resolving
  locked := h.locked
  keeps := h.keeps
  fresh q i hnone hsome := by
    obtain ⟨hle,hi⟩ := h.fresh q i hnone hsome
    refine ⟨hle,?_⟩
    rw [List.getElem?_append_left (List.getElem?_eq_some_iff.1 hi).1,hi]
  log := h.log.trans (List.prefix_append _ _)
  once q factory' perScope hq := by
    have hne : q ≠ p := by
      rintro rfl
      rw [hp] at hq
      cases hq
    rw [List.count_append,List.count_singleton,if_neg (by simpa using hne.symm),Nat.add_zero]
    exact h.once q factory' perScope hq
  busy q hq := by
    have hne : q ≠ p := by
      rintro rfl
      exact hidle hq
    rw [List.count_append,List.count_singleton,if_neg (by simpa using hne.symm),Nat.add_zero]
    exact h.busy q hq

/-- A shared factory is entered in the log, and its instance in the slot. -/
theorem Kept.shared (h : Kept w s s') (hslot : s.slots p = none) (hslot' : s'.slots p = none) (hidle : p.2 ∉ s.resolving) :
    Kept w s { s' with slots := Function.update s'.slots p (some s'.built.length), built := s'.built ++ [p] } where
  resolving := h.resolving
  locked := h.locked
  keeps q i hq := by
    have hne : q ≠ p := by
      rintro rfl
      rw [hslot] at hq
      cases hq
    dsimp only
    rw [Function.update_of_ne hne]
    exact h.keeps q i hq
  fresh q i hnone hsome := by
    dsimp only at hsome ⊢
    by_cases hq : q = p
    · rw [hq,Function.update_self] at hsome
      cases hsome
      exact ⟨h.log.length_le,by rw [List.getElem?_concat_length,hq]⟩
    · rw [Function.update_of_ne hq] at hsome
      obtain ⟨hle,hi⟩ := h.fresh q i hnone hsome
      refine ⟨hle,?_⟩
      rw [List.getElem?_append_left (List.getElem?_eq_some_iff.1 hi).1,hi]
  log := h.log.trans (List.prefix_append _ _)
  once q factory perScope hq := by
    have hcount := h.once q factory perScope hq
    dsimp only
    rw [List.count_append,List.count_singleton]
    by_cases hqp : q = p
    · subst hqp
      simp [hslot,hslot'] at hcount ⊢
      exact hcount
    · rw [if_neg (by simpa using Ne.symm hqp),Nat.add_zero,hcount]
      simp only [Function.update_of_ne hqp]
  busy q hq := by
    have hne : q ≠ p := by
      rintro rfl
      exact hidle hq
    dsimp only
    rw [List.count_append,List.count_singleton,if_neg (by simpa using hne.symm),Nat.add_zero,Function.update_of_ne hne]
    exact h.busy q hq

/-! ### One level of resolving -/

/-- With a type under way. -/
def State.enter (s : State C T) (t : T) : State C T := { s with resolving := s.resolving ++ [t] }

/-- With the instance in the slot, where there is one. -/
def State.fill (s : State C T) (p : C × T) : Except (Failure C T) ℕ → State C T
  | .ok i => { s with slots := Function.update s.slots p (some i) }
  | .error _ => s

/-- What one level of resolving does: the guards, an instance that is there, and the factory. -/
theorem step_cases {r : Except (Failure C T) ℕ} (h : step w resolver s p = some (s',r)) :
    (w.binding p = none ∧ s' = s ∧ r = .error (.unbound p.2)) ∨
    (∃ b, w.binding p = some b ∧ p.2 ∈ s.resolving ∧ s' = s ∧ r = .error (.circular (s.resolving ++ [p.2]))) ∨
    (∃ factory s₁, w.binding p = some (.transient factory) ∧ p.2 ∉ s.resolving ∧
      factory.run resolver (s.enter p.2) p = some (s₁,r) ∧ s' = { s₁ with resolving := s₁.resolving.dropLast }) ∨
    (∃ factory perScope i, w.binding p = some (.shared factory perScope) ∧ p.2 ∉ s.resolving ∧ p ∉ s.locked ∧
      s.slots p = some i ∧ s' = s ∧ r = .ok i) ∨
    (∃ factory perScope s₁, w.binding p = some (.shared factory perScope) ∧ p.2 ∉ s.resolving ∧ p ∉ s.locked ∧ s.slots p = none ∧
      factory.run resolver { s.enter p.2 with locked := p :: s.locked } p = some (s₁,r) ∧
      s' = { s₁.fill p r with resolving := s₁.resolving.dropLast, locked := s₁.locked.erase p }) := by
  rw [step] at h
  cases hp : w.binding p with
  | none =>
    rw [hp] at h
    cases h
    exact .inl ⟨rfl,rfl,rfl⟩
  | some b =>
    rw [hp] at h
    right
    dsimp only at h
    by_cases hbusy : p.2 ∈ s.resolving
    · rw [if_pos hbusy] at h
      cases h
      exact .inl ⟨b,rfl,hbusy,rfl,rfl⟩
    · rw [if_neg hbusy] at h
      right
      cases b with
      | transient factory =>
        left
        rw [build,← State.enter] at h
        cases hrun : factory.run resolver (s.enter p.2) p with
        | none =>
          rw [hrun] at h
          cases h
        | some pair =>
          rw [hrun] at h
          cases h
          exact ⟨factory,pair.1,rfl,hbusy,hrun,rfl⟩
      | shared factory perScope =>
        right
        rw [build,← State.enter] at h
        by_cases hlocked : p ∈ s.locked
        · have hlocked' : p ∈ (s.enter p.2).locked := hlocked
          rw [if_pos hlocked'] at h
          cases h
        · have hlocked' : p ∉ (s.enter p.2).locked := hlocked
          rw [if_neg hlocked'] at h
          cases hslot : s.slots p with
          | some i =>
            have hslot' : (s.enter p.2).slots p = some i := hslot
            rw [hslot'] at h
            cases h
            left
            refine ⟨factory,perScope,i,rfl,hbusy,hlocked,rfl,?_,rfl⟩
            simp [State.enter]
          | none =>
            have hslot' : (s.enter p.2).slots p = none := hslot
            rw [hslot'] at h
            dsimp only at h
            right
            cases hrun : factory.run resolver { s.enter p.2 with locked := p :: s.locked } p with
            | none =>
              have hrun' : factory.run resolver { s.enter p.2 with locked := p :: (s.enter p.2).locked } p = none := hrun
              rw [hrun'] at h
              cases h
            | some pair =>
              obtain ⟨s₁,r₁⟩ := pair
              have hrun' : factory.run resolver { s.enter p.2 with locked := p :: (s.enter p.2).locked } p = some (s₁,r₁) := hrun
              rw [hrun'] at h
              cases r₁ with
              | error e =>
                cases h
                exact ⟨factory,perScope,s₁,rfl,hbusy,hlocked,rfl,hrun,rfl⟩
              | ok i =>
                cases h
                exact ⟨factory,perScope,s₁,rfl,hbusy,hlocked,rfl,hrun,rfl⟩

/-- What one level adds to what is kept: the instance of the type that was resolved. -/
theorem Keeps.step (h : Keeps w resolver) : Keeps w (step w resolver) where
  kept {s p s' r} hstep := by
    obtain ⟨-,rfl,-⟩ | ⟨b,-,-,rfl,-⟩ | ⟨factory,s₁,hp,hidle,hrun,rfl⟩ | ⟨factory,perScope,i,-,-,-,-,rfl,-⟩ |
      ⟨factory,perScope,s₁,hp,hidle,hlocked,hslot,hrun,rfl⟩ := step_cases hstep
    · exact .refl _
    · exact .refl _
    · obtain ⟨s₂,hkept,⟨-,rfl⟩ | ⟨-,-,rfl⟩⟩ := h.run hrun
      · exact hkept.leave rfl rfl rfl rfl rfl (by simp [hkept.resolving,State.enter]) hkept.locked
      · have hleft : Kept w s { s₂ with resolving := s₂.resolving.dropLast } :=
          hkept.leave rfl rfl rfl rfl rfl (by simp [hkept.resolving,State.enter]) hkept.locked
        exact hleft.transient hp hidle
    · exact .refl _
    · obtain ⟨s₂,hkept,⟨⟨e,rfl⟩,rfl⟩ | ⟨rfl,-,rfl⟩⟩ := h.run hrun
      · exact hkept.leave rfl rfl rfl rfl rfl (by simp [hkept.resolving,State.enter]) (by simp [hkept.locked])
      · have hleft : Kept w s { s₂ with resolving := s₂.resolving.dropLast, locked := s₂.locked.erase p } :=
          hkept.leave rfl rfl rfl rfl rfl (by simp [hkept.resolving,State.enter]) (by simp [hkept.locked])
        have hbusy : p.2 ∈ (s.enter p.2).resolving := List.mem_append_right _ List.mem_cons_self
        exact hleft.shared hslot ((hkept.busy p hbusy).1.trans hslot) hidle
  slot {s p s' i factory perScope} hp hstep := by
    obtain ⟨-,-,hr⟩ | ⟨b,-,-,-,hr⟩ | ⟨factory',s₁,hp',-,-,-⟩ | ⟨factory,perScope,j,-,-,-,hslot,rfl,hr⟩ |
      ⟨factory,perScope,s₁,-,-,-,-,hrun,rfl⟩ := step_cases hstep
    · cases hr
    · cases hr
    · rw [hp] at hp'
      cases hp'
    · cases hr
      exact hslot
    · exact Function.update_self _ _ _

theorem keeps_resolve (w : Containers C T) (n : ℕ) : Keeps w (resolve w n) := by
  induction n with
  | zero =>
    constructor
    · intro s p s' r h
      cases h
    · intro s p s' i factory perScope _ h
      cases h
  | succ n ih => exact ih.step

/-! ## Depth -/

/-- A resolver that returns wherever another one does, with the same. -/
def Extends (resolver resolver' : Resolver C T) : Prop := ∀ s p x, resolver s p = some x → resolver' s p = some x

variable {resolver' : Resolver C T}

omit [DecidableEq C] [DecidableEq T] in
theorem Extends.resolveAll (h : Extends resolver resolver') {needs : List (C × T)} {x : State C T × Option (Failure C T)}
    (hx : Container.resolveAll resolver s needs = some x) : Container.resolveAll resolver' s needs = some x := by
  induction needs generalizing s with
  | nil => exact hx
  | cons p rest ih =>
    rw [Container.resolveAll] at hx ⊢
    cases hp : resolver s p with
    | none =>
      rw [hp] at hx
      cases hx
    | some pair =>
      rw [hp] at hx
      rw [h s p pair hp]
      obtain ⟨s₁,e | i⟩ := pair
      · exact hx
      · exact ih hx

omit [DecidableEq C] [DecidableEq T] in
theorem Extends.run (h : Extends resolver resolver') {factory : Factory C T} {x : State C T × Except (Failure C T) ℕ}
    (hx : factory.run resolver s p = some x) : factory.run resolver' s p = some x := by
  rw [Factory.run] at hx ⊢
  cases hall : Container.resolveAll resolver s factory.needs with
  | none =>
    rw [hall] at hx
    cases hx
  | some pair =>
    rw [hall] at hx
    rw [h.resolveAll hall]
    exact hx

theorem Extends.build (h : Extends resolver resolver') {b : Binding C T} {x : State C T × Except (Failure C T) ℕ}
    (hx : build resolver s p b = some x) : Container.build resolver' s p b = some x := by
  cases b with
  | transient factory => exact h.run hx
  | shared factory perScope =>
    rw [Container.build] at hx ⊢
    by_cases hlocked : p ∈ s.locked
    · rw [if_pos hlocked] at hx
      cases hx
    · rw [if_neg hlocked] at hx ⊢
      cases hslot : s.slots p with
      | some i =>
        rw [hslot] at hx
        exact hx
      | none =>
        rw [hslot] at hx
        dsimp only at hx ⊢
        cases hrun : factory.run resolver { s with locked := p :: s.locked } p with
        | none =>
          rw [hrun] at hx
          cases hx
        | some pair =>
          rw [hrun] at hx
          rw [h.run hrun]
          exact hx

theorem Extends.step (h : Extends resolver resolver') : Extends (step w resolver) (Container.step w resolver') := by
  intro s p x hx
  rw [Container.step] at hx ⊢
  cases hp : w.binding p with
  | none =>
    rw [hp] at hx
    exact hx
  | some b =>
    rw [hp] at hx
    dsimp only at hx ⊢
    by_cases hbusy : p.2 ∈ s.resolving
    · rw [if_pos hbusy] at hx ⊢
      exact hx
    · rw [if_neg hbusy] at hx ⊢
      cases hbuild : Container.build resolver { s with resolving := s.resolving ++ [p.2] } p b with
      | none =>
        rw [hbuild] at hx
        cases hx
      | some pair =>
        rw [hbuild] at hx
        rw [h.build hbuild]
        exact hx

/-- Deeper resolving returns the same. -/
theorem extends_resolve {n m : ℕ} (h : n ≤ m) : Extends (resolve w n) (resolve w m) := by
  induction n generalizing m with
  | zero =>
    intro s p x hx
    cases hx
  | succ n ih =>
    cases m with
    | zero => omega
    | succ m => exact (ih (Nat.le_of_succ_le_succ h)).step

end Kept

end Rainier.Container
