import Rainier.Container.Evaluation

/-! # What resolving does

A resolution succeeds where the evaluation does, as long as no type is met that is being built for
another container. It always returns, builds a shared instance once and leaves nothing behind when it
fails.
-/
namespace Rainier.Container

variable {C T : Type} [DecidableEq C] [DecidableEq T] {w : Containers C T}

/-- The bindings whose instance is there. -/
def State.ready (s : State C T) : Set (C × T) := {p | ∃ i, s.slots p = some i}

/-- The stack of the thread is that of what is being built, and nothing else is locked. -/
structure Building (s : State C T) (building : List (C × T)) : Prop where
  resolving : s.resolving = building.map Prod.snd
  locked : ∀ q ∈ s.locked, q ∈ building

section Building

variable {s s' : State C T} {building : List (C × T)} {p : C × T}

theorem Building.kept (h : Building s building) (hkept : Kept w s s') : Building s' building where
  resolving := hkept.resolving.trans h.resolving
  locked := by
    rw [hkept.locked]
    exact h.locked

omit [DecidableEq C] [DecidableEq T] in
theorem Building.enter (h : Building s building) (p : C × T) : Building (s.enter p.2) (building ++ [p]) where
  resolving := by rw [State.enter,h.resolving,List.map_append,List.map_singleton]
  locked q hq := List.mem_append_left _ (h.locked q hq)

omit [DecidableEq C] [DecidableEq T] in
theorem Building.lock (h : Building s building) (p : C × T) :
    Building { s.enter p.2 with locked := p :: s.locked } (building ++ [p]) where
  resolving := (h.enter p).resolving
  locked q hq := by
    obtain rfl | hq := List.mem_cons.1 hq
    · exact List.mem_append_right _ List.mem_cons_self
    · exact List.mem_append_left _ (h.locked q hq)

omit [DecidableEq C] [DecidableEq T] in
theorem Building.idle (h : Building s building) (hp : p.2 ∉ s.resolving) : p ∉ building := by
  intro hmem
  rw [h.resolving] at hp
  exact hp (List.mem_map.2 ⟨p,hmem,rfl⟩)

omit [DecidableEq C] [DecidableEq T] in
/-- A mutex is held only while its type is on the stack. -/
theorem Building.unlocked (h : Building s building) (hp : p.2 ∉ s.resolving) : p ∉ s.locked := fun hmem => h.idle hp (h.locked p hmem)

omit [DecidableEq C] [DecidableEq T] in
theorem Building.apart (h : Building s building) (hp : p.2 ∉ s.resolving) : Visit.Apart (building,p) := by
  intro q hq hsame
  rw [h.resolving] at hp
  exact absurd (List.mem_map.2 ⟨q,hq,hsame⟩) hp

omit [DecidableEq C] [DecidableEq T] in
/-- Where nothing of the type is built for another container, it is not on the stack. -/
theorem Building.free (h : Building s building) (hapart : Visit.Apart (building,p)) (hp : p ∉ building) : p.2 ∉ s.resolving := by
  rw [h.resolving]
  intro hmem
  obtain ⟨q,hq,hsame⟩ := List.mem_map.1 hmem
  have hqp : q = p := hapart q hq hsame
  rw [hqp] at hq
  exact hp hq

theorem ready_fill (i : ℕ) : (s.fill p (.ok i)).ready = insert p s.ready := by
  ext q
  rw [State.fill,Set.mem_insert_iff]
  by_cases hq : q = p
  · subst hq
    simp [State.ready]
  · simp [State.ready,hq]

end Building

/-! ## What is resolved is evaluated -/

section Soundness

variable {resolver : Resolver C T} {s s' : State C T} {building needs : List (C × T)} {p : C × T} {factory : Factory C T} {i : ℕ}

omit [DecidableEq C] [DecidableEq T] in
theorem run_eq_ok (h : factory.run resolver s p = some (s',.ok i)) : ∃ s₁, resolveAll resolver s factory.needs = some (s₁,none) ∧
    factory.fails = false ∧ s' = { s₁ with built := s₁.built ++ [p] } := by
  rw [Factory.run] at h
  cases hall : resolveAll resolver s factory.needs with
  | none =>
    rw [hall] at h
    cases h
  | some pair =>
    rw [hall] at h
    obtain ⟨s₁,e | e⟩ := pair
    · dsimp only at h
      split at h
      · cases h
      · next hfails =>
        cases h
        exact ⟨s₁,rfl,by simpa using hfails,rfl⟩
    · cases h

/-- A resolver whose successes are evaluations in which nothing is built for two containers. -/
def Sound (w : Containers C T) (resolver : Resolver C T) : Prop := ∀ s building p s' i, Building s building →
  resolver s p = some (s',.ok i) → ∃ visits, Evaluates w s.ready building [p] s'.ready visits ∧ ∀ v ∈ visits, v.Apart

theorem Sound.resolveAll (h : Sound w resolver) (hkeeps : Keeps w resolver) (hs : Building s building)
    (hall : Container.resolveAll resolver s needs = some (s',none)) :
    ∃ visits, Evaluates w s.ready building needs s'.ready visits ∧ ∀ v ∈ visits, v.Apart := by
  induction needs generalizing s with
  | nil =>
    cases hall
    exact ⟨[],.nil _ _,by simp⟩
  | cons p rest ih =>
    rw [Container.resolveAll] at hall
    cases hp : resolver s p with
    | none =>
      rw [hp] at hall
      cases hall
    | some pair =>
      rw [hp] at hall
      obtain ⟨s₁,e | i⟩ := pair
      · cases hall
      · obtain ⟨visits,heval,hapart⟩ := h s building p s₁ i hs hp
        obtain ⟨visits',heval',hapart'⟩ := ih (hs.kept (hkeeps.kept hp)) hall
        refine ⟨visits ++ visits',heval.append heval',fun v hv => ?_⟩
        obtain hv | hv := List.mem_append.1 hv
        · exact hapart v hv
        · exact hapart' v hv

theorem Sound.step (h : Sound w resolver) (hkeeps : Keeps w resolver) : Sound w (Container.step w resolver) := by
  intro s building p s' i hs hstep
  obtain ⟨-,-,hr⟩ | ⟨b,-,-,-,hr⟩ | ⟨factory,s₁,hp,hidle,hrun,rfl⟩ | ⟨factory,perScope,j,hp,hidle,-,hslot,rfl,-⟩ |
    ⟨factory,perScope,s₁,hp,hidle,hlocked,hslot,hrun,rfl⟩ := step_cases hstep
  · cases hr
  · cases hr
  · obtain ⟨s₂,hall,hfails,rfl⟩ := run_eq_ok hrun
    obtain ⟨visits,heval,hapart⟩ := h.resolveAll hkeeps (hs.enter p) hall
    refine ⟨_,.transient hp (hs.idle hidle) hfails heval (.nil _ _),fun v hv => ?_⟩
    rw [List.append_nil] at hv
    obtain rfl | hv := List.mem_cons.1 hv
    · exact hs.apart hidle
    · exact hapart v hv
  · refine ⟨_,.ready hp (hs.idle hidle) ⟨j,hslot⟩ (.nil _ _),fun v hv => ?_⟩
    rw [List.mem_singleton.1 hv]
    exact hs.apart hidle
  · obtain ⟨s₂,hall,hfails,rfl⟩ := run_eq_ok hrun
    obtain ⟨visits,heval,hapart⟩ := h.resolveAll hkeeps (hs.lock p) hall
    have hready : p ∉ s.ready := by
      rintro ⟨j,hj⟩
      rw [hslot] at hj
      cases hj
    have hfill : State.ready { State.fill { s₂ with built := s₂.built ++ [p] } p (.ok i) with
        resolving := s₂.resolving.dropLast, locked := s₂.locked.erase p } = insert p s₂.ready := ready_fill i
    have hrest : Evaluates w (insert p s₂.ready) building [] (insert p s₂.ready) [] := .nil _ _
    refine ⟨(building,p) :: (visits ++ []),?_,fun v hv => ?_⟩
    · rw [hfill]
      exact .shared hp (hs.idle hidle) hready hfails heval hrest
    · rw [List.append_nil] at hv
      obtain rfl | hv := List.mem_cons.1 hv
      · exact hs.apart hidle
      · exact hapart v hv

theorem sound_resolve (w : Containers C T) (n : ℕ) : Sound w (resolve w n) := by
  induction n with
  | zero =>
    intro s building p s' i _ h
    cases h
  | succ n ih => exact ih.step (keeps_resolve w n)

end Soundness

/-! ## What is evaluated is resolved -/

section Completeness

variable {resolver : Resolver C T} {s s₁ : State C T} {ready ready' : Set (C × T)} {building needs : List (C × T)}
  {visits : List (Visit C T)} {p : C × T} {factory : Factory C T} {perScope : Bool} {i : ℕ}

theorem step_ready (hp : w.binding p = some (.shared factory perScope)) (hidle : p.2 ∉ s.resolving) (hlocked : p ∉ s.locked)
    (hslot : s.slots p = some i) : step w resolver s p = some (s,.ok i) := by
  rw [step,hp]
  simp [hidle,build,hlocked,hslot]

theorem step_transient (hp : w.binding p = some (.transient factory)) (hidle : p.2 ∉ s.resolving)
    (hall : resolveAll resolver (s.enter p.2) factory.needs = some (s₁,none)) (hfails : factory.fails = false) :
    step w resolver s p = some ({ s₁ with resolving := s₁.resolving.dropLast, built := s₁.built ++ [p] },.ok s₁.built.length) := by
  rw [State.enter] at hall
  rw [step,hp]
  simp [hidle,build,Factory.run,hall,hfails]

theorem step_shared (hp : w.binding p = some (.shared factory perScope)) (hidle : p.2 ∉ s.resolving) (hlocked : p ∉ s.locked)
    (hslot : s.slots p = none) (hall : resolveAll resolver { s.enter p.2 with locked := p :: s.locked } factory.needs = some (s₁,none))
    (hfails : factory.fails = false) :
    step w resolver s p = some ({ s₁.fill p (.ok s₁.built.length) with
      resolving := s₁.resolving.dropLast, locked := s₁.locked.erase p, built := s₁.built ++ [p] },.ok s₁.built.length) := by
  rw [State.enter] at hall
  rw [step,hp]
  simp [hidle,build,hlocked,hslot,Factory.run,hall,hfails,State.fill]

/-- A type that is resolved from some depth on, and what is resolved after it. -/
theorem resolveAll_cons {n : ℕ} {rest : List (C × T)} (hs : Building s building) (hp : ∀ m ≥ n, resolve w m s p = some (s₁,.ok i))
    (hrest : Building s₁ building → ∃ n s', (∀ m ≥ n, resolveAll (resolve w m) s₁ rest = some (s',none)) ∧ s'.ready = ready') :
    ∃ n s', (∀ m ≥ n, resolveAll (resolve w m) s (p :: rest) = some (s',none)) ∧ s'.ready = ready' := by
  obtain ⟨n',s',hall,hready⟩ := hrest (hs.kept ((keeps_resolve w n).kept (hp n (Nat.le_refl n))))
  refine ⟨max n n',s',fun m hm => ?_,hready⟩
  rw [resolveAll,hp m (le_of_max_le_left hm)]
  exact hall m (le_of_max_le_right hm)

/-- From some depth on. -/
theorem Evaluates.resolveAll (h : Evaluates w ready building needs ready' visits) (hapart : ∀ v ∈ visits, Visit.Apart v)
    (hs : Building s building) (hready : s.ready = ready) :
    ∃ n s', (∀ m ≥ n, Container.resolveAll (resolve w m) s needs = some (s',none)) ∧ s'.ready = ready' := by
  induction h generalizing s with
  | nil => exact ⟨0,s,fun _ _ => rfl,hready⟩
  | @ready ready ready' building rest p factory perScope visits hp hidle hthere hrest ih =>
    have hfree := hs.free (hapart _ List.mem_cons_self) hidle
    obtain ⟨i,hi⟩ : ∃ i, s.slots p = some i := by
      rw [← hready] at hthere
      exact hthere
    have hresolve : ∀ m ≥ 1, resolve w m s p = some (s,.ok i) := by
      intro m hm
      obtain ⟨k,rfl⟩ : ∃ k, m = k + 1 := ⟨m - 1,by omega⟩
      exact step_ready hp hfree (hs.unlocked hfree) hi
    exact resolveAll_cons hs hresolve fun hs => ih (fun v hv => hapart v (List.mem_cons_of_mem _ hv)) hs hready
  | @transient ready ready₁ ready₂ building rest p factory visits visits' hp hidle hfails hneeds hrest ihneeds ihrest =>
    have hfree := hs.free (hapart _ List.mem_cons_self) hidle
    obtain ⟨n,s₁,hall,hready₁⟩ := ihneeds (fun v hv => hapart v (List.mem_cons_of_mem _ (List.mem_append_left _ hv))) (hs.enter p) hready
    have hresolve : ∀ m ≥ n + 1, resolve w m s p =
        some ({ s₁ with resolving := s₁.resolving.dropLast, built := s₁.built ++ [p] },.ok s₁.built.length) := by
      intro m hm
      obtain ⟨k,rfl⟩ : ∃ k, m = k + 1 := ⟨m - 1,by omega⟩
      exact step_transient hp hfree (hall k (by omega)) hfails
    exact resolveAll_cons hs hresolve
      fun hs => ihrest (fun v hv => hapart v (List.mem_cons_of_mem _ (List.mem_append_right _ hv))) hs hready₁
  | @shared ready ready₁ ready₂ building rest p factory perScope visits visits' hp hidle hthere hfails hneeds hrest ihneeds ihrest =>
    have hfree := hs.free (hapart _ List.mem_cons_self) hidle
    have hslot : s.slots p = none := by
      cases hslot : s.slots p with
      | none => rfl
      | some i =>
        rw [← hready] at hthere
        exact absurd ⟨i,hslot⟩ hthere
    obtain ⟨n,s₁,hall,hready₁⟩ := ihneeds (fun v hv => hapart v (List.mem_cons_of_mem _ (List.mem_append_left _ hv))) (hs.lock p) hready
    have hresolve : ∀ m ≥ n + 1, resolve w m s p = some ({ s₁.fill p (.ok s₁.built.length) with
        resolving := s₁.resolving.dropLast, locked := s₁.locked.erase p, built := s₁.built ++ [p] },.ok s₁.built.length) := by
      intro m hm
      obtain ⟨k,rfl⟩ : ∃ k, m = k + 1 := ⟨m - 1,by omega⟩
      exact step_shared hp hfree (hs.unlocked hfree) hslot (hall k (by omega)) hfails
    refine resolveAll_cons hs hresolve
      fun hs => ihrest (fun v hv => hapart v (List.mem_cons_of_mem _ (List.mem_append_right _ hv))) hs ?_
    rw [← hready₁]
    exact ready_fill s₁.built.length

/-! ## Resolving returns -/

/-- The types that can still come on top of the stack. -/
def State.left (w : Containers C T) (s : State C T) : ℕ := (w.types.filter fun t => t ∉ s.resolving).card

/-- On a stack with all types that are bound nothing more can be put, and no mutex is waited for. -/
theorem exists_resolve {n : ℕ} (hs : Building s building) (h : s.left w < n) : ∃ x, resolve w n s p = some x := by
  induction n generalizing s building p with
  | zero => omega
  | succ n ih =>
    rw [resolve]
    cases hp : w.binding p with
    | none => exact ⟨_,by rw [step,hp]⟩
    | some b =>
      by_cases hbusy : p.2 ∈ s.resolving
      · exact ⟨_,by rw [step,hp]; exact if_pos hbusy⟩
      · have hall : ∀ (needs : List (C × T)) {s₁ : State C T}, Building s₁ (building ++ [p]) → s₁.resolving = s.resolving ++ [p.2] →
            ∃ x, resolveAll (resolve w n) s₁ needs = some x := by
          intro needs s₁ hs₁ hresolving
          have hless : s₁.left w < n := by
            have hcard : s₁.left w < s.left w := by
              apply Finset.card_lt_card
              rw [Finset.ssubset_iff_of_subset]
              · exact ⟨p.2,by simp [w.mem_types p b hp,hbusy],by simp [hresolving]⟩
              · intro t ht
                simp only [Finset.mem_filter,hresolving,List.mem_append,not_or] at ht ⊢
                exact ⟨ht.1,ht.2.1⟩
            omega
          induction needs generalizing s₁ with
          | nil => exact ⟨_,rfl⟩
          | cons q rest ihrest =>
            obtain ⟨⟨s₂,e | i⟩,hq⟩ := ih (p := q) hs₁ hless
            · exact ⟨_,by rw [resolveAll,hq]⟩
            · have hkept := (keeps_resolve w n).kept hq
              obtain ⟨x,hx⟩ := ihrest (hs₁.kept hkept) (hkept.resolving.trans hresolving) (by
                rw [State.left,hkept.resolving]
                exact hless)
              exact ⟨x,by rw [resolveAll,hq]; exact hx⟩
        have hrun : ∀ (factory : Factory C T) {s₁ : State C T}, Building s₁ (building ++ [p]) → s₁.resolving = s.resolving ++ [p.2] →
            ∃ x, factory.run (resolve w n) s₁ p = some x := by
          intro factory s₁ hs₁ hresolving
          obtain ⟨⟨s₂,e | e⟩,hneeds⟩ := hall factory.needs hs₁ hresolving
          · rw [Factory.run,hneeds]
            dsimp only
            split <;> exact ⟨_,rfl⟩
          · exact ⟨_,by rw [Factory.run,hneeds]⟩
        cases b with
        | transient factory =>
          obtain ⟨x,hx⟩ := hrun factory (hs.enter p) rfl
          rw [State.enter] at hx
          rw [step,hp]
          simp [hbusy,build,hx]
        | shared factory perScope =>
          obtain ⟨⟨s₂,e | i⟩,hx⟩ := hrun factory (hs.lock p) rfl
          · rw [State.enter] at hx
            rw [step,hp]
            cases hslot : s.slots p with
            | none => simp [hbusy,build,hs.unlocked hbusy,hslot,hx]
            | some i => simp [hbusy,build,hs.unlocked hbusy,hslot]
          · rw [State.enter] at hx
            rw [step,hp]
            cases hslot : s.slots p with
            | none => simp [hbusy,build,hs.unlocked hbusy,hslot,hx]
            | some i => simp [hbusy,build,hs.unlocked hbusy,hslot]

end Completeness

/-! ## Runs -/

/-- Between resolutions the instances of a scope may be dropped. -/
inductive Op (C T : Type) where
  | resolve (p : C × T)
  | flush (container : C)

inductive Runs (w : Containers C T) : State C T → List (Op C T) → State C T → Prop where
  | nil (s : State C T) : Runs w s [] s
  | resolve {s s₁ s' : State C T} {n : ℕ} {p : C × T} {r : Except (Failure C T) ℕ} {ops : List (Op C T)}
      (hp : resolve w n s p = some (s₁,r)) (hrest : Runs w s₁ ops s') : Runs w s (.resolve p :: ops) s'
  | flush {s s' : State C T} {container : C} {ops : List (Op C T)} (hrest : Runs w (flushScoped w s container) ops s') :
      Runs w s (.flush container :: ops) s'

/-- None of the flushes drops the instance. -/
def Lasting (ops : List (Op C T)) (q : C × T) (perScope : Bool) : Prop := perScope = true → .flush q.1 ∉ ops

section Runs

variable {s s' : State C T} {ops : List (Op C T)} {q : C × T} {factory : Factory C T} {perScope : Bool}

omit [DecidableEq T] in
theorem flushScoped_slots (container : C) (hq : w.binding q = some (.shared factory perScope))
    (h : perScope = true → q.1 ≠ container) : (flushScoped w s container).slots q = s.slots q := by
  rw [flushScoped]
  dsimp only
  rw [hq]
  cases perScope with
  | false => rfl
  | true => exact if_neg (h rfl)

/-- Between flushes a shared factory succeeds once, and its instance stays. -/
theorem Runs.once (h : Runs w s ops s') (hq : w.binding q = some (.shared factory perScope)) (hlasting : Lasting ops q perScope) :
    (∀ i, s.slots q = some i → s'.slots q = some i) ∧
      s'.built.count q = s.built.count q + if s.slots q = none ∧ s'.slots q ≠ none then 1 else 0 := by
  induction h with
  | nil s => exact ⟨fun _ h => h,by simp⟩
  | @resolve s s₁ s' n p r ops hp hrest ih =>
    have hkept := (keeps_resolve w n).kept hp
    obtain ⟨hkeeps,hcount⟩ := ih fun hscope hmem => hlasting hscope (List.mem_cons_of_mem _ hmem)
    refine ⟨fun i hi => hkeeps i (hkept.keeps q i hi),?_⟩
    rw [hcount,hkept.once q factory perScope hq]
    cases hs : s.slots q with
    | some i => simp [hkept.keeps q i hs]
    | none =>
      cases hs₁ : s₁.slots q with
      | some i => simp [hkeeps i hs₁]
      | none => simp
  | @flush s s' container ops hrest ih =>
    have hsame := flushScoped_slots (s := s) container hq fun hscope heq => hlasting hscope (by rw [heq]; exact List.mem_cons_self)
    have h := ih fun hscope hmem => hlasting hscope (List.mem_cons_of_mem _ hmem)
    rw [hsame] at h
    exact h

end Runs

/-! ## Resolving as a whole -/

/-- Between two resolutions: nothing is under way. -/
def State.idle (slots : C × T → Option ℕ) (built : List (C × T)) : State C T := ⟨slots,[],[],built⟩

/-- After bindings were replaced: their slots are new. -/
def State.rebound (s : State C T) (replaced : C × T → Bool) : State C T :=
  { s with slots := fun q => if replaced q then none else s.slots q }

/-- What resolving a type is to do, from any instances there are. -/
structure Resolves (w : Containers C T) (s : State C T) (p : C × T) : Prop where
  returns : ∃ n x, ∀ m ≥ n, resolve w m s p = some x
  ok_iff : (∃ n s' i, resolve w n s p = some (s',.ok i)) ↔ ∃ ready visits, Evaluates w s.ready [] [p] ready visits
  /-- Nothing stays on the stack, whatever happened. -/
  unwinds : ∀ n s' r, resolve w n s p = some (s',r) → s'.resolving = s.resolving ∧ s'.locked = s.locked
  /-- A slot that is filled was, or its factory has succeeded since. -/
  unbuilt : ∀ n s' r, resolve w n s p = some (s',r) → ∀ q i, s'.slots q = some i →
    s.slots q = some i ∨ s.built.length ≤ i ∧ s'.built[i]? = some q
  once : ∀ ops s', Runs w s ops s' → ∀ q factory perScope, w.binding q = some (.shared factory perScope) →
    Lasting ops q perScope → s'.built.count q ≤ s.built.count q + 1 ∧ (s.slots q ≠ none → s'.built.count q = s.built.count q)
  /-- As long as it is not dropped, the instance is the same. -/
  same : ∀ q factory perScope, w.binding q = some (.shared factory perScope) → ∀ n s₁ i ops s₂ m s₃ j,
    resolve w n s q = some (s₁,.ok i) → Runs w s₁ ops s₂ → Lasting ops q perScope → resolve w m s₂ q = some (s₃,.ok j) → i = j
  /-- With bindings that make up for a failure, resolving again evaluates what it would have without it. -/
  again : ∀ n s' e, resolve w n s p = some (s',.error e) → ∀ (w' : Containers C T) replaced,
    (∃ ready visits, Evaluates w' (s.rebound replaced).ready [] [p] ready visits) →
      ∃ ready visits, Evaluates w' (s'.rebound replaced).ready [] [p] ready visits ∧
        ((∀ v ∈ visits, Visit.Apart v) → ∃ m s'' i, resolve w' m (s'.rebound replaced) p = some (s'',.ok i))

section Resolves

variable {slots : C × T → Option ℕ} {built : List (C × T)} {s s' : State C T} {p q : C × T}

omit [DecidableEq C] [DecidableEq T] in
theorem building_nil (h : s.resolving = [] ∧ s.locked = []) : Building s [] := by
  refine ⟨h.1,fun q hq => ?_⟩
  rw [h.2] at hq
  cases hq

/-- An evaluation in which nothing is built for two containers is resolved. -/
theorem exists_resolve_ok (hs : s.resolving = [] ∧ s.locked = []) {ready : Set (C × T)} {visits : List (Visit C T)}
    (h : Evaluates w s.ready [] [p] ready visits) (hapart : ∀ v ∈ visits, Visit.Apart v) :
    ∃ n s' i, resolve w n s p = some (s',.ok i) := by
  obtain ⟨n,s',hall,-⟩ := h.resolveAll hapart (building_nil hs) rfl
  have hone := hall n (Nat.le_refl n)
  rw [resolveAll] at hone
  cases hp : resolve w n s p with
  | none =>
    rw [hp] at hone
    cases hone
  | some pair =>
    obtain ⟨s₁,e | i⟩ := pair
    · rw [hp] at hone
      cases hone
    · exact ⟨n,s₁,i,hp⟩

theorem ok_iff_apart (hs : s.resolving = [] ∧ s.locked = []) : (∃ n s' i, resolve w n s p = some (s',.ok i)) ↔
    ∃ ready visits, Evaluates w s.ready [] [p] ready visits ∧ ∀ v ∈ visits, Visit.Apart v := by
  constructor
  · rintro ⟨n,s',i,h⟩
    obtain ⟨visits,heval,hapart⟩ := sound_resolve w n s [] p s' i (building_nil hs) h
    exact ⟨s'.ready,visits,heval,hapart⟩
  · rintro ⟨ready,visits,h,hapart⟩
    exact exists_resolve_ok hs h hapart

omit [DecidableEq C] [DecidableEq T] in
theorem ready_rebound_subset {replaced : C × T → Bool} (h : ∀ q i, s.slots q = some i → s'.slots q = some i) :
    (s.rebound replaced).ready ⊆ (s'.rebound replaced).ready := by
  rintro q ⟨i,hi⟩
  rw [State.rebound] at hi
  dsimp only at hi
  split at hi
  · cases hi
  · next hsame => exact ⟨i,by rw [State.rebound]; exact (if_neg hsame).trans (h q i hi)⟩

theorem resolves_iff_ok : Resolves w (.idle slots built) p ↔
    ((∃ n s' i, resolve w n (.idle slots built) p = some (s',.ok i)) ↔
      ∃ ready visits, Evaluates w (State.idle slots built).ready [] [p] ready visits) := by
  constructor
  · exact fun h => h.ok_iff
  · intro hok
    have hidle : Building (State.idle slots built) [] := building_nil ⟨rfl,rfl⟩
    refine ⟨?_,hok,?_,?_,?_,?_,?_⟩
    · obtain ⟨x,hx⟩ := exists_resolve (w := w) (p := p) hidle (Nat.lt_succ_self _)
      exact ⟨_,x,fun m hm => extends_resolve hm _ _ _ hx⟩
    · intro n s' r h
      have hkept := (keeps_resolve w n).kept h
      exact ⟨hkept.resolving,hkept.locked⟩
    · intro n s' r h q i hi
      have hkept := (keeps_resolve w n).kept h
      cases hslot : (State.idle slots built).slots q with
      | none => exact .inr (hkept.fresh q i hslot hi)
      | some j =>
        rw [hkept.keeps q j hslot] at hi
        exact .inl hi
    · intro ops s' hruns q factory perScope hq hlasting
      have hcount := (hruns.once hq hlasting).2
      constructor
      · rw [hcount]
        split <;> omega
      · intro hslot
        rw [hcount,if_neg fun hnone => hslot hnone.1,Nat.add_zero]
    · intro q factory perScope hq n s₁ i ops s₂ m s₃ j h hruns hlasting h'
      have hi := (keeps_resolve w n).slot hq h
      have hj := (keeps_resolve w m).slot hq h'
      rw [((keeps_resolve w m).kept h').keeps q i ((hruns.once hq hlasting).1 i hi)] at hj
      exact Option.some.inj hj
    · intro n s' e h w' replaced heval
      have hkept := (keeps_resolve w n).kept h
      have hfine := (exists_evaluates_iff.1 heval).mono (ready_rebound_subset hkept.keeps)
      obtain ⟨ready,visits,heval'⟩ := exists_evaluates_iff.2 hfine
      have hidle' : (s'.rebound replaced).resolving = [] ∧ (s'.rebound replaced).locked = [] := ⟨hkept.resolving,hkept.locked⟩
      exact ⟨ready,visits,heval',exists_resolve_ok hidle' heval'⟩

theorem apart_of_resolves (h : Resolves w (.idle slots built) p) {ready : Set (C × T)} {visits : List (Visit C T)}
    (heval : Evaluates w (State.idle slots built).ready [] [p] ready visits) : ∀ v ∈ visits, Visit.Apart v := by
  obtain ⟨ready',visits',heval',hapart⟩ := (ok_iff_apart ⟨rfl,rfl⟩).1 (h.ok_iff.2 ⟨ready,visits,heval⟩)
  rw [(heval.unique heval').2]
  exact hapart

/-- Resolving does what it is to do, unless the evaluation succeeds and meets a type that is being
built for another container. -/
theorem resolves_iff : Resolves w (.idle slots built) p ↔
    ∀ ready visits, Evaluates w (State.idle slots built).ready [] [p] ready visits → ∀ v ∈ visits, Visit.Apart v := by
  constructor
  · exact fun h ready visits heval => apart_of_resolves h heval
  · intro hapart
    rw [resolves_iff_ok,ok_iff_apart ⟨rfl,rfl⟩]
    constructor
    · rintro ⟨ready,visits,heval,-⟩
      exact ⟨ready,visits,heval⟩
    · rintro ⟨ready,visits,heval⟩
      exact ⟨ready,visits,heval,hapart ready visits heval⟩

end Resolves

/-- A container that makes its own client out of the one of another container. -/
def wrapping : Containers Bool Unit where
  binding p := some (.transient ⟨if p.1 then [] else [(true,())],false⟩)
  types := {()}
  mem_types _ _ _ := Finset.mem_singleton.2 rfl

/-- The client of the other container is taken for the one that is being built. -/
theorem wrapping_not_resolves : ¬ Resolves wrapping (.idle (fun _ => none) []) (false,()) := by
  intro h
  have hinner : Evaluates wrapping (State.idle (fun _ => none) []).ready [(false,())] [(true,())] _ _ :=
    .transient rfl (by decide) rfl (.nil _ _) (.nil _ _)
  have houter : Evaluates wrapping (State.idle (fun _ => none) []).ready [] [(false,())] _ _ :=
    .transient rfl (by decide) rfl hinner (.nil _ _)
  have hapart := apart_of_resolves h houter ([(false,())],(true,())) (by simp) (false,()) (by simp) rfl
  cases hapart

end Rainier.Container
