import Mathlib.Data.Set.Insert
import Rainier.Container.Container

/-! # What a resolution evaluates

A type is evaluated with all that its factory needs, unless its instance is there already. The
evaluation stops short of a type that is not bound, of a factory that fails and of what is being built
in the same container. The stack of the thread does not tell the containers apart, so resolving stops
short of more.
-/
namespace Rainier.Container

variable {C T : Type}

/-- What is met in an evaluation, with what is being built there. -/
abbrev Visit (C T : Type) : Type := List (C × T) × (C × T)

/-- In order, from the shared instances that are there, to those that are there then. -/
inductive Evaluates (w : Containers C T) : Set (C × T) → List (C × T) → List (C × T) → Set (C × T) → List (Visit C T) → Prop where
  | nil (ready : Set (C × T)) (building : List (C × T)) : Evaluates w ready building [] ready []
  | ready {ready ready' : Set (C × T)} {building rest : List (C × T)} {p : C × T} {factory : Factory C T} {perScope : Bool}
      {visits : List (Visit C T)} (hp : w.binding p = some (.shared factory perScope)) (hidle : p ∉ building) (hready : p ∈ ready)
      (hrest : Evaluates w ready building rest ready' visits) : Evaluates w ready building (p :: rest) ready' ((building,p) :: visits)
  | transient {ready ready₁ ready₂ : Set (C × T)} {building rest : List (C × T)} {p : C × T} {factory : Factory C T}
      {visits visits' : List (Visit C T)} (hp : w.binding p = some (.transient factory)) (hidle : p ∉ building)
      (hfails : factory.fails = false) (hneeds : Evaluates w ready (building ++ [p]) factory.needs ready₁ visits)
      (hrest : Evaluates w ready₁ building rest ready₂ visits') :
      Evaluates w ready building (p :: rest) ready₂ ((building,p) :: (visits ++ visits'))
  | shared {ready ready₁ ready₂ : Set (C × T)} {building rest : List (C × T)} {p : C × T} {factory : Factory C T} {perScope : Bool}
      {visits visits' : List (Visit C T)} (hp : w.binding p = some (.shared factory perScope)) (hidle : p ∉ building)
      (hready : p ∉ ready) (hfails : factory.fails = false)
      (hneeds : Evaluates w ready (building ++ [p]) factory.needs ready₁ visits)
      (hrest : Evaluates w (insert p ready₁) building rest ready₂ visits') :
      Evaluates w ready building (p :: rest) ready₂ ((building,p) :: (visits ++ visits'))

/-- Nothing of the type is being built for another container. -/
def Visit.Apart (v : Visit C T) : Prop := ∀ q ∈ v.1, q.2 = v.2.2 → q = v.2

section Evaluates

variable {w : Containers C T} {ready ready₁ ready₂ : Set (C × T)} {building needs needs' : List (C × T)}
  {visits visits' : List (Visit C T)}

theorem Evaluates.append (h : Evaluates w ready building needs ready₁ visits) (h' : Evaluates w ready₁ building needs' ready₂ visits') :
    Evaluates w ready building (needs ++ needs') ready₂ (visits ++ visits') := by
  induction h with
  | nil => exact h'
  | ready hp hidle hready _ ih => exact .ready hp hidle hready (ih h')
  | transient hp hidle hfails hneeds _ _ ih =>
    rw [List.cons_append,List.cons_append,List.append_assoc]
    exact .transient hp hidle hfails hneeds (ih h')
  | shared hp hidle hready hfails hneeds _ _ ih =>
    rw [List.cons_append,List.cons_append,List.append_assoc]
    exact .shared hp hidle hready hfails hneeds (ih h')

/-- There is one way to evaluate. -/
theorem Evaluates.unique (h : Evaluates w ready building needs ready₁ visits) (h' : Evaluates w ready building needs ready₂ visits') :
    ready₁ = ready₂ ∧ visits = visits' := by
  induction h generalizing ready₂ visits' with
  | nil =>
    cases h'
    exact ⟨rfl,rfl⟩
  | ready hp hidle hready _ ih =>
    cases h' with
    | ready _ _ _ hrest =>
      obtain ⟨rfl,rfl⟩ := ih hrest
      exact ⟨rfl,rfl⟩
    | transient hp' =>
      rw [hp] at hp'
      cases hp'
    | shared _ _ hready' => exact absurd hready hready'
  | transient hp hidle hfails _ _ ihneeds ihrest =>
    cases h' with
    | ready hp' =>
      rw [hp] at hp'
      cases hp'
    | transient hp' _ _ hneeds hrest =>
      rw [hp] at hp'
      cases hp'
      obtain ⟨rfl,rfl⟩ := ihneeds hneeds
      obtain ⟨rfl,rfl⟩ := ihrest hrest
      exact ⟨rfl,rfl⟩
    | shared hp' =>
      rw [hp] at hp'
      cases hp'
  | shared hp hidle hready hfails _ _ ihneeds ihrest =>
    cases h' with
    | ready _ _ hready' => exact absurd hready' hready
    | transient hp' =>
      rw [hp] at hp'
      cases hp'
    | shared hp' _ _ _ hneeds hrest =>
      rw [hp] at hp'
      cases hp'
      obtain ⟨rfl,rfl⟩ := ihneeds hneeds
      obtain ⟨rfl,rfl⟩ := ihrest hrest
      exact ⟨rfl,rfl⟩

/-! ### The graph behind an evaluation -/

/-- The factory that is run for a type whose instance is not there. -/
def Containers.pending (w : Containers C T) (ready : Set (C × T)) (p : C × T) (factory : Factory C T) : Prop :=
  w.binding p = some (.transient factory) ∨ (∃ perScope, w.binding p = some (.shared factory perScope)) ∧ p ∉ ready

/-- Everything below the type is there or can be built. -/
inductive Fine (w : Containers C T) (ready : Set (C × T)) : C × T → Prop where
  | there {p : C × T} {factory : Factory C T} {perScope : Bool} (hp : w.binding p = some (.shared factory perScope))
      (hready : p ∈ ready) : Fine w ready p
  | built {p : C × T} {factory : Factory C T} (hp : w.pending ready p factory) (hfails : factory.fails = false)
      (hneeds : ∀ q ∈ factory.needs, Fine w ready q) : Fine w ready p

/-- A type is needed below another one. -/
inductive Below (w : Containers C T) (ready : Set (C × T)) : C × T → C × T → Prop where
  | refl (p : C × T) : Below w ready p p
  | step {p q r : C × T} {factory : Factory C T} (hp : w.pending ready p factory) (hq : q ∈ factory.needs)
      (hr : Below w ready q r) : Below w ready p r

variable {p q r : C × T}

theorem Below.trans (h : Below w ready p q) (h' : Below w ready q r) : Below w ready p r := by
  induction h with
  | refl => exact h'
  | step hp hq _ ih => exact .step hp hq (ih h')

theorem pending_unique {factory factory' : Factory C T} (h : w.pending ready p factory) (h' : w.pending ready p factory') :
    factory = factory' := by
  obtain h | ⟨⟨perScope,h⟩,-⟩ := h
  · obtain h' | ⟨⟨perScope',h'⟩,-⟩ := h'
    · rw [h] at h'
      cases h'
      rfl
    · rw [h] at h'
      cases h'
  · obtain h' | ⟨⟨perScope',h'⟩,-⟩ := h'
    · rw [h] at h'
      cases h'
    · rw [h] at h'
      cases h'
      rfl

/-- What can be built is not needed below itself. -/
theorem Fine.acyclic (h : Fine w ready p) {factory : Factory C T} (hp : w.pending ready p factory) :
    ∀ q ∈ factory.needs, ¬ Below w ready q p := by
  induction h generalizing factory with
  | there hshared hready =>
    obtain hp | ⟨-,hp⟩ := hp
    · rw [hshared] at hp
      cases hp
    · exact absurd hready hp
  | @built p built hbuilt hfails hneeds ih =>
    intro q hq hbelow
    rw [pending_unique hp hbuilt] at hq
    cases hbelow with
    | refl => exact ih p hq hbuilt p hq (.refl p)
    | step hpending hnext hrest => exact ih q hq hpending _ hnext (hrest.trans (.step hbuilt hq (.refl q)))

/-- What is evaluated can be built from the instances there were. -/
theorem Evaluates.fine {base : Set (C × T)} (h : Evaluates w ready building needs ready₁ visits)
    (hready : ∀ q ∈ ready, q ∈ base ∨ Fine w base q) :
    (∀ q ∈ needs, Fine w base q) ∧ ∀ q ∈ ready₁, q ∈ base ∨ Fine w base q := by
  induction h with
  | nil => exact ⟨by simp,hready⟩
  | @ready ready ready' building rest p factory perScope visits hp hidle hthere hrest ih =>
    obtain ⟨hfine,hready'⟩ := ih hready
    refine ⟨fun q hq => ?_,hready'⟩
    obtain rfl | hq := List.mem_cons.1 hq
    · exact (hready q hthere).elim (fun hbase => .there hp hbase) id
    · exact hfine q hq
  | @transient ready ready₁ ready₂ building rest p factory visits visits' hp hidle hfails hneeds hrest ihneeds ihrest =>
    obtain ⟨hbelow,hready₁⟩ := ihneeds hready
    obtain ⟨hfine,hready₂⟩ := ihrest hready₁
    refine ⟨fun q hq => ?_,hready₂⟩
    obtain rfl | hq := List.mem_cons.1 hq
    · exact .built (.inl hp) hfails hbelow
    · exact hfine q hq
  | @shared ready ready₁ ready₂ building rest p factory perScope visits visits' hp hidle hthere hfails hneeds hrest ihneeds ihrest =>
    obtain ⟨hbelow,hready₁⟩ := ihneeds hready
    have hself : Fine w base p := by
      by_cases hbase : p ∈ base
      · exact .there hp hbase
      · exact .built (.inr ⟨⟨perScope,hp⟩,hbase⟩) hfails hbelow
    obtain ⟨hfine,hready₂⟩ := ihrest fun q hq => by
      obtain rfl | hq := Set.mem_insert_iff.1 hq
      · exact .inr hself
      · exact hready₁ q hq
    refine ⟨fun q hq => ?_,hready₂⟩
    obtain rfl | hq := List.mem_cons.1 hq
    · exact hself
    · exact hfine q hq

/-- One after the other. -/
theorem exists_evaluates_all {base : Set (C × T)}
    (h : ∀ p ∈ needs, ∀ ready, base ⊆ ready → ∃ ready₁ visits, Evaluates w ready building [p] ready₁ visits ∧ ready ⊆ ready₁)
    (hready : base ⊆ ready) : ∃ ready₁ visits, Evaluates w ready building needs ready₁ visits ∧ ready ⊆ ready₁ := by
  induction needs generalizing ready with
  | nil => exact ⟨ready,[],.nil _ _,Set.Subset.refl _⟩
  | cons p rest ih =>
    obtain ⟨ready₁,visits,hp,hsub⟩ := h p List.mem_cons_self ready hready
    obtain ⟨ready₂,visits',hrest,hsub'⟩ := ih (fun q hq => h q (List.mem_cons_of_mem _ hq)) (Set.Subset.trans hready hsub)
    exact ⟨ready₂,_,hp.append hrest,Set.Subset.trans hsub hsub'⟩

/-- What can be built is evaluated, where nothing below it is being built. -/
theorem Fine.exists_evaluates {base : Set (C × T)} (h : Fine w base p) (hready : base ⊆ ready)
    (hbusy : ∀ b ∈ building, ¬ Below w base p b) : ∃ ready₁ visits, Evaluates w ready building [p] ready₁ visits ∧ ready ⊆ ready₁ := by
  induction h generalizing ready building with
  | @there p factory perScope hp hbase =>
    exact ⟨ready,_,.ready hp (fun hmem => hbusy p hmem (.refl p)) (hready hbase) (.nil _ _),Set.Subset.refl _⟩
  | @built p factory hp hfails hneeds ih =>
    have hidle : p ∉ building := fun hmem => hbusy p hmem (.refl p)
    have hacyclic := (Fine.built hp hfails hneeds).acyclic hp
    have hbelow : ∀ q ∈ factory.needs, ∀ ready, base ⊆ ready →
        ∃ ready₁ visits, Evaluates w ready (building ++ [p]) [q] ready₁ visits ∧ ready ⊆ ready₁ := by
      intro q hq ready hready
      apply ih q hq hready
      intro b hb
      obtain hb | hb := List.mem_append.1 hb
      · exact fun hbelow => hbusy b hb (.step hp hq hbelow)
      · rw [List.mem_singleton.1 hb]
        exact hacyclic q hq
    obtain ⟨ready₁,visits,hall,hsub⟩ := exists_evaluates_all hbelow hready
    obtain hp | ⟨⟨perScope,hp⟩,-⟩ := hp
    · exact ⟨ready₁,_,.transient hp hidle hfails hall (.nil _ _),hsub⟩
    · by_cases hthere : p ∈ ready
      · exact ⟨ready,_,.ready hp hidle hthere (.nil _ _),Set.Subset.refl _⟩
      · exact ⟨insert p ready₁,_,.shared hp hidle hthere hfails hall (.nil _ _),Set.Subset.trans hsub (Set.subset_insert p ready₁)⟩

theorem Fine.mono {more : Set (C × T)} (h : Fine w ready p) (hmore : ready ⊆ more) : Fine w more p := by
  induction h with
  | there hp hready => exact .there hp (hmore hready)
  | @built p factory hp hfails _ ih =>
    obtain hp | ⟨⟨perScope,hp⟩,-⟩ := hp
    · exact .built (.inl hp) hfails ih
    · by_cases hthere : p ∈ more
      · exact .there hp hthere
      · exact .built (.inr ⟨⟨perScope,hp⟩,hthere⟩) hfails ih

/-- The types below decide, whatever the order. -/
theorem exists_evaluates_iff : (∃ ready₁ visits, Evaluates w ready [] [p] ready₁ visits) ↔ Fine w ready p := by
  constructor
  · rintro ⟨ready₁,visits,h⟩
    exact (h.fine fun q hq => .inl hq).1 p List.mem_cons_self
  · intro h
    have hidle : ∀ b ∈ ([] : List (C × T)), ¬ Below w ready p b := by simp
    obtain ⟨ready₁,visits,hp,-⟩ := h.exists_evaluates (Set.Subset.refl _) hidle
    exact ⟨ready₁,visits,hp⟩

end Evaluates

end Rainier.Container
