import Mathlib.Logic.Function.Basic

/-! # Operations on one key of a store

A keyed store is a function from keys, and an operation on it answers something
and leaves a store. Most operations concern one key: their answer and what they
leave there depend on what was there, and every other key is as before. Two
stores that agree outside a set of keys keep agreeing under such operations.
-/
namespace Rainier.Keyed
variable {κ ν α : Type*}

/-- The operation reads and writes the key `k` and no other. -/
structure Local (k : κ) (f : (κ → ν) → α × (κ → ν)) : Prop where
  answer : ∀ c c', c k = c' k → (f c).1 = (f c').1
  entry : ∀ c c', c k = c' k → (f c).2 k = (f c').2 k
  frame : ∀ c k', k' ≠ k → (f c).2 k' = c k'

/-- The two stores agree on every key outside `T`. -/
def Agree (T : κ → Prop) (c c' : κ → ν) : Prop := ∀ k, ¬ T k → c k = c' k

variable {T : κ → Prop} {c c' : κ → ν} {k : κ} {f : (κ → ν) → α × (κ → ν)}

/-- What is made of the answer afterwards is a matter of the same key. -/
theorem Local.map {β : Type*} (hf : Local k f) (g : α → β) : Local k (fun c => (g (f c).1,(f c).2)) where
  answer c c' h := congrArg g (hf.answer c c' h)
  entry := hf.entry
  frame := hf.frame

/-- Doing nothing is an operation on any key. -/
theorem Local.pure (k : κ) (a : α) : Local k (fun c : κ → ν => (a,c)) where
  answer _ _ _ := rfl
  entry _ _ h := h
  frame _ _ _ := rfl

/-- What is done next depends on the answer, and concerns the same key. -/
theorem Local.bind {β : Type*} (hf : Local k f) {g : α → (κ → ν) → β × (κ → ν)} (hg : ∀ a, Local k (g a)) :
    Local k (fun c => g (f c).1 (f c).2) where
  answer c c' h := by
    rw [hf.answer c c' h]
    exact (hg _).answer _ _ (hf.entry c c' h)
  entry c c' h := by
    rw [hf.answer c c' h]
    exact (hg _).entry _ _ (hf.entry c c' h)
  frame c k' hne := ((hg _).frame _ k' hne).trans (hf.frame c k' hne)

theorem Agree.refl (T : κ → Prop) (c : κ → ν) : Agree T c c := fun _ _ => rfl

/-- The same operation on both stores keeps them in agreement. -/
theorem Agree.both (h : Agree T c c') (hf : Local k f) : Agree T (f c).2 (f c').2 := by
  intro k' hk'
  by_cases he : k' = k
  · subst he
    exact hf.entry c c' (h k' hk')
  · rw [hf.frame c k' he,hf.frame c' k' he]
    exact h k' hk'

/-- An operation on a key of `T` may be performed on one of the stores only. -/
theorem Agree.left (h : Agree T c c') (hf : Local k f) (hk : T k) : Agree T (f c).2 c' := by
  intro k' hk'
  have hne : k' ≠ k := by
    intro he
    exact hk' (he ▸ hk)
  rw [hf.frame c k' hne]
  exact h k' hk'

theorem Agree.symm (h : Agree T c c') : Agree T c' c := fun k hk => (h k hk).symm

end Rainier.Keyed
