import Rainier.Support.Scan

/-! # What a scanner takes off the front

`Takes` is the reader's side of a format: whatever is read, the text it was read off is one of the
format. Together with `Reads` for every text of the format it makes a scanner exact.
-/
namespace Rainier.Scan
variable {α ε β γ : Type}

/-- Whatever `m` reads is read off a text that has `P`, and the rest of the input is left. -/
def Takes (m : Scanner α ε β) (P : List α → β → Prop) : Prop :=
  ∀ s b s', m s = .ok (b,s') → ∃ text, s.rest = text ++ s'.rest ∧ s'.pos = s.pos + text.length ∧ P text b

/-- `m` reads the texts that have `P`, and no others, whatever follows. -/
structure Exact (m : Scanner α ε β) (P : List α → β → Prop) : Prop where
  reads : ∀ text b, P text b → ∀ rest, Reads m text b rest
  takes : Takes m P

/-- Texts of a format, one after the other. -/
inductive Each (P : List α → β → Prop) : List α → List β → Prop where
  | nil : Each P [] []
  | cons {text texts : List α} {b : β} {bs : List β} (h : P text b) (hs : Each P texts bs) : Each P (text ++ texts) (b :: bs)

variable {m : Scanner α ε β} {f : β → Scanner α ε γ} {P P' : List α → β → Prop}

theorem Takes.mono (hm : Takes m P) (h : ∀ text b, P text b → P' text b) : Takes m P' := by
  intro s b s' hs
  obtain ⟨text,hrest,hpos,htext⟩ := hm s b s' hs
  exact ⟨text,hrest,hpos,h text b htext⟩

theorem takes_pure (b : β) : Takes (pure b : Scanner α ε β) fun text b' => text = [] ∧ b' = b := by
  intro s b' s' h
  cases h
  exact ⟨[],rfl,rfl,rfl,rfl⟩

theorem Takes.bind {Q : β → List α → γ → Prop} (hm : Takes m P) (hf : ∀ b, Takes (f b) (Q b)) :
    Takes (m >>= f) fun text c => ∃ t u b, text = t ++ u ∧ P t b ∧ Q b u c := by
  intro s c s' h
  rw [bind_apply] at h
  cases hr : m s with
  | error e =>
    rw [hr] at h
    cases h
  | ok r =>
    rw [hr] at h
    obtain ⟨t,ht,htpos,hP⟩ := hm s r.1 r.2 hr
    obtain ⟨u,hu,hupos,hQ⟩ := hf r.1 r.2 c s' h
    refine ⟨t ++ u,?_,?_,t,u,r.1,rfl,hP,hQ⟩
    · rw [ht,hu,List.append_assoc]
    · rw [hupos,htpos,List.length_append,Nat.add_assoc]

/-- A step that only packs what was read. -/
theorem Takes.map (hm : Takes m P) (f : β → γ) : Takes (m >>= fun b => pure (f b)) fun text c => ∃ b, P text b ∧ c = f b := by
  refine (hm.bind fun b => takes_pure (f b)).mono ?_
  rintro text c ⟨t,u,b,rfl,hP,rfl,rfl⟩
  rw [List.append_nil]
  exact ⟨b,hP,rfl⟩

theorem Takes.ite {p : Prop} [Decidable p] {m' : Scanner α ε β} (hm : p → Takes m P) (hm' : ¬ p → Takes m' P) :
    Takes (if p then m else m') P := by
  split
  · next h => exact hm h
  · next h => exact hm' h

theorem Takes.times (hm : Takes m P) (n : ℕ) : Takes (times m n) fun text bs => Each P text bs ∧ bs.length = n := by
  induction n with
  | zero =>
    refine (takes_pure []).mono ?_
    rintro text bs ⟨rfl,rfl⟩
    exact ⟨.nil,rfl⟩
  | succ n ih =>
    refine (hm.bind fun b => ih.map (b :: ·)).mono ?_
    rintro text bs ⟨t,u,b,rfl,hP,bs,⟨hEach,hlen⟩,rfl⟩
    exact ⟨.cons hP hEach,congrArg (· + 1) hlen⟩

theorem Each.reads {text : List α} {bs : List β} (h : Each P text bs) (hm : ∀ text b, P text b → ∀ rest, Reads m text b rest)
    (rest : List α) : Reads (times m bs.length) text bs rest := by
  induction h with
  | nil => exact reads_pure [] rest
  | cons h hs ih => exact (hm _ _ h _).bind (ih.map (_ :: ·))

/-- Texts that are not empty are no fewer than what they are made of. -/
theorem Each.length_le {text : List α} {bs : List β} (h : Each P text bs) (hP : ∀ text b, P text b → text ≠ []) :
    bs.length ≤ text.length := by
  induction h with
  | nil => exact Nat.le_refl 0
  | cons h hs ih =>
    have hpos := List.length_pos_iff.2 (hP _ _ h)
    rw [List.length_append,List.length_cons]
    omega

/-- An exact scanner succeeds where its input begins with a text of the format, and leaves what follows it. -/
theorem Exact.run_iff (h : Exact m P) {pos : ℕ} {input : List α} {b : β} {s' : Input α} :
    m ⟨pos,input⟩ = .ok (b,s') ↔ ∃ text, input = text ++ s'.rest ∧ s'.pos = pos + text.length ∧ P text b := by
  constructor
  · exact h.takes ⟨pos,input⟩ b s'
  · rintro ⟨text,rfl,hpos,htext⟩
    rw [h.reads text b htext s'.rest pos,← hpos]

end Rainier.Scan
