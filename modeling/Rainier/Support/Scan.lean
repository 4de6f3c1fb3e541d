import Mathlib.Data.List.Basic

/-! # Reading a value off the front of a text

A scanner reads a prefix of its input and leaves the rest, or fails. `Reads` is the
writer's side (this text, then that rest, gives this value) and `Yields` the
reader's (whatever the text was, a value so read has this property); both go
through `bind`, so a format is read clause by clause in the order it is written.
-/
namespace Rainier.Scan
variable {α ε β γ : Type}

/-- What is left of the input, and how far into it that is. -/
structure Input (α : Type) where
  pos : ℕ
  rest : List α
  deriving DecidableEq, Repr

abbrev Scanner (α ε β : Type) := StateT (Input α) (Except ε) β

/-- `m` reads `text` as `b` when `rest` follows. -/
def Reads (m : Scanner α ε β) (text : List α) (b : β) (rest : List α) : Prop :=
  ∀ pos, m ⟨pos,text ++ rest⟩ = .ok (b,⟨pos + text.length,rest⟩)

/-- Whatever `m` reads satisfies `P`. -/
def Yields (m : Scanner α ε β) (P : β → Prop) : Prop :=
  ∀ s b s', m s = .ok (b,s') → P b

/-- `m` moves on by exactly what it takes off the input. -/
def Tracks (m : Scanner α ε β) : Prop :=
  ∀ s b s', m s = .ok (b,s') → s'.pos + s'.rest.length = s.pos + s.rest.length

/-- `m` the given number of times. -/
def times (m : Scanner α ε β) : ℕ → Scanner α ε (List β)
  | 0 => pure []
  | n + 1 => do
    let b ← m
    let bs ← times m n
    return b :: bs

theorem bind_apply (m : Scanner α ε β) (f : β → Scanner α ε γ) (s : Input α) :
    (m >>= f) s = match m s with
      | .ok (b,s') => f b s'
      | .error e => .error e := by
  change (Except.bind (m s) fun r => f r.1 r.2) = _
  cases m s <;> rfl

theorem reads_pure (b : β) (rest : List α) : Reads (pure b : Scanner α ε β) [] b rest := fun _ => rfl

theorem Reads.bind {m : Scanner α ε β} {f : β → Scanner α ε γ} {t u rest : List α} {b : β} {c : γ}
    (hm : Reads m t b (u ++ rest)) (hf : Reads (f b) u c rest) : Reads (m >>= f) (t ++ u) c rest := by
  intro pos
  rw [bind_apply,List.append_assoc,hm pos]
  simpa [Nat.add_assoc] using hf (pos + t.length)

/-- The last step of a clause reads nothing more. -/
theorem Reads.finish {m : Scanner α ε β} {f : β → Scanner α ε γ} {t rest : List α} {b : β} {c : γ}
    (hm : Reads m t b rest) (hf : Reads (f b) [] c rest) : Reads (m >>= f) t c rest := by
  have h : Reads (m >>= f) (t ++ []) c rest := Reads.bind (by simpa using hm) hf
  simpa using h

/-- It only packs what was read. -/
theorem Reads.map {m : Scanner α ε β} {t rest : List α} {b : β} (hm : Reads m t b rest) (f : β → γ) :
    Reads (m >>= fun b => pure (f b)) t (f b) rest :=
  hm.finish (reads_pure (f b) rest)

theorem yields_pure {P : β → Prop} {b : β} (hb : P b) : Yields (pure b : Scanner α ε β) P := by
  intro s c s' h
  cases h
  exact hb

theorem Yields.ite {p : Prop} [Decidable p] {m m' : Scanner α ε β} {P : β → Prop} (hm : Yields m P)
    (hm' : Yields m' P) : Yields (if p then m else m') P := by
  split
  · exact hm
  · exact hm'

theorem yields_true (m : Scanner α ε β) : Yields m fun _ => True := fun _ _ _ _ => trivial

theorem Yields.bind {m : Scanner α ε β} {f : β → Scanner α ε γ} {P : β → Prop} {Q : γ → Prop}
    (hm : Yields m P) (hf : ∀ b, P b → Yields (f b) Q) : Yields (m >>= f) Q := by
  intro s c s' h
  rw [bind_apply] at h
  cases hr : m s with
  | error e => simp [hr] at h
  | ok r =>
    rw [hr] at h
    exact hf r.1 (hm s r.1 r.2 hr) r.2 c s' h

/-- A step whose answer the clause does not use. -/
theorem Yields.after {m : Scanner α ε β} {f : β → Scanner α ε γ} {Q : γ → Prop}
    (hf : ∀ b, Yields (f b) Q) : Yields (m >>= f) Q :=
  (yields_true m).bind fun b _ => hf b

theorem Reads.times {m : Scanner α ε β} {write : β → List α} {bs : List β} (rest : List α)
    (hm : ∀ b ∈ bs, ∀ rest, Reads m (write b) b rest) :
    Reads (times m bs.length) (bs.flatMap write) bs rest := by
  induction bs with
  | nil => exact reads_pure [] rest
  | cons b bs ih =>
    have hb := hm b (by simp)
    have hbs := ih fun b' hb' => hm b' (List.mem_cons_of_mem b hb')
    rw [List.flatMap_cons]
    exact (hb _).bind (hbs.map (b :: ·))

theorem Yields.times {m : Scanner α ε β} {P : β → Prop} (hm : Yields m P) (n : ℕ) :
    Yields (times m n) fun bs => bs.length = n ∧ ∀ b ∈ bs, P b := by
  induction n with
  | zero => exact yields_pure (by simp)
  | succ n ih =>
    refine hm.bind fun b hb => ih.bind fun bs hbs => yields_pure ⟨by simp [hbs.1],?_⟩
    intro b' hb'
    rcases List.mem_cons.mp hb' with rfl | hb'
    · exact hb
    · exact hbs.2 b' hb'

theorem tracks_pure (b : β) : Tracks (pure b : Scanner α ε β) := by
  intro s c s' h
  cases h
  rfl

theorem Tracks.bind {m : Scanner α ε β} {f : β → Scanner α ε γ} (hm : Tracks m) (hf : ∀ b, Tracks (f b)) :
    Tracks (m >>= f) := by
  intro s c s' h
  rw [bind_apply] at h
  cases hr : m s with
  | error e => simp [hr] at h
  | ok r =>
    rw [hr] at h
    rw [hf r.1 r.2 c s' h,hm s r.1 r.2 hr]

theorem Tracks.ite {p : Prop} [Decidable p] {m m' : Scanner α ε β} (hm : Tracks m) (hm' : Tracks m') :
    Tracks (if p then m else m') := by
  split
  · exact hm
  · exact hm'

theorem Tracks.times {m : Scanner α ε β} (hm : Tracks m) (n : ℕ) : Tracks (times m n) := by
  induction n with
  | zero => exact tracks_pure []
  | succ n ih => exact hm.bind fun b => ih.bind fun bs => tracks_pure (b :: bs)

/-! ## Texts read as a whole

`Spells` says what a format may rely on without knowing whether the text is accepted: where `m` reads
it, it stops right behind it, and it never reads a part that breaks off.
-/

structure Spells (m : Scanner α ε β) (text : List α) (P : β → Prop) : Prop where
  whole : ∀ pos rest b s', m ⟨pos,text ++ rest⟩ = .ok (b,s') → P b ∧ s'.rest = rest
  short : ∀ pos p, p <+: text → p ≠ text → ∀ r, m ⟨pos,p⟩ ≠ .ok r

namespace Spells

variable {m : Scanner α ε β} {text : List α} {P Q : β → Prop}

theorem mono (h : Spells m text P) (himp : ∀ b, P b → Q b) : Spells m text Q :=
  ⟨fun pos rest b s' hok => ⟨himp b (h.whole pos rest b s' hok).1,(h.whole pos rest b s' hok).2⟩,h.short⟩

/-- What always fails spells any text. -/
theorem of_fails (h : ∀ s r, m s ≠ .ok r) : Spells m text P :=
  ⟨fun _ _ _ _ hok => absurd hok (h _ _),fun _ _ _ _ r => h _ r⟩

theorem pure {b : β} (hb : P b) : Spells (pure b : Scanner α ε β) [] P := by
  refine ⟨fun pos rest c s' hok => ?_,fun pos p hp hne => absurd (List.prefix_nil.1 hp) hne⟩
  cases hok
  exact ⟨hb,rfl⟩

theorem bind {f : β → Scanner α ε γ} {u : List α} {R : γ → Prop} (hm : Spells m text P)
    (hf : ∀ b, P b → Spells (f b) u R) : Spells (m >>= f) (text ++ u) R := by
  constructor
  · intro pos rest c s' hok
    rw [bind_apply,List.append_assoc] at hok
    cases hr : m ⟨pos,text ++ (u ++ rest)⟩ with
    | error e => rw [hr] at hok; cases hok
    | ok r =>
      obtain ⟨b,pos',left⟩ := r
      rw [hr] at hok
      obtain ⟨hb,hrest⟩ := hm.whole _ _ _ _ hr
      obtain rfl : left = u ++ rest := hrest
      exact (hf b hb).whole _ _ _ _ hok
  · intro pos p hp hne r hok
    rw [bind_apply] at hok
    cases hr : m ⟨pos,p⟩ with
    | error e => rw [hr] at hok; cases hok
    | ok q =>
      obtain ⟨b,pos',left⟩ := q
      rw [hr] at hok
      -- either the first part breaks off, or the second one does
      by_cases hfirst : p <+: text ∧ p ≠ text
      · exact hm.short _ _ hfirst.1 hfirst.2 _ hr
      · obtain ⟨p',rfl⟩ : text <+: p := by
          rcases List.prefix_or_prefix_of_prefix hp (List.prefix_append text u) with hpre | hpre
          · have heq : p = text := not_not.1 fun hne => hfirst ⟨hpre,hne⟩
            exact ⟨[],(List.append_nil text).trans heq.symm⟩
          · exact hpre
        obtain ⟨hb,hrest⟩ := hm.whole _ _ _ _ hr
        obtain rfl : left = p' := hrest
        have hsecond : left <+: u := (List.prefix_append_right_inj text).1 hp
        exact (hf b hb).short _ left hsecond (fun heq => hne (by rw [heq])) r hok

/-- A step that reads nothing more. -/
theorem finish {f : β → Scanner α ε γ} {R : γ → Prop} (hm : Spells m text P) (hf : ∀ b, P b → Spells (f b) [] R) :
    Spells (m >>= f) text R := by
  have h := hm.bind hf
  rwa [List.append_nil] at h

theorem ite {p : Prop} [Decidable p] {m' : Scanner α ε β} (hm : Spells m text P) (hm' : Spells m' text P) :
    Spells (if p then m else m') text P := by
  split
  · exact hm
  · exact hm'

theorem times {write : γ → List α} {m : Scanner α ε β} {cs : List γ} (hm : ∀ c ∈ cs, Spells m (write c) fun _ => True) :
    Spells (Scan.times m cs.length) (cs.flatMap write) fun _ => True := by
  induction cs with
  | nil => exact pure trivial
  | cons c cs ih =>
    have hc := hm c List.mem_cons_self
    have hcs := ih fun c' hc' => hm c' (List.mem_cons_of_mem c hc')
    rw [List.flatMap_cons]
    exact hc.bind fun b _ => hcs.finish fun bs _ => pure trivial

end Spells

end Rainier.Scan
