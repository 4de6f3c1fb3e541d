import Rainier.Support.Calls

/-! # Programs that call operations

A program ends in a result or an error, or calls an operation and goes on with its answer;
an operation that fails ends the program. What the operations do is a handler's business.
One program is executed alone, or any number of them are interleaved, one operation at a
time. A protocol says which operations a program may call in which phase and where an
answer takes it. A program that meets a protocol is followed through either of the two by
what each operation does in each phase.
-/
namespace Rainier

inductive Program (O : Type) (A : O → Type) (ε α : Type) where
  | ok (a : α)
  | error (e : ε)
  | call (o : O) (next : A o → Program O A ε α)

namespace Program
variable {O : Type} {A : O → Type} {ε α β σ ι P : Type}

def bind (f : α → Program O A ε β) : Program O A ε α → Program O A ε β
  | ok a => f a
  | error e => error e
  | call o next => call o fun a => bind f (next a)

instance : Monad (Program O A ε) where
  pure := ok
  bind m f := m.bind f

/-- One operation. -/
def perform (o : O) : Program O A ε (A o) := call o ok

/-- A result that is already there. -/
def lift : Except ε α → Program O A ε α
  | .ok a => ok a
  | .error e => error e

/-- What comes after an operation. -/
def resume (next : A o → Program O A ε α) : Except ε (A o) → Program O A ε α
  | .ok a => next a
  | .error e => error e

def Finished : Program O A ε α → Prop
  | call _ _ => False
  | _ => True

/-- An operation and its answer. -/
abbrev Entry (O : Type) (A : O → Type) (ε : Type) := Σ o : O, Except ε (A o)

/-! ## The two ways to run -/

section Run
variable (handle : ι → σ → (o : O) → Except ε (A o) × σ)

/-- A program by itself; the operations take what they need from outside one after the other. -/
def exec : Program O A ε α → (ℕ → ι) → σ → Except ε α × σ × List (Entry O A ε)
  | ok a, _, s => (.ok a,s,[])
  | error e, _, s => (.error e,s,[])
  | call o next, xs, s =>
    match handle (xs 0) s o with
    | (.ok a,s) =>
      let (result,s,entries) := exec (next a) (fun n => xs (n + 1)) s
      (result,s,⟨o,.ok a⟩ :: entries)
    | (.error e,s) => (.error e,s,[⟨o,.error e⟩])

/-- The next operation of one program among others. -/
def advance (x : ι) (s : σ) : Program O A ε α → σ × Program O A ε α × List (Entry O A ε)
  | ok a => (s,ok a,[])
  | error e => (s,error e,[])
  | call o next => ((handle x s o).2,resume next (handle x s o).1,[⟨o,(handle x s o).1⟩])

end Run

/-! ## A program by itself -/

section Ensures
variable {handle : ι → σ → (o : O) → Except ε (A o) × σ} {m : Program O A ε α} {s : σ}
variable {Q R : Except ε α → σ → List (Entry O A ε) → Prop}

/-- Whatever comes from outside, the program ends with `Q` of its result, of the state it
leaves and of what it has done. -/
def Ensures (handle : ι → σ → (o : O) → Except ε (A o) × σ) (m : Program O A ε α) (s : σ)
    (Q : Except ε α → σ → List (Entry O A ε) → Prop) : Prop :=
  ∀ xs, Q (exec handle m xs s).1 (exec handle m xs s).2.1 (exec handle m xs s).2.2

theorem Ensures.mono (h : Ensures handle m s Q) (hR : ∀ r t entries, Q r t entries → R r t entries) :
    Ensures handle m s R := fun xs => hR _ _ _ (h xs)

theorem ensures_ok {a : α} (h : Q (.ok a) s []) : Ensures handle (ok a) s Q := fun _ => h

theorem ensures_error {e : ε} (h : Q (.error e) s []) : Ensures handle (error e) s Q := fun _ => h

theorem ensures_call {o : O} {next : A o → Program O A ε α}
    (hok : ∀ x a t, handle x s o = (.ok a,t) → Ensures handle (next a) t fun r t entries => Q r t (⟨o,.ok a⟩ :: entries))
    (herror : ∀ x e t, handle x s o = (.error e,t) → Q (.error e) t [⟨o,.error e⟩]) : Ensures handle (.call o next) s Q := by
  intro xs
  rw [exec]
  rcases hh : handle (xs 0) s o with ⟨e | a,t⟩
  · exact herror (xs 0) e t hh
  · exact hok (xs 0) a t hh fun n => xs (n + 1)

/-- What a program ensures, it ensures after its first operation. -/
theorem Ensures.resumed {o : O} {next : A o → Program O A ε α} {x : ι} {a : A o} {t : σ} (h : Ensures handle (.call o next) s Q)
    (hh : handle x s o = (.ok a,t)) : Ensures handle (next a) t fun r t entries => Q r t (⟨o,.ok a⟩ :: entries) := by
  intro xs
  have hx := h fun n => n.casesOn x xs
  rw [exec,show handle (Nat.casesOn 0 x xs) s o = (.ok a,t) from hh] at hx
  exact hx

theorem Ensures.failed {o : O} {next : A o → Program O A ε α} {x : ι} {e : ε} {t : σ} (h : Ensures handle (.call o next) s Q)
    (hh : handle x s o = (.error e,t)) : Q (.error e) t [⟨o,.error e⟩] := by
  have hx := h fun _ => x
  rw [exec,hh] at hx
  exact hx

theorem Ensures.bind {f : α → Program O A ε β} {R : Except ε β → σ → List (Entry O A ε) → Prop} (h : Ensures handle m s Q)
    (hok : ∀ a t before, Q (.ok a) t before → Ensures handle (f a) t fun r t entries => R r t (before ++ entries))
    (herror : ∀ e t entries, Q (.error e) t entries → R (.error e) t entries) : Ensures handle (m >>= f) s R := by
  change Ensures handle (m.bind f) s R
  induction m generalizing s Q R with
  | ok a => exact fun xs => hok a s [] (h xs) xs
  | error e => exact fun xs => herror e s [] (h xs)
  | call o next ih =>
    apply ensures_call
    · intro x a t hh
      exact ih a (h.resumed hh) (fun b t before => hok b t _) fun e t entries => herror e t _
    · intro x e t hh
      exact herror e t _ (h.failed hh)

end Ensures

/-! ## Protocols -/

/-- What may be called in a phase and where an answer leads, where a failed operation leads,
and in which phases a program may end. -/
structure Protocol (O : Type) (A : O → Type) (P : Type) where
  allows : P → O → Prop
  next : P → (o : O) → A o → P
  lapsed : P → P
  mayEnd : P → Prop
  mayEnd_lapsed : ∀ p, mayEnd (lapsed p)

/-- From the phase on, the program keeps to the protocol, and if it ends in a result, it is
one that `Q` allows in the phase it ends in. -/
def Meets (pr : Protocol O A P) (Q : P → α → Prop) (p : P) : Program O A ε α → Prop
  | ok a => Q p a
  | error _ => pr.mayEnd p
  | call o next => pr.allows p o ∧ ∀ a, Meets pr Q (pr.next p o a) (next a)

variable {pr : Protocol O A P} {Q R : P → α → Prop} {p : P} {m : Program O A ε α}

theorem Meets.mono (h : Meets pr Q p m) (hQ : ∀ p a, Q p a → R p a) : Meets pr R p m := by
  induction m generalizing p with
  | ok a => exact hQ p a h
  | error e => exact h
  | call o next ih => exact ⟨h.1,fun a => ih a (h.2 a)⟩

theorem Meets.bind {f : α → Program O A ε β} {R : P → β → Prop} (h : Meets pr Q p m)
    (hf : ∀ p a, Q p a → Meets pr R p (f a)) : Meets pr R p (m >>= f) := by
  change Meets pr R p (m.bind f)
  induction m generalizing p with
  | ok a => exact hf p a h
  | error e => exact h
  | call o next ih => exact ⟨h.1,fun a => ih a (h.2 a)⟩

/-- An operation, and what is done with its answer. -/
theorem meets_perform {o : O} {f : A o → Program O A ε α} (ho : pr.allows p o)
    (hf : ∀ a, Meets pr Q (pr.next p o a) (f a)) : Meets pr Q p (perform o >>= f) := ⟨ho,hf⟩

theorem meets_lift {r : Except ε α} (hend : pr.mayEnd p) (h : ∀ a, Q p a) : Meets pr Q p (lift r : Program O A ε α) := by
  cases r with
  | ok a => exact h a
  | error e => exact hend

/-- In a phase where everything is allowed and nothing leads away, every program will do. -/
theorem meets_of_free (hallows : ∀ o, pr.allows p o) (hnext : ∀ o a, pr.next p o a = p) (hend : pr.mayEnd p)
    (hQ : ∀ a, Q p a) (m : Program O A ε α) : Meets pr Q p m := by
  induction m with
  | ok a => exact hQ a
  | error e => exact hend
  | call o next ih =>
    refine ⟨hallows o,fun a => ?_⟩
    rw [hnext]
    exact ih a

/-- The operations a program calls are all of a kind. -/
def Uses (kind : O → Prop) : Program O A ε α → Prop
  | ok _ => True
  | error _ => True
  | call o next => kind o ∧ ∀ a, Uses kind (next a)

theorem Uses.bind {kind : O → Prop} {f : α → Program O A ε β} (h : Uses kind m) (hf : ∀ a, Uses kind (f a)) :
    Uses kind (m >>= f) := by
  change Uses kind (m.bind f)
  induction m with
  | ok a => exact hf a
  | error e => trivial
  | call o next ih => exact ⟨h.1,fun a => ih a (h.2 a)⟩

theorem uses_perform {kind : O → Prop} {o : O} {f : A o → Program O A ε α} (ho : kind o) (hf : ∀ a, Uses kind (f a)) :
    Uses kind (perform o >>= f) := ⟨ho,hf⟩

theorem Uses.mono {kind kind' : O → Prop} (h : Uses kind m) (hkind : ∀ o, kind o → kind' o) : Uses kind' m := by
  induction m with
  | ok a => trivial
  | error e => trivial
  | call o next ih => exact ⟨hkind o h.1,fun a => ih a (h.2 a)⟩

/-- Operations of a kind that is allowed in some phases and does not lead out of them. -/
theorem Uses.meets {kind : O → Prop} (h : Uses kind m) (phase : P → Prop) (hallows : ∀ p o, phase p → kind o → pr.allows p o)
    (hnext : ∀ p o a, phase p → kind o → phase (pr.next p o a)) (hend : ∀ p, phase p → pr.mayEnd p) (hp : phase p) :
    Meets pr (fun p _ => phase p) p m := by
  induction m generalizing p with
  | ok a => exact hp
  | error e => exact hend p hp
  | call o next ih => exact ⟨hallows p o hp h.1,fun a => ih a (h.2 a) (hnext p o a hp h.1)⟩

/-- Operations of a kind that keeps a preorder of states. -/
theorem Uses.ensures {handle : ι → σ → (o : O) → Except ε (A o) × σ} {kind : O → Prop} {R : σ → σ → Prop} (h : Uses kind m)
    (hrefl : ∀ s, R s s) (htrans : ∀ s t u, R s t → R t u → R s u) (hop : ∀ x s o, kind o → R s (handle x s o).2) (s : σ) :
    Ensures handle m s fun _ t entries => R s t ∧ ∀ e ∈ entries, kind e.1 := by
  induction m generalizing s with
  | ok a => exact ensures_ok ⟨hrefl s,by simp⟩
  | error e => exact ensures_error ⟨hrefl s,by simp⟩
  | call o next ih =>
    have hfirst : ∀ x r t, handle x s o = (r,t) → R s t := by
      intro x r t hh
      have hx := hop x s o h.1
      rwa [hh] at hx
    apply ensures_call
    · intro x a t hh
      refine (ih a (h.2 a) t).mono ?_
      rintro r u entries ⟨hu,hentries⟩
      exact ⟨htrans s t u (hfirst x _ t hh) hu,List.forall_mem_cons.mpr ⟨h.1,hentries⟩⟩
    · intro x e t hh
      exact ⟨hfirst x _ t hh,List.forall_mem_singleton.mpr h.1⟩

/-! ## Following a program -/

variable {handle : ι → σ → (o : O) → Except ε (A o) × σ}

/-- Where an operation leads, whatever came of it. -/
def Protocol.after (pr : Protocol O A P) (p : P) (o : O) : Except ε (A o) → P
  | .ok a => pr.next p o a
  | .error _ => pr.lapsed p

theorem Meets.resume {o : O} {next : A o → Program O A ε α} (h : Meets pr Q p (call o next)) (r : Except ε (A o)) :
    Meets pr Q (pr.after p o r) (Program.resume next r) := by
  cases r with
  | ok a => exact h.2 a
  | error e => exact pr.mayEnd_lapsed p

/-- Every one of the interleaved programs keeps to the protocol from the phase it is in. -/
def Tracked (pr : Protocol O A P) (phases : ℕ → P) (s : Calls.State σ (Program O A ε α) (Entry O A ε)) : Prop :=
  ∀ i, Meets pr (fun p _ => pr.mayEnd p) (phases i) (s.calls i)

variable {phases : ℕ → P} {s : Calls.State σ (Program O A ε α) (Entry O A ε)} {i : ℕ} {x : ι} {o : O}
variable {next : A o → Program O A ε α}

theorem step_finished (h : (s.calls i).Finished) : Calls.step (advance handle) s (i,x) = s := by
  apply Calls.step_quiet
  cases hi : s.calls i with
  | ok a => rfl
  | error e => rfl
  | call o next =>
    rw [hi] at h
    exact h.elim

theorem step_call (h : s.calls i = .call o next) : Calls.step (advance handle) s (i,x) =
    ⟨(handle x s.cell o).2,Function.update s.calls i (resume next (handle x s.cell o).1),
      s.log ++ [(i,⟨o,(handle x s.cell o).1⟩)]⟩ := by
  apply Calls.step_event
  rw [h]
  rfl

theorem Tracked.allows (h : Tracked pr phases s) (hi : s.calls i = .call o next) : pr.allows (phases i) o := by
  have hm := h i
  rw [hi] at hm
  exact hm.1

/-- A program is not finished in a phase in which it may not end. -/
theorem Tracked.not_finished (h : Tracked pr phases s) (hp : ¬ pr.mayEnd (phases i)) : ¬ (s.calls i).Finished := by
  intro hi
  have hm := h i
  cases hcall : s.calls i with
  | ok a =>
    rw [hcall] at hm
    exact hp hm
  | error e =>
    rw [hcall] at hm
    exact hp hm
  | call o next =>
    rw [hcall] at hi
    exact hi

/-- An operation leads where the protocol says. -/
theorem Tracked.step (h : Tracked pr phases s) (hi : s.calls i = .call o next) :
    Tracked pr (Function.update phases i (pr.after (phases i) o (handle x s.cell o).1))
      (Calls.step (advance handle) s (i,x)) := by
  intro j
  have hm := h i
  rw [step_call hi]
  dsimp only
  by_cases hj : j = i
  · subst hj
    rw [hi] at hm
    rw [Function.update_self,Function.update_self]
    exact hm.resume _
  · rw [Function.update_of_ne hj,Function.update_of_ne hj]
    exact h j

/-- The invariant rule for interleaved programs: what every operation keeps, in the phase it is
called in, holds throughout. -/
theorem always_tracked {Inv : (ℕ → P) → Calls.State σ (Program O A ε α) (Entry O A ε) → Prop}
    {permits : Calls.State σ (Program O A ε α) (Entry O A ε) → ℕ × ι → Prop}
    (hstep : ∀ phases s i x o (next : A o → Program O A ε α), Tracked pr phases s → Inv phases s → permits s (i,x) →
      s.calls i = .call o next → Inv (Function.update phases i (pr.after (phases i) o (handle x s.cell o).1))
        ⟨(handle x s.cell o).2,Function.update s.calls i (resume next (handle x s.cell o).1),
          s.log ++ [(i,⟨o,(handle x s.cell o).1⟩)]⟩)
    (htracked : Tracked pr phases s) (hinv : Inv phases s) {labels : List (ℕ × ι)}
    (h : Trace.Along (Calls.step (advance handle)) permits s labels) :
    Trace.Always (Calls.step (advance handle)) (fun s => ∃ phases, Tracked pr phases s ∧ Inv phases s) s labels := by
  refine Trace.always_of_along ?_ ⟨phases,htracked,hinv⟩ h
  rintro s ⟨i,x⟩ ⟨phases,htracked,hinv⟩ hpermits
  by_cases hfinished : (s.calls i).Finished
  · rw [step_finished hfinished]
    exact ⟨phases,htracked,hinv⟩
  · cases hi : s.calls i with
    | ok a =>
      rw [hi] at hfinished
      exact absurd trivial hfinished
    | error e =>
      rw [hi] at hfinished
      exact absurd trivial hfinished
    | call o next =>
      refine ⟨_,htracked.step hi,?_⟩
      rw [step_call hi]
      exact hstep phases s i x o next htracked hinv hpermits hi

end Program
end Rainier
