import Rainier.Support.Calls
import Rainier.Support.Error

/-! # Challenges

A challenge is one cache entry: the code, the wrong answers given so far and how
many are allowed. `consume` reads the entry, compares, and then forgets the entry
or writes its own copy back with one more attempt. The two operations are separate,
so other calls may come in between. Below one challenge has been issued, it does
not expire, and any number of `consume` calls are interleaved over it.
-/
namespace Rainier.Auth.Challenges
open Calls Trace Function

structure Pending where
  code : String
  attempts : ℕ
  maxAttempts : ℕ
  deriving DecidableEq, Repr

/-- What `issue_code` stores. -/
def issueCode (maxAttempts : ℕ) (code : String) : Pending := ⟨code,0,maxAttempts⟩

/-- What `consume` does about the copy it has read. -/
inductive Next where
  | accept
  | destroy
  | writeBack (counted : Pending)
  deriving DecidableEq, Repr

def Pending.judge (p : Pending) (answer : String) : Next :=
  if p.code = answer then .accept
  else
    let counted := { p with attempts := p.attempts + 1 }
    if counted.attempts ≥ counted.maxAttempts then .destroy else .writeBack counted

/-- A `consume` before its read, between its read and its write, and after it. -/
inductive Call where
  | ready (answer : String)
  | holding (read : Pending) (answer : String)
  | returned (result : Except Error Unit)

def Call.Holding : Call → Prop
  | holding _ _ => True
  | _ => False

inductive Event where
  | missed
  | evaluated (right : Bool)
  | accepted
  | destroyed
  | refused
  deriving DecidableEq, Repr

/-- The challenge is over. -/
def Event.final : Event → Bool
  | accepted | destroyed => true
  | _ => false

def notValid : Error := .unauthorized "That code is not valid."

def tooMany : Error := .unauthorized
  "That code is not valid, and there have been too many attempts. Request a new one."

def remaining (n : ℕ) : Error :=
  .unauthorized ("That code is not valid. " ++ toString n ++ " attempt(s) remaining.")

/-- The next cache operation of a `consume`. -/
def advance (_ : Unit) (cell : Option Pending) : Call → Option Pending × Call × List Event
  | .ready answer =>
    match cell with
    | none => (cell,.returned (.error notValid),[.missed])
    | some p => (cell,.holding p answer,[.evaluated (p.code = answer)])
  | .holding p answer =>
    match p.judge answer with
    | .accept => (none,.returned (.ok ()),[.accepted])
    | .destroy => (none,.returned (.error tooMany),[.destroyed])
    | .writeBack counted =>
      (some counted,.returned (.error (remaining (counted.maxAttempts - counted.attempts))),[.refused])
  | .returned result => (cell,.returned result,[])

abbrev Run := State (Option Pending) Call Event

/-- A challenge just issued, and the answers about to be given to it. -/
def issued (maxAttempts : ℕ) (code : String) (answers : ℕ → String) : Run :=
  ⟨some (issueCode maxAttempts code),fun i => .ready (answers i),[]⟩

/-- How many wrong answers have been evaluated. -/
def wrong (log : List (ℕ × Event)) : ℕ := log.countP (fun e => e.2 = .evaluated false)

/-- What the module promises of one challenge. -/
structure Guarantees (maxAttempts : ℕ) (s : Run) : Prop where
  acceptedOnce : ∀ i j, s.calls i = .returned (.ok ()) → s.calls j = .returned (.ok ()) → i = j
  attemptsLimited : wrong (s.log.takeWhile (fun e => e.2 ≠ .destroyed)) ≤ maxAttempts
  nothingAfter : s.log.Pairwise (fun e e' => e.2.final = true → e'.2 ≠ .accepted)

/-- A read that finds the challenge is made while no other call is between its read and
its write. -/
def Undisturbed (s : Run) (a : ℕ × Unit) : Prop :=
  ∀ answer, s.calls a.1 = .ready answer → s.cell.isSome = true → Alone Call.Holding s a.1

/-! ## What the calls leave the challenge in -/

/-- The challenge is there: no call holds it and the count is right, or one does. -/
structure Standing (maxAttempts : ℕ) (s : Run) (p : Pending) : Prop where
  cell : s.cell = some p
  allowed : p.maxAttempts = maxAttempts
  left : p.attempts < maxAttempts
  notOver : ∀ e ∈ s.log, e.2.final = false
  notAccepted : ∀ i, s.calls i ≠ .returned (.ok ())
  counted : (∀ i, ¬ (s.calls i).Holding) ∧ wrong s.log = p.attempts ∨
    ∃ i answer, s.calls i = .holding p answer ∧ Alone Call.Holding s i ∧
      wrong s.log = p.attempts + if p.code = answer then 0 else 1

/-- The challenge is gone, and nobody holds a copy of it. -/
structure Over (maxAttempts : ℕ) (s : Run) : Prop where
  cell : s.cell = none
  nobody : ∀ i, ¬ (s.calls i).Holding
  kept : Guarantees maxAttempts s

def Inv (maxAttempts : ℕ) (s : Run) : Prop := (∃ p, Standing maxAttempts s p) ∨ Over maxAttempts s

variable {maxAttempts : ℕ} {s : Run} {p : Pending}

theorem wrong_append (log : List (ℕ × Event)) (i : ℕ) (e : Event) :
    wrong (log ++ [(i,e)]) = wrong log + if e = .evaluated false then 1 else 0 := by
  simp [wrong,List.countP_append,List.countP_singleton]

theorem wrong_takeWhile_le (log : List (ℕ × Event)) (q : ℕ × Event → Bool) :
    wrong (log.takeWhile q) ≤ wrong log := (List.takeWhile_sublist q).countP_le

theorem wrong_takeWhile_append (log : List (ℕ × Event)) {last : ℕ × Event} (hlast : last.2 ≠ .evaluated false)
    (q : ℕ × Event → Bool) : wrong ((log ++ [last]).takeWhile q) = wrong (log.takeWhile q) := by
  induction log with
  | nil =>
    rw [List.nil_append,List.takeWhile_cons]
    split <;> simp [wrong,hlast]
  | cons e log ih =>
    rw [List.cons_append,List.takeWhile_cons,List.takeWhile_cons]
    split
    · simpa [wrong,List.countP_cons] using ih
    · rfl

/-- Nothing follows the end of the challenge as long as it has not come. -/
theorem pairwise_of_notOver {log : List (ℕ × Event)} (h : ∀ e ∈ log, e.2.final = false) :
    log.Pairwise (fun e e' => e.2.final = true → e'.2 ≠ .accepted) := by
  apply List.pairwise_of_forall_mem_list
  intro e he e' _ hfinal
  rw [h e he] at hfinal
  cases hfinal

theorem pairwise_append {log : List (ℕ × Event)} (h : ∀ e ∈ log, e.2.final = false) (last : ℕ × Event) :
    (log ++ [last]).Pairwise (fun e e' => e.2.final = true → e'.2 ≠ .accepted) := by
  refine List.pairwise_append.mpr ⟨pairwise_of_notOver h,List.pairwise_singleton _ _,?_⟩
  intro e he e' _ hfinal
  rw [h e he] at hfinal
  cases hfinal

theorem Standing.wrong_le (h : Standing maxAttempts s p) : wrong s.log ≤ maxAttempts := by
  have hleft := h.left
  rcases h.counted with ⟨_,hw⟩ | ⟨i,answer,_,_,hw⟩
  · omega
  · split at hw <;> omega

theorem Standing.guarantees (h : Standing maxAttempts s p) : Guarantees maxAttempts s where
  acceptedOnce i _ hi _ := absurd hi (h.notAccepted i)
  attemptsLimited := Nat.le_trans (wrong_takeWhile_le _ _) h.wrong_le
  nothingAfter := pairwise_of_notOver h.notOver

theorem Inv.guarantees (h : Inv maxAttempts s) : Guarantees maxAttempts s := by
  rcases h with ⟨p,h⟩ | h
  · exact h.guarantees
  · exact h.kept

/-! ## One operation -/

/-- A call that has returned does nothing more. -/
theorem step_returned {i : ℕ} {result : Except Error Unit} (h : s.calls i = .returned result) :
    step advance s (i,()) = s := by
  apply step_quiet
  rw [h]
  rfl

theorem notOver_append {log : List (ℕ × Event)} (h : ∀ e ∈ log, e.2.final = false) {last : ℕ × Event}
    (hlast : last.2.final = false) : ∀ e ∈ log ++ [last], e.2.final = false := by
  intro e he
  rcases List.mem_append.mp he with he | he
  · exact h e he
  · rw [List.mem_singleton.mp he]
    exact hlast

/-- A read of the challenge, by the only call that is inside. -/
theorem Standing.step_ready {i : ℕ} {answer : String} (h : Standing maxAttempts s p)
    (hi : s.calls i = .ready answer) (ha : Alone Call.Holding s i) :
    Standing maxAttempts (step advance s (i,())) p := by
  have hw : wrong s.log = p.attempts := by
    rcases h.counted with ⟨_,hw⟩ | ⟨j,_,hj,_,_⟩
    · exact hw
    · have hne : j ≠ i := by
        rintro rfl
        rw [hi] at hj
        cases hj
      exact absurd (hj ▸ trivial) (ha j hne)
  have hstep : step advance s (i,()) =
      ⟨s.cell,update s.calls i (.holding p answer),s.log ++ [(i,.evaluated (p.code = answer))]⟩ := by
    apply step_event
    rw [hi,h.cell]
    rfl
  rw [hstep]
  refine ⟨h.cell,h.allowed,h.left,notOver_append h.notOver rfl,?_,
    .inr ⟨i,answer,update_self _ _ _,ha.update_self _ _ _,?_⟩⟩
  · intro j hj
    obtain ⟨_,hj⟩ := eq_of_update hj nofun
    exact h.notAccepted j hj
  · rw [wrong_append,hw]
    by_cases hr : p.code = answer <;> simp [hr]

/-- The write of the call that is inside: the count is put back, or the challenge is over. -/
theorem Standing.step_holding {i : ℕ} {answer : String} (h : Standing maxAttempts s p)
    (hi : s.calls i = .holding p answer) (ha : Alone Call.Holding s i)
    (hw : wrong s.log = p.attempts + if p.code = answer then 0 else 1) :
    Inv maxAttempts (step advance s (i,())) := by
  have hlimit : wrong s.log ≤ maxAttempts := h.wrong_le
  by_cases hr : p.code = answer
  · -- the right answer: the challenge is forgotten and the call is the first to be let through
    have hstep : step advance s (i,()) =
        ⟨none,update s.calls i (.returned (.ok ())),s.log ++ [(i,.accepted)]⟩ := by
      apply step_event
      simp [hi,advance,Pending.judge,hr]
    rw [hstep]
    refine .inr ⟨rfl,ha.none_update id,?_,?_,pairwise_append h.notOver _⟩
    · have honly : ∀ j, update s.calls i (Call.returned (.ok ())) j = .returned (.ok ()) → j = i := by
        intro j hj
        by_contra hne
        rw [update_of_ne hne] at hj
        exact h.notAccepted j hj
      intro j k hj hk
      rw [honly j hj,honly k hk]
    · refine Nat.le_trans (wrong_takeWhile_le _ _) ?_
      rw [wrong_append]
      exact hlimit
  · rw [if_neg hr] at hw
    have hnot : ∀ (e : Error) j, update s.calls i (Call.returned (.error e)) j ≠ .returned (.ok ()) := by
      intro e j hj
      obtain ⟨_,hj⟩ := eq_of_update hj nofun
      exact h.notAccepted j hj
    by_cases hlast : p.attempts + 1 ≥ p.maxAttempts
    · have hstep : step advance s (i,()) =
          ⟨none,update s.calls i (.returned (.error tooMany)),s.log ++ [(i,.destroyed)]⟩ := by
        apply step_event
        simp [hi,advance,Pending.judge,hr,hlast]
      rw [hstep]
      refine .inr ⟨rfl,ha.none_update id,fun j _ hj _ => absurd hj (hnot _ j),?_,pairwise_append h.notOver _⟩
      refine Nat.le_trans (wrong_takeWhile_le _ _) ?_
      rw [wrong_append]
      exact hlimit
    · obtain ⟨counted,hcounted⟩ : ∃ counted, counted = { p with attempts := p.attempts + 1 } := ⟨_,rfl⟩
      have hstep : step advance s (i,()) =
          ⟨some counted,update s.calls i (.returned (.error (remaining (counted.maxAttempts - counted.attempts)))),
            s.log ++ [(i,.refused)]⟩ := by
        apply step_event
        simp [hi,advance,Pending.judge,hr,hlast,hcounted]
      rw [hstep]
      have hallowed := h.allowed
      refine .inl ⟨counted,rfl,?_,?_,notOver_append h.notOver rfl,hnot _,.inl ⟨ha.none_update id,?_⟩⟩
      · rw [hcounted]
        exact hallowed
      · rw [hcounted]
        dsimp only
        omega
      · rw [wrong_append,hcounted]
        exact hw

/-- Once the challenge is over a call finds nothing. -/
theorem Over.step_ready {i : ℕ} {answer : String} (h : Over maxAttempts s) (hi : s.calls i = .ready answer) :
    Over maxAttempts (step advance s (i,())) := by
  have hstep : step advance s (i,()) =
      ⟨none,update s.calls i (.returned (.error notValid)),s.log ++ [(i,.missed)]⟩ := by
    apply step_event
    rw [hi,h.cell]
    rfl
  rw [hstep]
  obtain ⟨honce,hlimit,hafter⟩ := h.kept
  have hok : ∀ j, update s.calls i (Call.returned (.error notValid)) j = .returned (.ok ()) →
      s.calls j = .returned (.ok ()) := by
    intro j hj
    exact (eq_of_update hj nofun).2
  have halone : Alone Call.Holding s i := fun j _ => h.nobody j
  refine ⟨rfl,halone.none_update id,fun j k hj hk => honce j k (hok j hj) (hok k hk),?_,?_⟩
  · dsimp only
    rw [wrong_takeWhile_append s.log (by simp)]
    exact hlimit
  · refine List.pairwise_append.mpr ⟨hafter,List.pairwise_singleton _ _,?_⟩
    intro e _ e' he' _
    rw [List.mem_singleton.mp he']
    nofun

theorem Inv.step {i : ℕ} (h : Inv maxAttempts s) (hok : Undisturbed s (i,())) :
    Inv maxAttempts (step advance s (i,())) := by
  cases hi : s.calls i with
  | returned result =>
    rw [step_returned hi]
    exact h
  | ready answer =>
    rcases h with ⟨p,h⟩ | h
    · exact .inl ⟨p,h.step_ready hi (hok answer hi (by rw [h.cell]; rfl))⟩
    · exact .inr (h.step_ready hi)
  | holding read answer =>
    have hinside : (s.calls i).Holding := hi ▸ trivial
    rcases h with ⟨p,h⟩ | h
    · rcases h.counted with ⟨hnobody,_⟩ | ⟨j,answer',hj,ha,hw⟩
      · exact absurd hinside (hnobody i)
      · -- the call that is inside is the only one there is
        have hij : i = j := by
          by_contra hne
          exact ha i hne hinside
        subst hij
        exact h.step_holding hj ha hw
    · exact absurd hinside (h.nobody i)

/-! ## Every interleaving -/

/-- As long as no call reads the challenge between another's read and its write, one
answer at most is let through, the wrong ones are counted, and a challenge that is over
stays over. -/
theorem guarantees_of_undisturbed (maxAttempts : ℕ) (code : String) (answers : ℕ → String) (steps : List (ℕ × Unit))
    (hmax : 0 < maxAttempts) (h : Along (step advance) Undisturbed (issued maxAttempts code answers) steps) :
    Always (step advance) (Guarantees maxAttempts) (issued maxAttempts code answers) steps := by
  have hinv : Inv maxAttempts (issued maxAttempts code answers) := by
    refine .inl ⟨issueCode maxAttempts code,rfl,rfl,hmax,nofun,nofun,.inl ⟨fun _ => id,rfl⟩⟩
  exact (always_of_along (fun s a hs ha => hs.step ha) hinv h).mono (fun _ => Inv.guarantees)

/-- A wrong answer, the right one, and an answer to a challenge that is gone. -/
theorem guarantees_of_undisturbed_example :
    Along (step advance) Undisturbed (issued 2 "493021" (fun i => if i = 0 then "000000" else "493021"))
        [(0,()),(0,()),(1,()),(1,()),(2,())] ∧
      Always (step advance) (Guarantees 2) (issued 2 "493021" (fun i => if i = 0 then "000000" else "493021"))
        [(0,()),(0,()),(1,()),(1,()),(2,())] := by
  have h : Along (step advance) Undisturbed (issued 2 "493021" (fun i => if i = 0 then "000000" else "493021"))
      [(0,()),(0,()),(1,()),(1,()),(2,())] := by
    refine ⟨?_,nofun,?_,nofun,?_,trivial⟩
    · intro _ _ _ j _
      exact id
    · intro _ _ _ j _ hj
      obtain ⟨hne,hj⟩ := of_update (p := Call.Holding) id hj
      simp only [step,update_of_ne hne] at hj
      exact hj
    · intro _ _ hsome
      cases hsome
  exact ⟨h,guarantees_of_undisturbed 2 "493021" _ _ (by decide) h⟩

/-- Two right answers that both read the challenge before either forgets it are both let
through; of two wrong ones both are evaluated though one is allowed; and a wrong answer
writes back a challenge that has been consumed, to be consumed again. -/
theorem guarantees_broken :
    ¬ Guarantees 5 (run (step advance) (issued 5 "493021" (fun _ => "493021")) [(0,()),(1,()),(0,()),(1,())]) ∧
      ¬ Guarantees 1 (run (step advance) (issued 1 "493021" (fun _ => "000000")) [(0,()),(1,()),(0,()),(1,())]) ∧
      ¬ Guarantees 5 (run (step advance) (issued 5 "493021" (fun i => if i = 0 then "000000" else "493021"))
        [(0,()),(1,()),(1,()),(0,()),(2,()),(2,())]) := by
  refine ⟨?_,?_,?_⟩
  · intro h
    exact absurd (h.acceptedOnce 0 1 rfl rfl) (by decide)
  · intro h
    exact absurd h.attemptsLimited (by decide)
  · intro h
    exact absurd h.nothingAfter (by decide)

end Rainier.Auth.Challenges
