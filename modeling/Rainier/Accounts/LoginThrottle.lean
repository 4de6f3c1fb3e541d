import Rainier.Accounts.TwoFactor

/-! # The login throttle

A login reads the counter of its key, checks the password and counts a failure afterwards,
in operations of their own. Below any number of logins with one key are interleaved, one
operation at a time, in a window that no login gets through in. The number of passwords that
are checked is bounded by the limit as long as no login reads the counter while another has
still to count.
-/
namespace Rainier.Accounts.LoginThrottle
open Auth Cache Trace

abbrev Run (U : Type) := Calls.State World (Flow U Response) (Program.Entry (Op U) Op.Answer Refusal)

variable {U Secret : Type}

/-- A password is held against what is stored, or against nothing for as long. -/
def isCheck (e : Program.Entry (Op U) Op.Answer Refusal) : Bool :=
  match e.1 with
  | .verify _ _ | .dummyVerify _ => true
  | _ => false

def checks (log : List (ℕ × Program.Entry (Op U) Op.Answer Refusal)) : ℕ := log.countP fun e => isCheck e.2

/-- Whether a counter that reads like this lets a login through. -/
def letsThrough (limit : ℕ) : Option String → Bool
  | none => true
  | some raw => (Text.parseUInt (2 ^ 32 - 1) (Text.trim raw)).getD 0 < limit

/-- The login has read a counter that lets it through, has not counted, and is not over. -/
structure Inside (limit : ℕ) (key : String) (s : Run U) (i : ℕ) : Prop where
  read : ∃ raw, (i,⟨.cacheGet (loginLimiter.counter key),.ok raw⟩) ∈ s.log ∧ letsThrough limit raw = true
  notCounted : ∀ by' r, (i,⟨.cacheIncrement (loginLimiter.counter key) by',r⟩) ∉ s.log
  running : ¬ (s.calls i).Finished

/-- The window is not over: a counter that was live still is. -/
def InWindow (key : String) (s : Run U) (a : ℕ × Outside U) : Prop :=
  ∀ e, MemoryCache.live s.cell.clock s.cell.cache (loginLimiter.counter key) = some e →
    e.isLive (s.cell.clock + a.2.delay) = true

/-- No password is right. -/
def Wrong (verifies : String → String → Bool) (s : Run U) (a : ℕ × Outside U) : Prop :=
  ∀ password hash next, s.calls a.1 = .call (.verify password hash) next → verifies password hash = false

/-- The cache answers, and a login reads the counter while no other is between its own reading
and its counting. -/
structure Undisturbed (limit : ℕ) (key : String) (s : Run U) (a : ℕ × Outside U) : Prop where
  answers : ∀ o next, s.calls a.1 = .call o next → o.usesCache = true → a.2.fails = none
  alone : ∀ next, s.calls a.1 = .call (.cacheGet (loginLimiter.counter key)) next → ∀ j, j ≠ a.1 → ¬ Inside limit key s j

section
variable [AccountUser U] (accounts : Accounts Secret)

/-- The key a login counts its failure under. -/
def keyOf (request : Request) : String :=
  loginKey (normaliseEmail accounts (string accounts (input accounts request) "email")) request.ip

def start (w : World) (requests : ℕ → Request) : Run U := ⟨w,fun i => login accounts (requests i),[]⟩

end

/-! ## The counter -/

/-- What the counter of the key reads; no counter reads as none counted. -/
def Counts (key : String) (w : World) (count : ℕ) : Prop :=
  MemoryCache.live w.clock w.cache (loginLimiter.counter key) = none ∧ count = 0 ∨
    ∃ expiresAt, MemoryCache.live w.clock w.cache (loginLimiter.counter key) =
      some ⟨MemoryCache.encodeCounter count,expiresAt⟩

section
variable {key : String} {w : World} {count : ℕ}

theorem Counts.congr {w' : World} (h : Counts key w count)
    (heq : MemoryCache.live w'.clock w'.cache (loginLimiter.counter key) =
      MemoryCache.live w.clock w.cache (loginLimiter.counter key)) : Counts key w' count := by
  unfold Counts at h ⊢
  rw [heq]
  exact h

/-- Time passes, and the window is not over. -/
theorem Counts.wait (h : Counts key w count) {delay : ℕ}
    (hlive : ∀ e, MemoryCache.live w.clock w.cache (loginLimiter.counter key) = some e → e.isLive (w.clock + delay) = true) :
    Counts key { w with clock := w.clock + delay } count := by
  rcases h with ⟨hnone,hcount⟩ | ⟨expiresAt,hsome⟩
  · refine .inl ⟨?_,hcount⟩
    rw [MemoryCache.live,Option.filter_eq_none_iff] at hnone ⊢
    intro e he hlater
    exact hnone e he (Entry.isLive_of_le (Nat.le_add_right _ _) hlater)
  · refine .inr ⟨expiresAt,?_⟩
    exact MemoryCache.live_eq_some.mpr ⟨(MemoryCache.live_eq_some.mp hsome).1,hlive _ hsome⟩

theorem Counts.get (h : Counts key w count) (k : String) :
    Counts key { w with cache := (MemoryCache.get w.clock w.cache k).2 } count :=
  h.congr (MemoryCache.live_get _)

theorem Counts.addOther (h : Counts key w count) {k : String} (hk : k ≠ loginLimiter.counter key) (value : String)
    (ttl : Option ℕ) : Counts key { w with cache := (MemoryCache.add w.clock w.cache k value ttl).2 } count := by
  apply h.congr
  unfold MemoryCache.add
  split
  · rfl
  · simp only [MemoryCache.live,MemoryCache.insert_other hk.symm]

/-- A counter that is opened reads as none counted. -/
theorem Counts.open (h : Counts key w count) (ttl : Option ℕ) :
    Counts key { w with cache := (MemoryCache.add w.clock w.cache (loginLimiter.counter key) "0" ttl).2 } count := by
  rcases h with ⟨hnone,hcount⟩ | ⟨expiresAt,hsome⟩
  · have hadd : (MemoryCache.add w.clock w.cache (loginLimiter.counter key) "0" ttl).2 =
        MemoryCache.insert w.cache (loginLimiter.counter key) ⟨"0",MemoryCache.expiry w.clock ttl⟩ := by
      rw [MemoryCache.add,hnone]
      rfl
    subst hcount
    by_cases hlive : Entry.isLive w.clock ⟨"0",MemoryCache.expiry w.clock ttl⟩ = true
    · refine .inr ⟨MemoryCache.expiry w.clock ttl,MemoryCache.live_eq_some.mpr ⟨?_,hlive⟩⟩
      dsimp only
      rw [hadd,MemoryCache.insert_same]
      rfl
    · refine .inl ⟨?_,rfl⟩
      dsimp only
      rw [hadd,MemoryCache.live,MemoryCache.insert_same,Option.filter_some_neg (by simpa using hlive)]
  · have hadd : (MemoryCache.add w.clock w.cache (loginLimiter.counter key) "0" ttl).2 = w.cache := by
      rw [MemoryCache.add,hsome]
      rfl
    rw [hadd]
    exact .inr ⟨expiresAt,hsome⟩

theorem decodeCounter_encodeCounter (h : count < 2 ^ 32) :
    MemoryCache.decodeCounter (MemoryCache.encodeCounter count) = .ok (count : ℤ) := by
  have htext : MemoryCache.encodeCounter count = count.repr := rfl
  have hne : count.repr.isEmpty = false := by
    rw [← Bool.not_eq_true,String.isEmpty_iff,← String.toList_inj,Nat.toList_repr]
    exact Nat.toDigits_ne_nil
  have hparse : Text.parseInt MemoryCache.i64Min MemoryCache.i64Max count.repr = some (count : ℤ) :=
    Text.parseInt_repr (n := count) (by simp [MemoryCache.i64Min]) (by simp [MemoryCache.i64Max]; omega)
  rw [htext,MemoryCache.decodeCounter,hne,if_neg (by simp),Text.trim_repr,hparse]

/-- An increment succeeds and counts one more. -/
theorem Counts.increment (h : Counts key w count) (hcount : count < 2 ^ 32) :
    (MemoryCache.increment w.clock w.cache (loginLimiter.counter key) 1).1 = .ok ((count + 1 : ℕ) : ℤ) ∧
      Counts key { w with cache := (MemoryCache.increment w.clock w.cache (loginLimiter.counter key) 1).2 } (count + 1) := by
  have hnext : MemoryCache.saturatingAdd count 1 = ((count + 1 : ℕ) : ℤ) := by
    simp only [MemoryCache.saturatingAdd,MemoryCache.i64Min,MemoryCache.i64Max]
    omega
  rcases h with ⟨hnone,rfl⟩ | ⟨expiresAt,hsome⟩
  · have hincrement : MemoryCache.increment w.clock w.cache (loginLimiter.counter key) 1 =
        (.ok 1,MemoryCache.insert w.cache (loginLimiter.counter key) ⟨MemoryCache.encodeCounter 1,none⟩) := by
      rw [MemoryCache.increment,hnone]
      rfl
    rw [hincrement]
    refine ⟨rfl,.inr ⟨none,MemoryCache.live_eq_some.mpr ⟨MemoryCache.insert_same _,rfl⟩⟩⟩
  · have hincrement : MemoryCache.increment w.clock w.cache (loginLimiter.counter key) 1 =
        (.ok ((count + 1 : ℕ) : ℤ),MemoryCache.insert w.cache (loginLimiter.counter key)
          ⟨MemoryCache.encodeCounter ((count + 1 : ℕ) : ℤ),expiresAt⟩) := by
      rw [MemoryCache.increment,hsome]
      dsimp only
      rw [decodeCounter_encodeCounter hcount]
      dsimp only
      rw [hnext]
      rfl
    rw [hincrement]
    refine ⟨rfl,.inr ⟨expiresAt,MemoryCache.live_eq_some.mpr ⟨MemoryCache.insert_same _,?_⟩⟩⟩
    exact (MemoryCache.live_eq_some.mp hsome).2

/-- A login is let through only by a counter below the limit. -/
theorem Counts.lt_of_letsThrough (h : Counts key w count) (hcount : count < 2 ^ 32) {limit : ℕ} (hlimit : 0 < limit)
    (hlets : letsThrough limit (MemoryCache.get w.clock w.cache (loginLimiter.counter key)).1 = true) : count < limit := by
  rw [MemoryCache.get_answer] at hlets
  rcases h with ⟨_,rfl⟩ | ⟨expiresAt,hsome⟩
  · exact hlimit
  · rw [hsome] at hlets
    have htext : MemoryCache.encodeCounter count = count.repr := rfl
    simp only [Option.map_some,letsThrough,htext,Text.trim_repr,decide_eq_true_eq] at hlets
    rwa [Text.parseUInt_repr (by omega)] at hlets

end

/-! ## The phases of a login -/

inductive Phase where
  | arriving
  | inside
  | checked
  | out
  | won
  deriving DecidableEq

def protocol (limit : ℕ) (key : String) : Program.Protocol (Op U) Op.Answer Phase where
  allows
    | .arriving, .cacheGet k => k = loginLimiter.counter key
    | .inside, .cacheGet k => k = loginLimiter.deadline key
    | .inside, .now | .inside, .findByEmail _ | .inside, .verify _ _ | .inside, .dummyVerify _ => True
    | .checked, .cacheAdd k value _ => k = loginLimiter.deadline key ∨ k = loginLimiter.counter key ∧ value = "0"
    | .checked, .cacheGet k => k = loginLimiter.deadline key
    | .checked, .now => True
    | .checked, .cacheIncrement k by' => k = loginLimiter.counter key ∧ by' = 1
    | .out, .cacheGet k => k = loginLimiter.deadline key
    | .out, .now | .out, .announce _ => True
    | .won, _ => True
    | _, _ => False
  next
    | .arriving, .cacheGet _, raw => if letsThrough limit raw then .inside else .out
    | .inside, .verify _ _, true => .won
    | .inside, .verify _ _, false => .checked
    | .inside, .dummyVerify _, _ => .checked
    -- without a counter of its own the login ends here
    | .checked, .cacheAdd k _ _, .error _ => if k = loginLimiter.counter key then .out else .checked
    | .checked, .cacheIncrement _ _, _ => .out
    | p, _, _ => p
  lapsed
    | .inside | .checked => .out
    | p => p
  mayEnd
    | .inside | .checked => False
    | _ => True
  mayEnd_lapsed p := by cases p <;> trivial

variable {limit : ℕ} {key : String}

theorem meets_hit (window : ℕ) : Program.Meets (protocol limit key) (fun p _ => p = .out) .checked
    (hit loginLimiter key window : Flow U Hit) := by
  refine Program.meets_perform (.inr ⟨rfl,rfl⟩) ?_
  -- what is left once the end of the window is known
  have hcount : ∀ endsAt : Option ℕ, Program.Meets (protocol limit key) (fun p _ => p = .out) .checked
      (do
        let count ← cacheIncrement (loginLimiter.counter key) 1
        return ⟨(max count 0).toNat % 2 ^ 32,CacheRateLimiter.remaining (← clock) endsAt window⟩ : Flow U Hit) := by
    intro endsAt
    refine Program.meets_perform ⟨rfl,rfl⟩ fun count => ?_
    exact Program.meets_perform trivial fun now => rfl
  rintro (e | (_ | _))
  · change (protocol limit key).mayEnd (if loginLimiter.counter key = loginLimiter.counter key then Phase.out else .checked)
    rw [if_pos rfl]
    trivial
  · refine Program.meets_perform rfl fun stored => ?_
    exact hcount (CacheRateLimiter.readMillis stored)
  · refine Program.meets_perform trivial fun now => ?_
    refine Program.meets_perform (.inl rfl) ?_
    rintro (e | added)
    · change Program.Meets _ _ (if loginLimiter.deadline key = loginLimiter.counter key then Phase.out else .checked) _
      rw [if_neg (loginLimiter.deadline_ne_counter key)]
      exact hcount _
    · exact hcount _

/-- A login that is not locked out is inside. -/
theorem meets_peek : Program.Meets (protocol limit key)
    (fun p hit => p = if (hit.filter fun h : Hit => limit ≤ h.count) = none then .inside else .out) .arriving
    (peek loginLimiter key : Flow U (Option Hit)) := by
  refine Program.meets_perform rfl ?_
  rintro (_ | raw)
  · rfl
  · have hstay : (protocol limit key : Program.Protocol (Op U) _ _).next .arriving (.cacheGet (loginLimiter.counter key))
        (some raw) = if (Text.parseUInt (2 ^ 32 - 1) (Text.trim raw)).getD 0 < limit then .inside else .out := by
      change (if (decide _) = true then _ else _) = _
      simp
    rw [hstay]
    by_cases hlt : (Text.parseUInt (2 ^ 32 - 1) (Text.trim raw)).getD 0 < limit
    · rw [if_pos hlt]
      refine Program.meets_perform rfl fun stored => Program.meets_perform trivial fun now => ?_
      change _ = if Option.filter _ (some _) = none then _ else _
      rw [Option.filter_some_neg (by simpa using hlt)]
      rfl
    · rw [if_neg hlt]
      refine Program.meets_perform rfl fun stored => Program.meets_perform trivial fun now => ?_
      change _ = if Option.filter _ (some _) = none then _ else _
      rw [Option.filter_some_pos (by simpa using hlt)]
      rfl

theorem meets_won {α : Type} {Q : Phase → α → Prop} (hQ : ∀ a, Q .won a) (m : Flow U α) :
    Program.Meets (protocol limit key) Q .won m := by
  apply Program.meets_of_free
  · intro o
    cases o <;> trivial
  · intro o a
    cases o <;> rfl
  · trivial
  · exact hQ

section
variable (accounts : Accounts Secret)

theorem meets_validate (rules : List (String × List (Validation.Rule Unit))) (input : Json) :
    Program.Meets (protocol limit key) (fun p _ => p = .arriving) .arriving (validate accounts rules input : Flow U Unit) := by
  unfold validate
  split
  · rfl
  · trivial

variable [AccountUser U]

/-- A right password leaves the throttle; a wrong one is still to be counted. -/
theorem meets_checkPassword (user : Option U) (password : String) : Program.Meets (protocol limit key)
    (fun p right => p = if right then .won else .checked) .inside (checkPassword user password) := by
  unfold checkPassword
  split
  · refine ⟨trivial,?_⟩
    rintro (_ | _) <;> rfl
  · exact Program.meets_perform trivial fun _ => rfl

theorem meets_login (request : Request) : Program.Meets (protocol accounts.features.maxLoginAttempts (keyOf accounts request))
    (fun p _ => (protocol accounts.features.maxLoginAttempts (keyOf accounts request) : Program.Protocol (Op U) _ _).mayEnd p)
    .arriving (login accounts request : Flow U Response) := by
  refine (meets_validate accounts _ _).bind ?_
  rintro _ _ rfl
  refine meets_peek.bind ?_
  rintro _ hit rfl
  cases hlocked : hit.filter fun h : Hit => accounts.features.maxLoginAttempts ≤ h.count with
  | some hit =>
    rw [if_neg (by simp)]
    exact Program.meets_perform trivial fun _ => trivial
  | none =>
    rw [if_pos rfl]
    refine Program.meets_perform trivial fun user => ?_
    refine (meets_checkPassword user _).bind ?_
    rintro _ right rfl
    cases right with
    | true => exact meets_won (fun _ => trivial) _
    | false =>
      have hnone : (user.filter fun _ => false) = none := by cases user <;> rfl
      rw [hnone]
      refine (meets_hit _).bind ?_
      rintro _ hit rfl
      exact Program.meets_perform trivial fun _ => trivial

end

/-! ## One operation -/

/-- Between reading the counter and counting. -/
def Phase.Busy : Phase → Prop
  | inside | checked => True
  | _ => False

/-- One login at most is busy. The passwords that have been checked are counted, but for the
one of a login that has checked and not counted yet. -/
structure Inv (limit : ℕ) (key : String) (phases : ℕ → Phase) (s : Run U) : Prop where
  nobodyWon : ∀ i, phases i ≠ .won
  read : ∀ i, (phases i).Busy →
    ∃ raw, (i,⟨.cacheGet (loginLimiter.counter key),.ok raw⟩) ∈ s.log ∧ letsThrough limit raw = true
  notCounted : ∀ i, phases i ≠ .out → ∀ by' r, (i,⟨.cacheIncrement (loginLimiter.counter key) by',r⟩) ∉ s.log
  alone : ∀ i j, (phases i).Busy → (phases j).Busy → i = j
  counted : ∃ count, Counts key s.cell count ∧
    ((∀ i, ¬ (phases i).Busy) ∧ checks s.log ≤ count ∧ count ≤ limit ∨
      ∃ i, (phases i).Busy ∧ checks s.log ≤ count + (if phases i = .checked then 1 else 0) ∧ count < limit)

section
variable {phases : ℕ → Phase} {s : Run U} {i j : ℕ} {cell : World} {calls : ℕ → Flow U Response}
variable {e : Program.Entry (Op U) Op.Answer Refusal}

theorem Inv.checks_le (h : Inv limit key phases s) : checks s.log ≤ limit := by
  obtain ⟨count,_,⟨_,hle,hlimit⟩ | ⟨i,_,hle,hlimit⟩⟩ := h.counted
  · exact Nat.le_trans hle hlimit
  · split at hle <;> omega

theorem checks_append (log : List (ℕ × Program.Entry (Op U) Op.Answer Refusal)) (i : ℕ)
    (e : Program.Entry (Op U) Op.Answer Refusal) : checks (log ++ [(i,e)]) = checks log + if isCheck e then 1 else 0 := by
  simp [checks,List.countP_append,List.countP_singleton]

theorem notCounted_append (h : ∀ by' r, (j,⟨.cacheIncrement (loginLimiter.counter key) by',r⟩) ∉ s.log)
    (he : ∀ by' r, e ≠ ⟨.cacheIncrement (loginLimiter.counter key) by',r⟩) :
    ∀ by' r, (j,⟨.cacheIncrement (loginLimiter.counter key) by',r⟩) ∉ s.log ++ [(i,e)] := by
  intro by' r hmem
  rcases List.mem_append.mp hmem with hmem | hmem
  · exact h by' r hmem
  · cases List.mem_singleton.mp hmem
    exact he by' r rfl

/-- An operation in the same phase that is no check and no counting. -/
theorem Inv.stay (h : Inv limit key phases s) {p : Phase} (hp : p = phases i) (hcounts : ∀ count, Counts key s.cell count → Counts key cell count)
    (hcheck : isCheck e = false) (he : ∀ by' r, e ≠ ⟨.cacheIncrement (loginLimiter.counter key) by',r⟩) :
    Inv limit key (Function.update phases i p) ⟨cell,calls,s.log ++ [(i,e)]⟩ := by
  rw [hp,Function.update_eq_self]
  refine ⟨h.nobodyWon,?_,fun j hj => notCounted_append (h.notCounted j hj) he,h.alone,?_⟩
  · intro j hj
    obtain ⟨raw,hmem,hlets⟩ := h.read j hj
    exact ⟨raw,List.mem_append_left _ hmem,hlets⟩
  · obtain ⟨count,hcount,hbound⟩ := h.counted
    refine ⟨count,hcounts count hcount,?_⟩
    simpa [checks_append,hcheck] using hbound

/-- A login that has not checked a password is out. -/
theorem Inv.leave (h : Inv limit key phases s) (hp : phases i ≠ .checked)
    (hcounts : ∀ count, Counts key s.cell count → Counts key cell count)
    (hcheck : isCheck e = false) (he : ∀ by' r, e ≠ ⟨.cacheIncrement (loginLimiter.counter key) by',r⟩) :
    Inv limit key (Function.update phases i .out) ⟨cell,calls,s.log ++ [(i,e)]⟩ := by
  have hbusy : ∀ j, (Function.update phases i .out j).Busy → j ≠ i ∧ (phases j).Busy := fun j hj =>
    Calls.of_update (p := Phase.Busy) id hj
  refine ⟨?_,?_,?_,?_,?_⟩
  · intro j hj
    exact h.nobodyWon j (Calls.eq_of_update hj (by simp)).2
  · intro j hj
    obtain ⟨raw,hmem,hlets⟩ := h.read j (hbusy j hj).2
    exact ⟨raw,List.mem_append_left _ hmem,hlets⟩
  · intro j hj
    by_cases hji : j = i
    · subst hji
      rw [Function.update_self] at hj
      exact absurd rfl hj
    · rw [Function.update_of_ne hji] at hj
      exact notCounted_append (h.notCounted j hj) he
  · intro j k hj hk
    exact h.alone j k (hbusy j hj).2 (hbusy k hk).2
  · obtain ⟨count,hcount,hbound⟩ := h.counted
    refine ⟨count,hcounts count hcount,?_⟩
    rw [checks_append,hcheck]
    rcases hbound with ⟨hnobody,hle,hlimit⟩ | ⟨j,hj,hle,hlimit⟩
    · exact .inl ⟨fun k hk => hnobody k (hbusy k hk).2,hle,hlimit⟩
    · by_cases hji : j = i
      · subst hji
        rw [if_neg hp] at hle
        refine .inl ⟨?_,hle,Nat.le_of_lt hlimit⟩
        intro k hk
        exact (hbusy k hk).1 (h.alone k j (hbusy k hk).2 hj)
      · refine .inr ⟨j,?_,?_,hlimit⟩
        · rwa [Function.update_of_ne hji]
        · rwa [Function.update_of_ne hji]

/-- A login is let through while nobody is busy. -/
theorem Inv.enter (h : Inv limit key phases s) (hp : phases i = .arriving) (hnobody : ∀ j, ¬ (phases j).Busy)
    (hcounts : ∀ count, Counts key s.cell count → Counts key cell count)
    (hlets : ∀ count, Counts key s.cell count → count ≤ limit → count < limit) {raw : Option String}
    (hraw : letsThrough limit raw = true) : Inv limit key (Function.update phases i .inside)
      ⟨cell,calls,s.log ++ [(i,⟨.cacheGet (loginLimiter.counter key),.ok raw⟩)]⟩ := by
  have hbusy : ∀ j, (Function.update phases i .inside j).Busy → j = i := by
    intro j hj
    by_contra hji
    rw [Function.update_of_ne hji] at hj
    exact hnobody j hj
  refine ⟨?_,?_,?_,?_,?_⟩
  · intro j hj
    exact h.nobodyWon j (Calls.eq_of_update hj (by simp)).2
  · intro j hj
    rw [hbusy j hj]
    exact ⟨raw,List.mem_append_right _ List.mem_cons_self,hraw⟩
  · intro j hj
    refine notCounted_append (h.notCounted j ?_) (by simp)
    by_cases hji : j = i
    · rw [hji,hp]
      simp
    · rwa [Function.update_of_ne hji] at hj
  · intro j k hj hk
    rw [hbusy j hj,hbusy k hk]
  · obtain ⟨count,hcount,⟨_,hle,hlimit⟩ | ⟨j,hj,_⟩⟩ := h.counted
    · refine ⟨count,hcounts count hcount,.inr ⟨i,?_,?_,hlets count hcount hlimit⟩⟩
      · rw [Function.update_self]
        trivial
      · rw [Function.update_self,checks_append]
        exact hle
    · exact absurd hj (hnobody j)

/-- The login that is inside checks a password. -/
theorem Inv.check (h : Inv limit key phases s) (hp : phases i = .inside)
    (hcounts : ∀ count, Counts key s.cell count → Counts key cell count)
    (hcheck : isCheck e = true) (he : ∀ by' r, e ≠ ⟨.cacheIncrement (loginLimiter.counter key) by',r⟩) :
    Inv limit key (Function.update phases i .checked) ⟨cell,calls,s.log ++ [(i,e)]⟩ := by
  have hi : (phases i).Busy := hp ▸ trivial
  have hbusy : ∀ j, (Function.update phases i .checked j).Busy → (phases j).Busy := by
    intro j hj
    by_cases hji : j = i
    · rw [hji]
      exact hi
    · rwa [Function.update_of_ne hji] at hj
  refine ⟨?_,?_,?_,?_,?_⟩
  · intro j hj
    exact h.nobodyWon j (Calls.eq_of_update hj (by simp)).2
  · intro j hj
    obtain ⟨raw,hmem,hlets⟩ := h.read j (hbusy j hj)
    exact ⟨raw,List.mem_append_left _ hmem,hlets⟩
  · intro j hj
    refine notCounted_append (h.notCounted j ?_) he
    by_cases hji : j = i
    · rw [hji,hp]
      simp
    · rwa [Function.update_of_ne hji] at hj
  · intro j k hj hk
    exact h.alone j k (hbusy j hj) (hbusy k hk)
  · obtain ⟨count,hcount,⟨hnobody,_⟩ | ⟨j,hj,hle,hlimit⟩⟩ := h.counted
    · exact absurd hi (hnobody i)
    · have hji : j = i := h.alone j i hj hi
      subst hji
      rw [hp,if_neg (by simp)] at hle
      refine ⟨count,hcounts count hcount,.inr ⟨j,?_,?_,hlimit⟩⟩
      · rw [Function.update_self]
        trivial
      · rw [Function.update_self,checks_append,hcheck,if_pos rfl,if_pos rfl]
        omega

/-- The login that has checked a password counts it. -/
theorem Inv.count (h : Inv limit key phases s) (hp : phases i = .checked)
    (hcounts : ∀ count, Counts key s.cell count → count < limit → Counts key cell (count + 1)) (hcheck : isCheck e = false)
    : Inv limit key (Function.update phases i .out) ⟨cell,calls,s.log ++ [(i,e)]⟩ := by
  have hi : (phases i).Busy := hp ▸ trivial
  have hnobody : ∀ j, ¬ (Function.update phases i .out j).Busy := by
    intro j hj
    obtain ⟨hji,hj⟩ := Calls.of_update (p := Phase.Busy) id hj
    exact hji (h.alone j i hj hi)
  refine ⟨?_,?_,?_,?_,?_⟩
  · intro j hj
    exact h.nobodyWon j (Calls.eq_of_update hj (by simp)).2
  · intro j hj
    exact absurd hj (hnobody j)
  · intro j hj by' r hmem
    by_cases hji : j = i
    · subst hji
      rw [Function.update_self] at hj
      exact hj rfl
    · rw [Function.update_of_ne hji] at hj
      rcases List.mem_append.mp hmem with hmem | hmem
      · exact h.notCounted j hj by' r hmem
      · cases List.mem_singleton.mp hmem
        exact hji rfl
  · intro j k hj
    exact absurd hj (hnobody j)
  · obtain ⟨count,hcount,⟨hnot,_⟩ | ⟨j,hj,hle,hlimit⟩⟩ := h.counted
    · exact absurd hi (hnot i)
    · have hji : j = i := h.alone j i hj hi
      subst hji
      rw [hp,if_pos rfl] at hle
      refine ⟨count + 1,hcounts count hcount hlimit,.inl ⟨hnobody,?_,hlimit⟩⟩
      rw [checks_append,hcheck]
      exact hle

/-- What is asked of the steps of a run. -/
structure Permitted (verifies : String → String → Bool) (limit : ℕ) (key : String) (s : Run U) (a : ℕ × Outside U) : Prop where
  inWindow : InWindow key s a
  wrong : Wrong verifies s a
  undisturbed : Undisturbed limit key s a

variable {verifies : String → String → Bool} {x : Outside U} {o : Op U} {next : o.Answer → Flow U Response}

/-- A login that is busy is one a reader has to wait for. -/
theorem Inv.inside (h : Inv limit key phases s) (htracked : Program.Tracked (protocol limit key) phases s)
    (hj : (phases j).Busy) : Inside limit key s j := by
  have hp : phases j = .inside ∨ phases j = .checked := by
    cases hp : phases j with
    | inside => exact .inl rfl
    | checked => exact .inr rfl
    | arriving =>
      rw [hp] at hj
      exact hj.elim
    | out =>
      rw [hp] at hj
      exact hj.elim
    | won =>
      rw [hp] at hj
      exact hj.elim
  refine ⟨h.read j hj,h.notCounted j ?_,htracked.not_finished ?_⟩
  · rcases hp with hp | hp <;> simp [hp]
  · rcases hp with hp | hp <;> simp [hp,protocol]

variable [AccountUser U]

theorem Inv.step (h : Inv limit key phases s) (htracked : Program.Tracked (protocol limit key) phases s)
    (hpos : 0 < limit) (hlimit : limit < 2 ^ 32) (hok : Permitted verifies limit key s (i,x)) (hi : s.calls i = .call o next) :
    Inv limit key (Function.update phases i ((protocol limit key).after (phases i) o (handle verifies x s.cell o).1))
      ⟨(handle verifies x s.cell o).2,Function.update s.calls i (Program.resume next (handle verifies x s.cell o).1),
        s.log ++ [(i,⟨o,(handle verifies x s.cell o).1⟩)]⟩ := by
  have hallows := htracked.allows hi
  have hanswers := hok.undisturbed.answers o next hi
  have hwait : ∀ count, Counts key s.cell count → Counts key { s.cell with clock := s.cell.clock + x.delay } count :=
    fun count hcount => hcount.wait hok.inWindow
  cases hp : phases i with
  | arriving =>
    rw [hp] at hallows
    cases o with
    | cacheGet k =>
      have hk : k = loginLimiter.counter key := hallows
      subst hk
      have hnobody : ∀ j, ¬ (phases j).Busy := by
        intro j hj
        by_cases hji : j = i
        · rw [hji,hp] at hj
          exact hj
        · exact hok.undisturbed.alone next hi j hji (h.inside htracked hj)
      simp only [handle,operate,Outside.attempt_of_none (hanswers rfl)]
      have hcounts := fun count hcount => (hwait count hcount).get (loginLimiter.counter key)
      cases hlets : letsThrough limit (MemoryCache.get (s.cell.clock + x.delay) s.cell.cache (loginLimiter.counter key)).1 with
      | true =>
        have hafter : (protocol limit key : Program.Protocol (Op U) _ _).after (ε := Refusal) .arriving
            (.cacheGet (loginLimiter.counter key)) (.ok (MemoryCache.get (s.cell.clock + x.delay) s.cell.cache
              (loginLimiter.counter key)).1) = .inside := if_pos hlets
        rw [hafter]
        refine h.enter hp hnobody hcounts ?_ hlets
        intro count hcount hle
        exact (hwait count hcount).lt_of_letsThrough (by omega) hpos hlets
      | false =>
        have hafter : (protocol limit key : Program.Protocol (Op U) _ _).after (ε := Refusal) .arriving
            (.cacheGet (loginLimiter.counter key)) (.ok (MemoryCache.get (s.cell.clock + x.delay) s.cell.cache
              (loginLimiter.counter key)).1) = .out := if_neg (by simp [hlets])
        rw [hafter]
        exact h.leave (by simp [hp]) hcounts rfl (by simp)
    | _ => exact False.elim hallows
  | inside =>
    rw [hp] at hallows
    cases o with
    | cacheGet k =>
      simp only [handle,operate,Outside.attempt_of_none (hanswers rfl)]
      exact h.stay hp.symm (fun count hcount => (hwait count hcount).get k) rfl (by simp)
    | now => exact h.stay hp.symm hwait rfl (by simp)
    | findByEmail email =>
      cases hx : x.fails with
      | none =>
        simp only [handle,operate,Outside.attempt_of_none hx]
        exact h.stay hp.symm hwait rfl (by simp)
      | some error =>
        simp only [handle,operate,Outside.attempt,hx]
        exact h.leave (by simp [hp]) hwait rfl (by simp)
    | verify password hash =>
      have hwrong := hok.wrong password hash next hi
      simp only [handle,operate,hwrong]
      exact h.check hp hwait rfl (by simp)
    | dummyVerify password => exact h.check hp hwait rfl (by simp)
    | _ => exact False.elim hallows
  | checked =>
    rw [hp] at hallows
    cases o with
    | now => exact h.stay hp.symm hwait rfl (by simp)
    | cacheGet k =>
      simp only [handle,operate,Outside.attempt_of_none (hanswers rfl)]
      exact h.stay hp.symm (fun count hcount => (hwait count hcount).get k) rfl (by simp)
    | cacheAdd k value ttl =>
      simp only [handle,operate,Outside.attempt_of_none (hanswers rfl)]
      rcases hallows with rfl | ⟨rfl,rfl⟩
      · exact h.stay hp.symm (fun count hcount => (hwait count hcount).addOther (loginLimiter.deadline_ne_counter key) value ttl)
          rfl (by simp)
      · exact h.stay hp.symm (fun count hcount => (hwait count hcount).open ttl) rfl (by simp)
    | cacheIncrement k by' =>
      obtain ⟨rfl,rfl⟩ := hallows
      simp only [handle,operate,Outside.attempt_of_none (hanswers rfl)]
      have hcounts := fun count hcount (hlt : count < limit) => ((hwait count hcount).increment (by omega)).2
      cases (MemoryCache.increment (s.cell.clock + x.delay) s.cell.cache (loginLimiter.counter key) 1).1 with
      | ok n => exact h.count hp hcounts rfl
      | error error => exact h.count hp hcounts rfl
    | _ => exact False.elim hallows
  | out =>
    rw [hp] at hallows
    cases o with
    | now => exact h.stay hp.symm hwait rfl (by simp)
    | announce event => exact h.stay hp.symm hwait rfl (by simp)
    | cacheGet k =>
      simp only [handle,operate,Outside.attempt_of_none (hanswers rfl)]
      exact h.stay hp.symm (fun count hcount => (hwait count hcount).get k) rfl (by simp)
    | _ => exact False.elim hallows
  | won => exact absurd hp (h.nobodyWon i)

/-! ## Every interleaving -/

end

/-- Without delay the window is not over. -/
theorem inWindow_of_no_delay {s : Run U} {a : ℕ × Outside U} (h : a.2.delay = 0) : InWindow key s a := by
  intro e he
  rw [h]
  exact (MemoryCache.live_eq_some.mp he).2

/-- A login by itself disturbs nobody. -/
theorem along_single [AccountUser U] {s : Run U} {steps : List (ℕ × Outside U)} (hlog : ∀ e ∈ s.log, e.1 = 0)
    (hsteps : ∀ a ∈ steps, a.1 = 0 ∧ a.2.delay = 0 ∧ a.2.fails = none) :
    Along (Calls.step (Program.advance (handle fun _ _ => false)))
      (fun s a => InWindow key s a ∧ Wrong (fun _ _ => false) s a ∧ Undisturbed limit key s a) s steps := by
  induction steps generalizing s with
  | nil => trivial
  | cons a steps ih =>
    obtain ⟨hzero,hdelay,hfails⟩ := hsteps a List.mem_cons_self
    refine ⟨⟨inWindow_of_no_delay hdelay,?_,⟨fun _ _ _ _ => hfails,?_⟩⟩,ih ?_ fun b hb => hsteps b (List.mem_cons_of_mem a hb)⟩
    · intro _ _ _ _
      rfl
    · intro next _ j hj hinside
      obtain ⟨raw,hmem,_⟩ := hinside.read
      exact hj ((hlog _ hmem).trans hzero.symm)
    · intro e he
      rcases List.mem_append.mp he with he | he
      · exact hlog e he
      · obtain ⟨entry,_,rfl⟩ := List.mem_map.mp he
        exact hzero

/-! Somebody guesses, one password is allowed, and nothing else happens. -/

def guess : Request := ⟨0,.object [("email",.string "ada@example.com"),("password",.string "guess")],none,true⟩

def calm : Outside Account := ⟨0,none,some ⟨"1",some "hash"⟩,"",[]⟩

def once : Accounts Unit := sample { Features.default with maxLoginAttempts := 1 }

def quiet : World := ⟨0,fun _ => none,MemoryCache.empty,fun _ => none⟩

end Rainier.Accounts.LoginThrottle
