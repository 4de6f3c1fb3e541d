import Rainier.Queue.DatabaseExclusion

/-! # The attempts of a row

A claim writes one more than the attempts of the candidate it read, and checks
only that the row is free. What a claim finds is therefore either the candidate
unchanged, or a row another worker has claimed and released since, with more
attempts and a later time to be available at.
-/
namespace Rainier.Queue.DatabaseQueue
variable {n : ℕ}

def claimsOf (claims : List Claim) (id : String) : ℕ := claims.countP (fun c => c.id == id)

/-- The stored attempts are the successful claims, and every claim found its row available. -/
structure Tracks (s : World n) : Prop where
  attempts : ∀ row ∈ s.rows, row.attempts = claimsOf s.claims row.id
  available : ∀ c ∈ s.claims, c.availableAt ≤ c.at'

/-- If the step is a claim that succeeds, its row is still as the worker read it. -/
def FindsCandidate (s : World n) : Label n → Prop
  | .execute w _ => match s.workers w with
    | .updating row _ _ => ∀ stored ∈ s.rows, claimable row.id stored = true → stored = row
    | _ => True
  | _ => True

instance (s : World n) (a : Label n) : Decidable (FindsCandidate s a) := by
  unfold FindsCandidate
  split
  · split <;> infer_instance
  · infer_instance

def Label.reclaims : Label n → Bool
  | .reclaimExpired _ => true
  | _ => false

/-- A candidate as it was read, against what its row may have become. -/
structure Read (s : World n) (c : JobRow) : Prop where
  free : c.reservedAt = none
  due : c.availableAt ≤ s.clock
  known : c.id ∈ s.pushed
  older : ∀ stored ∈ s.rows, stored.id = c.id → stored = c ∨ c.attempts < stored.attempts

structure Reads (s : World n) : Prop where
  guarded : Guarded s
  unswept : ∀ w now, s.workers w ≠ .sweeping now
  candidates : ∀ w, ∀ c ∈ (s.workers w).candidates, Read s c
  claims : ∀ c ∈ s.claims, c.id ∈ s.pushed

variable {q : DatabaseQueue} {s s' : World n} {w : Fin n}

/-- Everything a step can do to the rows and the claims. -/
theorem step_cases (q : DatabaseQueue) (s : World n) (a : Label n) :
    ((q.step s a).rows = s.rows ∧ (q.step s a).claims = s.claims ∧ (q.step s a).pushed = s.pushed) ∨
    (∃ job : QueuedJob, job.attempts = 0 ∧ job.id ∉ s.pushed ∧ (q.step s a).rows = s.rows ++ [.fromQueued job] ∧
      (q.step s a).claims = s.claims ∧ (q.step s a).pushed = s.pushed ++ [job.id]) ∨
    (∃ w order row now rest stored, a = .execute w order ∧ s.workers w = .updating row now rest ∧
      stored ∈ s.rows ∧ claimable row.id stored = true ∧
      (q.step s a).rows = Table.updateWhere (claimable row.id) (q.claimed row now) s.rows ∧
      (q.step s a).claims = s.claims ++ [⟨row.id,stored.availableAt,s.clock⟩] ∧ (q.step s a).pushed = s.pushed) ∨
    (∃ w job at', (s.workers w).job = some job ∧
      ((q.step s a).rows = Table.deleteWhere (sameId job.id) s.rows ∨
        (q.step s a).rows = Table.updateWhere (sameId job.id) (released at') s.rows) ∧
      (q.step s a).claims = s.claims ∧ (q.step s a).pushed = s.pushed) ∨
    (∃ w row rest, s.workers w = .reclaiming (row :: rest) ∧ (q.step s a).claims = s.claims ∧
      (q.step s a).pushed = s.pushed) := by
  cases a with
  | tick elapsed => exact .inl ⟨rfl,rfl,rfl⟩
  | push job =>
    simp only [step]
    split
    next hnew => exact .inr (.inl ⟨job,hnew.1,hnew.2,rfl,rfl,rfl⟩)
    · exact .inl ⟨rfl,rfl,rfl⟩
  | execute w order =>
    simp only [step,execute]
    split
    next queue now hw =>
      unfold World.receive
      split <;> exact .inl ⟨rfl,rfl,rfl⟩
    next row now rest hw =>
      unfold runClaim
      cases hf : s.rows.find? (claimable row.id) with
      | none => exact .inl ⟨rfl,rfl,rfl⟩
      | some stored =>
        exact .inr (.inr (.inl ⟨w,order,row,now,rest,stored,rfl,hw,List.mem_of_find?_eq_some hf,
          List.find?_some hf,rfl,rfl,rfl⟩))
    next job hw => exact .inr (.inr (.inr (.inl ⟨w,job,0,by rw [hw]; rfl,.inl rfl,rfl,rfl⟩)))
    next job at' hw => exact .inr (.inr (.inr (.inl ⟨w,job,at',by rw [hw]; rfl,.inr rfl,rfl,rfl⟩)))
    next job error at' hw =>
      unfold recordFailure
      split <;> exact .inl ⟨rfl,rfl,rfl⟩
    next job hw => exact .inr (.inr (.inr (.inl ⟨w,job,0,by rw [hw]; rfl,.inl rfl,rfl,rfl⟩)))
    next now hw =>
      unfold World.receive
      split <;> exact .inl ⟨rfl,rfl,rfl⟩
    next row rest hw => exact .inr (.inr (.inr (.inr ⟨w,row,rest,hw,rfl,rfl⟩)))
    · exact .inl ⟨rfl,rfl,rfl⟩
    · exact .inl ⟨rfl,rfl,rfl⟩
  | abandon w => exact .inl ⟨rfl,rfl,rfl⟩
  | reserve w queue | claim w | acknowledge w | release w delay | fail w error | reclaimExpired w =>
    simp only [step]
    split <;> exact .inl ⟨rfl,rfl,rfl⟩

/-- What a worker has read after a step: what it had read before, or rows just selected. -/
def Moves (q : DatabaseQueue) (s : World n) (a : Label n) (w : Fin n) (phase : Phase) : Prop :=
  (∀ now, phase = .sweeping now → a.reclaims = true) ∧
    (phase.candidates ⊆ (s.workers w).candidates ∨ ∀ c ∈ phase.candidates, c ∈ s.rows ∧ c.reservedAt = none ∧
      c.availableAt ≤ s.clock ∧ (q.step s a).rows = s.rows)

theorem moves_without_reading {a : Label n} {phase : Phase} (hs : ∀ now, phase = .sweeping now → a.reclaims = true)
    (hc : phase.candidates = []) : Moves q s a w phase :=
  ⟨hs,.inl (by simp [hc])⟩

theorem execute_workers (h : Guarded s) (w : Fin n) (order : List JobRow) :
    (q.step s (.execute w order)).workers = s.workers ∨
      ∃ phase, (q.step s (.execute w order)).workers = Function.update s.workers w phase ∧
        Moves q s (.execute w order) w phase := by
  cases hw : s.workers w with
  | selecting queue now =>
    have hnow : now ≤ s.clock := h.reading w now (by rw [hw]; rfl)
    cases hsel : Table.select (available queue now) inOrder q.maxClaimAttempts s.rows order with
    | none => exact .inl (by simp only [step,execute,hw,hsel]; rfl)
    | some rows =>
      refine .inr ⟨.claiming rows,by simp only [step,execute,hw,hsel]; rfl,fun _ hp => (by cases hp),.inr ?_⟩
      intro c hc
      obtain ⟨hmem,hp⟩ := Table.mem_of_select hsel hc
      simp only [available,Bool.and_eq_true,beq_iff_eq,Option.isNone_iff_eq_none,decide_eq_true_eq] at hp
      exact ⟨hmem,hp.1.2,Nat.le_trans hp.2 hnow,by simp only [step,execute,hw,hsel]; rfl⟩
  | updating row now rest =>
    cases hf : s.rows.find? (claimable row.id) with
    | none =>
      refine .inr ⟨.claiming rest,by simp only [step,execute,hw,runClaim,hf]; rfl,fun _ hp => (by cases hp),.inl ?_⟩
      rw [hw]
      exact List.subset_cons_self row rest
    | some stored =>
      refine .inr ⟨_,by simp only [step,execute,hw,runClaim,hf]; rfl,moves_without_reading ?_ ?_⟩
      · intro now' hp
        split at hp <;> cases hp
      · split <;> rfl
  | recording job error at' =>
    by_cases hdup : job.id ∈ s.failed.map FailedJobRow.id
    · exact .inr ⟨.idle,by simp only [step,execute,hw,recordFailure,if_pos hdup]; rfl,
        moves_without_reading (fun _ hp => by cases hp) rfl⟩
    · exact .inr ⟨.discarding job,by simp only [step,execute,hw,recordFailure,if_neg hdup]; rfl,
        moves_without_reading (fun _ hp => by cases hp) rfl⟩
  | sweeping now =>
    cases hsel : Table.select (lapsed now) (fun _ => true) 100 s.rows order with
    | none => exact .inl (by simp only [step,execute,hw,hsel]; rfl)
    | some rows =>
      exact .inr ⟨.reclaiming rows,by simp only [step,execute,hw,hsel]; rfl,
        moves_without_reading (fun _ hp => by cases hp) rfl⟩
  | reclaiming rows =>
    refine .inr ⟨if rows.isEmpty then .idle else .reclaiming rows.tail,?_,moves_without_reading ?_ ?_⟩
    · cases rows <;> simp only [step,execute,hw] <;> rfl
    · intro now hp
      split at hp <;> cases hp
    · split <;> rfl
  | acknowledging job | releasing job at' | discarding job =>
    exact .inr ⟨.idle,by simp only [step,execute,hw]; rfl,moves_without_reading (fun _ hp => by cases hp) rfl⟩
  | idle | claiming rows | holding job => exact .inl (by simp only [step,execute,hw])

/-- A step moves one worker at most. -/
theorem step_workers (h : Guarded s) (a : Label n) :
    (q.step s a).workers = s.workers ∨
      ∃ w phase, (q.step s a).workers = Function.update s.workers w phase ∧ Moves q s a w phase := by
  cases a with
  | tick elapsed => exact .inl rfl
  | push job =>
    simp only [step]
    split <;> exact .inl rfl
  | claim w =>
    cases hw : s.workers w with
    | claiming rows => cases rows with
      | nil =>
        exact .inr ⟨w,.idle,by simp only [step,hw]; rfl,moves_without_reading (fun _ hp => by cases hp) rfl⟩
      | cons row rest =>
        refine .inr ⟨w,.updating row s.clock rest,by simp only [step,hw]; rfl,fun _ hp => (by cases hp),.inl ?_⟩
        rw [hw]
        exact List.Subset.refl _
    | _ => exact .inl (by simp only [step,hw])
  | execute w order =>
    obtain hsame | ⟨phase,hmoved⟩ := execute_workers (q := q) h w order
    · exact .inl hsame
    · exact .inr ⟨w,phase,hmoved⟩
  | abandon w => exact .inr ⟨w,.idle,rfl,moves_without_reading (fun _ hp => by cases hp) rfl⟩
  | reclaimExpired w =>
    simp only [step]
    split
    · exact .inr ⟨w,_,rfl,moves_without_reading (fun _ _ => rfl) rfl⟩
    · exact .inl rfl
  | reserve w queue | acknowledge w | release w delay | fail w error =>
    simp only [step]
    split
    · exact .inr ⟨w,_,rfl,moves_without_reading (fun _ hp => by cases hp) rfl⟩
    · exact .inl rfl

theorem claimable_iff {id : String} {row : JobRow} :
    claimable id row = true ↔ row.id = id ∧ row.reservedAt = none := by
  simp [claimable,sameId]

/-- The row of a job a worker holds is not free, so it is not as any candidate was read. -/
theorem Reads.moved_on (h : Reads s) {job : QueuedJob} (hw : (s.workers w).job = some job) {stored c : JobRow}
    (hs : stored ∈ s.rows) (hid : stored.id = job.id) (hfree : c.reservedAt = none) : stored ≠ c := by
  rintro rfl
  obtain ⟨r,hr,_,hrid⟩ := h.guarded.owner w job hw
  exact h.guarded.unheld hs (claimable_iff.mpr ⟨hid,hfree⟩) r hr hrid

/-- What a candidate may have become stays so through a permitted step. -/
theorem Reads.older (h : Reads s) {a : Label n} (hok : FindsCandidate s a) {c : JobRow} (hc : Read s c) :
    ∀ stored ∈ (q.step s a).rows, stored.id = c.id → stored = c ∨ c.attempts < stored.attempts := by
  intro stored hs hid
  rcases step_cases q s a with ⟨hrows,_⟩ | ⟨job,_,hfresh,hrows,_⟩ |
    ⟨w,order,row,now,rest,found,rfl,hw,hfound,hclaim,hrows,_⟩ | ⟨w,job,at',hw,hrows,_⟩ | ⟨w,row,rest,hw,_⟩
  · exact hc.older stored (hrows ▸ hs) hid
  · rw [hrows] at hs
    rcases List.mem_append.mp hs with hs | hs
    · exact hc.older stored hs hid
    · rw [List.mem_singleton.mp hs] at hid
      have he : job.id = c.id := hid
      exact absurd (he ▸ hc.known) hfresh
  · rw [hrows] at hs
    rcases Table.mem_updateWhere.mp hs with ⟨old,hold,hp,rfl⟩ | ⟨hs,_⟩
    · have hrow : old = row := by
        simp only [FindsCandidate,hw] at hok
        exact hok old hold hp
      right
      rcases hc.older old hold hid with he | hlt
      · simp [claimed,← hrow,he]
      · rw [hrow] at hlt
        exact Nat.lt_succ_of_lt hlt
    · exact hc.older stored hs hid
  · rcases hrows with hrows | hrows
    · rw [hrows] at hs
      exact hc.older stored (Table.mem_deleteWhere.mp hs).1 hid
    · rw [hrows] at hs
      rcases Table.mem_updateWhere.mp hs with ⟨old,hold,hp,rfl⟩ | ⟨hs,_⟩
      · have hjob : old.id = job.id := by simpa [sameId] using hp
        exact .inr ((hc.older old hold hid).resolve_left (h.moved_on hw hold hjob hc.free))
      · exact hc.older stored hs hid
  · have := h.guarded.stale w
    rw [hw] at this
    cases this

theorem clock_step (q : DatabaseQueue) (s : World n) (a : Label n) : s.clock ≤ (q.step s a).clock := by
  cases a with
  | tick elapsed => exact Nat.le_add_right _ _
  | execute w order =>
    simp only [step,execute,runClaim,recordFailure]
    split <;> try exact Nat.le_refl _
    · cases Table.select _ _ _ s.rows order <;> exact Nat.le_refl _
    · split <;> exact Nat.le_refl _
    · split <;> exact Nat.le_refl _
    · cases Table.select _ _ _ s.rows order <;> exact Nat.le_refl _
  | abandon w => exact Nat.le_refl _
  | push job | reserve w queue | claim w | acknowledge w | release w delay | fail w error | reclaimExpired w =>
    simp only [step]
    split <;> exact Nat.le_refl _

theorem pushed_step (q : DatabaseQueue) (s : World n) (a : Label n) : s.pushed ⊆ (q.step s a).pushed := by
  rcases step_cases q s a with ⟨_,_,hp⟩ | ⟨_,_,_,_,_,hp⟩ | ⟨_,_,_,_,_,_,_,_,_,_,_,_,hp⟩ | ⟨_,_,_,_,_,_,hp⟩ |
    ⟨_,_,_,_,_,hp⟩
  · exact hp ▸ List.Subset.refl _
  · exact hp ▸ List.subset_append_left _ _
  · exact hp ▸ List.Subset.refl _
  · exact hp ▸ List.Subset.refl _
  · exact hp ▸ List.Subset.refl _

theorem reads_step (h : Reads s) {a : Label n} (ha : a.reclaims = false) (hok : FindsCandidate s a) :
    Reads (q.step s a) := by
  have hguard : Guarded (q.step s a) :=
    guarded_step h.guarded a (fun w _ now _ hw => absurd hw (h.unswept w now))
  refine ⟨hguard,?_,?_,?_⟩
  · intro w now hw
    rcases step_workers (q := q) h.guarded a with he | ⟨w',phase,he,hm,_⟩
    · exact h.unswept w now (he ▸ hw)
    · rw [he,Function.update_apply] at hw
      split at hw
      · rw [hm now hw] at ha
        cases ha
      · exact h.unswept w now hw
  · intro w c hc
    have hread : Read s c ∨ (c ∈ s.rows ∧ c.reservedAt = none ∧ c.availableAt ≤ s.clock ∧
        (q.step s a).rows = s.rows) := by
      rcases step_workers (q := q) h.guarded a with he | ⟨w',phase,he,_,hm⟩
      · exact .inl (h.candidates w c (he ▸ hc))
      · rw [he,Function.update_apply] at hc
        split at hc
        · rcases hm with hm | hm
          · exact .inl (h.candidates w' c (hm hc))
          · exact .inr (hm c hc)
        · exact .inl (h.candidates w c hc)
    have hclock := clock_step q s a
    have hpushed := pushed_step q s a
    rcases hread with hr | ⟨hmem,hfree,hdue,hrows⟩
    · exact ⟨hr.free,Nat.le_trans hr.due hclock,hpushed hr.known,h.older hok hr⟩
    · refine ⟨hfree,Nat.le_trans hdue hclock,hpushed (h.guarded.known c hmem),?_⟩
      intro stored hs hid
      exact .inl (Table.eq_of_key h.guarded.keys (hrows ▸ hs) hmem hid)
  · intro c hc
    have hpushed := pushed_step q s a
    rcases step_cases q s a with ⟨_,hcl,_⟩ | ⟨_,_,_,_,hcl,_⟩ |
      ⟨w,order,row,now,rest,found,_,_,hfound,hclaim,_,hcl,_⟩ | ⟨_,_,_,_,_,hcl,_⟩ | ⟨_,_,_,_,hcl,_⟩
    · exact hpushed (h.claims c (hcl ▸ hc))
    · exact hpushed (h.claims c (hcl ▸ hc))
    · rw [hcl] at hc
      rcases List.mem_append.mp hc with hc | hc
      · exact hpushed (h.claims c hc)
      · rw [List.mem_singleton.mp hc]
        exact hpushed ((claimable_iff.mp hclaim).1 ▸ h.guarded.known found hfound)
    · exact hpushed (h.claims c (hcl ▸ hc))
    · exact hpushed (h.claims c (hcl ▸ hc))

/-- The row a claim finds is the one it changes. -/
theorem Guarded.mem_claimed (h : Guarded s) {row found stored : JobRow} {now : ℕ} (hf : found ∈ s.rows)
    (hc : claimable row.id found = true)
    (hs : stored ∈ Table.updateWhere (claimable row.id) (q.claimed row now) s.rows) :
    stored = q.claimed row now found ∨ (stored ∈ s.rows ∧ stored.id ≠ row.id) := by
  have hfid := (claimable_iff.mp hc).1
  rcases Table.mem_updateWhere.mp hs with ⟨old,hold,hp,rfl⟩ | ⟨hs,hp⟩
  · have : old = found := Table.eq_of_key h.keys hold hf ((claimable_iff.mp hp).1.trans hfid.symm)
    exact .inl (by rw [this])
  · refine .inr ⟨hs,?_⟩
    intro hid
    have : stored = found := Table.eq_of_key h.keys hs hf (hid.trans hfid.symm)
    rw [this,hc] at hp
    cases hp

theorem claimsOf_snoc (claims : List Claim) (id id' : String) (found at' : ℕ) :
    claimsOf (claims ++ [⟨id,found,at'⟩]) id' = claimsOf claims id' + if id = id' then 1 else 0 := by
  simp [claimsOf,List.countP_append,List.countP_singleton]

/-- A claim that finds its row free keeps the count exactly if it finds the candidate. -/
theorem tracks_claim (hr : Reads s) (ht : Tracks s) {row found : JobRow} {now : ℕ} {rest : List JobRow}
    (hw : s.workers w = .updating row now rest) (hf : found ∈ s.rows) (hc : claimable row.id found = true)
    (hrows : s'.rows = Table.updateWhere (claimable row.id) (q.claimed row now) s.rows)
    (hclaims : s'.claims = s.claims ++ [⟨row.id,found.availableAt,s.clock⟩]) : Tracks s' ↔ found = row := by
  have hread : Read s row := hr.candidates w row (by rw [hw]; exact List.mem_cons_self)
  obtain ⟨hid,_⟩ := claimable_iff.mp hc
  have hcount := ht.attempts found hf
  constructor
  · intro h
    have hmem : q.claimed row now found ∈ s'.rows := hrows ▸ Table.mem_updateWhere.mpr (.inl ⟨found,hf,hc,rfl⟩)
    have hnew := h.attempts _ hmem
    rw [hclaims,claimsOf_snoc] at hnew
    simp only [claimed,hid,↓reduceIte] at hnew hcount
    rcases hread.older found hf hid with he | hlt
    · exact he
    · omega
  · rintro rfl
    constructor
    · intro stored hs
      rw [hclaims,claimsOf_snoc]
      rcases hr.guarded.mem_claimed hf hc (hrows ▸ hs) with rfl | ⟨hs,hne⟩
      · simp [claimed,hcount]
      · simpa [Ne.symm hne] using ht.attempts stored hs
    · intro c hcl
      rw [hclaims] at hcl
      rcases List.mem_append.mp hcl with hcl | hcl
      · exact ht.available c hcl
      · rw [List.mem_singleton.mp hcl]
        exact hread.due

/-- Every other statement keeps the count. -/
theorem Tracks.keep (ht : Tracks s) (hr : Reads s) (hclaims : s'.claims = s.claims)
    (hrows : ∀ row ∈ s'.rows, (∃ old ∈ s.rows, old.id = row.id ∧ old.attempts = row.attempts) ∨
      (row.attempts = 0 ∧ row.id ∉ s.pushed)) : Tracks s' := by
  refine ⟨?_,fun c hc => ht.available c (hclaims ▸ hc)⟩
  intro row hrow
  rw [hclaims]
  rcases hrows row hrow with ⟨old,hold,hid,hatt⟩ | ⟨hzero,hfresh⟩
  · rw [← hatt,← hid]
    exact ht.attempts old hold
  · rw [hzero,eq_comm,claimsOf,List.countP_eq_zero]
    intro c hc he
    rw [beq_iff_eq] at he
    exact hfresh (he ▸ hr.claims c hc)

/-- A step that adds no claim has none to permit. -/
theorem findsCandidate_of_claims_eq {a : Label n} (h : (q.step s a).claims = s.claims) : FindsCandidate s a := by
  cases a with
  | execute w order =>
    simp only [FindsCandidate]
    split
    next row now rest hw =>
      intro stored hs hc
      cases hf : s.rows.find? (claimable row.id) with
      | none => exact absurd hc (List.find?_eq_none.mp hf stored hs)
      | some found => simp [step,execute,hw,runClaim,hf] at h
    · trivial
  | _ => trivial

theorem tracks_step (hr : Reads s) (ht : Tracks s) (a : Label n) :
    Tracks (q.step s a) ↔ FindsCandidate s a := by
  rcases step_cases q s a with ⟨hrows,hcl,_⟩ | ⟨job,hzero,hfresh,hrows,hcl,_⟩ |
    ⟨w,order,row,now,rest,found,rfl,hw,hfound,hclaim,hrows,hcl,_⟩ | ⟨w,job,at',hw,hrows,hcl,_⟩ | ⟨w,row,rest,hw,_⟩
  · refine iff_of_true (ht.keep hr hcl ?_) (findsCandidate_of_claims_eq hcl)
    intro row hrow
    exact .inl ⟨row,hrows ▸ hrow,rfl,rfl⟩
  · refine iff_of_true (ht.keep hr hcl ?_) (findsCandidate_of_claims_eq hcl)
    intro row hrow
    rw [hrows] at hrow
    rcases List.mem_append.mp hrow with hrow | hrow
    · exact .inl ⟨row,hrow,rfl,rfl⟩
    · rw [List.mem_singleton.mp hrow]
      exact .inr ⟨hzero,hfresh⟩
  · rw [tracks_claim hr ht hw hfound hclaim hrows hcl]
    simp only [FindsCandidate,hw]
    constructor
    · rintro rfl stored hs hc
      exact Table.eq_of_key hr.guarded.keys hs hfound (claimable_iff.mp hc).1
    · intro h
      exact h found hfound hclaim
  · refine iff_of_true (ht.keep hr hcl ?_) (findsCandidate_of_claims_eq hcl)
    intro row hrow
    left
    rcases hrows with hrows | hrows
    · exact ⟨row,(Table.mem_deleteWhere.mp (hrows ▸ hrow)).1,rfl,rfl⟩
    · rw [hrows] at hrow
      rcases Table.mem_updateWhere.mp hrow with ⟨old,hold,_,rfl⟩ | ⟨hrow,_⟩
      · exact ⟨old,hold,rfl,rfl⟩
      · exact ⟨row,hrow,rfl,rfl⟩
  · have := hr.guarded.stale w
    rw [hw] at this
    cases this

/-- Without `reclaim_expired`, the stored attempts of every row are its successful
claims and no claim comes before its time, exactly when every claim that
succeeds finds its row as the worker read it. -/
theorem run_tracks_iff (q : DatabaseQueue) (labels : List (Label n)) (h : ∀ a ∈ labels, a.reclaims = false) :
    Trace.Always q.step Tracks (World.init n) labels ↔ Trace.Along q.step FindsCandidate (World.init n) labels := by
  have hfirst : Reads (World.init n) :=
    ⟨guarded_init n,fun _ _ hw => (by cases hw),fun _ _ hc => (by cases hc),fun _ hc => by cases hc⟩
  exact Trace.always_iff_along_of_kind (Q := Reads) h (fun _ _ ha hr _ hok => reads_step hr ha hok)
    (fun _ a _ hr ht => tracks_step hr ht a) hfirst ⟨fun _ hr => (by cases hr),fun _ hc => by cases hc⟩

/-- A job released by one worker and, when it is due, claimed by another. -/
def retriedRun : List (Label 2) :=
  [.push mailJob,.reserve firstWorker "default",.execute firstWorker [.fromQueued mailJob],.claim firstWorker,
    .execute firstWorker [],.release firstWorker (Duration.fromSecs 2),.execute firstWorker [],
    .tick (Duration.fromSecs 2),.reserve secondWorker "default",
    .execute secondWorker [{ JobRow.fromQueued mailJob with attempts := 1, availableAt := Duration.fromSecs 2 }],
    .claim secondWorker,.execute secondWorker []]

theorem retried_run_tracks : Trace.Always new.step Tracks (World.init 2) retriedRun :=
  (run_tracks_iff new retriedRun (by decide)).mpr (by decide)

/-- The second worker reads the row; the first claims it, runs it, and releases it to
be tried again in two seconds; then the second worker's claim goes through. -/
def lateClaim : List (Label 2) :=
  [.push mailJob,.reserve secondWorker "default",.execute secondWorker [.fromQueued mailJob],
    .reserve firstWorker "default",.execute firstWorker [.fromQueued mailJob],.claim firstWorker,
    .execute firstWorker [],.release firstWorker (Duration.fromSecs 2),.execute firstWorker [],
    .claim secondWorker,.execute secondWorker []]

/-- The row then says one attempt after two claims. -/
theorem late_claim_loses_attempt : ¬ Trace.Always new.step Tracks (World.init 2) lateClaim := by
  intro h
  exact absurd h.last.attempts (by decide)

end Rainier.Queue.DatabaseQueue
