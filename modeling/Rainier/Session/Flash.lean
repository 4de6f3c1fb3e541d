import Rainier.Session.Session

/-! # How long a value stays

A request is a sequence of calls on the session, after which the flash data is aged and
the session is restored for the next one. A flashed value has the life it is said to have.
A value that was put has it only if its key is in neither list of flashed keys: the lists
are not told that a key has been written over.
-/
namespace Rainier.Session

inductive Call where
  | put (key : String) (value : Json)
  | flash (key : String) (value : Json)
  | keep (keys : List String)
  | reflash
  | forget (key : String)
  | pull (key : String)
  | flush
  deriving DecidableEq, Repr

def perform (s : Session) : Call → Session
  | .put key value => s.put key value
  | .flash key value => s.flash key value
  | .keep keys => s.keep keys
  | .reflash => s.reflash
  | .forget key => s.forget key
  | .pull key => (s.pull key).2
  | .flush => s.flush

/-- The end of a request, and what the next one is given. -/
def finish (s : Session) : Session := restore s.id s.ageAndTake.1

/-- A whole request. -/
def serve (s : Session) (calls : List Call) : Session := (calls.foldl perform s).finish

/-- The rest of a request, some whole requests, and a part of the next. -/
def later (s : Session) (rest : List Call) (requests : List (List Call)) (part : List Call) : Session :=
  part.foldl perform (requests.foldl serve (s.serve rest))

/-- The call ends what the key held before. -/
def Call.Ends (key : String) : Call → Prop
  | put k _ | flash k _ | forget k | pull k => k = key
  | flush => True
  | keep _ | reflash => False

/-- The call keeps the key if it is flashed. -/
def Call.Keeps (key : String) : Call → Prop
  | keep keys => key ∈ keys
  | reflash => True
  | _ => False

def Spares (key : String) (calls : List Call) : Prop := ∀ c ∈ calls, ¬ c.Ends key

/-- A value that is put is there in this request and in every later one. -/
structure PutLasts (s : Session) (key : String) (v : Json) : Prop where
  now : ∀ rest, Spares key rest → (rest.foldl perform (s.put key v)).value key = some v
  after : ∀ rest requests part, Spares key rest → (∀ r ∈ requests, Spares key r) → Spares key part →
    ((s.put key v).later rest requests part).value key = some v

/-- A value that is flashed is there in this request and in the next, in one more for each
in a row that keeps it, and in none after. -/
structure FlashLasts (s : Session) (key : String) (v : Json) : Prop where
  now : ∀ rest, Spares key rest → (rest.foldl perform (s.flash key v)).value key = some v
  after : ∀ rest requests part, Spares key rest → (∀ r ∈ requests, Spares key r) → Spares key part →
    (∀ r ∈ requests, ∃ c ∈ r, c.Keeps key) → ((s.flash key v).later rest requests part).value key = some v
  gone : ∀ rest requests part, Spares key rest → (∀ r ∈ requests, Spares key r) → Spares key part →
    ¬ (∀ r ∈ requests, ∃ c ∈ r, c.Keeps key) → ((s.flash key v).later rest requests part).value key = none

/-! ## One call -/

variable {s : Session} {key : String} {v : Json} {c : Call} {calls : List Call}

theorem keepOne_spec (s : Session) (k key : String) : (s.keepOne k).value key = s.value key ∧
    (s.keepOne k).flashOld = s.flashOld ∧ (key ∈ (s.keepOne k).flashNew ↔ key ∈ s.flashNew ∨ k = key ∧ key ∈ s.flashOld) := by
  unfold keepOne
  split
  · next h =>
    refine ⟨rfl,rfl,?_⟩
    simp only [List.mem_append,List.mem_singleton]
    constructor
    · rintro (hnew | rfl)
      · exact .inl hnew
      · exact .inr ⟨rfl,h.1⟩
    · rintro (hnew | ⟨rfl,_⟩)
      · exact .inl hnew
      · exact .inr rfl
  · next h =>
    refine ⟨rfl,rfl,.inl,?_⟩
    rintro (hnew | ⟨rfl,hold⟩)
    · exact hnew
    · by_contra hnew
      exact h ⟨hold,hnew⟩

theorem keep_spec (s : Session) (keys : List String) (key : String) : (s.keep keys).value key = s.value key ∧
    (s.keep keys).flashOld = s.flashOld ∧ (key ∈ (s.keep keys).flashNew ↔ key ∈ s.flashNew ∨ key ∈ keys ∧ key ∈ s.flashOld) := by
  induction keys generalizing s with
  | nil => simp [keep]
  | cons k keys ih =>
    obtain ⟨hvalue,hold,hnew⟩ := keepOne_spec s k key
    obtain ⟨hvalue',hold',hnew'⟩ := ih (s.keepOne k)
    refine ⟨hvalue'.trans hvalue,hold'.trans hold,?_⟩
    rw [show s.keep (k :: keys) = (s.keepOne k).keep keys from rfl,hnew',hnew,hold,List.mem_cons,eq_comm]
    tauto

theorem reflash_spec (s : Session) (key : String) : s.reflash.value key = s.value key ∧
    s.reflash.flashOld = s.flashOld ∧ (key ∈ s.reflash.flashNew ↔ key ∈ s.flashNew ∨ key ∈ s.flashOld) := by
  unfold reflash
  dsimp only
  split
  · next h =>
    refine ⟨rfl,rfl,.inl,?_⟩
    rintro (hnew | hold)
    · exact hnew
    · by_contra hnew
      have hmem : key ∈ s.flashOld.filter fun key => key ∉ s.flashNew := by simp [hold,hnew]
      rw [List.isEmpty_iff.mp h] at hmem
      cases hmem
  · refine ⟨rfl,rfl,?_⟩
    simp only [List.mem_append,List.mem_filter,decide_eq_true_eq]
    tauto

/-- A call that spares a key changes no more than whether it is kept. -/
theorem perform_spec (h : ¬ c.Ends key) : (s.perform c).value key = s.value key ∧
    (key ∈ (s.perform c).flashOld ↔ key ∈ s.flashOld) ∧
    (key ∈ (s.perform c).flashNew ↔ key ∈ s.flashNew ∨ c.Keeps key ∧ key ∈ s.flashOld) := by
  cases c with
  | put k w =>
    have hne : key ≠ k := fun he => h he.symm
    refine ⟨by simp [perform,hne],Iff.rfl,?_⟩
    simp [perform,put,Call.Keeps]
  | flash k w =>
    have hne : key ≠ k := fun he => h he.symm
    refine ⟨by simp [perform,hne],Iff.rfl,?_⟩
    simp only [perform,flash,Call.Keeps,false_and,or_false]
    split <;> simp [hne]
  | keep keys =>
    obtain ⟨hvalue,hold,hnew⟩ := keep_spec s keys key
    exact ⟨hvalue,by rw [perform,hold],hnew⟩
  | reflash =>
    obtain ⟨hvalue,hold,hnew⟩ := reflash_spec s key
    exact ⟨hvalue,by rw [perform,hold],by simpa [perform,Call.Keeps] using hnew⟩
  | forget k =>
    have hne : key ≠ k := fun he => h he.symm
    refine ⟨by simp [perform,hne],?_⟩
    simp only [perform,forget,Call.Keeps,false_and,or_false]
    split <;> exact ⟨Iff.rfl,Iff.rfl⟩
  | pull k =>
    have hne : key ≠ k := fun he => h he.symm
    refine ⟨by simp [perform,hne],?_⟩
    simp only [perform,pull,Call.Keeps,false_and,or_false]
    split <;> exact ⟨Iff.rfl,Iff.rfl⟩
  | flush => exact absurd trivial h

theorem performs_spec (h : Spares key calls) : (calls.foldl perform s).value key = s.value key ∧
    (key ∈ (calls.foldl perform s).flashOld ↔ key ∈ s.flashOld) ∧
    (key ∈ (calls.foldl perform s).flashNew ↔ key ∈ s.flashNew ∨ (∃ c ∈ calls, c.Keeps key) ∧ key ∈ s.flashOld) := by
  induction calls generalizing s with
  | nil => simp
  | cons c calls ih =>
    obtain ⟨hvalue,hold,hnew⟩ := perform_spec (s := s) (h c List.mem_cons_self)
    obtain ⟨hvalue',hold',hnew'⟩ := ih (s := s.perform c) fun d hd => h d (List.mem_cons_of_mem c hd)
    refine ⟨hvalue'.trans hvalue,hold'.trans hold,hnew'.trans ?_⟩
    rw [hnew,hold]
    simp only [List.mem_cons,exists_eq_or_imp]
    tauto

/-! ## The end of a request -/

theorem field_removes (keys : List String) (values : List (String × Json)) (key : String) :
    Json.field (keys.foldl Json.remove values) key = if key ∈ keys then none else Json.field values key := by
  induction keys generalizing values with
  | nil => simp
  | cons k keys ih =>
    rw [List.foldl_cons,ih,Json.field_remove]
    by_cases hk : key = k
    · simp [hk]
    · by_cases hkeys : key ∈ keys <;> simp [hk,hkeys]

theorem value_finish (s : Session) (key : String) :
    s.finish.value key = if key ∈ s.flashOld ∧ key ∉ s.flashNew then none else s.value key := by
  have h := field_removes (s.flashOld.filter fun key => key ∉ s.flashNew) s.values key
  simp only [List.mem_filter,decide_eq_true_eq] at h
  exact h

/-! ## What a key can be -/

/-- The key is in neither list of flashed keys. -/
def Untracked (s : Session) (key : String) : Prop := key ∉ s.flashOld ∧ key ∉ s.flashNew

/-- The key was flashed for the present request. -/
structure Carried (s : Session) (key : String) (v : Json) : Prop where
  value : s.value key = some v
  old : key ∈ s.flashOld
  notNew : key ∉ s.flashNew

theorem Untracked.serve (hs : Untracked s key) (h : Spares key calls) :
    Untracked (s.serve calls) key ∧ (s.serve calls).value key = s.value key := by
  obtain ⟨hvalue,hold,hnew⟩ := performs_spec (s := s) h
  have hold' : key ∉ (calls.foldl perform s).flashOld := fun hmem => hs.1 (hold.mp hmem)
  have hnew' : key ∉ (calls.foldl perform s).flashNew := by
    intro hmem
    rcases hnew.mp hmem with hmem | ⟨_,hmem⟩
    · exact hs.2 hmem
    · exact hs.1 hmem
  refine ⟨⟨hnew',List.not_mem_nil⟩,?_⟩
  rw [Session.serve,value_finish,if_neg (fun h => hold' h.1),hvalue]

theorem Untracked.requests (hs : Untracked s key) {requests : List (List Call)} (h : ∀ r ∈ requests, Spares key r) :
    (requests.foldl Session.serve s).value key = s.value key := by
  induction requests generalizing s with
  | nil => rfl
  | cons r requests ih =>
    obtain ⟨huntracked,hvalue⟩ := hs.serve (h r List.mem_cons_self)
    rw [List.foldl_cons,ih huntracked fun r' hr' => h r' (List.mem_cons_of_mem r hr'),hvalue]

/-- A request that keeps a flashed value hands it on. -/
theorem Carried.serve_keep (hs : Carried s key v) (h : Spares key calls) (hkeep : ∃ c ∈ calls, c.Keeps key) :
    Carried (s.serve calls) key v := by
  obtain ⟨hvalue,_,hnew⟩ := performs_spec (s := s) h
  have hmem := hnew.mpr (.inr ⟨hkeep,hs.old⟩)
  refine ⟨?_,hmem,List.not_mem_nil⟩
  rw [Session.serve,value_finish,if_neg (fun h => h.2 hmem),hvalue,hs.value]

/-- A request that does not keep it is its last. -/
theorem Carried.serve_drop (hs : Carried s key v) (h : Spares key calls) (hkeep : ¬ ∃ c ∈ calls, c.Keeps key) :
    Untracked (s.serve calls) key ∧ (s.serve calls).value key = none := by
  obtain ⟨_,hold,hnew⟩ := performs_spec (s := s) h
  have hmem : key ∉ (calls.foldl perform s).flashNew := by
    intro hmem
    rcases hnew.mp hmem with hmem | ⟨hk,_⟩
    · exact hs.notNew hmem
    · exact hkeep hk
  refine ⟨⟨hmem,List.not_mem_nil⟩,?_⟩
  rw [Session.serve,value_finish,if_pos ⟨hold.mpr hs.old,hmem⟩]

theorem Carried.requests_keep (hs : Carried s key v) {requests : List (List Call)} (h : ∀ r ∈ requests, Spares key r)
    (hkeep : ∀ r ∈ requests, ∃ c ∈ r, c.Keeps key) : Carried (requests.foldl Session.serve s) key v := by
  induction requests generalizing s with
  | nil => exact hs
  | cons r requests ih =>
    apply ih (hs.serve_keep (h r List.mem_cons_self) (hkeep r List.mem_cons_self))
    · exact fun r' hr' => h r' (List.mem_cons_of_mem r hr')
    · exact fun r' hr' => hkeep r' (List.mem_cons_of_mem r hr')

theorem Carried.requests_drop (hs : Carried s key v) {requests : List (List Call)} (h : ∀ r ∈ requests, Spares key r)
    (hkeep : ¬ ∀ r ∈ requests, ∃ c ∈ r, c.Keeps key) : (requests.foldl Session.serve s).value key = none := by
  induction requests generalizing s with
  | nil => exact absurd (fun r hr => nomatch hr) hkeep
  | cons r requests ih =>
    have hrest : ∀ r' ∈ requests, Spares key r' := fun r' hr' => h r' (List.mem_cons_of_mem r hr')
    by_cases hr : ∃ c ∈ r, c.Keeps key
    · apply ih (hs.serve_keep (h r List.mem_cons_self) hr) hrest
      intro hall
      apply hkeep
      intro r' hr'
      rcases List.mem_cons.mp hr' with rfl | hr'
      · exact hr
      · exact hall r' hr'
    · obtain ⟨huntracked,hnone⟩ := hs.serve_drop (h r List.mem_cons_self) hr
      rw [List.foldl_cons,huntracked.requests hrest,hnone]

/-! ## Whole sequences of requests -/

theorem putLasts_of_untracked (h : Untracked s key) (v : Json) : PutLasts s key v := by
  have hput : Untracked (s.put key v) key := h
  have hvalue : (s.put key v).value key = some v := by simp
  constructor
  · intro rest hrest
    rw [(performs_spec hrest).1,hvalue]
  · intro rest requests part hrest hrequests hpart
    obtain ⟨huntracked,hkept⟩ := hput.serve hrest
    rw [Session.later,(performs_spec hpart).1,huntracked.requests hrequests,hkept,hvalue]

/-- A value put under a flashed key goes when the flashed one would have gone. -/
theorem untracked_of_putLasts (h : PutLasts s key v) : Untracked s key := by
  have hspares : Spares key [] := fun c hc => nomatch hc
  by_contra htracked
  by_cases hnew : key ∈ s.flashNew
  · -- flashed by this request: there in the next one, gone after it
    have hgone := h.after [] [[]] [] hspares (by simpa using hspares) hspares
    have hcarried : Carried ((s.put key v).serve []) key v := by
      refine ⟨?_,hnew,List.not_mem_nil⟩
      rw [Session.serve,List.foldl_nil,value_finish,if_neg (fun h => h.2 hnew)]
      simp
    have hnone := (hcarried.serve_drop hspares (by simp)).2
    rw [Session.later,List.foldl_nil,List.foldl_cons,List.foldl_nil,hnone] at hgone
    cases hgone
  · have hold : key ∈ s.flashOld := by
      by_contra hold
      exact htracked ⟨hold,hnew⟩
    have hgone := h.after [] [] [] hspares (fun r hr => nomatch hr) hspares
    rw [Session.later,List.foldl_nil,List.foldl_nil,Session.serve,List.foldl_nil,value_finish,if_pos ⟨hold,hnew⟩] at hgone
    cases hgone

theorem flashLasts (s : Session) (key : String) (v : Json) : FlashLasts s key v := by
  have hvalue : (s.flash key v).value key = some v := by simp
  have hmem : key ∈ (s.flash key v).flashNew := by
    unfold flash
    dsimp only
    split
    · assumption
    · simp
  have hcarried : ∀ rest, Spares key rest → Carried ((s.flash key v).serve rest) key v := by
    intro rest hrest
    obtain ⟨hkept,_,hnew⟩ := performs_spec (s := s.flash key v) hrest
    have hstays := hnew.mpr (.inl hmem)
    refine ⟨?_,hstays,List.not_mem_nil⟩
    rw [Session.serve,value_finish,if_neg (fun h => h.2 hstays),hkept,hvalue]
  constructor
  · intro rest hrest
    rw [(performs_spec hrest).1,hvalue]
  · intro rest requests part hrest hrequests hpart hkeep
    rw [Session.later,(performs_spec hpart).1]
    exact ((hcarried rest hrest).requests_keep hrequests hkeep).value
  · intro rest requests part hrest hrequests hpart hkeep
    rw [Session.later,(performs_spec hpart).1]
    exact (hcarried rest hrest).requests_drop hrequests hkeep

/-- Values last as they should, whatever came before, just when the key that is put is not
one that is flashed. -/
theorem values_last_iff (s : Session) (key : String) (v : Json) :
    PutLasts s key v ∧ FlashLasts s key v ↔ key ∉ s.flashOld ∧ key ∉ s.flashNew := by
  constructor
  · intro h
    exact untracked_of_putLasts h.1
  · intro h
    exact ⟨putLasts_of_untracked h v,flashLasts s key v⟩

/-- A status that was flashed for this request and is now put for good is gone in the next. -/
theorem put_over_flash_lost :
    let s := (new "a").serve [.flash "status" (.string "Saved.")]
    (s.later [.put "status" (.string "open")] [] []).value "status" = none ∧ ¬ PutLasts s "status" (.string "open") := by
  refine ⟨by decide,fun h => ?_⟩
  exact absurd (untracked_of_putLasts h).1 (by decide)

end Rainier.Session
