import Rainier.Orm.ShardIds

/-! # Sealed shards

A call decides from one list of the shards and then writes the status of the standby it chose,
whatever has become of it. As long as nobody seals or disables a standby that a call is about to
promote, no call reopens a shard that is shut, and none mints an id on one.
-/
namespace Rainier.Orm

/-- Sealed or disabled. -/
def ShardStatus.shut : ShardStatus → Bool
  | .sealed | .disabled => true
  | .provisioning | .active | .standby => false

namespace Fleet

variable {codec : ShardCodec}

/-- No call changes a shut shard back to active. -/
def KeepsShut (codec : ShardCodec) (f : Fleet) (e : Event) : Prop :=
  ∀ call millis spurious, e = .proceed call millis spurious → ∀ id status, statusOf id f.shards = some status →
    status.shut = true → statusOf id (f.step codec e).shards ≠ some .active

/-- No id was minted on a shard that was shut when the call's last statement ran. -/
def MintsOpen (f : Fleet) : Prop := ∀ p ∈ f.placed, ∀ status ∈ p.last, status.shut = false

/-- Some call has chosen this shard to promote. -/
def Chosen (f : Fleet) (id : UInt32) : Prop := ∃ call ids, f.phase call = .sealing ids (some id)

/-- Nobody seals or disables a standby that a call has chosen: no operator, and no call that
goes through the shards it found full. -/
def Undisturbed (f : Fleet) : Event → Prop
  | .operate id status => status.shut = true → ¬ f.Chosen id
  | .proceed call _ _ => ∀ id ids standby, f.phase call = .sealing (id :: ids) standby → ¬ f.Chosen id
  | .abandon _ | .measure _ _ => True

end Fleet

/-! ## The stored status -/

theorem statusOf_setStatus (id other : UInt32) (status : ShardStatus) (shards : List ShardRecord) :
    statusOf other (setStatus id status shards) =
      if other = id then (statusOf id shards).map fun _ => status else statusOf other shards := by
  induction shards with
  | nil => by_cases h : other = id <;> simp [h,setStatus,updateShard,statusOf]
  | cons r shards ih =>
    simp only [statusOf,setStatus,updateShard,List.map_cons,List.find?_cons] at ih ⊢
    by_cases hr : r.id = id
    · by_cases hother : other = id
      · simp [hr,hother]
      · simpa [hr,Ne.symm hother,hother] using ih
    · by_cases hro : r.id = other
      · have hne : other ≠ id := fun h => hr (hro.trans h)
        simp [hro,hne]
      · simpa [hr,hro] using ih

theorem statusOf_setSize (id other : UInt32) (size : ℤ) (shards : List ShardRecord) :
    statusOf other (setSize id size shards) = statusOf other shards := by
  induction shards with
  | nil => rfl
  | cons r shards ih =>
    simp only [statusOf,setSize,updateShard,List.map_cons,List.find?_cons] at ih ⊢
    by_cases hr : r.id = id
    · by_cases hro : r.id = other
      · simp [← hr,hro]
      · simpa [hr,show id ≠ other from fun h => hro (hr.trans h)] using ih
    · by_cases hro : r.id = other
      · simp [hro,show other ≠ id from fun h => hr (hro.trans h)]
      · simpa [hr,hro] using ih

/-- With one row for each shard, a row's status is the stored one. -/
theorem statusOf_mem {shards : List ShardRecord} (hids : (shards.map (·.id)).Nodup) {r : ShardRecord} (hr : r ∈ shards) :
    statusOf r.id shards = some r.status := by
  induction shards with
  | nil => simp at hr
  | cons x shards ih =>
    obtain ⟨hx,hrest⟩ := List.nodup_cons.1 hids
    simp only [statusOf,List.find?_cons] at ih ⊢
    rcases List.mem_cons.1 hr with rfl | hr
    · simp
    · have hne : x.id ≠ r.id := fun h => hx (List.mem_map.2 ⟨r,hr,h.symm⟩)
      simpa [hne] using ih hrest hr

/-! ## What calls hold stays open -/

namespace Fleet

variable {codec : ShardCodec}

/-- The standby a call chose is not shut, nor was the shard it is minting on. -/
def Open (shards : List ShardRecord) : Phase → Prop
  | .idle => True
  | .sealing _ standby => ∀ id ∈ standby, ∀ status ∈ statusOf id shards, status.shut = false
  | .mint _ last | .load _ last _ | .swap _ last _ _ => ∀ status ∈ last, status.shut = false

structure Calm (f : Fleet) : Prop where
  ids : (f.shards.map (·.id)).Nodup
  calls : ∀ call, Open f.shards (f.phase call)
  minted : f.MintsOpen

theorem calm_goTo {f : Fleet} (h : f.Calm) (call : ℕ) {phase : Phase} (hphase : Open f.shards phase) :
    (f.goTo call phase).Calm := by
  refine ⟨h.ids,fun other => ?_,h.minted⟩
  by_cases hcall : other = call
  · rw [hcall,goTo_phase_self]
    exact hphase
  · rw [goTo_phase_of_ne f hcall]
    exact h.calls other

/-- A status that is written disturbs no call, unless it shuts a shard that one has chosen. -/
theorem calm_setStatus {f : Fleet} (h : f.Calm) (id : UInt32) (status : ShardStatus)
    (hquiet : status.shut = true → ¬ f.Chosen id) : { f with shards := setStatus id status f.shards }.Calm := by
  refine ⟨by rw [setStatus_ids]; exact h.ids,fun call => ?_,h.minted⟩
  have hcall := h.calls call
  cases hphase : f.phase call with
  | sealing ids standby =>
    intro x hx after hafter
    rw [hphase] at hcall
    rw [statusOf_setStatus] at hafter
    split_ifs at hafter with hid
    · obtain ⟨-,-,rfl⟩ := Option.map_eq_some_iff.1 hafter
      cases hshut : status.shut with
      | false => rfl
      | true =>
        have hchosen : f.Chosen id := ⟨call,ids,by rw [hphase,← hid,Option.mem_def.1 hx]⟩
        exact absurd hchosen (hquiet hshut)
    · exact hcall x hx after hafter
  | idle => trivial
  | mint shard last => exact (hphase ▸ hcall : Open f.shards (.mint shard last))
  | load shard last now => exact (hphase ▸ hcall : Open f.shards (.load shard last now))
  | swap shard last now prev => exact (hphase ▸ hcall : Open f.shards (.swap shard last now prev))

theorem calm_setSize {f : Fleet} (h : f.Calm) (id : UInt32) (size : ℤ) :
    { f with shards := setSize id size f.shards }.Calm := by
  refine ⟨?_,fun call => ?_,h.minted⟩
  · have hids : (setSize id size f.shards).map (·.id) = f.shards.map (·.id) := by
      apply updateShard_ids
      intro r
      rfl
    rw [hids]
    exact h.ids
  · have hcall := h.calls call
    cases hphase : f.phase call with
    | sealing ids standby =>
      intro x hx after hafter
      rw [hphase] at hcall
      rw [statusOf_setSize] at hafter
      exact hcall x hx after hafter
    | idle => trivial
    | mint shard last => exact (hphase ▸ hcall : Open f.shards (.mint shard last))
    | load shard last now => exact (hphase ▸ hcall : Open f.shards (.load shard last now))
    | swap shard last now prev => exact (hphase ▸ hcall : Open f.shards (.swap shard last now prev))

/-- What a call chooses from a list is open at that moment. -/
theorem open_choose {shards : List ShardRecord} (hids : (shards.map (·.id)).Nodup) : Open shards (choose shards) := by
  rw [choose]
  split
  · rename_i r hfind
    have haccepts := List.find?_some hfind
    simp only [ShardRecord.acceptsAdmission,Bool.and_eq_true,decide_eq_true_eq] at haccepts
    intro status hstatus
    rw [← Option.some.inj hstatus,haccepts.1]
    rfl
  · intro id hid status hstatus
    obtain ⟨r,hr,rfl⟩ := Option.map_eq_some_iff.1 hid
    have hstandby : r.status = .standby := by simpa using List.find?_some hr
    rw [statusOf_mem hids (List.mem_of_find?_eq_some hr),hstandby] at hstatus
    rw [← Option.some.inj hstatus]
    rfl

theorem calm_step (f : Fleet) (e : Event) (h : f.Calm) (hquiet : f.Undisturbed e) : (f.step codec e).Calm := by
  cases e with
  | abandon call => exact calm_goTo h call trivial
  | operate id status => exact calm_setStatus h id status hquiet
  | measure id sizeBytes => exact calm_setSize h id sizeBytes
  | proceed call millis spurious =>
    have hcall := h.calls call
    have hstep := callStep_proceed codec f call millis spurious
    rw [step]
    generalize f.proceed codec call millis spurious = g at hstep ⊢
    cases hstep with
    | list hphase => exact calm_goTo h call (open_choose h.ids)
    | refuse hphase => exact calm_goTo h call trivial
    | sealOne hphase =>
      have hcalm := calm_setStatus h _ .sealed fun _ => hquiet _ _ _ hphase
      have hsame := hcalm.calls call
      refine calm_goTo hcalm call ?_
      rw [hphase] at hsame
      exact hsame
    | promote hphase =>
      rw [hphase] at hcall
      refine calm_goTo (calm_setStatus h _ .active ?_) call ?_
      · intro hshut
        cases hshut
      · exact hcall _ rfl
    | readClock now hphase => exact calm_goTo h call (hphase ▸ hcall : Open f.shards (.mint _ _))
    | loadSeq hphase => exact calm_goTo h call (hphase ▸ hcall : Open f.shards (.load _ _ _))
    | retry hphase => exact calm_goTo h call (hphase ▸ hcall : Open f.shards (.swap _ _ _ _))
    | exchange hphase =>
      rw [hphase] at hcall
      refine calm_goTo ?_ call ?_
      · refine ⟨h.ids,h.calls,fun p hp => ?_⟩
        rcases List.mem_cons.1 hp with rfl | hp
        · exact hcall
        · exact h.minted p hp
      · trivial

/-- A call that holds nothing shut reopens nothing. -/
theorem keepsShut_of_calm {f : Fleet} (h : f.Calm) (e : Event) : f.KeepsShut codec e := by
  rintro call millis spurious rfl id status hstatus hshut
  have hcall := h.calls call
  have hstep := callStep_proceed codec f call millis spurious
  rw [step]
  -- a statement that leaves the shard alone leaves it shut
  have hsame : statusOf id f.shards ≠ some .active := by
    rw [hstatus]
    rintro heq
    cases heq
    cases hshut
  generalize f.proceed codec call millis spurious = g at hstep ⊢
  cases hstep with
  | list hphase => exact hsame
  | refuse hphase => exact hsame
  | readClock now hphase => exact hsame
  | loadSeq hphase => exact hsame
  | retry hphase => exact hsame
  | exchange hphase => exact hsame
  | sealOne hphase =>
    rw [goTo_shards,sealShard,statusOf_setStatus]
    split_ifs with hid
    · rw [← hid,hstatus]
      intro heq
      cases heq
    · exact hsame
  | promote hphase =>
    rw [hphase] at hcall
    rw [goTo_shards,statusOf_setStatus]
    split_ifs with hid
    · rw [hid] at hstatus
      rw [hcall _ rfl status hstatus] at hshut
      cases hshut
    · exact hsame

/-- A full active shard, and a standby. -/
def fullAndStandby : List ShardRecord := [⟨0,.active,60,100,.finite (1 / 2)⟩,⟨1,.standby,0,100,.finite (1 / 2)⟩]

/-- The statements of one call that seals the one and promotes the other. -/
def promotion : List Event := List.replicate 3 (.proceed 0 0 false)

theorem promotion_undisturbed : Trace.Along (step ⟨12⟩) Undisturbed (start fullAndStandby) promotion := by
  have hchosen : ((start fullAndStandby).step ⟨12⟩ (.proceed 0 0 false)).phase = Function.update (fun _ => .idle) 0
      (.sealing [0] (some 1)) := by
    have hchoose : choose fullAndStandby = .sealing [0] (some 1) := by decide +kernel
    rw [← hchoose]
    rfl
  have hsealed : (Trace.run (step ⟨12⟩) (start fullAndStandby) (List.replicate 2 (.proceed 0 0 false))).phase 0 =
      .sealing [] (some 1) := by decide +kernel
  refine ⟨fun id ids standby hphase => ?_,fun id ids standby hphase => ?_,fun id ids standby hphase => ?_,trivial⟩
  · cases hphase
  · rw [hchosen,Function.update_self] at hphase
    cases hphase
    rintro ⟨call,rest,hcall⟩
    rw [hchosen] at hcall
    by_cases hzero : call = 0
    · rw [hzero,Function.update_self] at hcall
      cases hcall
    · rw [Function.update_of_ne hzero] at hcall
      cases hcall
  · cases hsealed.symm.trans hphase

/-- One call lists the shards. A second one promotes the standby and mints on it, and when that is
full a third one seals it. -/
def overtaken : List Event :=
  .proceed 0 0 false :: List.replicate 6 (.proceed 1 0 false) ++ .measure 1 60 :: List.replicate 2 (.proceed 2 0 false)

end Fleet

end Rainier.Orm
