import Mathlib.Algebra.Order.Ring.Nat
import Mathlib.Data.List.Chain
import Rainier.Orm.Sharding

/-! # Ids of shards

An id leads back to the shard it was minted on just when the shard's number fits the bits the
codec gives it. The sequence values come from one counter that only grows, so the ids differ and
grow within a shard as long as a value fits its own bits.
-/
namespace Rainier.Orm

namespace ShardCodec

variable {c : ShardCodec}

/-- From one to 63 shard bits. -/
def Valid (c : ShardCodec) : Prop := 1 ≤ c.shardBits.toNat ∧ c.shardBits.toNat ≤ 63

theorem seqBits_toNat (h : c.Valid) : c.seqBits.toNat = 64 - c.shardBits.toNat := by
  have hle : c.shardBits ≤ 64 := by
    rw [UInt32.le_iff_toNat_le]
    exact Nat.le_succ_of_le h.2
  rw [seqBits,UInt32.toNat_sub_of_le _ _ hle]
  rfl

theorem shift_toNat (h : c.Valid) : c.seqBits.toUInt64.toNat % 64 = 64 - c.shardBits.toNat := by
  obtain ⟨hlow,hhigh⟩ := h
  rw [UInt32.toNat_toUInt64,seqBits_toNat ⟨hlow,hhigh⟩,Nat.mod_eq_of_lt (by omega)]

/-- An id is what is left of the shard number above the sequence value. -/
theorem compose_toNat (h : c.Valid) (shard : UInt32) (seq : UInt64) : (c.compose shard seq).toNat =
    shard.toNat % 2 ^ c.shardBits.toNat * 2 ^ (64 - c.shardBits.toNat) + seq.toNat % 2 ^ (64 - c.shardBits.toNat) := by
  have hbits : 2 ^ 64 = 2 ^ c.shardBits.toNat * 2 ^ (64 - c.shardBits.toNat) := by
    rw [← Nat.pow_add]
    congr 1
    have := h.2
    omega
  have hpower : ((1 : UInt64) <<< c.seqBits.toUInt64).toNat = 2 ^ (64 - c.shardBits.toNat) := by
    have hlt : 2 ^ (64 - c.shardBits.toNat) < 2 ^ 64 := Nat.pow_lt_pow_right (by decide) (by have := h.1; omega)
    rw [UInt64.toNat_shiftLeft,shift_toNat h,UInt64.toNat_one,Nat.shiftLeft_eq,Nat.one_mul,Nat.mod_eq_of_lt hlt]
  have hmask : ((1 : UInt64) <<< c.seqBits.toUInt64 - 1).toNat = 2 ^ (64 - c.shardBits.toNat) - 1 := by
    have hle : (1 : UInt64) ≤ 1 <<< c.seqBits.toUInt64 := by
      rw [UInt64.le_iff_toNat_le,hpower]
      exact Nat.one_le_two_pow
    rw [UInt64.toNat_sub_of_le _ _ hle,hpower]
    rfl
  rw [compose,UInt64.toNat_or,UInt64.toNat_and,hmask,Nat.and_two_pow_sub_one_eq_mod,UInt64.toNat_shiftLeft,shift_toNat h,
    UInt32.toNat_toUInt64,Nat.shiftLeft_eq,hbits,Nat.mul_mod_mul_right,← Nat.shiftLeft_eq]
  exact (Nat.shiftLeft_add_eq_or_of_lt (Nat.mod_lt _ (Nat.two_pow_pos _)) _).symm

theorem shardOf_toNat (h : c.Valid) (id : UInt64) :
    (c.shardOf id).toNat = id.toNat / 2 ^ (64 - c.shardBits.toNat) % 2 ^ 32 := by
  rw [shardOf,UInt64.toNat_toUInt32,UInt64.toNat_shiftRight,shift_toNat h,Nat.shiftRight_eq_div_pow]

/-- The shard read out of an id is the one it was composed for if that fits. -/
theorem shardOf_compose_iff (h : c.Valid) (shard : UInt32) (seq : UInt64) :
    c.shardOf (c.compose shard seq) = shard ↔ shard.toNat < 2 ^ c.shardBits.toNat := by
  have hseq : seq.toNat % 2 ^ (64 - c.shardBits.toNat) < 2 ^ (64 - c.shardBits.toNat) := Nat.mod_lt _ (Nat.two_pow_pos _)
  have hshard := shard.toNat_lt
  have hvalue : (c.shardOf (c.compose shard seq)).toNat = shard.toNat % 2 ^ c.shardBits.toNat := by
    rw [shardOf_toNat h,compose_toNat h,Nat.mul_comm,Nat.mul_add_div (Nat.two_pow_pos _),Nat.div_eq_of_lt hseq,
      Nat.add_zero]
    exact Nat.mod_eq_of_lt (Nat.lt_of_le_of_lt (Nat.mod_le _ _) hshard)
  rw [← UInt32.toNat_inj,hvalue]
  constructor
  · intro heq
    rw [← heq]
    exact Nat.mod_lt _ (Nat.two_pow_pos _)
  · exact Nat.mod_eq_of_lt

end ShardCodec

/-! ## The counter only grows -/

/-- One value of the counter after another: one more at least, or what the clock says. -/
def Follows (newer older : Placement) : Prop := ∃ now, newer.seq = nextSeq older.seq now

theorem lt_of_follows {newer older : Placement} (h : Follows newer older) (hold : older.seq.toNat < 2 ^ 63) :
    older.seq < newer.seq := by
  obtain ⟨now,hnow⟩ := h
  have hnext : older.seq < older.seq + 1 := by
    rw [UInt64.lt_iff_toNat_lt,UInt64.toNat_add,UInt64.toNat_one,Nat.mod_eq_of_lt (by omega)]
    exact Nat.lt_succ_self _
  rw [hnow,nextSeq]
  split_ifs with hle
  · exact UInt64.lt_of_lt_of_le hnext hle
  · exact hnext

namespace Fleet

variable {codec : ShardCodec}

/-- The counter holds the newest value, each value came after the one before it, and each id is
composed of its shard and its value. -/
structure Minted (codec : ShardCodec) (f : Fleet) : Prop where
  newest : f.seq = (f.placed.head?.map (·.seq)).getD 0
  chain : f.placed.IsChain Follows
  composed : ∀ p ∈ f.placed, p.id = codec.compose p.shard p.seq

theorem minted_goTo {f : Fleet} (h : f.Minted codec) (call : ℕ) (phase : Phase) : (f.goTo call phase).Minted codec :=
  ⟨h.newest,h.chain,h.composed⟩

theorem minted_shards {f : Fleet} (h : f.Minted codec) (shards : List ShardRecord) : { f with shards }.Minted codec :=
  ⟨h.newest,h.chain,h.composed⟩

theorem minted_step (f : Fleet) (e : Event) (h : f.Minted codec) : (f.step codec e).Minted codec := by
  cases e with
  | abandon call => exact minted_goTo h call _
  | operate id status => exact minted_shards h _
  | measure id sizeBytes => exact minted_shards h _
  | proceed call millis spurious =>
    have hstep := callStep_proceed codec f call millis spurious
    rw [step]
    generalize f.proceed codec call millis spurious = g at hstep ⊢
    cases hstep with
    | list hphase => exact minted_goTo h call _
    | sealOne hphase => exact minted_goTo (minted_shards h _) call _
    | promote hphase => exact minted_goTo (minted_shards h _) call _
    | refuse hphase => exact minted_goTo h call _
    | readClock now hphase => exact minted_goTo h call _
    | loadSeq hphase => exact minted_goTo h call _
    | retry hphase => exact minted_goTo h call _
    | exchange hphase =>
      apply minted_goTo
      refine ⟨rfl,?_,fun p hp => ?_⟩
      · have hnewest := h.newest
        have hchain := h.chain
        cases hplaced : f.placed with
        | nil => exact List.isChain_singleton _
        | cons p rest =>
          rw [hplaced] at hnewest hchain
          exact List.isChain_cons_cons.2 ⟨⟨_,by rw [hnewest]; rfl⟩,hchain⟩
      · rcases List.mem_cons.1 hp with rfl | hp
        · rfl
        · exact h.composed p hp

theorem minted_run (codec : ShardCodec) (shards : List ShardRecord) (events : List Event) :
    (Trace.run (step codec) (start shards) events).Minted codec :=
  (Trace.always_of_step minted_step ⟨rfl,.nil,fun _ h => absurd h List.not_mem_nil⟩ events).last

/-- The ids lead back to their shards, and as long as no value outgrows its bits they differ and
grow within a shard. -/
structure Homed (codec : ShardCodec) (f : Fleet) : Prop where
  routed : ∀ p ∈ f.placed, codec.shardOf p.id = p.shard
  distinct : (∀ p ∈ f.placed, p.seq.toNat < 2 ^ codec.seqBits.toNat) → f.placed.Pairwise fun newer older =>
    newer.id ≠ older.id ∧ (newer.shard = older.shard → older.id < newer.id)

/-- Ids of growing values differ and grow within a shard. -/
theorem distinct_of_minted (hcodec : codec.Valid) {f : Fleet} (h : f.Minted codec)
    (hbits : ∀ p ∈ f.placed, p.seq.toNat < 2 ^ codec.seqBits.toNat) :
    f.placed.Pairwise fun newer older => newer.id ≠ older.id ∧ (newer.shard = older.shard → older.id < newer.id) := by
  rw [ShardCodec.seqBits_toNat hcodec] at hbits
  have hsmall : ∀ p ∈ f.placed, p.seq.toNat < 2 ^ 63 := fun p hp =>
    Nat.lt_of_lt_of_le (hbits p hp) (Nat.pow_le_pow_right (by decide) (by have := hcodec.1; omega))
  have hgrow : f.placed.Pairwise fun newer older => older.seq < newer.seq := by
    have : IsTrans Placement fun newer older => older.seq < newer.seq :=
      ⟨fun _ _ _ hab hbc => UInt64.lt_trans hbc hab⟩
    apply List.IsChain.pairwise
    exact h.chain.imp_of_mem_imp fun newer older _ hold hfollows => lt_of_follows hfollows (hsmall older hold)
  apply hgrow.imp_of_mem
  intro newer older hnewer holder hlt
  have hvalue : ∀ p ∈ f.placed, p.id.toNat = p.shard.toNat % 2 ^ codec.shardBits.toNat *
      2 ^ (64 - codec.shardBits.toNat) + p.seq.toNat := by
    intro p hp
    rw [h.composed p hp,ShardCodec.compose_toNat hcodec,Nat.mod_eq_of_lt (hbits p hp)]
  have hseq : ∀ p ∈ f.placed, p.id.toNat % 2 ^ (64 - codec.shardBits.toNat) = p.seq.toNat := by
    intro p hp
    rw [hvalue p hp,Nat.mul_add_mod_self_right,Nat.mod_eq_of_lt (hbits p hp)]
  have hltNat := UInt64.lt_iff_toNat_lt.1 hlt
  constructor
  · intro heq
    have hsame := hseq newer hnewer
    rw [heq,hseq older holder] at hsame
    omega
  · intro hshard
    rw [UInt64.lt_iff_toNat_lt,hvalue newer hnewer,hvalue older holder,hshard]
    omega

/-! ## Placements are on registered shards -/

/-- Every shard a call works with is registered. -/
def Registered (ids : List UInt32) : Phase → Prop
  | .idle => True
  | .sealing _ standby => ∀ id ∈ standby, id ∈ ids
  | .mint shard _ | .load shard _ _ | .swap shard _ _ _ => shard ∈ ids

structure Known (ids : List UInt32) (f : Fleet) : Prop where
  registered : f.shards.map (·.id) = ids
  calls : ∀ call, Registered ids (f.phase call)
  placed : ∀ p ∈ f.placed, p.shard ∈ ids

end Fleet

theorem updateShard_ids (id : UInt32) {change : ShardRecord → ShardRecord} (hchange : ∀ r, (change r).id = r.id)
    (shards : List ShardRecord) : (updateShard id change shards).map (·.id) = shards.map (·.id) := by
  rw [updateShard,List.map_map]
  apply List.map_congr_left
  intro r _
  rw [Function.comp_apply]
  split_ifs
  · exact hchange r
  · rfl

namespace Fleet

variable {codec : ShardCodec} {ids : List UInt32}

theorem known_goTo {f : Fleet} (h : f.Known ids) (call : ℕ) {phase : Phase} (hphase : Registered ids phase) :
    (f.goTo call phase).Known ids := by
  refine ⟨h.registered,fun other => ?_,h.placed⟩
  by_cases hcall : other = call
  · rw [hcall,goTo_phase_self]
    exact hphase
  · rw [goTo_phase_of_ne f hcall]
    exact h.calls other

theorem known_update {f : Fleet} (h : f.Known ids) (id : UInt32) {change : ShardRecord → ShardRecord}
    (hchange : ∀ r, (change r).id = r.id) : { f with shards := updateShard id change f.shards }.Known ids :=
  ⟨(updateShard_ids id hchange f.shards).trans h.registered,h.calls,h.placed⟩

theorem known_choose {f : Fleet} (h : f.Known ids) : Registered ids (choose f.shards) := by
  have hmem : ∀ r ∈ f.shards, r.id ∈ ids := fun r hr => h.registered ▸ List.mem_map_of_mem hr
  rw [choose]
  split
  · rename_i r hfind
    exact hmem r (List.mem_of_find?_eq_some hfind)
  · intro id hid
    obtain ⟨r,hr,rfl⟩ := Option.map_eq_some_iff.1 hid
    exact hmem r (List.mem_of_find?_eq_some hr)

theorem known_step (f : Fleet) (e : Event) (h : f.Known ids) : (f.step codec e).Known ids := by
  cases e with
  | abandon call => exact known_goTo h call trivial
  | operate id status => exact known_update h id fun _ => rfl
  | measure id sizeBytes => exact known_update h id fun _ => rfl
  | proceed call millis spurious =>
    have hcall := h.calls call
    have hstep := callStep_proceed codec f call millis spurious
    rw [step]
    generalize f.proceed codec call millis spurious = g at hstep ⊢
    cases hstep with
    | list hphase => exact known_goTo h call (known_choose h)
    | refuse hphase => exact known_goTo h call trivial
    | sealOne hphase =>
      rw [hphase] at hcall
      refine known_goTo ?_ call ?_
      · exact known_update h _ fun _ => rfl
      · exact hcall
    | promote hphase =>
      rw [hphase] at hcall
      refine known_goTo ?_ call ?_
      · exact known_update h _ fun _ => rfl
      · exact hcall _ rfl
    | readClock now hphase => exact known_goTo h call (hphase ▸ hcall : Registered ids (.mint _ _))
    | loadSeq hphase => exact known_goTo h call (hphase ▸ hcall : Registered ids (.load _ _ _))
    | retry hphase => exact known_goTo h call (hphase ▸ hcall : Registered ids (.swap _ _ _ _))
    | exchange hphase =>
      rw [hphase] at hcall
      refine known_goTo ?_ call ?_
      · refine ⟨h.registered,h.calls,fun p hp => ?_⟩
        rcases List.mem_cons.1 hp with rfl | hp
        · exact hcall
        · exact h.placed p hp
      · trivial

theorem known_run (codec : ShardCodec) (shards : List ShardRecord) (events : List Event) :
    (Trace.run (step codec) (start shards) events).Known (shards.map (·.id)) :=
  (Trace.always_of_step known_step (s := start shards) ⟨rfl,fun _ => trivial,fun _ h => absurd h List.not_mem_nil⟩ events).last

/-! ## Any registered shard can be placed on -/

theorem mem_setStatus {id : UInt32} {status : ShardStatus} {shards : List ShardRecord} {r : ShardRecord}
    (h : r ∈ setStatus id status shards) : (r.id = id ∧ r.status = status) ∨ (r.id ≠ id ∧ r ∈ shards) := by
  obtain ⟨r',hr',rfl⟩ := List.mem_map.1 h
  by_cases hid : r'.id = id
  · exact .inl (by rw [if_pos hid]; exact ⟨hid,rfl⟩)
  · exact .inr (by rw [if_neg hid]; exact ⟨hid,hr'⟩)

theorem setStatus_ids (id : UInt32) (status : ShardStatus) (shards : List ShardRecord) :
    (setStatus id status shards).map (·.id) = shards.map (·.id) := by
  apply updateShard_ids
  intro r
  rfl

/-- Some shards disabled, one after the other. -/
def retire (ids : List UInt32) (shards : List ShardRecord) : List ShardRecord :=
  ids.foldl (fun shards id => setStatus id .disabled shards) shards

theorem retire_ids (ids : List UInt32) (shards : List ShardRecord) :
    (retire ids shards).map (·.id) = shards.map (·.id) := by
  induction ids generalizing shards with
  | nil => rfl
  | cons id ids ih => exact (ih (setStatus id .disabled shards)).trans (setStatus_ids id .disabled shards)

theorem mem_retire {ids : List UInt32} {shards : List ShardRecord} {r : ShardRecord} (h : r ∈ retire ids shards) :
    r.status = .disabled ∨ (r ∈ shards ∧ r.id ∉ ids) := by
  induction ids generalizing shards with
  | nil => exact .inr ⟨h,List.not_mem_nil⟩
  | cons id ids ih =>
    have hrest : r ∈ retire ids (setStatus id .disabled shards) := h
    rcases ih hrest with hstatus | ⟨hmem,hids⟩
    · exact .inl hstatus
    · rcases mem_setStatus hmem with ⟨-,hstatus⟩ | ⟨hne,hmem⟩
      · exact .inl hstatus
      · exact .inr ⟨hmem,by simp [hne,hids]⟩

theorem run_retire (ids : List UInt32) (shards : List ShardRecord) :
    Trace.run (step codec) (start shards) (ids.map fun id => .operate id .disabled) = start (retire ids shards) := by
  induction ids generalizing shards with
  | nil => rfl
  | cons id ids ih => exact ih (setStatus id .disabled shards)

/-- With one standby and every other shard disabled the standby is chosen. -/
theorem choose_standby {shards : List ShardRecord} {id : UInt32} (hmem : id ∈ shards.map (·.id))
    (h : ∀ r ∈ shards, (r.id = id ∧ r.status = .standby) ∨ (r.id ≠ id ∧ r.status = .disabled)) :
    choose shards = .sealing [] (some id) := by
  have hinactive : ∀ r ∈ shards, r.status ≠ .active := by
    intro r hr
    rcases h r hr with ⟨-,hstatus⟩ | ⟨-,hstatus⟩ <;> simp [hstatus]
  have haccepts : shards.find? (·.acceptsAdmission) = none := by
    rw [List.find?_eq_none]
    intro r hr
    simp [ShardRecord.acceptsAdmission,hinactive r hr]
  have hfull : shards.filter (·.full) = [] := by
    rw [List.filter_eq_nil_iff]
    intro r hr
    simp [ShardRecord.full,hinactive r hr]
  have hstandby : ∃ r, shards.find? (·.status = .standby) = some r ∧ r.id = id := by
    obtain ⟨r,hr,hid⟩ := List.mem_map.1 hmem
    have hr' : r.status = .standby := (h r hr).elim (·.2) fun h' => absurd hid h'.1
    obtain ⟨found,hfound⟩ := Option.isSome_iff_exists.1
      (List.find?_isSome (p := fun r : ShardRecord => decide (r.status = .standby)).2 ⟨r,hr,by simpa using hr'⟩)
    refine ⟨found,hfound,?_⟩
    have hstatus : found.status = .standby := by simpa using List.find?_some hfound
    rcases h found (List.mem_of_find?_eq_some hfound) with ⟨hid,-⟩ | ⟨-,hdisabled⟩
    · exact hid
    · rw [hstatus] at hdisabled
      cases hdisabled
  obtain ⟨r,hfind,hid⟩ := hstandby
  simp only [choose,haccepts,hfull,hfind,List.map_nil,Option.map_some,hid]

/-- One call, alone, on the shard it chose to promote. -/
theorem run_alone {shards : List ShardRecord} {id : UInt32} (hchoose : choose shards = .sealing [] (some id)) :
    ∃ p ∈ (Trace.run (step codec) (start shards) (List.replicate 5 (.proceed 0 0 false))).placed, p.shard = id := by
  have hplaced : (Trace.run (step codec) (start shards) (List.replicate 5 (.proceed 0 0 false))).placed =
      [⟨id,codec.compose id (nextSeq 0 (seedOf 0)),nextSeq 0 (seedOf 0),statusOf id shards⟩] := by
    simp [Trace.run,step,proceed,start,hchoose]
  exact ⟨_,by rw [hplaced]; exact List.mem_singleton_self _,rfl⟩

theorem exists_placed (codec : ShardCodec) {shards : List ShardRecord} {r : ShardRecord} (hr : r ∈ shards) :
    ∃ events, ∃ p ∈ (Trace.run (step codec) (start shards) events).placed, p.shard = r.id := by
  let events : List Event := (shards.map (·.id)).map (fun id => .operate id .disabled) ++ [.operate r.id .standby]
  have hrun : Trace.run (step codec) (start shards) events =
      start (setStatus r.id .standby (retire (shards.map (·.id)) shards)) := by
    rw [Trace.run_append,run_retire]
    rfl
  have hmem : r.id ∈ (setStatus r.id .standby (retire (shards.map (·.id)) shards)).map (·.id) := by
    rw [setStatus_ids,retire_ids]
    exact List.mem_map_of_mem hr
  have hchoose := choose_standby hmem (by
    intro x hx
    rcases mem_setStatus hx with h | ⟨hne,hx⟩
    · exact .inl h
    · refine .inr ⟨hne,?_⟩
      rcases mem_retire hx with hdisabled | ⟨hshard,hnot⟩
      · exact hdisabled
      · exact absurd (List.mem_map_of_mem hshard) hnot)
  refine ⟨events ++ List.replicate 5 (.proceed 0 0 false),?_⟩
  rw [Trace.run_append,hrun]
  exact run_alone hchoose

/-- In every run of calls, operators and measurements over some registered shards the ids lead
back to their shards, differ and grow, just when every registered number fits the shard bits. -/
theorem shard_ids_iff (hcodec : codec.Valid) (shards : List ShardRecord) :
    (∀ events, (Trace.run (step codec) (start shards) events).Homed codec) ↔
      ∀ r ∈ shards, r.id.toNat < 2 ^ codec.shardBits.toNat := by
  constructor
  · intro h r hr
    obtain ⟨events,p,hp,hshard⟩ := exists_placed codec hr
    have hminted := minted_run codec shards events
    have hrouted := (h events).routed p hp
    rw [hminted.composed p hp,ShardCodec.shardOf_compose_iff hcodec,hshard] at hrouted
    exact hrouted
  · intro h events
    have hminted := minted_run codec shards events
    have hknown := known_run codec shards events
    refine ⟨fun p hp => ?_,distinct_of_minted hcodec hminted⟩
    obtain ⟨r,hr,hid⟩ := List.mem_map.1 (hknown.placed p hp)
    rw [hminted.composed p hp,ShardCodec.shardOf_compose_iff hcodec,← hid]
    exact h r hr

/-- An empty active shard. -/
def emptyShard (id : UInt32) : ShardRecord := ⟨id,.active,0,100,.finite (1 / 2)⟩

theorem shard_ids_fit :
    (Trace.run (step ⟨12⟩) (start [emptyShard 0,emptyShard 4095]) (List.replicate 4 (.proceed 0 0 false))).Homed ⟨12⟩ :=
  (shard_ids_iff (show ShardCodec.Valid ⟨12⟩ from ⟨by decide,by decide⟩) [emptyShard 0,emptyShard 4095]).2 (by decide) _

/-- With twelve bits, an id minted on shard 4096 leads to shard 0. -/
theorem shard_number_truncated :
    ¬ (Trace.run (step ⟨12⟩) (start [emptyShard 4096]) (List.replicate 4 (.proceed 0 0 false))).Homed ⟨12⟩ := by
  intro h
  have hrouted := h.routed ⟨4096,1,1,some .active⟩ (by decide +kernel)
  exact absurd hrouted (by decide)

end Fleet

end Rainier.Orm
