import Rainier.Support.Float64
import Rainier.Support.Trace
import Rainier.Orm.Route

/-! # Placement

New keys go to the first shard that admits them. When none does, the full ones are sealed and a
standby is promoted. A placement is a sequence of statements on the registry and then a loop
over the shared counter; between any two of these anything else may happen. Names, physical
ids and times of a shard are left out: no decision reads them.
-/
namespace Rainier.Orm

inductive ShardStatus where
  | provisioning | active | standby | sealed | disabled
  deriving DecidableEq, Repr

/-- One row of the registry. -/
structure ShardRecord where
  id : UInt32
  status : ShardStatus
  sizeBytes : ℤ
  maxBytes : ℤ
  admitThreshold : F64
  deriving DecidableEq, Repr

namespace ShardRecord

/-- `as f64` of a signed integer. -/
def asF64 (n : ℤ) : ℚ := if n < 0 then -(F64.roundNat n.natAbs : ℚ) else F64.roundNat n.natAbs

def fillRatio (r : ShardRecord) : F64 :=
  if r.maxBytes ≤ 0 then .finite 1 else F64.round (asF64 r.sizeBytes / asF64 r.maxBytes)

/-- Active and still under its admit threshold. -/
def acceptsAdmission (r : ShardRecord) : Bool :=
  r.status = .active && (r.fillRatio.le r.admitThreshold && !r.fillRatio.eq r.admitThreshold)

/-- Active and no longer under its threshold, as `place_new` tests it before it seals. -/
def full (r : ShardRecord) : Bool := r.status = .active && r.admitThreshold.le r.fillRatio

end ShardRecord

/-! ## The registry -/

/-- `UPDATE shards SET … WHERE id = …`. -/
def updateShard (id : UInt32) (change : ShardRecord → ShardRecord) (shards : List ShardRecord) : List ShardRecord :=
  shards.map fun r => if r.id = id then change r else r

def setStatus (id : UInt32) (status : ShardStatus) : List ShardRecord → List ShardRecord :=
  updateShard id fun r => { r with status }

def setSize (id : UInt32) (sizeBytes : ℤ) : List ShardRecord → List ShardRecord :=
  updateShard id fun r => { r with sizeBytes }

def sealShard (id : UInt32) : List ShardRecord → List ShardRecord := setStatus id .sealed

/-- The stored status of a shard. -/
def statusOf (id : UInt32) (shards : List ShardRecord) : Option ShardStatus :=
  (shards.find? (·.id = id)).map (·.status)

/-! ## The counter -/

/-- 2024-01-01T00:00:00Z in milliseconds. -/
def epochMs : ℤ := 1704067200000

/-- A clock reading as the least sequence value it allows. -/
def seedOf (millis : ℤ) : UInt64 := UInt64.ofNat (millis - epochMs).toNat <<< 10

/-- `prev.wrapping_add(1).max(now)`. -/
def nextSeq (prev now : UInt64) : UInt64 := if prev + 1 ≤ now then now else prev + 1

/-! ## Placements in progress -/

/-- Where one call of `place_new` is. From `mint` on it holds the status its shard was stored
with when the call's last statement on the registry ran. -/
inductive Phase where
  | idle
  | sealing (ids : List UInt32) (standby : Option UInt32)
  | mint (shard : UInt32) (last : Option ShardStatus)
  | load (shard : UInt32) (last : Option ShardStatus) (now : UInt64)
  | swap (shard : UInt32) (last : Option ShardStatus) (now prev : UInt64)
  deriving DecidableEq, Repr

/-- An id that was handed out, with the sequence value in it. -/
structure Placement where
  shard : UInt32
  id : UInt64
  seq : UInt64
  last : Option ShardStatus
  deriving DecidableEq, Repr

structure Fleet where
  shards : List ShardRecord
  seq : UInt64
  phase : ℕ → Phase
  /-- The newest first. -/
  placed : List Placement

inductive Event where
  /-- A call takes its next step. It reads the clock there or not, and a weak exchange may fail
  for no reason. -/
  | proceed (call : ℕ) (millis : ℤ) (spurious : Bool)
  /-- A statement fails, and the call with it. -/
  | abandon (call : ℕ)
  | operate (id : UInt32) (status : ShardStatus)
  | measure (id : UInt32) (sizeBytes : ℤ)
  deriving DecidableEq, Repr

/-- What `place_new` does with the list of shards. -/
def choose (shards : List ShardRecord) : Phase :=
  match shards.find? (·.acceptsAdmission) with
  | some s => .mint s.id (some s.status)
  | none => .sealing ((shards.filter (·.full)).map (·.id)) ((shards.find? (·.status = .standby)).map (·.id))

namespace Fleet

def goTo (f : Fleet) (call : ℕ) (phase : Phase) : Fleet := { f with phase := Function.update f.phase call phase }

/-- The next step of one call. -/
def proceed (codec : ShardCodec) (f : Fleet) (call : ℕ) (millis : ℤ) (spurious : Bool) : Fleet :=
  match f.phase call with
  | .idle => f.goTo call (choose f.shards)
  | .sealing (id :: ids) standby => { f with shards := sealShard id f.shards }.goTo call (.sealing ids standby)
  | .sealing [] (some id) => { f with shards := setStatus id .active f.shards }.goTo call (.mint id (statusOf id f.shards))
  -- no shard is left to admit the key: the call fails
  | .sealing [] none => f.goTo call .idle
  | .mint shard last => f.goTo call (.load shard last (seedOf millis))
  | .load shard last now => f.goTo call (.swap shard last now f.seq)
  | .swap shard last now prev =>
    if f.seq = prev ∧ !spurious then
      { f with
        seq := nextSeq prev now
        placed := ⟨shard,codec.compose shard (nextSeq prev now),nextSeq prev now,last⟩ :: f.placed }.goTo call .idle
    else f.goTo call (.load shard last now)

def step (codec : ShardCodec) (f : Fleet) : Event → Fleet
  | .proceed call millis spurious => f.proceed codec call millis spurious
  | .abandon call => f.goTo call .idle
  | .operate id status => { f with shards := setStatus id status f.shards }
  | .measure id sizeBytes => { f with shards := setSize id sizeBytes f.shards }

/-- No call is in progress and nothing was handed out. -/
def start (shards : List ShardRecord) : Fleet := ⟨shards,0,fun _ => .idle,[]⟩

/-! ## What a step of a call can be -/

@[simp] theorem goTo_phase_self (f : Fleet) (call : ℕ) (phase : Phase) : (f.goTo call phase).phase call = phase := by
  simp only [goTo,Function.update_self]

theorem goTo_phase_of_ne (f : Fleet) {call other : ℕ} (h : other ≠ call) (phase : Phase) :
    (f.goTo call phase).phase other = f.phase other := by
  simp only [goTo,Function.update_of_ne h]

@[simp] theorem goTo_shards (f : Fleet) (call : ℕ) (phase : Phase) : (f.goTo call phase).shards = f.shards := rfl

@[simp] theorem goTo_seq (f : Fleet) (call : ℕ) (phase : Phase) : (f.goTo call phase).seq = f.seq := rfl

@[simp] theorem goTo_placed (f : Fleet) (call : ℕ) (phase : Phase) : (f.goTo call phase).placed = f.placed := rfl

inductive CallStep (codec : ShardCodec) (f : Fleet) (call : ℕ) : Fleet → Prop where
  | list (h : f.phase call = .idle) : CallStep codec f call (f.goTo call (choose f.shards))
  | sealOne {id : UInt32} {ids : List UInt32} {standby : Option UInt32} (h : f.phase call = .sealing (id :: ids) standby) :
      CallStep codec f call ({ f with shards := sealShard id f.shards }.goTo call (.sealing ids standby))
  | promote {id : UInt32} (h : f.phase call = .sealing [] (some id)) : CallStep codec f call
      ({ f with shards := setStatus id .active f.shards }.goTo call (.mint id (statusOf id f.shards)))
  | refuse (h : f.phase call = .sealing [] none) : CallStep codec f call (f.goTo call .idle)
  | readClock {shard : UInt32} {last : Option ShardStatus} (now : UInt64) (h : f.phase call = .mint shard last) :
      CallStep codec f call (f.goTo call (.load shard last now))
  | loadSeq {shard : UInt32} {last : Option ShardStatus} {now : UInt64} (h : f.phase call = .load shard last now) :
      CallStep codec f call (f.goTo call (.swap shard last now f.seq))
  | exchange {shard : UInt32} {last : Option ShardStatus} {now : UInt64} (h : f.phase call = .swap shard last now f.seq) :
      CallStep codec f call ({ f with
        seq := nextSeq f.seq now
        placed := ⟨shard,codec.compose shard (nextSeq f.seq now),nextSeq f.seq now,last⟩ :: f.placed }.goTo call .idle)
  | retry {shard : UInt32} {last : Option ShardStatus} {now prev : UInt64} (h : f.phase call = .swap shard last now prev) :
      CallStep codec f call (f.goTo call (.load shard last now))

theorem callStep_proceed (codec : ShardCodec) (f : Fleet) (call : ℕ) (millis : ℤ) (spurious : Bool) :
    CallStep codec f call (f.proceed codec call millis spurious) := by
  rw [proceed]
  cases hphase : f.phase call with
  | idle => exact .list hphase
  | sealing ids standby =>
    cases ids with
    | cons id ids => exact .sealOne hphase
    | nil =>
      cases standby with
      | some id => exact .promote hphase
      | none => exact .refuse hphase
  | mint shard last => exact .readClock _ hphase
  | load shard last now => exact .loadSeq hphase
  | swap shard last now prev =>
    simp only
    split_ifs with hswap
    · obtain ⟨rfl,-⟩ := hswap
      exact .exchange hphase
    · exact .retry hphase

end Fleet

end Rainier.Orm
