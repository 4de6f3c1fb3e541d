import Rainier.Mfa.CborRoundTrip

/-! # The reader over an index

The reader as it is written: the whole input and an index into it. Every slice and every subtraction
is one that may panic. It never does, and reads what the reader over the rest of the input reads.
-/
namespace Rainier.Mfa.Cbor
open Rainier Scan Bytes

/-- `&bytes[a..b]`, or nothing where it panics. -/
def slice (bytes : List UInt8) (a b : ℕ) : Option (List UInt8) :=
  if a ≤ b ∧ b ≤ bytes.length then some ((bytes.drop a).take (b - a)) else none

theorem slice_eq {bytes : List UInt8} {a b : ℕ} (hab : a ≤ b) (hb : b ≤ bytes.length) :
    slice bytes a b = some ((bytes.drop a).take (b - a)) := if_pos ⟨hab,hb⟩

/-- From an index to what is read and where the index stands then, to an error, or to a panic. -/
abbrev Indexed (β : Type) : Type := StateT ℕ (ExceptT Error Option) β

namespace Indexed

def panic {β : Type} : Indexed β := fun _ => (none : Option (Except Error (β × ℕ)))

/-- An index or a conversion that panics where there is nothing. -/
def unwrap {β : Type} : Option β → Indexed β
  | some b => pure b
  | none => panic

def invalid {β : Type} (why : String) : Indexed β := fun _ => some (.error (.badRequest ("invalid CBOR: " ++ why)))

variable (bytes : List UInt8)

def take (len : ℕ) : Indexed (List UInt8) := fun at_ =>
  if at_ + len ≤ bytes.length then (slice bytes at_ (at_ + len)).map fun slice => .ok (slice,at_ + len)
  else invalid "the input ends inside a value" at_

/-- `take(1)?[0]` -/
def takeByte : Indexed UInt8 := do
  let slice ← take bytes 1
  unwrap slice[0]?

/-- `from_be_bytes(take(width)?.try_into().expect(…))` -/
def takeBe (width : ℕ) : Indexed ℕ := do
  let slice ← take bytes width
  unwrap (if slice.length = width then some (fromBeBytes slice) else none)

/-- `self.bytes.len() - self.at` -/
def left : Indexed ℕ := fun at_ =>
  if at_ ≤ bytes.length then some (.ok (bytes.length - at_,at_)) else panic at_

def argument (info : ℕ) : Indexed ℕ :=
  if info ≤ 23 then pure info
  else if info = 24 then takeBe bytes 1
  else if info = 25 then takeBe bytes 2
  else if info = 26 then takeBe bytes 4
  else if info = 27 then takeBe bytes 8
  else if info = 31 then invalid "indefinite lengths are not accepted"
  else invalid "a reserved length encoding"

def length (info : ℕ) : Indexed ℕ := do
  let length ← argument bytes info
  let left ← left bytes
  if length > left then invalid "a length longer than the input" else pure length

def count (info : ℕ) : Indexed ℕ := do
  let count ← argument bytes info
  let left ← left bytes
  if count > maxItems ∨ count > left then invalid "a container claiming more entries than it can hold"
  else pure count

def times (value : Indexed Value) : ℕ → Indexed (List Value)
  | 0 => pure []
  | n + 1 => do
    let item ← value
    let items ← times value n
    return item :: items

def entries (value : Indexed Value) : ℕ → List (Value × Value) → Indexed (List (Value × Value))
  | 0, read => pure read
  | n + 1, read => do
    let key ← value
    if read.any (fun entry => entry.1 = key) then invalid "a map with a duplicate key"
    else do
      let item ← value
      entries value n (read ++ [(key,item)])

def simple (info : ℕ) : Indexed Value :=
  if info = 20 then pure (.bool false)
  else if info = 21 then pure (.bool true)
  else if info = 22 then pure .null
  else invalid "floats and simple values are not accepted"

def text (bytes : List UInt8) : Indexed Value :=
  match Text.fromUtf8 bytes with
  | some text => pure (.text text)
  | none => invalid "a text string that is not UTF-8"

def body (value : Indexed Value) (major info : ℕ) : Indexed Value :=
  match major with
  | 0 => do
    let n ← argument bytes info
    return .unsigned (UInt64.ofNat n)
  | 1 => do
    let n ← argument bytes info
    return .negative (-1 - n)
  | 2 => do
    let len ← length bytes info
    let slice ← take bytes len
    return .bytes slice
  | 3 => do
    let len ← length bytes info
    let slice ← take bytes len
    text slice
  | 4 => do
    let n ← count bytes info
    let items ← times value n
    return .array items
  | 5 => do
    let n ← count bytes info
    let read ← entries value n []
    return .map read
  | 6 => invalid "tags are not accepted"
  | _ => simple info

def value : ℕ → Indexed Value
  | 0 => invalid "nested too deeply"
  | room + 1 => do
    let initial ← takeByte bytes
    body bytes (value room) (initial >>> 5).toNat (initial &&& 0x1f).toNat

end Indexed

/-- `decode_prefix`: nothing is a panic. -/
def decodePrefixIndexed (bytes : List UInt8) : Option (Except Error (Value × ℕ)) := Indexed.value bytes (maxDepth + 1) 0

/-! ## Following the other reader -/

/-- Where a reader over the rest stands in the whole input. -/
def outcome {β : Type} : Except Error (β × Input UInt8) → Except Error (β × ℕ)
  | .ok (b,s) => .ok (b,s.pos)
  | .error e => .error e

/-- From any index of the input `m'` does not panic, answers as `m` does on the rest, and ends where `m` ends. -/
def Follows {β : Type} (bytes : List UInt8) (m' : Indexed β) (m : Reader β) : Prop :=
  ∀ at_ ≤ bytes.length, m' at_ = some (outcome (m ⟨at_,bytes.drop at_⟩)) ∧
    ∀ b s, m ⟨at_,bytes.drop at_⟩ = .ok (b,s) → s.pos ≤ bytes.length ∧ s.rest = bytes.drop s.pos

variable {bytes : List UInt8} {β γ : Type}

theorem indexed_bind (m : Indexed β) (f : β → Indexed γ) (at_ : ℕ) : (m >>= f) at_ = match m at_ with
    | some (.ok (b,at')) => f b at'
    | some (.error e) => some (.error e)
    | none => none := by
  change (ExceptT.bind (m at_) fun r => f r.1 r.2) = _
  cases h : m at_ with
  | none => rfl
  | some r => cases r <;> rfl

theorem follows_pure (b : β) : Follows bytes (pure b) (pure b) := by
  intro at_ hat
  refine ⟨rfl,?_⟩
  intro b' s h
  cases h
  exact ⟨hat,rfl⟩

theorem follows_invalid (why : String) : Follows bytes (Indexed.invalid why : Indexed β) (invalid why) := by
  intro at_ hat
  refine ⟨rfl,?_⟩
  intro b s h
  cases h

theorem Follows.bind {m' : Indexed β} {m : Reader β} {f' : β → Indexed γ} {f : β → Reader γ} (hm : Follows bytes m' m)
    (hf : ∀ b, Follows bytes (f' b) (f b)) : Follows bytes (m' >>= f') (m >>= f) := by
  intro at_ hat
  obtain ⟨heq,hend⟩ := hm at_ hat
  rw [indexed_bind,bind_apply,heq]
  cases hrun : m ⟨at_,bytes.drop at_⟩ with
  | error e =>
    refine ⟨rfl,?_⟩
    intro b s h
    cases h
  | ok r =>
    obtain ⟨b,s⟩ := r
    obtain ⟨hpos,hrest⟩ := hend b s hrun
    obtain ⟨pos,rest⟩ := s
    simp only at hpos hrest
    subst hrest
    exact hf b pos hpos

theorem Follows.ite {p : Prop} [Decidable p] {m' n' : Indexed β} {m n : Reader β} (hm : Follows bytes m' m)
    (hn : Follows bytes n' n) : Follows bytes (if p then m' else n') (if p then m else n) := by
  split
  · exact hm
  · exact hn

/-- No slice of `take` is out of bounds, for it ends no further than the input. -/
theorem follows_take (len : ℕ) : Follows bytes (Indexed.take bytes len) (take len) := by
  intro at_ hat
  have hlen : (bytes.drop at_).length = bytes.length - at_ := List.length_drop
  by_cases hfits : at_ + len ≤ bytes.length
  · have htake : take len ⟨at_,bytes.drop at_⟩ = .ok ((bytes.drop at_).take len,⟨at_ + len,(bytes.drop at_).drop len⟩) := by
      unfold take
      exact if_pos (by simp only [hlen]; omega)
    rw [htake]
    constructor
    · rw [Indexed.take,if_pos hfits,slice_eq (Nat.le_add_right _ _) hfits,Nat.add_sub_cancel_left]
      rfl
    · intro b s h
      cases h
      exact ⟨hfits,List.drop_drop⟩
  · have htake : take len ⟨at_,bytes.drop at_⟩ = invalid "the input ends inside a value" ⟨at_,bytes.drop at_⟩ := by
      unfold take
      exact if_neg (by simp only [hlen]; omega)
    rw [htake,Indexed.take,if_neg hfits]
    exact follows_invalid _ at_ hat

/-- What is unwrapped is there. -/
theorem follows_unwrap {m' : Indexed (List UInt8)} {m : Reader β} {f : List UInt8 → Option β} {g : List UInt8 → β} {P : List UInt8 → Prop}
    {n : Reader (List UInt8)} (hm : Follows bytes m' n) (hP : Yields n P) (hf : ∀ slice, P slice → f slice = some (g slice))
    (hn : m = n >>= fun slice => pure (g slice)) : Follows bytes (m' >>= fun slice => Indexed.unwrap (f slice)) m := by
  intro at_ hat
  obtain ⟨heq,hend⟩ := hm at_ hat
  rw [hn,indexed_bind,bind_apply,heq]
  cases hrun : n ⟨at_,bytes.drop at_⟩ with
  | error e =>
    refine ⟨rfl,?_⟩
    intro b s h
    cases h
  | ok r =>
    obtain ⟨slice,s⟩ := r
    have hslice := hf slice (hP _ _ _ hrun)
    obtain ⟨hpos,hrest⟩ := hend slice s hrun
    simp only [outcome,hslice]
    refine ⟨rfl,?_⟩
    intro b s' h
    cases h
    exact ⟨hpos,hrest⟩

theorem takeByte_eq : takeByte = take 1 >>= fun slice => pure (slice.headD 0) := by
  funext s
  rw [bind_apply]
  unfold takeByte take
  cases s.rest with
  | nil => rfl
  | cons b rest =>
    simp only [List.length_cons,Nat.le_add_left,if_true,List.take_succ_cons,List.take_zero,List.headD_cons,List.drop_one]
    rfl

theorem follows_takeByte : Follows bytes (Indexed.takeByte bytes) takeByte := by
  refine follows_unwrap (follows_take 1) (yields_take 1) (fun slice hslice => ?_) takeByte_eq
  obtain ⟨b,rfl⟩ := List.length_eq_one_iff.1 hslice
  rfl

theorem follows_takeBe (width : ℕ) : Follows bytes (Indexed.takeBe bytes width) (takeBe width) :=
  follows_unwrap (follows_take width) (yields_take width) (fun _ hslice => if_pos hslice) rfl

theorem follows_left : Follows bytes (Indexed.left bytes) left := by
  intro at_ hat
  constructor
  · rw [Indexed.left,if_pos hat,left,List.length_drop]
    rfl
  · intro b s h
    cases h
    exact ⟨hat,rfl⟩

theorem follows_argument (info : ℕ) : Follows bytes (Indexed.argument bytes info) (argument info) := by
  unfold Indexed.argument argument
  refine .ite (follows_pure info) (.ite (follows_takeBe 1) (.ite (follows_takeBe 2) (.ite (follows_takeBe 4) ?_)))
  exact .ite (follows_takeBe 8) (.ite (follows_invalid _) (follows_invalid _))

theorem follows_length (info : ℕ) : Follows bytes (Indexed.length bytes info) (length info) :=
  (follows_argument info).bind fun _ => follows_left.bind fun _ => .ite (follows_invalid _) (follows_pure _)

theorem follows_count (info : ℕ) : Follows bytes (Indexed.count bytes info) (count info) :=
  (follows_argument info).bind fun _ => follows_left.bind fun _ => .ite (follows_invalid _) (follows_pure _)

theorem Follows.times {m' : Indexed Value} {m : Reader Value} (hm : Follows bytes m' m) (n : ℕ) :
    Follows bytes (Indexed.times m' n) (times m n) := by
  induction n with
  | zero => exact follows_pure []
  | succ n ih => exact hm.bind fun item => ih.bind fun items => follows_pure _

theorem Follows.entries {m' : Indexed Value} {m : Reader Value} (hm : Follows bytes m' m) (n : ℕ) (read : List (Value × Value)) :
    Follows bytes (Indexed.entries m' n read) (entries m n read) := by
  induction n generalizing read with
  | zero => exact follows_pure read
  | succ n ih => exact hm.bind fun key => .ite (follows_invalid _) (hm.bind fun item => ih _)

theorem follows_text (slice : List UInt8) : Follows bytes (Indexed.text slice) (text slice) := by
  unfold Indexed.text text
  cases Text.fromUtf8 slice with
  | some s => exact follows_pure _
  | none => exact follows_invalid _

theorem follows_simple (info : ℕ) : Follows bytes (Indexed.simple info) (simple info) := by
  unfold Indexed.simple simple
  exact .ite (follows_pure _) (.ite (follows_pure _) (.ite (follows_pure _) (follows_invalid _)))

theorem follows_body {m' : Indexed Value} {m : Reader Value} (hm : Follows bytes m' m) (major info : ℕ) :
    Follows bytes (Indexed.body bytes m' major info) (body m major info) := by
  match major with
  | 0 => exact (follows_argument info).bind fun _ => follows_pure _
  | 1 => exact (follows_argument info).bind fun _ => follows_pure _
  | 2 => exact (follows_length info).bind fun len => (follows_take len).bind fun _ => follows_pure _
  | 3 => exact (follows_length info).bind fun len => (follows_take len).bind fun slice => follows_text slice
  | 4 => exact (follows_count info).bind fun n => (hm.times n).bind fun _ => follows_pure _
  | 5 => exact (follows_count info).bind fun n => (hm.entries n []).bind fun _ => follows_pure _
  | 6 => exact follows_invalid _
  | n + 7 => exact follows_simple info

theorem follows_value (room : ℕ) : Follows bytes (Indexed.value bytes room) (value room) := by
  induction room with
  | zero => exact follows_invalid _
  | succ room ih => exact follows_takeByte.bind fun initial => follows_body ih _ _

/-- The reader over an index does not panic, and decodes what the other one decodes. -/
theorem decodePrefixIndexed_eq (bytes : List UInt8) : decodePrefixIndexed bytes = some (decodePrefix bytes) := by
  have hstart := (@follows_value bytes (maxDepth + 1) 0 (Nat.zero_le _)).1
  rw [List.drop_zero] at hstart
  rw [decodePrefixIndexed,hstart,decodePrefix]
  cases value (maxDepth + 1) ⟨0,bytes⟩ <;> rfl

end Rainier.Mfa.Cbor
