import Rainier.Mfa.CborRoundTrip
import Rainier.Support.ScanExact

/-! # The items that the reader accepts

What an item is, byte by byte: a first byte with the kind and the beginning of a number, the rest of the
number, in any width, and what the kind has behind it. The reader takes such an item off the front of
its input and nothing else, and stops right behind it.
-/
namespace Rainier.Mfa.Cbor
open Rainier Scan Bytes

/-! ## The grammar -/

/-- A number behind a first byte with these low bits. -/
inductive Argument : ℕ → List UInt8 → ℕ → Prop where
  | immediate {n : ℕ} (h : n ≤ 23) : Argument n [] n
  | wide {info : ℕ} {bytes : List UInt8} (h : (info,bytes.length) ∈ [(24,1),(25,2),(26,4),(27,8)]) :
      Argument info bytes (fromBeBytes bytes)

/-- A first byte, of its three high bits and its five low ones. -/
def initial (major info : ℕ) : UInt8 := UInt8.ofNat (32 * major + info)

/-- The entries of a map, each a key and a value. -/
inductive Entries (P : List UInt8 → Value → Prop) : List UInt8 → List (Value × Value) → Prop where
  | nil : Entries P [] []
  | cons {key value texts : List UInt8} {k v : Value} {es : List (Value × Value)} (hk : P key k) (hv : P value v)
      (hs : Entries P texts es) : Entries P (key ++ (value ++ texts)) ((k,v) :: es)

/-- One item, with `P` for the items in it. -/
inductive Clause (P : List UInt8 → Value → Prop) : List UInt8 → Value → Prop where
  | unsigned {info n : ℕ} {args : List UInt8} (harg : Argument info args n) :
      Clause P (initial 0 info :: args) (.unsigned (UInt64.ofNat n))
  | negative {info n : ℕ} {args : List UInt8} (harg : Argument info args n) :
      Clause P (initial 1 info :: args) (.negative (-1 - n))
  | bytes {info : ℕ} {args bytes : List UInt8} (harg : Argument info args bytes.length) :
      Clause P (initial 2 info :: (args ++ bytes)) (.bytes bytes)
  | text {info : ℕ} {args bytes : List UInt8} {s : String} (harg : Argument info args bytes.length)
      (hs : Text.fromUtf8 bytes = some s) : Clause P (initial 3 info :: (args ++ bytes)) (.text s)
  | array {info : ℕ} {args texts : List UInt8} {items : List Value} (harg : Argument info args items.length)
      (hmax : items.length ≤ maxItems) (hitems : Each P texts items) : Clause P (initial 4 info :: (args ++ texts)) (.array items)
  | map {info : ℕ} {args texts : List UInt8} {es : List (Value × Value)} (harg : Argument info args es.length)
      (hmax : es.length ≤ maxItems) (hkeys : (es.map Prod.fst).Nodup) (hes : Entries P texts es) :
      Clause P (initial 5 info :: (args ++ texts)) (.map es)
  | bool (b : Bool) : Clause P [initial 7 (if b then 21 else 20)] (.bool b)
  | null : Clause P [initial 7 22] .null

/-- An item with at most so many items around its innermost one, itself among them. -/
def Item : ℕ → List UInt8 → Value → Prop
  | 0 => fun _ _ => False
  | room + 1 => Clause (Item room)

/-! ## First bytes -/

theorem Argument.info_lt {info n : ℕ} {args : List UInt8} (h : Argument info args n) : info < 32 := by
  cases h with
  | immediate h => omega
  | wide h =>
    simp only [List.mem_cons,Prod.mk.injEq,List.not_mem_nil,or_false] at h
    omega

theorem initial_high {major info : ℕ} (hmajor : major < 8) (hinfo : info < 32) : (initial major info >>> 5).toNat = major := by
  have h : ∀ m < 8, ∀ i < 32, (initial m i >>> 5).toNat = m := by decide
  exact h major hmajor info hinfo

theorem initial_low {major info : ℕ} (hmajor : major < 8) (hinfo : info < 32) : (initial major info &&& 0x1f).toNat = info := by
  have h : ∀ m < 8, ∀ i < 32, (initial m i &&& 0x1f).toNat = i := by decide
  exact h major hmajor info hinfo

/-- Every byte is the first byte of its high and its low bits. -/
theorem exists_initial (b : UInt8) : ∃ major info, major < 8 ∧ info < 32 ∧ b = initial major info := by
  have hb := b.toNat_lt
  refine ⟨b.toNat / 32,b.toNat % 32,by omega,by omega,?_⟩
  rw [initial,Nat.div_add_mod,UInt8.ofNat_toNat]

/-! ## The primitives -/

theorem takes_invalid {β : Type} (P : List UInt8 → β → Prop) (why : String) : Takes (invalid why : Reader β) P := by
  intro s b s' h
  cases h

theorem takes_left : Takes left fun text _ => text = [] := by
  intro s b s' h
  cases h
  exact ⟨[],rfl,rfl,rfl⟩

theorem takes_take (len : ℕ) : Takes (take len) fun text bytes => text = bytes ∧ bytes.length = len := by
  intro s bytes s' h
  unfold take at h
  split at h
  · next hle =>
    cases h
    have hlen : (s.rest.take len).length = len := by rw [List.length_take,Nat.min_eq_left hle]
    exact ⟨s.rest.take len,(List.take_append_drop _ _).symm,by rw [hlen],rfl,hlen⟩
  · cases h

theorem takes_takeByte : Takes takeByte fun text b => text = [b] := by
  intro s b s' h
  unfold takeByte at h
  split at h
  · next b' rest heq =>
    cases h
    exact ⟨[b],heq,rfl,rfl⟩
  · cases h

theorem takes_takeBe (width : ℕ) : Takes (takeBe width) fun text n => text.length = width ∧ n = fromBeBytes text := by
  refine ((takes_take width).map fromBeBytes).mono ?_
  rintro text n ⟨bytes,⟨rfl,hlen⟩,rfl⟩
  exact ⟨hlen,rfl⟩

theorem reads_takeBe_self (bytes rest : List UInt8) : Reads (takeBe bytes.length) bytes (fromBeBytes bytes) rest :=
  (reads_take bytes rest).map fromBeBytes

/-- The number is read in whatever width it is written. -/
theorem exact_argument (info : ℕ) : Exact (argument info) (Argument info) where
  reads text n h rest := by
    cases h with
    | immediate h =>
      rw [argument,if_pos h]
      exact reads_pure _ rest
    | wide h =>
      have hread := reads_takeBe_self text rest
      simp only [List.mem_cons,Prod.mk.injEq,List.not_mem_nil,or_false] at h
      rcases h with ⟨rfl,hlen⟩ | ⟨rfl,hlen⟩ | ⟨rfl,hlen⟩ | ⟨rfl,hlen⟩
      all_goals
        rw [hlen] at hread
        exact hread
  takes := by
    have hwide {info : ℕ} (width : ℕ) (hmem : (info,width) ∈ [(24,1),(25,2),(26,4),(27,8)]) :
        Takes (takeBe width) (Argument info) := by
      refine (takes_takeBe width).mono ?_
      rintro text n ⟨rfl,rfl⟩
      exact .wide hmem
    unfold argument
    refine .ite (fun h => ?_) fun _ => ?_
    · refine (takes_pure info).mono ?_
      rintro text n ⟨rfl,rfl⟩
      exact .immediate h
    refine .ite (fun h => hwide 1 (by simp [h])) fun _ => .ite (fun h => hwide 2 (by simp [h])) fun _ => ?_
    refine .ite (fun h => hwide 4 (by simp [h])) fun _ => .ite (fun h => hwide 8 (by simp [h])) fun _ => ?_
    exact .ite (fun _ => takes_invalid _ _) fun _ => takes_invalid _ _

/-- A bound on a number is checked without moving on. -/
theorem takes_bounded (info : ℕ) (p : ℕ → ℕ → Prop) [∀ n len, Decidable (p n len)] (why : String) :
    Takes (argument info >>= fun n => left >>= fun len => if p n len then invalid why else pure n : Reader ℕ)
      fun text n => Argument info text n ∧ ∃ len, ¬ p n len := by
  refine ((exact_argument info).takes.bind fun n => takes_left.bind (Q := fun len text m => text = [] ∧ m = n ∧ ¬ p n len)
    fun len => .ite (fun _ => takes_invalid _ _) fun h => ?_).mono ?_
  · refine (takes_pure n).mono ?_
    rintro text m ⟨rfl,rfl⟩
    exact ⟨rfl,rfl,h⟩
  · rintro text n ⟨t,u,n',rfl,harg,t',u',len,rfl,rfl,rfl,rfl,h⟩
    simpa using ⟨harg,len,h⟩

theorem takes_length (info : ℕ) : Takes (length info) (Argument info) :=
  (takes_bounded info (fun n len => n > len) _).mono fun _ _ h => h.1

theorem takes_count (info : ℕ) : Takes (count info) fun text n => Argument info text n ∧ n ≤ maxItems := by
  refine (takes_bounded info (fun n len => n > maxItems ∨ n > len) _).mono ?_
  rintro text n ⟨harg,len,h⟩
  exact ⟨harg,by omega⟩

/-! ## The entries of a map -/

/-- A key not there yet keeps the keys apart. -/
theorem nodup_concat {read : List (Value × Value)} {key value : Value} (hkeys : (read.map Prod.fst).Nodup)
    (hnew : ¬ read.any (fun entry => entry.1 = key) = true) : ((read ++ [(key,value)]).map Prod.fst).Nodup := by
  have hfresh : key ∉ read.map Prod.fst := by
    intro hmem
    obtain ⟨entry,hentry,rfl⟩ := List.mem_map.1 hmem
    exact hnew (List.any_eq_true.2 ⟨entry,hentry,decide_eq_true rfl⟩)
  rw [List.map_append,List.map_singleton]
  refine List.nodup_append.2 ⟨hkeys,List.nodup_singleton key,?_⟩
  rintro k hk k' hk' rfl
  rw [List.mem_singleton.1 hk'] at hk
  exact hfresh hk

theorem takes_entries {item : Reader Value} {P : List UInt8 → Value → Prop} (hitem : Takes item P) (n : ℕ)
    (read : List (Value × Value)) (hkeys : (read.map Prod.fst).Nodup) : Takes (entries item n read) fun text es =>
      ∃ more, es = read ++ more ∧ more.length = n ∧ (es.map Prod.fst).Nodup ∧ Entries P text more := by
  induction n generalizing read with
  | zero =>
    refine (takes_pure read).mono ?_
    rintro text es ⟨rfl,rfl⟩
    exact ⟨[],(List.append_nil es).symm,rfl,hkeys,.nil⟩
  | succ n ih =>
    refine (hitem.bind fun key => .ite (fun _ => takes_invalid _ _) fun hnew =>
      hitem.bind fun value => ih (read ++ [(key,value)]) (nodup_concat hkeys hnew)).mono ?_
    rintro text es ⟨t,u,key,rfl,hkey,t',u',value,rfl,hvalue,more,rfl,hlen,hnodup,hmore⟩
    refine ⟨(key,value) :: more,?_,congrArg (· + 1) hlen,hnodup,.cons hkey hvalue hmore⟩
    rw [List.append_assoc,List.singleton_append]

theorem Entries.reads {item : Reader Value} {P : List UInt8 → Value → Prop} {text : List UInt8} {es : List (Value × Value)}
    (h : Entries P text es) (hitem : ∀ text v, P text v → ∀ rest, Reads item text v rest) (read : List (Value × Value))
    (hkeys : ((read ++ es).map Prod.fst).Nodup) (rest : List UInt8) :
    Reads (entries item es.length read) text (read ++ es) rest := by
  induction h generalizing read with
  | nil =>
    rw [List.append_nil]
    exact reads_pure read rest
  | @cons key value texts k v es hk hv hs ih =>
    have hfresh : read.any (fun entry => entry.1 = k) = false := by
      rw [List.any_eq_false]
      intro entry hentry heq
      rw [List.map_append,List.map_cons,List.nodup_append] at hkeys
      exact hkeys.2.2 _ (List.mem_map_of_mem hentry) k List.mem_cons_self (by simpa using heq)
    have hrest := ih (read ++ [(k,v)]) (by simpa using hkeys)
    refine (hitem key k hk _).bind ?_
    rw [hfresh]
    refine (hitem value v hv _).bind ?_
    simpa using hrest

theorem Entries.length_le {P : List UInt8 → Value → Prop} {text : List UInt8} {es : List (Value × Value)} (h : Entries P text es)
    (hP : ∀ text v, P text v → text ≠ []) : es.length ≤ text.length := by
  induction h with
  | nil => exact Nat.le_refl 0
  | cons hk hv hs ih =>
    have hpos := List.length_pos_iff.2 (hP _ _ hk)
    rw [List.length_append,List.length_append,List.length_cons]
    omega

/-! ## Items -/

theorem Clause.ne_nil {P : List UInt8 → Value → Prop} {text : List UInt8} {v : Value} (h : Clause P text v) : text ≠ [] := by
  cases h <;> exact List.cons_ne_nil _ _

theorem Item.ne_nil {room : ℕ} {text : List UInt8} {v : Value} (h : Item room text v) : text ≠ [] := by
  cases room with
  | zero => exact h.elim
  | succ room => exact Clause.ne_nil h

/-- A kind is read by its clause. -/
theorem reads_initial {room major info : ℕ} {text rest : List UInt8} {v : Value} (hmajor : major < 8) (hinfo : info < 32)
    (h : Reads (body (value room) major info) text v rest) : Reads (value (room + 1)) (initial major info :: text) v rest := by
  refine (reads_takeByte _ _).bind ?_
  rwa [initial_high hmajor hinfo,initial_low hmajor hinfo]

theorem reads_clause {room : ℕ} (ih : ∀ text v, Item room text v → ∀ rest, Reads (value room) text v rest)
    {text : List UInt8} {v : Value} (h : Clause (Item room) text v) (rest : List UInt8) :
    Reads (value (room + 1)) text v rest := by
  cases h with
  | unsigned harg =>
    exact reads_initial (by decide) harg.info_lt (((exact_argument _).reads _ _ harg rest).map _)
  | negative harg =>
    exact reads_initial (by decide) harg.info_lt (((exact_argument _).reads _ _ harg rest).map _)
  | @bytes info args bytes harg =>
    refine reads_initial (by decide) harg.info_lt ?_
    refine (reads_length ((exact_argument _).reads _ _ harg _) ?_).bind ((reads_take bytes rest).map Value.bytes)
    simp
  | @text info args bytes s harg hs =>
    refine reads_initial (by decide) harg.info_lt ?_
    refine (reads_length ((exact_argument _).reads _ _ harg _) ?_).bind ((reads_take bytes rest).finish ?_)
    · simp
    · rw [Cbor.text,hs]
      exact reads_pure _ rest
  | @array info args texts items harg hmax hitems =>
    refine reads_initial (by decide) harg.info_lt ?_
    refine (reads_count ((exact_argument _).reads _ _ harg _) hmax ?_).bind ((hitems.reads ih rest).map Value.array)
    have hle := hitems.length_le fun _ _ h => Item.ne_nil h
    rw [List.length_append]
    omega
  | @map info args texts es harg hmax hkeys hes =>
    refine reads_initial (by decide) harg.info_lt ?_
    refine (reads_count ((exact_argument _).reads _ _ harg _) hmax ?_).bind ((hes.reads ih [] hkeys rest).map Value.map)
    have hle := hes.length_le fun _ _ h => Item.ne_nil h
    rw [List.length_append]
    omega
  | bool b =>
    cases b with
    | false => exact reads_initial (by decide) (by decide) (reads_pure _ rest)
    | true => exact reads_initial (by decide) (by decide) (reads_pure _ rest)
  | null => exact reads_initial (by decide) (by decide) (reads_pure _ rest)

theorem takes_simple {P : List UInt8 → Value → Prop} (info : ℕ) :
    Takes (simple info) fun text v => Clause P (initial 7 info :: text) v := by
  have hpure {v : Value} (h : Clause P [initial 7 info] v) :
      Takes (pure v : Reader Value) fun text v => Clause P (initial 7 info :: text) v := by
    refine (takes_pure v).mono ?_
    rintro text v ⟨rfl,rfl⟩
    exact h
  unfold simple
  refine .ite (fun h => hpure ?_) fun _ => .ite (fun h => hpure ?_) fun _ => .ite (fun h => hpure ?_) fun _ => takes_invalid _ _
  · rw [h]
    exact .bool false
  · rw [h]
    exact .bool true
  · rw [h]
    exact .null

theorem takes_text (bytes : List UInt8) :
    Takes (text bytes) fun t v => t = [] ∧ ∃ s, Text.fromUtf8 bytes = some s ∧ v = .text s := by
  unfold text
  split
  · next s hs =>
    refine (takes_pure _).mono ?_
    rintro t v ⟨rfl,rfl⟩
    exact ⟨rfl,s,hs,rfl⟩
  · exact takes_invalid _ _

/-- What is read behind a first byte makes an item with it. Every kind has its clause. -/
theorem takes_body {item : Reader Value} {P : List UInt8 → Value → Prop} (ih : Takes item P) {major info : ℕ} (hmajor : major < 8) :
    Takes (body item major info) fun text v => Clause P (initial major info :: text) v := by
  unfold body
  split
  · refine ((exact_argument info).takes.map fun n => Value.unsigned (UInt64.ofNat n)).mono ?_
    rintro text v ⟨n,harg,rfl⟩
    exact .unsigned harg
  · refine ((exact_argument info).takes.map fun n => Value.negative (-1 - n)).mono ?_
    rintro text v ⟨n,harg,rfl⟩
    exact .negative harg
  · refine ((takes_length info).bind fun len => (takes_take len).map Value.bytes).mono ?_
    rintro text v ⟨t,u,len,rfl,harg,bytes,⟨rfl,rfl⟩,rfl⟩
    exact .bytes harg
  · refine ((takes_length info).bind fun len => (takes_take len).bind fun bytes => takes_text bytes).mono ?_
    rintro text v ⟨t,u,len,rfl,harg,t',u',bytes,rfl,⟨rfl,rfl⟩,rfl,s,hs,rfl⟩
    rw [List.append_nil]
    exact .text harg hs
  · refine ((takes_count info).bind fun n => (ih.times n).map Value.array).mono ?_
    rintro text v ⟨t,u,n,rfl,⟨harg,hmax⟩,items,⟨hitems,rfl⟩,rfl⟩
    exact .array harg hmax hitems
  · refine ((takes_count info).bind fun n => (takes_entries ih n [] List.nodup_nil).map Value.map).mono ?_
    rintro text v ⟨t,u,n,rfl,⟨harg,hmax⟩,es,⟨more,rfl,rfl,hkeys,hes⟩,rfl⟩
    exact .map harg hmax hkeys hes
  · exact takes_invalid _ _
  · next h0 h1 h2 h3 h4 h5 h6 =>
    have hseven : major = 7 := by grind
    rw [hseven]
    exact takes_simple info

/-- The reader takes items, and no others. -/
theorem exact_value (room : ℕ) : Exact (value room) (Item room) := by
  induction room with
  | zero => exact ⟨fun text v h => h.elim,takes_invalid _ _⟩
  | succ room ih =>
    constructor
    · exact fun text v h rest => reads_clause ih.reads h rest
    · refine (takes_takeByte.bind (Q := fun b text v => Clause (Item room) (b :: text) v) fun b => ?_).mono ?_
      · obtain ⟨major,info,hmajor,hinfo,rfl⟩ := exists_initial b
        rw [initial_high hmajor hinfo,initial_low hmajor hinfo]
        exact takes_body ih.takes hmajor
      · rintro text v ⟨t,u,b,rfl,rfl,h⟩
        exact h

/-- What is decoded is the item the input begins with, and its length is reported. -/
theorem decodePrefix_eq_ok {bytes : List UInt8} {v : Value} {used : ℕ} : decodePrefix bytes = .ok (v,used) ↔
    ∃ item rest, bytes = item ++ rest ∧ item.length = used ∧ Item (maxDepth + 1) item v := by
  unfold decodePrefix
  constructor
  · intro h
    cases hrun : value (maxDepth + 1) ⟨0,bytes⟩ with
    | error e =>
      rw [hrun] at h
      cases h
    | ok r =>
      obtain ⟨v',s'⟩ := r
      rw [hrun] at h
      cases h
      obtain ⟨item,hitem,hpos,h⟩ := (exact_value _).run_iff.1 hrun
      exact ⟨item,s'.rest,hitem,by rw [hpos,Nat.zero_add],h⟩
  · rintro ⟨item,rest,rfl,rfl,h⟩
    rw [(exact_value _).reads item v h rest 0,Nat.zero_add]

/-- The whole input is decoded where it is one item. -/
theorem decode_eq_ok {bytes : List UInt8} {v : Value} : decode bytes = .ok v ↔ Item (maxDepth + 1) bytes v := by
  unfold decode
  constructor
  · intro h
    cases hinitial : decodePrefix bytes with
    | error e =>
      rw [hinitial] at h
      cases h
    | ok r =>
      obtain ⟨v',used⟩ := r
      rw [hinitial] at h
      simp only at h
      split_ifs at h with hused
      cases h
      obtain ⟨item,rest,rfl,hlen,hitem⟩ := decodePrefix_eq_ok.1 hinitial
      rw [not_not,← hlen,List.length_append] at hused
      obtain rfl : rest = [] := List.length_eq_zero_iff.1 (by omega)
      rwa [List.append_nil]
  · intro h
    have hinitial : decodePrefix bytes = .ok (v,bytes.length) :=
      decodePrefix_eq_ok.2 ⟨bytes,[],(List.append_nil bytes).symm,rfl,h⟩
    simp [hinitial]

end Rainier.Mfa.Cbor
