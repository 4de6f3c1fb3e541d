import Rainier.Mfa.Cbor
import Mathlib.Data.List.Nodup

/-! # What is written is read back

A well-formed value nested no deeper than the reader allows is read back from what
`encode` writes, whatever follows it, and the reader stops right behind it. What
the reader accepts is such a value.
-/
namespace Rainier.Mfa.Cbor
open Rainier Scan Bytes

/-- A value the format holds: an integer that fits, containers within the limit, keys that
differ. The length of a `Vec` or a `String` always fits a `u64`. -/
inductive WellFormed : Value → Prop where
  | unsigned (n : UInt64) : WellFormed (.unsigned n)
  | negative (n : ℤ) (hlow : -2 ^ 64 ≤ n) (hhigh : n ≤ -1) : WellFormed (.negative n)
  | bytes (bytes : List UInt8) (hlen : bytes.length < 2 ^ 64) : WellFormed (.bytes bytes)
  | text (text : String) (hlen : (Text.asBytes text).length < 2 ^ 64) : WellFormed (.text text)
  | array (items : List Value) (hlen : items.length ≤ maxItems) (hitems : ∀ a ∈ items, WellFormed a) :
    WellFormed (.array items)
  | map (entries : List (Value × Value)) (hlen : entries.length ≤ maxItems) (hkeys : (entries.map Prod.fst).Nodup)
    (hfst : ∀ e ∈ entries, WellFormed e.1) (hsnd : ∀ e ∈ entries, WellFormed e.2) : WellFormed (.map entries)
  | bool (b : Bool) : WellFormed (.bool b)
  | null : WellFormed .null

namespace Value

theorem depth_of_mem_items {items : List Value} {a : Value} (h : a ∈ items) : depth a + 1 ≤ depthItems items := by
  induction items with
  | nil => cases h
  | cons b items ih =>
    rw [depthItems]
    rcases List.mem_cons.mp h with rfl | h
    · exact Nat.le_max_left _ _
    · exact Nat.le_trans (ih h) (Nat.le_max_right _ _)

theorem depth_of_mem_entries {entries : List (Value × Value)} {e : Value × Value} (h : e ∈ entries) :
    depth e.1 + 1 ≤ depthEntries entries ∧ depth e.2 + 1 ≤ depthEntries entries := by
  induction entries with
  | nil => cases h
  | cons b entries ih =>
    obtain ⟨k,a⟩ := b
    rw [depthEntries]
    rcases List.mem_cons.mp h with rfl | h
    · dsimp only
      omega
    · have := ih h
      omega

theorem depthItems_le {items : List Value} {n : ℕ} (h : ∀ a ∈ items, depth a < n) : depthItems items ≤ n := by
  induction items with
  | nil => exact Nat.zero_le n
  | cons a items ih =>
    rw [depthItems]
    exact Nat.max_le.mpr ⟨h a List.mem_cons_self,ih fun b hb => h b (List.mem_cons_of_mem a hb)⟩

theorem depthEntries_le {entries : List (Value × Value)} {n : ℕ} (hfst : ∀ e ∈ entries, depth e.1 < n)
    (hsnd : ∀ e ∈ entries, depth e.2 < n) : depthEntries entries ≤ n := by
  induction entries with
  | nil => exact Nat.zero_le n
  | cons e entries ih =>
    obtain ⟨k,a⟩ := e
    rw [depthEntries]
    have hk := hfst (k,a) List.mem_cons_self
    have ha := hsnd (k,a) List.mem_cons_self
    have hrest := ih (fun e he => hfst e (List.mem_cons_of_mem _ he)) fun e he => hsnd e (List.mem_cons_of_mem _ he)
    dsimp only at hk ha
    omega

end Value

/-! ## Reading what was written -/

theorem reads_take (bytes rest : List UInt8) : Reads (take bytes.length) bytes bytes rest := by
  intro pos
  simp [take]

theorem reads_takeBe {width n : ℕ} (h : n < 256 ^ width) (rest : List UInt8) :
    Reads (takeBe width) (toBeBytes width n) n rest := by
  have hbytes := reads_take (toBeBytes width n) rest
  rw [length_toBeBytes] at hbytes
  have hmap := hbytes.map fromBeBytes
  rwa [fromBeBytes_toBeBytes width n h] at hmap

/-- The first byte holds the kind in its high bits and the width in its low ones. -/
theorem initial_parts (major info : ℕ) (hmajor : major < 8) (hinfo : info < 32) :
    ((UInt8.ofNat major <<< 5 ||| UInt8.ofNat info) >>> 5).toNat = major ∧
      ((UInt8.ofNat major <<< 5 ||| UInt8.ofNat info) &&& 0x1f).toNat = info := by
  have h : ∀ m < 8, ∀ i < 32, ((UInt8.ofNat m <<< 5 ||| UInt8.ofNat i) >>> 5).toNat = m ∧
      ((UInt8.ofNat m <<< 5 ||| UInt8.ofNat i) &&& 0x1f).toNat = i := by decide
  exact h major hmajor info hinfo

/-- A number written behind the first byte. -/
theorem exists_wide {major n : ℕ} (info width : ℕ) (hmajor : major < 8) (hinfo : info < 32)
    (harg : argument info = takeBe width) (hn : n < 256 ^ width) :
    ∃ b args, (UInt8.ofNat major <<< 5 ||| UInt8.ofNat info) :: toBeBytes width n = b :: args ∧
      (b >>> 5).toNat = major ∧ ∀ rest, Reads (argument (b &&& 0x1f).toNat) args n rest := by
  obtain ⟨hb,hlow⟩ := initial_parts major info hmajor hinfo
  refine ⟨_,_,rfl,hb,fun rest => ?_⟩
  rw [hlow,harg]
  exact reads_takeBe hn rest

/-- What `head` writes: a first byte of the kind, then what `argument` reads the number from. -/
theorem exists_head {major n : ℕ} (hmajor : major < 8) (hn : n < 2 ^ 64) :
    ∃ b args, head (UInt8.ofNat major) n = b :: args ∧ (b >>> 5).toNat = major ∧
      ∀ rest, Reads (argument (b &&& 0x1f).toNat) args n rest := by
  unfold head
  dsimp only
  split
  · next h =>
    obtain ⟨hb,hlow⟩ := initial_parts major n hmajor (by omega)
    refine ⟨_,_,rfl,hb,fun rest => ?_⟩
    rw [hlow,argument,if_pos h]
    exact reads_pure n rest
  split
  · exact exists_wide 24 1 hmajor (by decide) rfl (by omega)
  split
  · exact exists_wide 25 2 hmajor (by decide) rfl (by omega)
  split
  · exact exists_wide 26 4 hmajor (by decide) rfl (by omega)
  · exact exists_wide 27 8 hmajor (by decide) rfl (by omega)

theorem reads_takeByte (b : UInt8) (rest : List UInt8) : Reads takeByte [b] b rest := fun _ => rfl

/-- A value is read once its kind's clause reads what comes behind the head. -/
theorem reads_of_head (major : ℕ) {room n : ℕ} {text : List UInt8} {v : Value} {rest : List UInt8} (hmajor : major < 8)
    (hn : n < 2 ^ 64) (hbody : ∀ info args, (∀ rest, Reads (argument info) args n rest) →
      Reads (body (value room) major info) (args ++ text) v rest) :
    Reads (value (room + 1)) (head (UInt8.ofNat major) n ++ text) v rest := by
  obtain ⟨b,args,heq,hmaj,hargs⟩ := exists_head hmajor hn
  rw [heq,List.cons_append]
  have hclause := hbody _ args hargs
  rw [← hmaj] at hclause
  exact (reads_takeByte b _).bind hclause

theorem reads_length {info n : ℕ} {args rest : List UInt8} (h : Reads (argument info) args n rest)
    (hn : n ≤ rest.length) : Reads (length info) args n rest := by
  refine h.finish fun pos => ?_
  change (if n > rest.length then invalid _ else pure n : Reader ℕ) ⟨pos,rest⟩ = _
  rw [if_neg (by omega)]
  rfl

theorem reads_count {info n : ℕ} {args rest : List UInt8} (h : Reads (argument info) args n rest)
    (hmax : n ≤ maxItems) (hn : n ≤ rest.length) : Reads (count info) args n rest := by
  refine h.finish fun pos => ?_
  change (if n > maxItems ∨ n > rest.length then invalid _ else pure n : Reader ℕ) ⟨pos,rest⟩ = _
  rw [if_neg (by omega)]
  rfl

theorem encode_ne_nil (v : Value) : encode v ≠ [] := by
  have hhead : ∀ major n, head major n ≠ [] := by
    intro major n
    unfold head
    dsimp only
    split_ifs <;> simp
  cases v with
  | bool b => cases b <;> simp [encode]
  | null => simp [encode]
  | _ => simp [encode,hhead]

theorem length_encodeItems (items : List Value) : items.length ≤ (encodeItems items).length := by
  induction items with
  | nil => exact Nat.le_refl 0
  | cons a items ih =>
    have ha := List.length_pos_iff.mpr (encode_ne_nil a)
    rw [encodeItems,List.length_append,List.length_cons]
    omega

theorem length_encodeEntries (read : List (Value × Value)) : read.length ≤ (encodeEntries read).length := by
  induction read with
  | nil => exact Nat.le_refl 0
  | cons e read ih =>
    obtain ⟨k,a⟩ := e
    have ha := List.length_pos_iff.mpr (encode_ne_nil a)
    rw [encodeEntries,List.length_append,List.length_append,List.length_cons]
    omega

theorem encodeItems_eq (items : List Value) : encodeItems items = items.flatMap encode := by
  induction items with
  | nil => rfl
  | cons a items ih => rw [encodeItems,ih,List.flatMap_cons]

/-- Entries are read one after the other, no key among those already there. -/
theorem reads_entries {item : Reader Value} (todo : List (Value × Value)) (rest : List UInt8)
    (hitem : ∀ e ∈ todo, ∀ rest, Reads item (encode e.1) e.1 rest ∧ Reads item (encode e.2) e.2 rest)
    (read : List (Value × Value)) (hkeys : ((read ++ todo).map Prod.fst).Nodup) :
    Reads (entries item todo.length read) (encodeEntries todo) (read ++ todo) rest := by
  induction todo generalizing read with
  | nil =>
    rw [List.append_nil]
    exact reads_pure read rest
  | cons e todo ih =>
    obtain ⟨k,a⟩ := e
    have hfresh : read.any (fun entry => entry.1 = k) = false := by
      rw [List.any_eq_false]
      intro entry hentry heq
      rw [List.map_append,List.map_cons,List.nodup_append] at hkeys
      exact hkeys.2.2 _ (List.mem_map_of_mem hentry) k List.mem_cons_self (by simpa using heq)
    have hhead := hitem (k,a) List.mem_cons_self
    have hrest := ih (fun e he => hitem e (List.mem_cons_of_mem _ he)) (read ++ [(k,a)]) (by simpa using hkeys)
    rw [encodeEntries,List.append_assoc]
    refine Reads.bind (hhead _).1 ?_
    rw [hfresh]
    refine Reads.bind (hhead _).2 ?_
    simpa using hrest

theorem reads_simple {room : ℕ} (b : UInt8) {v : Value} (rest : List UInt8)
    (h : body (value room) (b >>> 5).toNat (b &&& 0x1f).toNat = pure v) : Reads (value (room + 1)) [b] v rest := by
  have hbody : Reads (body (value room) (b >>> 5).toNat (b &&& 0x1f).toNat) [] v rest := h ▸ reads_pure v rest
  exact (reads_takeByte b _).bind hbody

theorem magnitude_negative {n : ℤ} (hlow : -2 ^ 64 ≤ n) (hhigh : n ≤ -1) :
    magnitude n < 2 ^ 64 ∧ -1 - (magnitude n : ℤ) = n := by
  have hmod : (-1 - n) % 2 ^ 64 = -1 - n := Int.emod_eq_of_lt (by omega) (by omega)
  unfold magnitude
  rw [hmod]
  omega

/-- The clauses that read one number and no more. -/
theorem reads_number {n : ℕ} (room major : ℕ) (v : ℕ → Value) (hmajor : major < 8) (hn : n < 2 ^ 64) (rest : List UInt8)
    (hbody : ∀ info, body (value room) major info = argument info >>= fun n => pure (v n)) :
    Reads (value (room + 1)) (head (UInt8.ofNat major) n) (v n) rest := by
  have hclause : Reads (value (room + 1)) (head (UInt8.ofNat major) n ++ []) (v n) rest := by
    refine reads_of_head major hmajor hn fun info args hargs => ?_
    rw [hbody,List.append_nil]
    exact (hargs rest).map v
  rwa [List.append_nil] at hclause

/-- Every well-formed value is read back, whatever follows it. -/
theorem reads_value {v : Value} (h : WellFormed v) {room : ℕ} (hroom : v.depth ≤ room) (rest : List UInt8) :
    Reads (value (room + 1)) (encode v) v rest := by
  induction h generalizing room rest with
  | unsigned n =>
    have hclause := reads_number room 0 (fun n => .unsigned (UInt64.ofNat n)) (by decide) n.toNat_lt rest
      fun _ => rfl
    simpa [encode] using hclause
  | negative n hlow hhigh =>
    obtain ⟨hfits,heq⟩ := magnitude_negative hlow hhigh
    have hclause := reads_number room 1 (fun n => .negative (-1 - n)) (by decide) hfits rest fun _ => rfl
    rwa [heq] at hclause
  | bytes bytes hlen =>
    refine reads_of_head 2 (by decide) hlen fun info args hargs => ?_
    exact (reads_length (hargs _) (by simp)).bind ((reads_take bytes rest).map Value.bytes)
  | text text hlen =>
    refine reads_of_head 3 (by decide) hlen fun info args hargs => ?_
    refine (reads_length (hargs _) (by simp)).bind ((reads_take _ rest).finish ?_)
    rw [Cbor.text,Text.fromUtf8_asBytes]
    exact reads_pure _ rest
  | array items hlen hitems ih =>
    refine reads_of_head 4 (by decide) (Nat.lt_of_le_of_lt hlen (by decide)) fun info args hargs => ?_
    have hfits : items.length ≤ (encodeItems items ++ rest).length := by
      have := length_encodeItems items
      rw [List.length_append]
      omega
    refine (reads_count (hargs _) hlen hfits).bind (Reads.map ?_ Value.array)
    rw [encodeItems_eq]
    refine Reads.times rest fun a ha rest => ?_
    have hdepth : a.depth + 1 ≤ room := Nat.le_trans (Value.depth_of_mem_items ha) hroom
    obtain ⟨room,rfl⟩ := Nat.exists_eq_add_of_le' (Nat.le_trans (Nat.le_add_left 1 _) hdepth)
    exact ih a ha (Nat.le_of_succ_le_succ hdepth) rest
  | map read hlen hkeys hfst hsnd ihfst ihsnd =>
    refine reads_of_head 5 (by decide) (Nat.lt_of_le_of_lt hlen (by decide)) fun info args hargs => ?_
    have hfits : read.length ≤ (encodeEntries read ++ rest).length := by
      have := length_encodeEntries read
      rw [List.length_append]
      omega
    refine (reads_count (hargs _) hlen hfits).bind (Reads.map ?_ Value.map)
    refine reads_entries read rest (fun e he rest => ?_) [] hkeys
    obtain ⟨hk,ha⟩ := Value.depth_of_mem_entries he
    have hk' : e.1.depth + 1 ≤ room := Nat.le_trans hk hroom
    have ha' : e.2.depth + 1 ≤ room := Nat.le_trans ha hroom
    obtain ⟨room,rfl⟩ := Nat.exists_eq_add_of_le' (Nat.le_trans (Nat.le_add_left 1 _) hk')
    exact ⟨ihfst e he (Nat.le_of_succ_le_succ hk') rest,ihsnd e he (Nat.le_of_succ_le_succ ha') rest⟩
  | bool b =>
    cases b with
    | false => exact reads_simple 0xf4 rest rfl
    | true => exact reads_simple 0xf5 rest rfl
  | null => exact reads_simple 0xf6 rest rfl

/-! ## What the reader accepts -/

theorem yields_invalid {β : Type} {P : β → Prop} (why : String) : Yields (invalid why) P := by
  intro s b s' h
  cases h

theorem yields_take (len : ℕ) : Yields (take len) (fun bytes => bytes.length = len) := by
  intro s bytes s' h
  unfold take at h
  split at h
  · next hle =>
    cases h
    rw [List.length_take]
    omega
  · cases h

theorem yields_takeBe {width : ℕ} (hwidth : 256 ^ width ≤ 2 ^ 64) : Yields (takeBe width) (fun n => n < 2 ^ 64) := by
  refine (yields_take width).bind fun bytes hbytes => yields_pure ?_
  have hlt := fromBeBytes_lt bytes
  rw [hbytes] at hlt
  exact Nat.lt_of_lt_of_le hlt hwidth

theorem yields_argument (info : ℕ) : Yields (argument info) (fun n => n < 2 ^ 64) := by
  unfold argument
  split
  · next h => exact yields_pure (Nat.lt_of_le_of_lt h (by decide))
  refine .ite (yields_takeBe (by decide)) (.ite (yields_takeBe (by decide)) (.ite (yields_takeBe (by decide)) ?_))
  exact .ite (yields_takeBe (by decide)) (.ite (yields_invalid _) (yields_invalid _))

theorem yields_length (info : ℕ) : Yields (length info) (fun n => n < 2 ^ 64) :=
  (yields_argument info).bind fun _ hn => .after fun _ => .ite (yields_invalid _) (yields_pure hn)

theorem yields_count (info : ℕ) : Yields (count info) (fun n => n ≤ maxItems) := by
  refine .after fun n => .after fun left => ?_
  split
  · exact yields_invalid _
  · next h => exact yields_pure (by omega)

theorem yields_entries {item : Reader Value} {P : Value → Prop} (hitem : Yields item P) (n : ℕ)
    (read : List (Value × Value)) (hkeys : (read.map Prod.fst).Nodup) (hread : ∀ e ∈ read, P e.1 ∧ P e.2) :
    Yields (entries item n read) fun es =>
      es.length = read.length + n ∧ (es.map Prod.fst).Nodup ∧ ∀ e ∈ es, P e.1 ∧ P e.2 := by
  induction n generalizing read with
  | zero => exact yields_pure ⟨rfl,hkeys,hread⟩
  | succ n ih =>
    refine hitem.bind fun key hkey => ?_
    split
    · exact yields_invalid _
    · next hnew =>
      refine hitem.bind fun a ha => ?_
      have hnew' : key ∉ read.map Prod.fst := by
        intro hmem
        obtain ⟨e,he,rfl⟩ := List.mem_map.mp hmem
        exact hnew (List.any_eq_true.mpr ⟨e,he,decide_eq_true rfl⟩)
      have hkeys' : ((read ++ [(key,a)]).map Prod.fst).Nodup := by
        rw [List.map_append]
        refine List.nodup_append.mpr ⟨hkeys,List.nodup_singleton key,fun k hk k' hk' heq => ?_⟩
        rw [heq,List.mem_singleton.mp hk'] at hk
        exact hnew' hk
      have hread' : ∀ e ∈ read ++ [(key,a)], P e.1 ∧ P e.2 := by
        intro e he
        rcases List.mem_append.mp he with he | he
        · exact hread e he
        · rw [List.mem_singleton.mp he]
          exact ⟨hkey,ha⟩
      have hlen : (read ++ [(key,a)]).length + n = read.length + (n + 1) := by
        rw [List.length_append,List.length_singleton]
        omega
      rw [← hlen]
      exact ih _ hkeys' hread'

/-- Whatever is read is well-formed and no deeper than there was room for. -/
theorem yields_value (room : ℕ) : Yields (value room) fun v => WellFormed v ∧ v.depth < room := by
  induction room with
  | zero => exact yields_invalid _
  | succ room ih =>
    refine .after fun initial => ?_
    unfold body
    split
    · exact (yields_argument _).bind fun n _ => yields_pure ⟨.unsigned _,Nat.succ_pos room⟩
    · exact (yields_argument _).bind fun n hn => yields_pure ⟨.negative _ (by omega) (by omega),Nat.succ_pos room⟩
    · refine (yields_length _).bind fun len hlen => (yields_take len).bind fun bytes hbytes => ?_
      exact yields_pure ⟨.bytes bytes (hbytes ▸ hlen),Nat.succ_pos room⟩
    · refine (yields_length _).bind fun len hlen => (yields_take len).bind fun bytes hbytes => ?_
      unfold text
      split
      · next text htext =>
        exact yields_pure ⟨.text text (by rw [Text.asBytes_of_fromUtf8 htext,hbytes]; exact hlen),Nat.succ_pos room⟩
      · exact yields_invalid _
    · refine (yields_count _).bind fun n hn => (ih.times n).bind fun items hitems => yields_pure ?_
      refine ⟨.array items (hitems.1 ▸ hn) fun a ha => (hitems.2 a ha).1,Nat.lt_succ_of_le ?_⟩
      exact Value.depthItems_le fun a ha => (hitems.2 a ha).2
    · refine (yields_count _).bind fun n hn =>
        (yields_entries ih n [] List.nodup_nil nofun).bind fun read hread => yields_pure ?_
      obtain ⟨hlen,hkeys,hall⟩ := hread
      rw [List.length_nil,Nat.zero_add] at hlen
      refine ⟨.map read (hlen ▸ hn) hkeys (fun e he => (hall e he).1.1) fun e he => (hall e he).2.1,
        Nat.lt_succ_of_le ?_⟩
      exact Value.depthEntries_le (fun e he => (hall e he).1.2) fun e he => (hall e he).2.2
    · exact yields_invalid _
    · unfold simple
      refine .ite (yields_pure ⟨.bool _,Nat.succ_pos room⟩) (.ite (yields_pure ⟨.bool _,Nat.succ_pos room⟩) ?_)
      exact .ite (yields_pure ⟨.null,Nat.succ_pos room⟩) (yields_invalid _)

/-! ## How far the reader gets -/

theorem tracks_invalid {β : Type} (why : String) : Tracks (invalid why : Reader β) := by
  intro s b s' h
  cases h

theorem tracks_left : Tracks left := by
  intro s b s' h
  cases h
  rfl

theorem tracks_take (len : ℕ) : Tracks (take len) := by
  intro s bytes s' h
  unfold take at h
  split at h
  · next hle =>
    cases h
    dsimp only
    rw [List.length_drop]
    omega
  · cases h

theorem tracks_takeByte : Tracks takeByte := by
  intro s b s' h
  unfold takeByte at h
  split at h
  · next b rest heq =>
    cases h
    rw [heq,List.length_cons]
    dsimp only
    omega
  · cases h

theorem tracks_argument (info : ℕ) : Tracks (argument info) := by
  have hbe : ∀ width, Tracks (takeBe width) := fun width => (tracks_take width).bind fun bytes => tracks_pure _
  unfold argument
  refine .ite (tracks_pure info) (.ite (hbe 1) (.ite (hbe 2) (.ite (hbe 4) ?_)))
  exact .ite (hbe 8) (.ite (tracks_invalid _) (tracks_invalid _))

theorem tracks_length (info : ℕ) : Tracks (length info) :=
  (tracks_argument info).bind fun _ => tracks_left.bind fun _ => .ite (tracks_invalid _) (tracks_pure _)

theorem tracks_count (info : ℕ) : Tracks (count info) :=
  (tracks_argument info).bind fun _ => tracks_left.bind fun _ => .ite (tracks_invalid _) (tracks_pure _)

theorem tracks_entries {item : Reader Value} (hitem : Tracks item) (n : ℕ) (read : List (Value × Value)) :
    Tracks (entries item n read) := by
  induction n generalizing read with
  | zero => exact tracks_pure read
  | succ n ih => exact hitem.bind fun key => .ite (tracks_invalid _) (hitem.bind fun a => ih _)

theorem tracks_value (room : ℕ) : Tracks (value room) := by
  induction room with
  | zero => exact tracks_invalid _
  | succ room ih =>
    refine tracks_takeByte.bind fun initial => ?_
    unfold body
    split
    · exact (tracks_argument _).bind fun n => tracks_pure _
    · exact (tracks_argument _).bind fun n => tracks_pure _
    · exact (tracks_length _).bind fun len => (tracks_take len).bind fun bytes => tracks_pure _
    · refine (tracks_length _).bind fun len => (tracks_take len).bind fun bytes => ?_
      unfold text
      split
      · exact tracks_pure _
      · exact tracks_invalid _
    · exact (tracks_count _).bind fun n => (ih.times n).bind fun items => tracks_pure _
    · exact (tracks_count _).bind fun n => (tracks_entries ih n []).bind fun read => tracks_pure _
    · exact tracks_invalid _
    · exact .ite (tracks_pure _) (.ite (tracks_pure _) (.ite (tracks_pure _) (tracks_invalid _)))

/-! ## Round trips -/

theorem decodePrefix_encode {v : Value} (h : WellFormed v) (hdepth : v.depth ≤ maxDepth) (s : List UInt8) :
    decodePrefix (encode v ++ s) = .ok (v,(encode v).length) := by
  unfold decodePrefix
  rw [reads_value h hdepth s 0,Nat.zero_add]

theorem decode_encode {v : Value} (h : WellFormed v) (hdepth : v.depth ≤ maxDepth) : decode (encode v) = .ok v := by
  have hfront := decodePrefix_encode h hdepth []
  rw [List.append_nil] at hfront
  unfold decode
  rw [hfront]
  exact if_neg (not_not.mpr rfl)

/-- A well-formed value is read back from what was written, with the length it takes, and
whatever is read is well-formed, lies within the input and survives being written. -/
theorem decodePrefix_roundTrip :
    (∀ v s, WellFormed v → v.depth ≤ maxDepth → decodePrefix (encode v ++ s) = .ok (v,(encode v).length)) ∧
      ∀ b v n, decodePrefix b = .ok (v,n) →
        n ≤ b.length ∧ WellFormed v ∧ v.depth ≤ maxDepth ∧ decode (encode v) = .ok v := by
  refine ⟨fun v s h hdepth => decodePrefix_encode h hdepth s,fun b v n h => ?_⟩
  unfold decodePrefix at h
  split at h
  · next v' s heq =>
    cases h
    obtain ⟨hwf,hdepth⟩ := yields_value _ _ _ _ heq
    have htrack := tracks_value _ _ _ _ heq
    have hdepth' := Nat.le_of_lt_succ hdepth
    dsimp only at htrack
    exact ⟨by omega,hwf,hdepth',decode_encode hwf hdepth'⟩
  · cases h

/-- A map from a number to a list, followed by two bytes that are not its. -/
theorem decodePrefix_roundTrip_example :
    decodePrefix (encode (.map [(.unsigned 1,.array [.negative (-7),.null])]) ++ [0xa0,0x00]) =
        .ok (.map [(.unsigned 1,.array [.negative (-7),.null])],5) ∧
      decode (encode (.map [(.unsigned 1,.array [.negative (-7),.null])])) =
        .ok (.map [(.unsigned 1,.array [.negative (-7),.null])]) := by
  have hitems : WellFormed (.array [.negative (-7),.null]) := by
    refine .array _ (by decide) fun a ha => ?_
    rcases List.mem_cons.mp ha with rfl | ha
    · exact .negative (-7) (by decide) (by decide)
    · rw [List.mem_singleton.mp ha]
      exact .null
  have hwf : WellFormed (.map [(.unsigned 1,.array [.negative (-7),.null])]) := by
    refine .map _ (by decide) (List.nodup_singleton _) (fun e he => ?_) fun e he => ?_
    · rw [List.mem_singleton.mp he]
      exact .unsigned 1
    · rw [List.mem_singleton.mp he]
      exact hitems
  have hread := decodePrefix_roundTrip.1 _ [0xa0,0x00] hwf (by decide)
  exact ⟨hread,(decodePrefix_roundTrip.2 _ _ _ hread).2.2.2⟩

end Rainier.Mfa.Cbor
