import Rainier.Compat.PhpSerialize

/-! # What the writer writes, the reader reads

`Encodable room v` collects what a value needs for its text to be read back with
`room` levels of nesting: lengths the reader's `i64` holds, enum classes without a
colon, reference slots from one on. Every encodable value is read back, whatever
follows it, and whatever the reader accepts is encodable.
-/
namespace Rainier.Compat.Php
open Rainier Scan
variable {F : Type}

/-- A length the reader's `i64` holds. -/
def Fits (n : ℕ) : Prop := n < 2 ^ 63

/-! The primitives, one reading lemma each. -/

theorem expect_apply (b : UInt8) (s : Input UInt8) :
    expect b s = (if s.rest.head? = some b then advance 1 else error ("expected `" ++ asChar b ++ "`")) s := rfl

theorem untilByte_apply (stop : UInt8) (s : Input UInt8) :
    untilByte stop s = (match s.rest.idxOf? stop with
      | none => error ("unterminated, expected `" ++ asChar stop ++ "`")
      | some offset => do
        advance (offset + 1)
        return s.rest.take offset) s := rfl

theorem take_apply (n : ℕ) (s : Input UInt8) :
    take n s = (if n > s.rest.length then error "truncated" else do
      advance n
      return s.rest.take n) s := rfl

theorem reads_expect (b : UInt8) (rest : List UInt8) : Reads (expect b) [b] () rest := by
  intro pos
  rw [expect_apply,if_pos (show ([b] ++ rest).head? = some b from rfl)]
  rfl

theorem reads_untilByte {stop : UInt8} {text : List UInt8} (hs : stop ∉ text) (rest : List UInt8) :
    Reads (untilByte stop) (text ++ [stop]) text rest := by
  intro pos
  have hidx : (text ++ [stop] ++ rest).idxOf? stop = some text.length := by
    rw [List.append_assoc,List.idxOf?,List.findIdx?_append,List.findIdx?_eq_none_iff.mpr fun x hx =>
      beq_false_of_ne (ne_of_mem_of_not_mem hx hs)]
    simp [List.findIdx?_cons]
  rw [untilByte_apply,hidx]
  change Except.ok (_,_) = _
  simp

theorem reads_take (bytes rest : List UInt8) : Reads (take bytes.length) bytes bytes rest := by
  intro pos
  rw [take_apply,if_neg (by simp)]
  change Except.ok (_,_) = _
  simp

/-! Numbers. -/

theorem repr_plain (n : ℤ) : ∀ c ∈ n.repr.toList, Text.isDigit c = true ∨ c = '-' := by
  rw [Int.repr_eq_if]
  intro c hc
  split at hc
  · rw [Nat.toList_repr] at hc
    exact .inl (Text.isDigit_of_mem_toDigits hc)
  · rw [String.toList_append,Nat.toList_repr] at hc
    rcases List.mem_append.mp hc with hc | hc
    · exact .inr (by simpa using hc)
    · exact .inl (Text.isDigit_of_mem_toDigits hc)

theorem stripPrefix_of_ne {chars : List Char} {text : String} (h : ∀ c ∈ text.toList.head?, c ∉ chars) :
    stripPrefix chars text = text := by
  unfold stripPrefix
  split
  · rename_i c rest heq
    exact if_neg (h c (by simp [heq]))
  · rfl

/-- What is left of a number once its sign is gone. -/
theorem stripPrefix_sign_repr (n : ℤ) : (stripPrefix ['+','-'] n.repr).toList = Nat.toDigits 10 n.natAbs := by
  cases n with
  | ofNat m =>
    have hds : (Int.ofNat m).repr.toList = Nat.toDigits 10 m := Nat.toList_repr
    rw [stripPrefix_of_ne,hds]
    · rfl
    · intro c hc
      rw [hds] at hc
      have hne := Text.ne_sign_of_isDigit (Text.isDigit_of_mem_toDigits (List.mem_of_mem_head? hc))
      simp [hne]
  | negSucc m =>
    have hds : (Int.negSucc m).repr.toList = '-' :: Nat.toDigits 10 (m + 1) := by
      change ("-" ++ (m + 1).repr).toList = _
      simp
    rw [stripPrefix,hds]
    simp

/-- A number is written without a plus sign. -/
theorem stripPrefix_plus_repr (n : ℤ) : stripPrefix ['+'] n.repr = n.repr := by
  refine stripPrefix_of_ne fun c hc => ?_
  rcases repr_plain n c (List.mem_of_mem_head? hc) with hd | rfl
  · simp [(Text.ne_sign_of_isDigit hd).1]
  · decide

theorem parseInt_repr {n : ℤ} (hlo : Int64.minValue.toInt ≤ n) (hhi : n ≤ Int64.maxValue.toInt) :
    parseInt (Text.asBytes n.repr) = some (Int64.ofInt n) := by
  have hall : (Nat.toDigits 10 n.natAbs).all Text.isDigit = true :=
    List.all_eq_true.mpr fun c hc => Text.isDigit_of_mem_toDigits hc
  rw [parseInt,Text.fromUtf8_asBytes]
  simp only [Option.bind_eq_bind,Option.bind_some,stripPrefix_sign_repr,stripPrefix_plus_repr,Text.parseInt_repr hlo hhi,hall]
  simp

theorem byte_not_mem {s : String} {stop : Char} (hs : ∀ c ∈ s.toList, c.toNat < stop.toNat)
    (hstop : stop.toNat < 128) : byte stop ∉ Text.asBytes s := by
  have hascii := Text.asBytes_ascii fun c hc => Nat.lt_trans (hs c hc) hstop
  rw [String.ofList_toList] at hascii
  rw [hascii]
  intro hmem
  obtain ⟨c,hc,heq⟩ := List.mem_map.mp hmem
  have hlt := hs c hc
  have hcode : c.toNat = stop.toNat := by
    have h := congrArg UInt8.toNat heq
    simp only [byte,Nat.toUInt8,UInt8.toNat_ofNat'] at h
    omega
  omega

/-- Numbers are written in characters below the colon. -/
theorem repr_lt_colon (n : ℤ) : ∀ c ∈ n.repr.toList, c.toNat < 58 := by
  intro c hc
  rcases repr_plain n c hc with hd | rfl
  · exact Nat.lt_succ_of_le (Text.toNat_of_isDigit hd).2
  · decide

/-- The two characters a number is read up to. -/
def Stop (stop : Char) : Prop := stop = ':' ∨ stop = ';'

theorem Stop.range {stop : Char} (h : Stop stop) : 58 ≤ stop.toNat ∧ stop.toNat < 128 := by
  rcases h with rfl | rfl <;> decide

theorem reads_intUntil {stop : Char} (hstop : Stop stop) (n : Int64) (rest : List UInt8) :
    Reads (intUntil (byte stop)) (Text.asBytes n.toInt.repr ++ [byte stop]) n rest := by
  have hnot : byte stop ∉ Text.asBytes n.toInt.repr :=
    byte_not_mem (fun c hc => Nat.lt_of_lt_of_le (repr_lt_colon _ c hc) hstop.range.1) hstop.range.2
  have hparse : parseInt (Text.asBytes n.toInt.repr) = some n := by
    rw [parseInt_repr n.minValue_le_toInt n.toInt_le,Int64.ofInt_toInt]
  refine (reads_untilByte hnot rest).finish ?_
  rw [hparse]
  exact reads_pure n rest

theorem toInt_ofInt_of_fits {n : ℕ} (hn : Fits n) : (Int64.ofInt n).toInt = n := by
  unfold Fits at hn
  exact Int64.toInt_ofInt_of_le (by omega) (by omega)

theorem reads_lengthUntil {stop : Char} (hstop : Stop stop) {n : ℕ} {rest : List UInt8} (hn : Fits n)
    (hrest : n ≤ rest.length) : Reads (lengthUntil (byte stop)) (Text.asBytes n.repr ++ [byte stop]) n rest := by
  have hto := toInt_ofInt_of_fits hn
  have hint := reads_intUntil hstop (Int64.ofInt n) rest
  rw [hto] at hint
  refine Reads.finish hint ?_
  intro pos
  rw [hto,if_neg (by omega),bind_apply]
  change (if (n : ℤ).toNat > ([] ++ rest).length then error "a length longer than the payload"
    else pure (n : ℤ).toNat : Parser ℕ) _ = _
  rw [if_neg (by simpa using hrest)]
  rfl

/-! The shared forms. -/

/-- `len:"bytes"` as text. -/
def quotes (bytes : List UInt8) : List UInt8 :=
  Text.asBytes (len bytes) ++ [byte ':'] ++ ([byte '"'] ++ (bytes ++ [byte '"']))

theorem reads_quoted {bytes : List UInt8} (hb : Fits bytes.length) (rest : List UInt8) :
    Reads quoted (quotes bytes) bytes rest := by
  refine (reads_lengthUntil (.inl rfl) hb ?_).bind ((reads_expect _ _).bind ((reads_take bytes _).bind ?_))
  · simp
    omega
  · exact (reads_expect _ rest).map fun _ => bytes

theorem reads_name {s : String} (hs : Fits (Text.asBytes s).length) (rest : List UInt8) :
    Reads name (quotes (Text.asBytes s)) s rest := by
  refine (reads_quoted hs rest).finish ?_
  rw [Text.fromUtf8_asBytes]
  exact reads_pure s rest

theorem writeString_eq (bytes : List UInt8) :
    writeString bytes = [byte 's'] ++ ([byte ':'] ++ (quotes bytes ++ [byte ';'])) := by
  have hs : Text.asBytes "s:" = [byte 's',byte ':'] := rfl
  have hq : Text.asBytes ":\"" = [byte ':',byte '"'] := rfl
  have he : Text.asBytes "\";" = [byte '"',byte ';'] := rfl
  simp [writeString,quotes,Text.asBytes_append,hs,hq,he]

theorem writeInt_eq (n : Int64) : Text.asBytes ("i:" ++ n.toInt.repr ++ ";") =
    [byte 'i'] ++ ([byte ':'] ++ (Text.asBytes n.toInt.repr ++ [byte ';'])) := by
  have hi : Text.asBytes "i:" = [byte 'i',byte ':'] := rfl
  have he : Text.asBytes ";" = [byte ';'] := rfl
  simp [Text.asBytes_append,hi,he]

theorem reads_peek {β : Type} {f : Option UInt8 → Parser β} {tag : UInt8} {text rest : List UInt8} {b : β}
    (h : Reads (f (some tag)) ([tag] ++ text) b rest) : Reads (peek >>= f) ([tag] ++ text) b rest := by
  intro pos
  rw [bind_apply]
  exact h pos

theorem reads_skip (tag : UInt8) (rest : List UInt8) : Reads (advance 1) [tag] () rest := fun _ => rfl

def KeyFits : Key → Prop
  | .int _ => True
  | .str bytes => Fits bytes.length

theorem reads_key {k : Key} (hk : KeyFits k) (rest : List UInt8) : Reads key (writeKey k) k rest := by
  cases k with
  | int n =>
    rw [writeKey,writeInt_eq]
    refine reads_peek ?_
    dsimp only
    rw [if_pos rfl]
    exact (reads_skip _ _).bind ((reads_expect _ _).bind ((reads_intUntil (.inr rfl) n rest).map Key.int))
  | str bytes =>
    rw [writeKey,writeString_eq]
    refine reads_peek ?_
    dsimp only
    rw [if_neg (by decide),if_pos rfl]
    refine (reads_skip _ _).bind ((reads_expect _ _).bind ((reads_quoted hk _).bind ?_))
    exact (reads_expect _ rest).map fun _ => Key.str bytes

/-- A value is read by its tag's clause. -/
theorem reads_valueBody {t : FloatText F} {inner : Option (Parser (Value F))} {tag : UInt8} {text rest : List UInt8}
    {v : Value F} (htag : tag ≠ byte 'N') (h : Reads (clause t inner tag) text v rest) :
    Reads (valueBody t inner) ([tag] ++ ([byte ':'] ++ text)) v rest := by
  refine reads_peek ?_
  dsimp only
  rw [if_neg htag]
  exact (reads_skip _ _).bind ((reads_expect _ _).bind h)

/-! The clauses, after the colon. -/

theorem reads_boolClause (b : Bool) (rest : List UInt8) :
    Reads boolClause ([byte (if b then '1' else '0')] ++ [byte ';']) (.bool b : Value F) rest := by
  cases b with
  | false =>
    refine (reads_untilByte (by decide) rest).finish ?_
    rw [if_pos (by decide)]
    exact reads_pure _ rest
  | true =>
    refine (reads_untilByte (by decide) rest).finish ?_
    rw [if_neg (by decide),if_pos (by decide)]
    exact reads_pure _ rest

theorem parseFloat_float (t : FloatText F) (f : F64 F) : parseFloat t (Text.asBytes (float t f)) = some f := by
  rw [parseFloat,Text.fromUtf8_asBytes]
  cases f with
  | nan => rfl
  | infinite negative => cases negative <;> rfl
  | finite x =>
    have hplain : ∀ c ∈ (t.display x).toList, Text.isDigit c = true ∨ c = '-' ∨ c = '.' := t.display_plain x
    -- the names all hold an `N`, which no finite number is written with
    have hne : ∀ s : String, 'N' ∈ s.toList → t.display x ≠ s := by
      rintro s hs rfl
      rcases hplain 'N' hs with h | h | h <;> revert h <;> decide
    have hall : (t.display x).toList.all (fun c => Text.isDigit c || "+-.eE".toList.contains c) = true := by
      refine List.all_eq_true.mpr fun c hc => ?_
      rcases hplain c hc with h | rfl | rfl
      · simp [h]
      · decide
      · decide
    have hnil : (t.display x).toList.isEmpty = false := by
      rw [List.isEmpty_eq_false_iff]
      exact fun h => t.display_ne x (String.toList_eq_nil_iff.mp h)
    simp only [Option.bind_eq_bind,Option.bind_some,float]
    rw [if_neg (hne _ (by decide)),if_neg (hne _ (by decide)),if_neg (hne _ (by decide)),
      if_neg (by simp only [hall,hnil]; decide),t.parse_display]

theorem float_not_stop (t : FloatText F) (f : F64 F) : byte ';' ∉ Text.asBytes (float t f) := by
  cases f with
  | nan => simp only [float]; decide
  | infinite negative => cases negative <;> simp only [float] <;> decide
  | finite x =>
    refine byte_not_mem (fun c hc => ?_) (by decide)
    rcases t.display_plain x c hc with h | rfl | rfl
    · exact Nat.lt_of_le_of_lt (Text.toNat_of_isDigit h).2 (by decide)
    · decide
    · decide

theorem reads_floatClause (t : FloatText F) (f : F64 F) (rest : List UInt8) :
    Reads (floatClause t) (Text.asBytes (float t f) ++ [byte ';']) (.float f) rest := by
  refine (reads_untilByte (float_not_stop t f) rest).finish ?_
  rw [parseFloat_float]
  exact reads_pure _ rest

theorem reads_stringClause {bytes : List UInt8} (hb : Fits bytes.length) (rest : List UInt8) :
    Reads stringClause (quotes bytes ++ [byte ';']) (.string bytes : Value F) rest :=
  (reads_quoted hb _).bind ((reads_expect _ rest).map fun _ => Value.string bytes)

theorem reads_customClause {cls : String} {data : List UInt8} (hc : Fits (Text.asBytes cls).length)
    (hd : Fits data.length) (rest : List UInt8) :
    Reads customClause (quotes (Text.asBytes cls) ++ ([byte ':'] ++ (Text.asBytes (len data) ++ [byte ':'] ++
      ([byte '\x7b'] ++ (data ++ [byte '\x7d']))))) (.custom cls data : Value F) rest := by
  refine (reads_name hc _).bind ((reads_expect _ _).bind ((reads_lengthUntil (.inl rfl) hd ?_).bind
    ((reads_expect _ _).bind ((reads_take data _).bind ?_))))
  · simp
    omega
  · exact (reads_expect _ rest).map fun _ => Value.custom cls data

theorem reads_enumClause {cls case : String} (hc : ':' ∉ cls.toList)
    (hn : Fits (Text.asBytes (cls ++ ":" ++ case)).length) (rest : List UInt8) :
    Reads enumClause (quotes (Text.asBytes (cls ++ ":" ++ case)) ++ [byte ';']) (.enum cls case : Value F) rest := by
  refine (reads_name hn _).bind ((reads_expect _ rest).finish ?_)
  have hsplit : Text.splitOnce ':' (cls ++ ":" ++ case) = some (cls,case) := Text.splitOnce_append hc case
  rw [hsplit]
  exact reads_pure _ rest

theorem reads_referenceClause {slot : ℕ} (hs : 0 < slot) (hf : Fits slot) (aliased : Bool) (rest : List UInt8) :
    Reads (referenceClause aliased) (Text.asBytes slot.repr ++ [byte ';']) (.reference slot aliased : Value F) rest := by
  have hto := toInt_ofInt_of_fits hf
  have hint := reads_intUntil (.inr rfl) (Int64.ofInt slot) rest
  rw [hto] at hint
  refine Reads.finish hint ?_
  rw [hto,if_pos (by omega)]
  exact reads_pure _ rest

theorem writeEntries_eq (t : FloatText F) (entries : List (Key × Value F)) :
    writeEntries t entries = entries.flatMap fun e => writeKey e.1 ++ write t e.2 := by
  induction entries with
  | nil => simp [writeEntries]
  | cons e entries ih => simp [writeEntries,ih]

theorem writeProperties_eq (t : FloatText F) (properties : List (Property × Value F)) :
    writeProperties t properties = properties.flatMap fun p => writeString p.1.bytes ++ write t p.2 := by
  induction properties with
  | nil => simp [writeProperties]
  | cons p properties ih => simp [writeProperties,ih]

/-- Each member takes a byte at least, so a count is never longer than the members. -/
theorem length_le_flatMap {β : Type} {f : β → List UInt8} (hf : ∀ b, f b ≠ []) (bs : List β) :
    bs.length ≤ (bs.flatMap f).length := by
  induction bs with
  | nil => simp
  | cons b bs ih =>
    have hb : 0 < (f b).length := List.length_pos_iff.mpr (hf b)
    rw [List.flatMap_cons,List.length_append,List.length_cons]
    omega

theorem writeKey_ne_nil (k : Key) : writeKey k ≠ [] := by
  cases k with
  | int n => simp [writeKey,writeInt_eq]
  | str bytes => simp [writeKey,writeString_eq]

theorem length_le_writeEntries (t : FloatText F) (entries : List (Key × Value F)) :
    entries.length ≤ (writeEntries t entries).length := by
  rw [writeEntries_eq]
  exact length_le_flatMap (fun e => by simp [writeKey_ne_nil]) entries

theorem length_le_writeProperties (t : FloatText F) (properties : List (Property × Value F)) :
    properties.length ≤ (writeProperties t properties).length := by
  rw [writeProperties_eq]
  exact length_le_flatMap (fun p => by simp [writeString_eq]) properties

theorem reads_arrayClause {t : FloatText F} {inner : Parser (Value F)} {entries : List (Key × Value F)}
    (hn : Fits entries.length) (hk : ∀ e ∈ entries, KeyFits e.1)
    (hv : ∀ e ∈ entries, ∀ rest, Reads inner (write t e.2) e.2 rest) (rest : List UInt8) :
    Reads (arrayClause inner) (Text.asBytes entries.length.repr ++ [byte ':'] ++ ([byte '\x7b'] ++
      (writeEntries t entries ++ [byte '\x7d']))) (.array entries) rest := by
  have hentries : ∀ rest, Reads (times (entry inner) entries.length) (writeEntries t entries) entries rest := by
    intro rest
    rw [writeEntries_eq]
    exact Reads.times rest fun e he rest => (reads_key (hk e he) _).bind ((hv e he rest).map (e.1,·))
  refine (reads_lengthUntil (.inl rfl) hn ?_).bind ((reads_expect _ _).bind ((hentries _).bind ?_))
  · have hle := length_le_writeEntries t entries
    simp
    omega
  · exact (reads_expect _ rest).map fun _ => Value.array entries

theorem reads_objectClause {t : FloatText F} {inner : Parser (Value F)} {cls : String}
    {properties : List (Property × Value F)} (hc : Fits (Text.asBytes cls).length) (hn : Fits properties.length)
    (hk : ∀ p ∈ properties, Fits p.1.bytes.length)
    (hv : ∀ p ∈ properties, ∀ rest, Reads inner (write t p.2) p.2 rest) (rest : List UInt8) :
    Reads (objectClause inner) (quotes (Text.asBytes cls) ++ ([byte ':'] ++ (Text.asBytes properties.length.repr ++
      [byte ':'] ++ ([byte '\x7b'] ++ (writeProperties t properties ++ [byte '\x7d'])))))
      (.object cls properties) rest := by
  have hproperties : ∀ rest,
      Reads (times (property inner) properties.length) (writeProperties t properties) properties rest := by
    intro rest
    rw [writeProperties_eq]
    exact Reads.times rest fun p hp rest =>
      (reads_key (k := .str p.1.bytes) (hk p hp) _).bind ((hv p hp rest).map (p.1,·))
  refine (reads_name hc _).bind ((reads_expect _ _).bind ((reads_lengthUntil (.inl rfl) hn ?_).bind
    ((reads_expect _ _).bind ((hproperties _).bind ?_))))
  · have hle := length_le_writeProperties t properties
    simp
    omega
  · exact (reads_expect _ rest).map fun _ => Value.object cls properties

/-! Whole values. -/

/-- What a value needs to be read back where `room` levels may nest. -/
inductive Encodable : ℕ → Value F → Prop where
  | null (room : ℕ) : Encodable room .null
  | bool (room : ℕ) (b : Bool) : Encodable room (.bool b)
  | int (room : ℕ) (n : Int64) : Encodable room (.int n)
  | float (room : ℕ) (f : F64 F) : Encodable room (.float f)
  | string (room : ℕ) {bytes : List UInt8} (hb : Fits bytes.length) : Encodable room (.string bytes)
  | array {room : ℕ} {entries : List (Key × Value F)} (hn : Fits entries.length)
      (hk : ∀ e ∈ entries, KeyFits e.1) (hv : ∀ e ∈ entries, Encodable room e.2) :
      Encodable (room + 1) (.array entries)
  | object {room : ℕ} {cls : String} {properties : List (Property × Value F)}
      (hc : Fits (Text.asBytes cls).length) (hn : Fits properties.length)
      (hk : ∀ p ∈ properties, Fits p.1.bytes.length) (hv : ∀ p ∈ properties, Encodable room p.2) :
      Encodable (room + 1) (.object cls properties)
  | custom (room : ℕ) {cls : String} {data : List UInt8} (hc : Fits (Text.asBytes cls).length)
      (hd : Fits data.length) : Encodable room (.custom cls data)
  | enum (room : ℕ) {cls case : String} (hc : ':' ∉ cls.toList)
      (hn : Fits (Text.asBytes (cls ++ ":" ++ case)).length) : Encodable room (.enum cls case)
  | reference (room : ℕ) {slot : ℕ} (aliased : Bool) (hs : 0 < slot) (hf : Fits slot) :
      Encodable room (.reference slot aliased)

/-- What `value` reads nested values with. -/
def innerOf (t : FloatText F) : ℕ → Option (Parser (Value F))
  | 0 => none
  | room + 1 => some (value t room)

theorem value_eq (t : FloatText F) (room : ℕ) : value t room = valueBody t (innerOf t room) := by
  cases room <;> rfl

/-- A value written as its tag, a colon and a text its clause reads. -/
theorem reads_value {t : FloatText F} {room : ℕ} (tag : UInt8) {text written rest : List UInt8} {v : Value F}
    (hw : written = [tag] ++ ([byte ':'] ++ text)) (htag : tag ≠ byte 'N')
    (h : Reads (clause t (innerOf t room) tag) text v rest) : Reads (value t room) written v rest := by
  rw [value_eq,hw]
  exact reads_valueBody htag h

/-! Every value but null is written as its tag, a colon and the text of its clause. -/

section Written

variable (t : FloatText F)

theorem write_bool (b : Bool) :
    write t (.bool b) = [byte 'b'] ++ ([byte ':'] ++ ([byte (if b then '1' else '0')] ++ [byte ';'])) := by
  cases b <;> (rw [write]; decide)

theorem write_float (f : F64 F) :
    write t (.float f) = [byte 'd'] ++ ([byte ':'] ++ (Text.asBytes (float t f) ++ [byte ';'])) := by
  have hd : Text.asBytes "d:" = [byte 'd',byte ':'] := rfl
  have he : Text.asBytes ";" = [byte ';'] := rfl
  simp [write,Text.asBytes_append,hd,he]

theorem write_array (entries : List (Key × Value F)) : write t (.array entries) = [byte 'a'] ++ ([byte ':'] ++
    (Text.asBytes entries.length.repr ++ [byte ':'] ++ ([byte '\x7b'] ++ (writeEntries t entries ++ [byte '\x7d'])))) := by
  have ha : Text.asBytes "a:" = [byte 'a',byte ':'] := rfl
  have hb : Text.asBytes ":\x7b" = [byte ':',byte '\x7b'] := rfl
  simp [write,Text.asBytes_append,ha,hb]

theorem write_object (cls : String) (properties : List (Property × Value F)) :
    write t (.object cls properties) = [byte 'O'] ++ ([byte ':'] ++ (quotes (Text.asBytes cls) ++ ([byte ':'] ++
      (Text.asBytes properties.length.repr ++ [byte ':'] ++ ([byte '\x7b'] ++
        (writeProperties t properties ++ [byte '\x7d'])))))) := by
  have ho : Text.asBytes "O:" = [byte 'O',byte ':'] := rfl
  have hq : Text.asBytes ":\"" = [byte ':',byte '"'] := rfl
  have hu : Text.asBytes "\":" = [byte '"',byte ':'] := rfl
  have hb : Text.asBytes ":\x7b" = [byte ':',byte '\x7b'] := rfl
  simp [write,quotes,Text.asBytes_append,ho,hq,hu,hb]

theorem write_custom (cls : String) (data : List UInt8) :
    write t (.custom cls data) = [byte 'C'] ++ ([byte ':'] ++ (quotes (Text.asBytes cls) ++ ([byte ':'] ++
      (Text.asBytes (len data) ++ [byte ':'] ++ ([byte '\x7b'] ++ (data ++ [byte '\x7d'])))))) := by
  have hc : Text.asBytes "C:" = [byte 'C',byte ':'] := rfl
  have hq : Text.asBytes ":\"" = [byte ':',byte '"'] := rfl
  have hu : Text.asBytes "\":" = [byte '"',byte ':'] := rfl
  have hb : Text.asBytes ":\x7b" = [byte ':',byte '\x7b'] := rfl
  simp [write,quotes,Text.asBytes_append,hc,hq,hu,hb]

theorem write_enum (cls case : String) : write t (.enum cls case) =
    [byte 'E'] ++ ([byte ':'] ++ (quotes (Text.asBytes (cls ++ ":" ++ case)) ++ [byte ';'])) := by
  have he : Text.asBytes "E:" = [byte 'E',byte ':'] := rfl
  have hc : Text.asBytes ":" = [byte ':'] := rfl
  have hq : Text.asBytes ":\"" = [byte ':',byte '"'] := rfl
  have hu : Text.asBytes "\";" = [byte '"',byte ';'] := rfl
  simp [write,quotes,Text.asBytes_append,he,hc,hq,hu]

theorem write_reference (slot : ℕ) (aliased : Bool) : write t (.reference slot aliased) =
    [byte (if aliased then 'R' else 'r')] ++ ([byte ':'] ++ (Text.asBytes slot.repr ++ [byte ';'])) := by
  have hr : Text.asBytes "r:" = [byte 'r',byte ':'] := rfl
  have hR : Text.asBytes "R:" = [byte 'R',byte ':'] := rfl
  have he : Text.asBytes ";" = [byte ';'] := rfl
  cases aliased
  · simp [write,Text.asBytes_append,hr,he]
  · simp [write,Text.asBytes_append,hR,he]

end Written

theorem reads_write {t : FloatText F} {room : ℕ} {v : Value F} (h : Encodable room v) :
    ∀ rest, Reads (value t room) (write t v) v rest := by
  induction h with
  | null room =>
    intro rest
    rw [value_eq,write,show Text.asBytes "N;" = [byte 'N'] ++ [byte ';'] from rfl]
    refine reads_peek ?_
    dsimp only
    rw [if_pos rfl]
    exact (reads_skip _ _).bind ((reads_expect _ rest).map fun _ => Value.null)
  | bool room b =>
    intro rest
    exact reads_value (byte 'b') (write_bool t b) (by decide) (reads_boolClause b rest)
  | int room n =>
    intro rest
    refine reads_value (byte 'i') ?_ (by decide) ((reads_intUntil (.inr rfl) n rest).map Value.int)
    rw [write,writeInt_eq]
  | float room f =>
    intro rest
    exact reads_value (byte 'd') (write_float t f) (by decide) (reads_floatClause t f rest)
  | string room hb =>
    intro rest
    refine reads_value (byte 's') ?_ (by decide) (reads_stringClause hb rest)
    rw [write,writeString_eq]
  | array hn hk _ ih =>
    intro rest
    exact reads_value (byte 'a') (write_array t _) (by decide) (reads_arrayClause hn hk ih rest)
  | object hc hn hk _ ih =>
    intro rest
    exact reads_value (byte 'O') (write_object t _ _) (by decide) (reads_objectClause hc hn hk ih rest)
  | custom room hc hd =>
    intro rest
    exact reads_value (byte 'C') (write_custom t _ _) (by decide) (reads_customClause hc hd rest)
  | enum room hc hn =>
    intro rest
    exact reads_value (byte 'E') (write_enum t _ _) (by decide) (reads_enumClause hc hn rest)
  | reference room aliased hs hf =>
    intro rest
    cases aliased with
    | false => exact reads_value (byte 'r') (write_reference t _ false) (by decide) (reads_referenceClause hs hf false rest)
    | true => exact reads_value (byte 'R') (write_reference t _ true) (by decide) (reads_referenceClause hs hf true rest)

theorem unserializeWith_serialize {t : FloatText F} {limits : Limits} {v : Value F}
    (h : Encodable limits.maxDepth v) : unserializeWith t (serialize t v) limits = .ok v := by
  have hdoc : Reads (document t limits) (write t v) v [] := by
    refine (reads_write h []).finish ?_
    intro pos
    rfl
  have hrun := hdoc 0
  rw [List.append_nil] at hrun
  rw [unserializeWith,serialize,hrun]
  rfl

/-! From what a value holds to its being encodable. -/

mutual
/-- How deep arrays and objects nest. -/
def depth : Value F → ℕ
  | .array entries => depthEntries entries + 1
  | .object _ properties => depthProperties properties + 1
  | _ => 0

def depthEntries : List (Key × Value F) → ℕ
  | [] => 0
  | (_,value) :: rest => max (depth value) (depthEntries rest)

def depthProperties : List (Property × Value F) → ℕ
  | [] => 0
  | (_,value) :: rest => max (depth value) (depthProperties rest)
end

/-- `w` is `v` or stands somewhere inside it. -/
inductive Occurs (w : Value F) : Value F → Prop where
  | here : Occurs w w
  | entry {entries : List (Key × Value F)} {e : Key × Value F} (he : e ∈ entries) (h : Occurs w e.2) :
      Occurs w (.array entries)
  | property {cls : String} {properties : List (Property × Value F)} {p : Property × Value F}
      (hp : p ∈ properties) (h : Occurs w p.2) : Occurs w (.object cls properties)

theorem depth_le_depthEntries {entries : List (Key × Value F)} {e : Key × Value F} (he : e ∈ entries) :
    depth e.2 ≤ depthEntries entries := by
  induction entries with
  | nil => simp at he
  | cons e' entries ih =>
    rw [depthEntries]
    rcases List.mem_cons.mp he with rfl | he
    · exact Nat.le_max_left _ _
    · exact Nat.le_trans (ih he) (Nat.le_max_right _ _)

theorem depth_le_depthProperties {properties : List (Property × Value F)} {p : Property × Value F}
    (hp : p ∈ properties) : depth p.2 ≤ depthProperties properties := by
  induction properties with
  | nil => simp at hp
  | cons p' properties ih =>
    rw [depthProperties]
    rcases List.mem_cons.mp hp with rfl | hp
    · exact Nat.le_max_left _ _
    · exact Nat.le_trans (ih hp) (Nat.le_max_right _ _)

/-- Nothing written inside a text is longer than the text. -/
theorem fits_of_mem {β : Type} {f g : β → List UInt8} {bs : List β} {b : β} (hb : b ∈ bs)
    (h : Fits (bs.flatMap fun b => f b ++ g b).length) : Fits (f b).length ∧ Fits (g b).length := by
  obtain ⟨l,r,rfl⟩ := List.append_of_mem hb
  simp only [List.flatMap_append,List.flatMap_cons,List.length_append] at h
  unfold Fits at h ⊢
  omega

theorem length_le_writeString (bytes : List UInt8) : bytes.length ≤ (writeString bytes).length := by
  simp [writeString]
  omega

theorem KeyFits.of_writeKey {k : Key} (h : Fits (writeKey k).length) : KeyFits k := by
  cases k with
  | int n => trivial
  | str bytes => exact Nat.lt_of_le_of_lt (length_le_writeString bytes) h

theorem encodable_of_written (t : FloatText F) (room : ℕ) (v : Value F) (hd : depth v ≤ room)
    (he : ∀ cls case, Occurs (.enum cls case) v → ':' ∉ cls.toList)
    (hr : ∀ slot aliased, Occurs (.reference slot aliased) v → 1 ≤ slot ∧ Fits slot)
    (hl : Fits (write t v).length) : Encodable room v := by
  -- one level of nesting uses up one of `room`
  induction room using Nat.strongRecOn generalizing v with
  | ind room ih =>
    unfold Fits at hl
    cases v with
    | null => exact .null room
    | bool b => exact .bool room b
    | int n => exact .int room n
    | float f => exact .float room f
    | string bytes => exact .string room (Nat.lt_of_le_of_lt (length_le_writeString bytes) hl)
    | array entries =>
      rw [depth] at hd
      obtain ⟨room,rfl⟩ : ∃ r, room = r + 1 := ⟨room - 1,by omega⟩
      rw [write] at hl
      simp only [List.length_append] at hl
      have hcount := length_le_writeEntries t entries
      have hentries : Fits (writeEntries t entries).length := by unfold Fits; omega
      rw [writeEntries_eq] at hentries
      refine .array (by unfold Fits; omega) (fun e hm => ?_) fun e hm => ih room (by omega) e.2 ?_ ?_ ?_ ?_
      · exact KeyFits.of_writeKey (fits_of_mem hm hentries).1
      · exact Nat.le_trans (depth_le_depthEntries hm) (by omega)
      · exact fun cls case h => he cls case (.entry hm h)
      · exact fun slot aliased h => hr slot aliased (.entry hm h)
      · exact (fits_of_mem hm hentries).2
    | object cls properties =>
      rw [depth] at hd
      obtain ⟨room,rfl⟩ : ∃ r, room = r + 1 := ⟨room - 1,by omega⟩
      rw [write] at hl
      simp only [List.length_append,Text.asBytes_append] at hl
      have hcount := length_le_writeProperties t properties
      have hproperties : Fits (writeProperties t properties).length := by unfold Fits; omega
      rw [writeProperties_eq] at hproperties
      refine .object (by unfold Fits; omega) (by unfold Fits; omega) (fun p hm => ?_)
        fun p hm => ih room (by omega) p.2 ?_ ?_ ?_ ?_
      · exact Nat.lt_of_le_of_lt (length_le_writeString p.1.bytes) (fits_of_mem hm hproperties).1
      · exact Nat.le_trans (depth_le_depthProperties hm) (by omega)
      · exact fun cls case h => he cls case (.property hm h)
      · exact fun slot aliased h => hr slot aliased (.property hm h)
      · exact (fits_of_mem hm hproperties).2
    | custom cls data =>
      simp only [write,List.length_append,Text.asBytes_append] at hl
      exact .custom room (by unfold Fits; omega) (by unfold Fits; omega)
    | enum cls case =>
      refine .enum room (he cls case .here) ?_
      simp only [write,List.length_append,Text.asBytes_append] at hl ⊢
      unfold Fits
      omega
    | reference slot aliased => exact .reference room aliased (hr slot aliased .here).1 (hr slot aliased .here).2

/-- A value nested no deeper than the limit, whose enum classes hold no colon and whose
references name a slot an `i64` holds, is read back from its own text. The text is a
`Vec<u8>`, which never holds more than `isize::MAX` bytes. -/
theorem serialize_round_trip (t : FloatText F) (limits : Limits) (v : Value F) (hd : depth v ≤ limits.maxDepth)
    (he : ∀ cls case, Occurs (.enum cls case) v → ':' ∉ cls.toList)
    (hr : ∀ slot aliased, Occurs (.reference slot aliased) v → 1 ≤ slot ∧ slot ≤ 2 ^ 63 - 1)
    (hl : (serialize t v).length ≤ 2 ^ 63 - 1) : unserializeWith t (serialize t v) limits = .ok v := by
  refine unserializeWith_serialize (encodable_of_written t limits.maxDepth v hd he (fun slot aliased h => ?_) ?_)
  · obtain ⟨h1,h2⟩ := hr slot aliased h
    exact ⟨h1,by unfold Fits; omega⟩
  · rw [serialize] at hl
    unfold Fits
    omega

/-- One half, as the standard library writes and reads it. -/
def oneHalf : FloatText Unit where
  display _ := "0.5"
  parse text := if text = "0.5" then some (.finite ()) else none
  display_ne _ := by decide
  display_plain _ c hc := by
    have hall : "0.5".toList.all (fun c => Text.isDigit c || c = '-' || c = '.') = true := by decide
    simpa [or_assoc] using List.all_eq_true.mp hall c hc
  parse_display _ := rfl

/-- A key of quotes and semicolons, an enum case and an alias, at the depth limit. -/
def awkward : Value Unit :=
  .array [(.str [byte '"',byte ';',byte '\x7d'],.float (.finite ())),(.int (-7),.enum "Suit" "Hearts"),
    (.int 0,.reference 1 true)]

theorem awkward_round_trip : unserializeWith oneHalf (serialize oneHalf awkward) ⟨1⟩ = .ok awkward := by
  refine serialize_round_trip oneHalf ⟨1⟩ awkward (by decide) ?_ ?_ (by decide)
  · intro cls case h
    cases h with
    | entry he h =>
      simp only [List.mem_cons,List.not_mem_nil,or_false] at he
      rcases he with rfl | rfl | rfl <;> cases h
      decide
  · intro slot aliased h
    cases h with
    | entry he h =>
      simp only [List.mem_cons,List.not_mem_nil,or_false] at he
      rcases he with rfl | rfl | rfl <;> cases h
      decide

/-! What the reader accepts. -/

theorem yields_error {β : Type} (what : String) (P : β → Prop) : Yields (error what) P := by
  intro s b s' h
  cases h

theorem yields_lengthUntil (stop : UInt8) : Yields (lengthUntil stop) Fits := by
  refine .after fun n => ?_
  have hlt := n.toInt_lt
  split
  · exact yields_error _ _
  · refine .after fun left => ?_
    split
    · exact yields_error _ _
    · exact yields_pure (by unfold Fits; omega)

theorem yields_take (n : ℕ) : Yields (take n) (·.length = n) := by
  refine .after fun s => ?_
  split
  · exact yields_error _ _
  · exact .after fun _ => yields_pure (by rw [List.length_take]; omega)

theorem yields_quoted : Yields quoted fun bytes => Fits bytes.length := by
  refine (yields_lengthUntil _).bind fun n hn => .after fun _ => (yields_take n).bind fun bytes hb => .after fun _ => ?_
  exact yields_pure (by rw [hb]; exact hn)

theorem yields_name : Yields name fun s => Fits (Text.asBytes s).length := by
  refine yields_quoted.bind fun bytes hb => ?_
  split
  · rename_i s hs
    exact yields_pure (by rw [Text.asBytes_of_fromUtf8 hs]; exact hb)
  · exact yields_error _ _

theorem yields_key : Yields key KeyFits := by
  refine .after fun tag => ?_
  split
  · split
    · exact .after fun _ => .after fun _ => .after fun n => yields_pure trivial
    · split
      · exact .after fun _ => .after fun _ => yields_quoted.bind fun bytes hb => .after fun _ => yields_pure hb
      · exact yields_error _ _
  · exact yields_error _ _

/-- An integer property name is a short text. -/
theorem length_asBytes_repr (n : Int64) : Fits (Text.asBytes n.toInt.repr).length := by
  have hascii := Text.asBytes_ascii fun c hc => Nat.lt_trans (repr_lt_colon n.toInt c hc) (by decide)
  have hdigits : ∀ m : ℕ, m ≤ 2 ^ 63 → (Nat.toDigits 10 m).length ≤ 19 := fun m hm =>
    (Nat.length_toDigits_le_iff (by decide) (by decide)).mpr (Nat.lt_of_le_of_lt hm (by decide))
  have hlo := n.le_toInt
  have hhi := n.toInt_lt
  rw [String.ofList_toList] at hascii
  rw [hascii,List.length_map,Int.repr_eq_if]
  unfold Fits
  split
  · rw [Nat.toList_repr]
    have := hdigits n.toInt.toNat (by omega)
    omega
  · rw [String.toList_append,Nat.toList_repr,List.length_append]
    have := hdigits (-n.toInt).toNat (by omega)
    have hsign : ("-".toList).length = 1 := rfl
    omega

theorem propertyName_fits {k : Key} (hk : KeyFits k) : Fits (propertyName k).bytes.length := by
  cases k with
  | int n => exact length_asBytes_repr n
  | str bytes => exact hk

theorem yields_enumClause (room : ℕ) : Yields enumClause (Encodable (F := F) room) := by
  refine yields_name.bind fun s hs => .after fun _ => ?_
  split
  · rename_i cls case hsplit
    obtain ⟨hc,rfl⟩ := Text.splitOnce_eq_some hsplit
    exact yields_pure (.enum room hc hs)
  · exact yields_error _ _

theorem yields_referenceClause (room : ℕ) (aliased : Bool) :
    Yields (referenceClause aliased) (Encodable (F := F) room) := by
  refine .after fun n => ?_
  have hlt := n.toInt_lt
  split
  · exact yields_pure (.reference room aliased (by omega) (by unfold Fits; omega))
  · exact yields_error _ _

theorem yields_arrayClause {inner : Parser (Value F)} {room : ℕ} (hi : Yields inner (Encodable room)) :
    Yields (arrayClause inner) (Encodable (room + 1)) := by
  have hentry : Yields (entry inner) fun e => KeyFits e.1 ∧ Encodable room e.2 :=
    yields_key.bind fun k hk => hi.bind fun v hv => yields_pure ⟨hk,hv⟩
  refine (yields_lengthUntil _).bind fun n hn => .after fun _ => (hentry.times n).bind fun entries he => .after fun _ => ?_
  exact yields_pure (.array (by rw [he.1]; exact hn) (fun e hm => (he.2 e hm).1) fun e hm => (he.2 e hm).2)

theorem yields_objectClause {inner : Parser (Value F)} {room : ℕ} (hi : Yields inner (Encodable room)) :
    Yields (objectClause inner) (Encodable (room + 1)) := by
  have hproperty : Yields (property inner) fun p => Fits p.1.bytes.length ∧ Encodable room p.2 :=
    yields_key.bind fun k hk => hi.bind fun v hv => yields_pure ⟨propertyName_fits hk,hv⟩
  refine yields_name.bind fun cls hc => .after fun _ => (yields_lengthUntil _).bind fun n hn => .after fun _ =>
    (hproperty.times n).bind fun properties hp => .after fun _ => ?_
  exact yields_pure (.object hc (by rw [hp.1]; exact hn) (fun p hm => (hp.2 p hm).1) fun p hm => (hp.2 p hm).2)

/-- A nested value is read with one level less, and not at all where none is left. -/
theorem yields_deeper {t : FloatText F} {room : ℕ} {container : Parser (Value F) → Parser (Value F)}
    (ih : ∀ r < room, Yields (value t r) (Encodable r))
    (hc : ∀ {inner : Parser (Value F)} {r : ℕ}, Yields inner (Encodable r) → Yields (container inner) (Encodable (r + 1))) :
    Yields (deeper (innerOf t room) container) (Encodable room) := by
  cases room with
  | zero => exact yields_error _ _
  | succ room => exact hc (ih room (Nat.lt_succ_self room))

theorem yields_clause {t : FloatText F} {room : ℕ} (ih : ∀ r < room, Yields (value t r) (Encodable r)) (tag : UInt8) :
    Yields (clause t (innerOf t room) tag) (Encodable room) := by
  unfold clause
  refine .ite ?_ ?_
  · refine .after fun text => .ite ?_ (.ite ?_ ?_)
    · exact yields_pure (.bool room false)
    · exact yields_pure (.bool room true)
    · exact yields_error _ _
  refine .ite ?_ ?_
  · exact .after fun n => yields_pure (.int room n)
  refine .ite ?_ ?_
  · refine .after fun text => ?_
    split
    · rename_i f _
      exact yields_pure (.float room f)
    · exact yields_error _ _
  refine .ite ?_ ?_
  · exact yields_quoted.bind fun bytes hb => .after fun _ => yields_pure (.string room hb)
  refine .ite ?_ ?_
  · exact yields_deeper ih yields_arrayClause
  refine .ite ?_ ?_
  · exact yields_deeper ih yields_objectClause
  refine .ite ?_ ?_
  · refine yields_name.bind fun cls hc => .after fun _ => (yields_lengthUntil _).bind fun n hn => .after fun _ =>
      (yields_take n).bind fun data hd => .after fun _ => yields_pure (.custom room hc ?_)
    rw [hd]
    exact hn
  refine .ite ?_ ?_
  · exact yields_enumClause room
  refine .ite ?_ ?_
  · exact yields_referenceClause room false
  refine .ite ?_ ?_
  · exact yields_referenceClause room true
  · exact yields_error _ _

theorem yields_value (t : FloatText F) (room : ℕ) : Yields (value t room) (Encodable room) := by
  induction room using Nat.strongRecOn with
  | ind room ih =>
    rw [value_eq]
    refine .after fun tag => ?_
    split
    · exact yields_error _ _
    · refine .after fun _ => ?_
      split
      · exact .after fun _ => yields_pure (.null room)
      · exact .after fun _ => yields_clause ih _

theorem encodable_of_unserializeWith {t : FloatText F} {input : List UInt8} {limits : Limits} {v : Value F}
    (h : unserializeWith t input limits = .ok v) : Encodable limits.maxDepth v := by
  have hdoc : Yields (document t limits) (Encodable limits.maxDepth) := by
    refine (yields_value t limits.maxDepth).bind fun v hv => .after fun left => ?_
    split
    · exact yields_error _ _
    · exact yields_pure hv
  rw [unserializeWith] at h
  cases hrun : document t limits ⟨0,input⟩ with
  | error e => simp [hrun,Except.map] at h
  | ok r =>
    rw [hrun] at h
    cases h
    exact hdoc _ r.1 r.2 hrun

/-- Whatever spelling was accepted, the value read is written as a text that reads as it
again. -/
theorem accepted_round_trip (t : FloatText F) (input : List UInt8) (limits : Limits) (v : Value F)
    (h : unserializeWith t input limits = .ok v) : unserializeWith t (serialize t v) limits = .ok v :=
  unserializeWith_serialize (encodable_of_unserializeWith h)

/-- An integer property name, a plus sign and a leading zero: none of it is written back. -/
def loose : List UInt8 := Text.asBytes "O:+01:\"A\":1:\x7bi:-07;d:0.5;\x7d"

theorem loose_round_trip :
    unserializeWith oneHalf loose {} = .ok (.object "A" [(⟨Text.asBytes "-7"⟩,.float (.finite ()))]) ∧
      unserializeWith oneHalf (serialize oneHalf (.object "A" [(⟨Text.asBytes "-7"⟩,.float (.finite ()))])) {} =
        .ok (.object "A" [(⟨Text.asBytes "-7"⟩,.float (.finite ()))]) :=
  ⟨rfl,accepted_round_trip oneHalf loose {} _ rfl⟩

end Rainier.Compat.Php
