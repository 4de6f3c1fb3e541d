import Mathlib.Data.Int.Notation
import Mathlib.Data.List.Basic
import Mathlib.Data.List.TakeWhile

/-! # Text as the standard library reads it -/
namespace Rainier.Text

/-- `char::is_whitespace`: the characters with the Unicode `White_Space` property. -/
def isWhitespace (c : Char) : Bool :=
  (0x09 ≤ c.toNat && c.toNat ≤ 0x0D) || (0x2000 ≤ c.toNat && c.toNat ≤ 0x200A) ||
    [0x20, 0x85, 0xA0, 0x1680, 0x2028, 0x2029, 0x202F, 0x205F, 0x3000].contains c.toNat

/-- `str::trim`. -/
def trim (s : String) : String :=
  String.ofList ((s.toList.dropWhile isWhitespace).reverse.dropWhile isWhitespace).reverse

def isDigit (c : Char) : Bool := '0' ≤ c && c ≤ '9'

/-- A nonempty run of decimal digits. -/
def digits (cs : List Char) : Option ℕ :=
  if cs.isEmpty || !cs.all isDigit then none
  else some (cs.foldl (fun n c => 10 * n + (c.toNat - '0'.toNat)) 0)

/-- `str::parse` into an integer type with the given bounds: an optional sign,
then digits, and an error out of range. -/
def parseInt (lo hi : ℤ) (s : String) : Option ℤ :=
  let value : Option ℤ := match s.toList with
    | '+' :: rest => (digits rest).map Int.ofNat
    | '-' :: rest => (digits rest).map (fun n => -Int.ofNat n)
    | cs => (digits cs).map Int.ofNat
  value.filter (fun n => lo ≤ n && n ≤ hi)

/-- `str::parse` into an unsigned type: no minus sign is accepted. -/
def parseUInt (hi : ℕ) (s : String) : Option ℕ :=
  let value : Option ℕ := match s.toList with
    | '+' :: rest => digits rest
    | cs => digits cs
  value.filter (· ≤ hi)

/-- `str::split_once` at a character. -/
def splitOnce (sep : Char) (s : String) : Option (String × String) :=
  match s.toList.dropWhile (· ≠ sep) with
  | [] => none
  | _ :: after => some (String.ofList (s.toList.takeWhile (· ≠ sep)),String.ofList after)

/-- `str::strip_prefix`. -/
def stripPrefix (start s : String) : Option String :=
  if start.toList <+: s.toList then some (String.ofList (s.toList.drop start.toList.length)) else none

/-- `str::as_bytes`: the UTF-8 encoding. -/
def asBytes (s : String) : List UInt8 := s.toByteArray.data.toList

/-- `String::from_utf8`. -/
def fromUtf8 (bytes : List UInt8) : Option String := String.fromUTF8? ⟨bytes.toArray⟩

/-- The continuation bytes a sequence with this first byte has, if any has it. -/
def utf8Tail (first : UInt8) : Option ℕ :=
  if first < 0x80 then some 0
  else if 0xC2 ≤ first ∧ first ≤ 0xDF then some 1
  else if 0xE0 ≤ first ∧ first ≤ 0xEF then some 2
  else if 0xF0 ≤ first ∧ first ≤ 0xF4 then some 3
  else none

/-- Whether the byte may come second: overlong forms, surrogates and what is above the
last code point are refused here. -/
def utf8Second (first second : UInt8) : Bool :=
  (if first = 0xE0 then 0xA0 else if first = 0xF0 then 0x90 else 0x80) ≤ second &&
    second ≤ (if first = 0xED then 0x9F else if first = 0xF4 then 0x8F else 0xBF)

/-- The bytes of `rest` that go on with the sequence `first` begins. -/
def utf8Sequence (first : UInt8) (rest : List UInt8) (tail : ℕ) : List UInt8 :=
  match rest with
  | [] => []
  | second :: more =>
    if tail = 0 ∨ ¬ utf8Second first second then []
    else second :: (more.take (tail - 1)).takeWhile fun b => 0x80 ≤ b && b ≤ 0xBF

/-- One character after the other, a replacement character for each sequence that breaks off. -/
def lossyChars : ℕ → List UInt8 → List Char
  | 0, _ | _, [] => []
  | fuel + 1, first :: rest =>
    let sequence := utf8Sequence first rest ((utf8Tail first).getD 0)
    let c := if utf8Tail first = some sequence.length then
        Char.ofNat (sequence.foldl (fun n b => n * 64 + b.toNat % 64)
          (first.toNat % (if sequence.length = 0 then 128 else 2 ^ (6 - sequence.length))))
      else '\uFFFD'
    c :: lossyChars fuel (rest.drop sequence.length)

/-- `String::from_utf8_lossy`. -/
def fromUtf8Lossy (bytes : List UInt8) : String :=
  (fromUtf8 bytes).getD (String.ofList (lossyChars bytes.length bytes))

theorem fromUtf8_asBytes (s : String) : fromUtf8 (asBytes s) = some s := by
  change String.fromUTF8? s.toByteArray = some s
  rw [String.fromUTF8?,dif_pos s.isValidUTF8]
  rfl

theorem asBytes_of_fromUtf8 {bytes : List UInt8} {s : String} (h : fromUtf8 bytes = some s) : asBytes s = bytes := by
  rw [fromUtf8,String.fromUTF8?] at h
  split at h
  · cases h
    rfl
  · cases h

theorem fromUtf8Lossy_asBytes (s : String) : fromUtf8Lossy (asBytes s) = s := by
  rw [fromUtf8Lossy,fromUtf8_asBytes,Option.getD_some]

theorem fromUtf8Lossy_ne_empty {bytes : List UInt8} (h : bytes ≠ []) : fromUtf8Lossy bytes ≠ "" := by
  rw [fromUtf8Lossy]
  cases hs : fromUtf8 bytes with
  | some s =>
    intro hempty
    rw [Option.getD_some] at hempty
    subst hempty
    exact h (asBytes_of_fromUtf8 hs).symm
  | none =>
    obtain ⟨first,rest,rfl⟩ := List.exists_cons_of_ne_nil h
    intro hempty
    have hnil := String.toList_inj.mpr hempty
    rw [Option.getD_none,String.toList_ofList] at hnil
    cases hnil

theorem asBytes_append (s t : String) : asBytes (s ++ t) = asBytes s ++ asBytes t := by
  simp [asBytes,String.toByteArray_append]

theorem asBytes_cons (c : Char) (cs : List Char) :
    asBytes (String.ofList (c :: cs)) = String.utf8EncodeChar c ++ asBytes (String.ofList cs) := by
  simp [asBytes,List.utf8Encode]

theorem asBytes_ascii {cs : List Char} (hcs : ∀ c ∈ cs, c.toNat < 128) :
    asBytes (String.ofList cs) = cs.map fun c => c.toNat.toUInt8 := by
  induction cs with
  | nil => rfl
  | cons c cs ih =>
    have hc : c.val.toNat ≤ 127 := Nat.lt_succ_iff.mp (hcs c (by simp))
    rw [asBytes_cons,ih fun c' hc' => hcs c' (List.mem_cons_of_mem c hc'),String.utf8EncodeChar,
      if_pos hc]
    rfl

/-- A character of one byte is in the bytes of no other character. -/
theorem eq_of_mem_utf8EncodeChar {a c : Char} (ha : a.toNat < 128) (h : a.toNat.toUInt8 ∈ String.utf8EncodeChar c) : a = c := by
  have hbyte : a.toNat.toUInt8.toNat = a.toNat := by
    rw [Nat.toUInt8_eq,UInt8.toNat_ofNat']
    omega
  rw [String.utf8EncodeChar] at h
  split_ifs at h with hone
  · have heq := congrArg UInt8.toNat (List.mem_singleton.1 h)
    rw [hbyte,UInt8.toNat_ofNat',Nat.mod_eq_of_lt (by omega)] at heq
    exact Char.toNat_inj.1 heq
  -- The other bytes are 128 or more.
  all_goals
    simp only [List.mem_cons,List.not_mem_nil,or_false,← UInt8.toNat_inj,hbyte,UInt8.toNat_ofNat'] at h
    omega

theorem mem_of_mem_asBytes {a : Char} {s : String} (ha : a.toNat < 128) (h : a.toNat.toUInt8 ∈ asBytes s) : a ∈ s.toList := by
  rw [← String.ofList_toList (s := s)] at h
  generalize s.toList = cs at h ⊢
  induction cs with
  | nil => exact absurd h List.not_mem_nil
  | cons c cs ih =>
    rw [asBytes_cons] at h
    rcases List.mem_append.1 h with h | h
    · rw [eq_of_mem_utf8EncodeChar ha h]
      exact List.mem_cons_self
    · exact List.mem_cons_of_mem c (ih h)

theorem asBytes_injective : Function.Injective asBytes := by
  intro s t h
  rw [← fromUtf8Lossy_asBytes s,h,fromUtf8Lossy_asBytes]

theorem isDigit_of_mem_toDigits {c : Char} {n : ℕ} (hc : c ∈ Nat.toDigits 10 n) : isDigit c = true :=
  Nat.isDigit_of_mem_toDigits (by decide) (by decide) hc

theorem toNat_of_isDigit {c : Char} (hc : isDigit c = true) : 48 ≤ c.toNat ∧ c.toNat ≤ 57 := by
  obtain ⟨hlo,hhi⟩ := Bool.and_eq_true _ _ ▸ hc
  exact ⟨of_decide_eq_true hlo,of_decide_eq_true hhi⟩

theorem digits_toDigits (n : ℕ) : digits (Nat.toDigits 10 n) = some n := by
  have hall : (Nat.toDigits 10 n).all isDigit = true :=
    List.all_eq_true.mpr fun c hc => isDigit_of_mem_toDigits hc
  have hvalue : (Nat.toDigits 10 n).foldl (fun n c => 10 * n + (c.toNat - '0'.toNat)) 0 = n :=
    Nat.ofDigitChars_ten_toDigits
  rw [digits,if_neg (by simp [hall]),hvalue]

theorem stripPrefix_eq_some {start s rest : String} : stripPrefix start s = some rest ↔ s = start ++ rest := by
  unfold stripPrefix
  constructor
  · intro h
    split at h
    · rename_i hstart
      cases h
      obtain ⟨after,hafter⟩ := hstart
      rw [← String.toList_inj,← hafter]
      simp
    · cases h
  · rintro rfl
    simp

theorem splitOnce_append {sep : Char} {s : String} (hs : sep ∉ s.toList) (t : String) :
    splitOnce sep (s ++ String.singleton sep ++ t) = some (s,t) := by
  have hlist : (s ++ String.singleton sep ++ t).toList = s.toList ++ sep :: t.toList := by simp
  have hne : ∀ c ∈ s.toList, decide (c ≠ sep) = true := fun c hm => decide_eq_true (ne_of_mem_of_not_mem hm hs)
  rw [splitOnce,hlist,List.dropWhile_append_of_pos hne,List.takeWhile_append_of_pos hne]
  simp

theorem splitOnce_eq_some {sep : Char} {s a b : String} (h : splitOnce sep s = some (a,b)) :
    sep ∉ a.toList ∧ s = a ++ String.singleton sep ++ b := by
  have hsplit : s.toList = s.toList.takeWhile (· ≠ sep) ++ s.toList.dropWhile (· ≠ sep) :=
    (List.takeWhile_append_dropWhile).symm
  rw [splitOnce] at h
  split at h
  · cases h
  · rename_i c after hdrop
    cases h
    have hc : c = sep := by
      have hfirst := List.head?_dropWhile_not (· ≠ sep) s.toList
      rw [hdrop] at hfirst
      simpa using hfirst
    rw [hc] at hdrop
    refine ⟨fun hmem => ?_,?_⟩
    · rw [String.toList_ofList] at hmem
      simpa using List.all_eq_true.mp List.all_takeWhile sep hmem
    · rw [← String.toList_inj]
      simp [← hdrop]

/-- No digit is a sign. -/
theorem ne_sign_of_isDigit {c : Char} (hc : isDigit c = true) : c ≠ '+' ∧ c ≠ '-' := by
  constructor <;> (rintro rfl; simp [isDigit] at hc)

theorem parseInt_repr {lo hi n : ℤ} (hlo : lo ≤ n) (hhi : n ≤ hi) : parseInt lo hi n.repr = some n := by
  have hrange : (some n).filter (fun n => decide (lo ≤ n) && decide (n ≤ hi)) = some n := by
    simp [hlo,hhi]
  cases n with
  | ofNat m =>
    have hds : (Int.ofNat m).repr.toList = Nat.toDigits 10 m := Nat.toList_repr
    have hvalue : (match Nat.toDigits 10 m with
        | '+' :: rest => (digits rest).map Int.ofNat
        | '-' :: rest => (digits rest).map (fun n => -Int.ofNat n)
        | cs => (digits cs).map Int.ofNat) = some (Int.ofNat m) := by
      have hdigit : ∀ c ∈ Nat.toDigits 10 m, isDigit c = true := fun c hc => isDigit_of_mem_toDigits hc
      split
      · rename_i heq
        exact absurd rfl (ne_sign_of_isDigit (hdigit '+' (by simp [heq]))).1
      · rename_i heq
        exact absurd rfl (ne_sign_of_isDigit (hdigit '-' (by simp [heq]))).2
      · simp [digits_toDigits]
    rw [parseInt,hds,hvalue]
    exact hrange
  | negSucc m =>
    have hds : (Int.negSucc m).repr.toList = '-' :: Nat.toDigits 10 (m + 1) := by
      change ("-" ++ (m + 1).repr).toList = _
      simp
    rw [parseInt,hds]
    change ((digits (Nat.toDigits 10 (m + 1))).map fun n => -Int.ofNat n).filter _ = _
    rw [digits_toDigits]
    exact hrange

theorem bounds_of_parseInt {lo hi n : ℤ} {s : String} (h : parseInt lo hi s = some n) : lo ≤ n ∧ n ≤ hi := by
  rw [parseInt] at h
  simpa using (Option.filter_eq_some_iff.1 h).2

/-- A number is read as nothing else, whatever the bounds. -/
theorem eq_of_parseInt_repr {lo hi n m : ℤ} (h : parseInt lo hi n.repr = some m) : m = n := by
  have hself := parseInt_repr (Int.le_refl n) (Int.le_refl n)
  rw [parseInt] at h hself
  have hvalue := (Option.filter_eq_some_iff.1 h).1
  rw [(Option.filter_eq_some_iff.1 hself).1] at hvalue
  exact (Option.some.inj hvalue).symm

theorem dropWhile_eq_self {p : Char → Bool} {l : List Char} (h : ∀ c ∈ l.head?, p c = false) : l.dropWhile p = l := by
  cases l with
  | nil => rfl
  | cons c l => simp [h c rfl]

theorem trim_eq_self {text : String} (hhead : ∀ c ∈ text.toList.head?, isWhitespace c = false)
    (hlast : ∀ c ∈ text.toList.getLast?, isWhitespace c = false) : trim text = text := by
  rw [trim,dropWhile_eq_self hhead,dropWhile_eq_self (by simpa using hlast)]
  simp

section Trimming
variable {cs : List Char} {c : Char}

theorem trim_sublist (cs : List Char) : (trim (String.ofList cs)).toList.Sublist cs := by
  rw [trim,String.toList_ofList,String.toList_ofList]
  have hinner := (List.dropWhile_sublist (p := isWhitespace) (l := (cs.dropWhile isWhitespace).reverse)).reverse
  rw [List.reverse_reverse] at hinner
  exact hinner.trans (List.dropWhile_sublist isWhitespace)

theorem trim_cons (hc : isWhitespace c = true) (cs : List Char) :
    trim (String.ofList (c :: cs)) = trim (String.ofList cs) := by
  rw [trim,trim,String.toList_ofList,String.toList_ofList,List.dropWhile_cons_of_pos hc]

theorem trim_concat (hc : isWhitespace c = true) (cs : List Char) :
    trim (String.ofList (cs ++ [c])) = trim (String.ofList cs) := by
  rw [trim,trim,String.toList_ofList,String.toList_ofList,List.dropWhile_append]
  split
  · next hempty =>
    rw [List.isEmpty_iff.mp hempty,List.dropWhile_cons_of_pos hc]
    rfl
  · rw [List.reverse_append,List.reverse_singleton,List.singleton_append,List.dropWhile_cons_of_pos hc]

/-- What is trimmed off is whitespace on both sides. -/
theorem exists_trim (s : String) : ∃ before after, s.toList = before ++ (trim s).toList ++ after ∧
    (∀ c ∈ before, isWhitespace c = true) ∧ ∀ c ∈ after, isWhitespace c = true := by
  have hfront := List.takeWhile_append_dropWhile (p := isWhitespace) (l := s.toList)
  generalize hrest : s.toList.dropWhile isWhitespace = rest at hfront
  have hback := congrArg List.reverse (List.takeWhile_append_dropWhile (p := isWhitespace) (l := rest.reverse))
  rw [List.reverse_append,List.reverse_reverse] at hback
  refine ⟨s.toList.takeWhile isWhitespace,(rest.reverse.takeWhile isWhitespace).reverse,?_,?_,?_⟩
  · rw [trim,String.toList_ofList,hrest,List.append_assoc,hback,hfront]
  · exact fun c hc => List.mem_takeWhile_imp hc
  · exact fun c hc => List.mem_takeWhile_imp (List.mem_reverse.mp hc)

theorem blank_of_trim (h : trim (String.ofList cs) = "") : ∀ c ∈ cs, isWhitespace c = true := by
  rw [trim,String.toList_ofList,← String.toList_eq_nil_iff,String.toList_ofList,List.reverse_eq_nil_iff,
    List.dropWhile_eq_nil_iff] at h
  intro c hc
  rw [← List.takeWhile_append_dropWhile (p := isWhitespace) (l := cs)] at hc
  rcases List.mem_append.mp hc with hc | hc
  · exact List.mem_takeWhile_imp hc
  · exact h c (List.mem_reverse.mpr hc)

end Trimming

/-- A number is written without anything around it. -/
theorem trim_repr (n : ℕ) : trim n.repr = n.repr := by
  have hdigit : ∀ c ∈ n.repr.toList, isWhitespace c = false := by
    intro c hc
    rw [Nat.toList_repr] at hc
    obtain ⟨hlo,hhi⟩ := toNat_of_isDigit (isDigit_of_mem_toDigits hc)
    by_contra hne
    simp only [isWhitespace] at hne
    simp at hne
    omega
  apply trim_eq_self
  · intro c hc
    exact hdigit c (List.mem_of_mem_head? hc)
  · intro c hc
    exact hdigit c (List.mem_of_mem_getLast? hc)

theorem parseUInt_repr {hi n : ℕ} (h : n ≤ hi) : parseUInt hi n.repr = some n := by
  have hvalue : (match Nat.toDigits 10 n with
      | '+' :: rest => digits rest
      | cs => digits cs) = some n := by
    split
    · rename_i heq
      exact absurd rfl (ne_sign_of_isDigit (isDigit_of_mem_toDigits (n := n) (c := '+') (by simp [heq]))).1
    · exact digits_toDigits n
  rw [parseUInt,Nat.toList_repr,hvalue]
  simp [h]

end Rainier.Text
