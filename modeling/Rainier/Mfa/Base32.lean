import Mathlib.Data.List.DropRight
import Mathlib.Data.Nat.Digits.Defs
import Mathlib.Tactic.Ring
import Rainier.Support.Error
import Rainier.Support.Text

/-! # Base32

Both directions keep the bits they have not written yet at the low end of a word; what is
above them is left there, and drops out at the top.
-/
namespace Rainier.Mfa.Base32
open Rainier

def alphabet : List Char := "ABCDEFGHIJKLMNOPQRSTUVWXYZ234567".toList

/-- The symbol of five bits. -/
def symbol (n : ℕ) : Char := alphabet.getD n 'A'

/-- The loop that writes symbols while there are five bits, and how many are left. -/
def drain (buffer : UInt64) : ℕ → List Char × ℕ
  | bits + 5 =>
    let rest := drain buffer bits
    (symbol ((buffer >>> bits.toUInt64) &&& 31).toNat :: rest.1,rest.2)
  | bits => ([],bits)

def encodeFrom : List UInt8 → UInt64 → ℕ → List Char
  | [], buffer, bits => if bits > 0 then [symbol ((buffer <<< (5 - bits).toUInt64) &&& 31).toNat] else []
  | byte :: rest, buffer, bits =>
    let buffer := (buffer <<< (8).toUInt64) ||| byte.toUInt64
    let drained := drain buffer (bits + 8)
    drained.1 ++ encodeFrom rest buffer drained.2

def encode (bytes : List UInt8) : String := String.ofList (encodeFrom bytes 0 0)

/-- Characters that are passed over. -/
def separator (c : Char) : Bool := Text.isWhitespace c || c = '-'

/-- The five bits of an uppercase symbol. -/
def value (c : Char) : Option ℕ :=
  if 'A' ≤ c ∧ c ≤ 'Z' then some (c.toNat - 'A'.toNat)
  else if '2' ≤ c ∧ c ≤ '7' then some (c.toNat - '2'.toNat + 26)
  else none

def decodeFrom : List Char → UInt64 → ℕ → ℕ → List UInt8 → Except Error (List UInt8)
  | [], _, _, symbols, out =>
    -- 1, 3 and 6 trailing symbols cannot come from whole bytes
    if symbols % 8 = 1 ∨ symbols % 8 = 3 ∨ symbols % 8 = 6 then
      .error (.badRequest "that is not a whole number of base32-encoded bytes")
    else .ok out
  | c :: rest, buffer, bits, symbols, out =>
    if separator c then decodeFrom rest buffer bits symbols out
    else match value c.toUpper with
      | none => .error (.badRequest ("`" ++ String.singleton c.toUpper ++ "` is not a base32 character"))
      | some value =>
        let buffer := (buffer <<< (5).toUInt64) ||| value.toUInt64
        if 8 ≤ bits + 5 then
          decodeFrom rest buffer (bits + 5 - 8) (symbols + 1) (out ++ [(buffer >>> (bits + 5 - 8).toUInt64).toUInt8])
        else decodeFrom rest buffer (bits + 5) (symbols + 1) out

/-- `trim_end_matches('=')`. -/
def trimPadding (cs : List Char) : List Char := (cs.reverse.dropWhile (· = '=')).reverse

def decode (text : String) : Except Error (List UInt8) := decodeFrom (trimPadding text.toList) 0 0 0 []

/-! ## The low end of the buffer -/

section Buffer
variable {width bits : ℕ}

/-- What is pushed goes below the bits that were there. -/
theorem push_mod (buffer : UInt64) {pushed : UInt64} (hpushed : pushed.toNat < 2 ^ width) (hwidth : width < 64)
    (hbits : bits + width ≤ 64) : ((buffer <<< width.toUInt64) ||| pushed).toNat % 2 ^ (bits + width) =
      buffer.toNat % 2 ^ bits * 2 ^ width + pushed.toNat := by
  have hshift : width.toUInt64.toNat % 64 = width := by
    simp only [Nat.toUInt64_eq,UInt64.toNat_ofNat']
    omega
  have hdvd : 2 ^ (bits + width) ∣ 2 ^ 64 := Nat.pow_dvd_pow 2 hbits
  have hsmall : pushed.toNat % 2 ^ (bits + width) = pushed.toNat :=
    Nat.mod_eq_of_lt (Nat.lt_of_lt_of_le hpushed (Nat.pow_le_pow_right (by omega) (by omega)))
  rw [UInt64.toNat_or,UInt64.toNat_shiftLeft,hshift,Nat.or_mod_two_pow,Nat.mod_mod_of_dvd _ hdvd,hsmall,Nat.shiftLeft_eq,
    Nat.pow_add,Nat.mul_mod_mul_right,← Nat.shiftLeft_eq,← Nat.shiftLeft_add_eq_or_of_lt hpushed]

/-- The five bits above so many. -/
theorem five_bits (buffer : UInt64) (hbits : bits < 64) :
    ((buffer >>> bits.toUInt64) &&& 31).toNat = buffer.toNat % 2 ^ (bits + 5) / 2 ^ bits := by
  have hshift : bits.toUInt64.toNat % 64 = bits := by
    simp only [Nat.toUInt64_eq,UInt64.toNat_ofNat']
    omega
  have hmask : (31 : UInt64).toNat = 2 ^ 5 - 1 := rfl
  rw [UInt64.toNat_and,UInt64.toNat_shiftRight,hshift,hmask,Nat.and_two_pow_sub_one_eq_mod,Nat.shiftRight_eq_div_pow,Nat.pow_add,
    Nat.mod_mul_right_div_self]

/-- The byte above so many bits. -/
theorem eight_bits (buffer : UInt64) (hbits : bits < 64) :
    (buffer >>> bits.toUInt64).toUInt8.toNat = buffer.toNat % 2 ^ (bits + 8) / 2 ^ bits := by
  have hshift : bits.toUInt64.toNat % 64 = bits := by
    simp only [Nat.toUInt64_eq,UInt64.toNat_ofNat']
    omega
  rw [UInt64.toNat_toUInt8,UInt64.toNat_shiftRight,hshift,Nat.shiftRight_eq_div_pow,Nat.pow_add,Nat.mod_mul_right_div_self]

/-- The bits that are left, moved up to five. -/
theorem last_bits (buffer : UInt64) (hbits : bits ≤ 5) :
    ((buffer <<< (5 - bits).toUInt64) &&& 31).toNat = buffer.toNat % 2 ^ bits * 2 ^ (5 - bits) := by
  have hshift : (5 - bits).toUInt64.toNat % 64 = 5 - bits := by
    simp only [Nat.toUInt64_eq,UInt64.toNat_ofNat']
    omega
  have hmask : (31 : UInt64).toNat = 2 ^ 5 - 1 := rfl
  have hdvd : 2 ^ 5 ∣ 2 ^ 64 := Nat.pow_dvd_pow 2 (by omega)
  have hfive : 2 ^ 5 = 2 ^ bits * 2 ^ (5 - bits) := by
    rw [← Nat.pow_add]
    congr 1
    omega
  rw [UInt64.toNat_and,UInt64.toNat_shiftLeft,hshift,hmask,Nat.and_two_pow_sub_one_eq_mod,Nat.mod_mod_of_dvd _ hdvd,Nat.shiftLeft_eq,
    hfive,Nat.mul_mod_mul_right]

end Buffer

/-! ## What symbols and bytes spell -/

/-- The number of digits given with the most significant first. -/
def spelled (base : ℕ) (ds : List ℕ) : ℕ := Nat.ofDigits base ds.reverse

@[simp] theorem spelled_nil (base : ℕ) : spelled base [] = 0 := rfl

theorem spelled_append (base : ℕ) (ds es : List ℕ) :
    spelled base (ds ++ es) = spelled base ds * base ^ es.length + spelled base es := by
  rw [spelled,List.reverse_append,Nat.ofDigits_append,List.length_reverse,Nat.add_comm,Nat.mul_comm]
  simp only [spelled]

theorem spelled_cons (base d : ℕ) (ds : List ℕ) : spelled base (d :: ds) = d * base ^ ds.length + spelled base ds := by
  have hone : spelled base [d] = d := Nat.ofDigits_singleton
  rw [← List.singleton_append,spelled_append,hone]

def bytesSpelled (bytes : List UInt8) : ℕ := spelled (2 ^ 8) (bytes.map UInt8.toNat)

@[simp] theorem bytesSpelled_nil : bytesSpelled [] = 0 := rfl

theorem bytesSpelled_cons (b : UInt8) (bytes : List UInt8) :
    bytesSpelled (b :: bytes) = b.toNat * 2 ^ (8 * bytes.length) + bytesSpelled bytes := by
  rw [bytesSpelled,List.map_cons,spelled_cons,List.length_map,← Nat.pow_mul,bytesSpelled]

theorem bytesSpelled_inj {bytes bytes' : List UInt8} (hlength : bytes.length = bytes'.length)
    (h : bytesSpelled bytes = bytesSpelled bytes') : bytes = bytes' := by
  have hlt (bytes : List UInt8) : ∀ d ∈ (bytes.map UInt8.toNat).reverse, d < 2 ^ 8 := by
    intro d hd
    simp only [List.mem_reverse,List.mem_map] at hd
    obtain ⟨b,-,rfl⟩ := hd
    exact b.toNat_lt
  have hrev := Nat.ofDigits_inj_of_len_eq (by omega) (by simpa using hlength) (hlt bytes) (hlt bytes') h
  exact List.map_injective_iff.2 (fun _ _ => UInt8.toNat_inj.1) (List.reverse_injective hrev)

/-- What five-bit values spell. -/
def valuesSpelled (vs : List ℕ) : ℕ := spelled (2 ^ 5) vs

@[simp] theorem valuesSpelled_nil : valuesSpelled [] = 0 := rfl

theorem valuesSpelled_cons (v : ℕ) (vs : List ℕ) : valuesSpelled (v :: vs) = v * 2 ^ (5 * vs.length) + valuesSpelled vs := by
  rw [valuesSpelled,spelled_cons,← Nat.pow_mul,valuesSpelled]

theorem valuesSpelled_append (vs ws : List ℕ) :
    valuesSpelled (vs ++ ws) = valuesSpelled vs * 2 ^ (5 * ws.length) + valuesSpelled ws := by
  rw [valuesSpelled,spelled_append,← Nat.pow_mul,valuesSpelled,valuesSpelled]

/-! ## What the encoder writes -/

/-- Symbols written out of the low bits, and the bits they leave. -/
theorem drain_spells (buffer : UInt64) (bits : ℕ) (hbits : bits < 64) : ∃ vs,
    (drain buffer bits).1 = vs.map symbol ∧ (∀ v ∈ vs, v < 32) ∧ (drain buffer bits).2 < 5 ∧
      bits = 5 * vs.length + (drain buffer bits).2 ∧
      buffer.toNat % 2 ^ bits = valuesSpelled vs * 2 ^ (drain buffer bits).2 + buffer.toNat % 2 ^ (drain buffer bits).2 := by
  induction bits using Nat.strongRecOn with
  | ind bits ih =>
    cases hcase : decide (bits < 5) with
    | true =>
      have hlt : bits < 5 := of_decide_eq_true hcase
      have hdone : drain buffer bits = ([],bits) := by
        unfold drain
        split
        · omega
        · rfl
      exact ⟨[],by simp [hdone],by simp,by simpa [hdone] using hlt,by simp [hdone],by simp [hdone]⟩
    | false =>
      obtain ⟨bits,rfl⟩ : ∃ rest, bits = rest + 5 := ⟨bits - 5,by have := of_decide_eq_false hcase; omega⟩
      obtain ⟨vs,hout,hlt,hleft,hcount,hspells⟩ := ih bits (by omega) (by omega)
      obtain ⟨v,hv⟩ : ∃ v, v = buffer.toNat % 2 ^ (bits + 5) / 2 ^ bits := ⟨_,rfl⟩
      have hfive : v < 32 := by
        have hlt := Nat.mod_lt buffer.toNat (Nat.two_pow_pos (bits + 5))
        rw [Nat.pow_add] at hlt
        rw [hv,Nat.pow_add]
        exact Nat.div_lt_of_lt_mul hlt
      have hpow : 2 ^ bits = 2 ^ (5 * vs.length) * 2 ^ (drain buffer bits).2 := by rw [← Nat.pow_add,← hcount]
      have hsplit : buffer.toNat % 2 ^ (bits + 5) = v * 2 ^ bits + buffer.toNat % 2 ^ bits := by
        rw [hv,← Nat.mod_mod_of_dvd buffer.toNat (Nat.pow_dvd_pow 2 (show bits ≤ bits + 5 by omega)),Nat.div_add_mod']
      refine ⟨v :: vs,?_,?_,?_,?_,?_⟩
      · simp only [drain,hout,five_bits buffer (show bits < 64 by omega),List.map_cons,hv]
      · simpa [hfive] using hlt
      · simpa only [drain] using hleft
      · simp only [drain,List.length_cons]
        omega
      · simp only [drain]
        calc buffer.toNat % 2 ^ (bits + 5)
          _ = v * (2 ^ (5 * vs.length) * 2 ^ (drain buffer bits).2) + (valuesSpelled vs * 2 ^ (drain buffer bits).2 +
                buffer.toNat % 2 ^ (drain buffer bits).2) := by rw [hsplit,hspells,hpow]
          _ = _ := by
            rw [valuesSpelled_cons]
            ring

/-- The last symbol is filled up with zero bits. -/
theorem encodeFrom_spells (bytes : List UInt8) (buffer : UInt64) (bits : ℕ) (hbits : bits < 5) : ∃ vs pad,
    encodeFrom bytes buffer bits = vs.map symbol ∧ (∀ v ∈ vs, v < 32) ∧ pad < 5 ∧ bits + 8 * bytes.length + pad = 5 * vs.length ∧
      valuesSpelled vs = (buffer.toNat % 2 ^ bits * 2 ^ (8 * bytes.length) + bytesSpelled bytes) * 2 ^ pad := by
  induction bytes generalizing buffer bits with
  | nil =>
    cases bits with
    | zero => exact ⟨[],0,rfl,by simp,by omega,by simp,by simp [Nat.mod_one]⟩
    | succ bits =>
      obtain ⟨v,hv⟩ : ∃ v, v = buffer.toNat % 2 ^ (bits + 1) * 2 ^ (5 - (bits + 1)) := ⟨_,rfl⟩
      have hfive : v < 32 := by
        have hlt := Nat.mod_lt buffer.toNat (Nat.two_pow_pos (bits + 1))
        have hpow : 2 ^ (bits + 1) * 2 ^ (5 - (bits + 1)) = 32 := by
          rw [← Nat.pow_add]
          exact congrArg (2 ^ ·) (show bits + 1 + (5 - (bits + 1)) = 5 by omega)
        rw [hv,← hpow]
        exact Nat.mul_lt_mul_of_pos_right hlt (Nat.two_pow_pos _)
      refine ⟨[v],5 - (bits + 1),?_,by simpa using hfive,by omega,?_,?_⟩
      · rw [encodeFrom,if_pos (by omega),last_bits buffer (by omega),hv,List.map_singleton]
      · simp only [List.length_nil,List.length_singleton]
        omega
      · simp [valuesSpelled_cons,hv]
  | cons b bytes ih =>
    obtain ⟨pushed,hpushed⟩ : ∃ pushed, pushed = (buffer <<< (8).toUInt64) ||| b.toUInt64 := ⟨_,rfl⟩
    obtain ⟨vs,hout,hlt,hleft,hcount,hspells⟩ := drain_spells pushed (bits + 8) (by omega)
    obtain ⟨left,hdrained⟩ : ∃ left, (drain pushed (bits + 8)).2 = left := ⟨_,rfl⟩
    rw [hdrained] at hleft hcount hspells
    obtain ⟨ws,pad,hrest,hws,hpad,hrestCount,hrestSpells⟩ := ih pushed left hleft
    have hlow : pushed.toNat % 2 ^ (bits + 8) = buffer.toNat % 2 ^ bits * 2 ^ 8 + b.toNat := by
      rw [hpushed,push_mod buffer (by simpa using b.toNat_lt) (by omega) (by omega)]
      simp
    refine ⟨vs ++ ws,pad,?_,?_,hpad,?_,?_⟩
    · rw [encodeFrom,← hpushed]
      simp only [hdrained,hout,hrest,List.map_append]
    · simp only [List.mem_append]
      rintro v (hv | hv)
      · exact hlt v hv
      · exact hws v hv
    · simp only [List.length_cons,List.length_append]
      omega
    · have hpow : 2 ^ (5 * ws.length) = 2 ^ left * 2 ^ (8 * bytes.length) * 2 ^ pad := by
        rw [← hrestCount,Nat.pow_add,Nat.pow_add]
      have hlength : 8 * (b :: bytes).length = 8 + 8 * bytes.length := by
        rw [List.length_cons]
        omega
      calc valuesSpelled (vs ++ ws)
        _ = ((valuesSpelled vs * 2 ^ left + pushed.toNat % 2 ^ left) * 2 ^ (8 * bytes.length) + bytesSpelled bytes) * 2 ^ pad := by
          rw [valuesSpelled_append,hrestSpells,hpow]
          ring
        _ = ((buffer.toNat % 2 ^ bits * 2 ^ 8 + b.toNat) * 2 ^ (8 * bytes.length) + bytesSpelled bytes) * 2 ^ pad := by
          rw [← hspells,hlow]
        _ = _ := by
          rw [bytesSpelled_cons,hlength,Nat.pow_add]
          ring

/-! ## What the decoder reads -/

theorem symbol_reads : ∀ v < 32, value (symbol v) = some v ∧ separator (symbol v) = false ∧ symbol v ≠ '=' := by decide

/-- The characters that are looked up. -/
def read (cs : List Char) : List Char := (cs.filter (! separator ·)).map Char.toUpper

theorem read_append (cs ds : List Char) : read (cs ++ ds) = read cs ++ read ds := by
  simp [read]

/-- The bits read so far are the bytes written and those still in the buffer. -/
theorem decodeFrom_spells (cs : List Char) (vs : List ℕ) (buffer : UInt64) (bits symbols : ℕ) (out : List UInt8)
    (hbits : bits < 8) (hread : read cs = vs.map symbol) (hvs : ∀ v ∈ vs, v < 32) : ∃ bytes left low,
    left < 8 ∧ low < 2 ^ left ∧ bits + 5 * vs.length = 8 * bytes.length + left ∧
      buffer.toNat % 2 ^ bits * 2 ^ (5 * vs.length) + valuesSpelled vs = bytesSpelled bytes * 2 ^ left + low ∧
      decodeFrom cs buffer bits symbols out = decodeFrom [] 0 0 (symbols + vs.length) (out ++ bytes) := by
  induction cs generalizing vs buffer bits symbols out with
  | nil =>
    obtain rfl : vs = [] := by simpa [read] using hread.symm
    refine ⟨[],bits,buffer.toNat % 2 ^ bits,hbits,Nat.mod_lt _ (Nat.two_pow_pos _),by simp,by simp,?_⟩
    simp only [decodeFrom,List.length_nil,Nat.add_zero,List.append_nil]
  | cons c cs ih =>
    cases hsep : separator c with
    | true =>
      rw [decodeFrom,if_pos hsep]
      exact ih vs buffer bits symbols out hbits (by simpa [read,hsep] using hread) hvs
    | false =>
      have hcons : c.toUpper :: read cs = vs.map symbol := by simpa [read,hsep] using hread
      cases vs with
      | nil => cases hcons
      | cons v vs =>
        rw [List.map_cons,List.cons.injEq] at hcons
        obtain ⟨hc,hcs⟩ := hcons
        have hv : v < 32 := hvs v (by simp)
        have hvs := fun w hw => hvs w (List.mem_cons_of_mem _ hw)
        obtain ⟨pushed,hpushed⟩ : ∃ pushed, pushed = (buffer <<< (5).toUInt64) ||| v.toUInt64 := ⟨_,rfl⟩
        have hlow : pushed.toNat % 2 ^ (bits + 5) = buffer.toNat % 2 ^ bits * 2 ^ 5 + v := by
          have hword : v.toUInt64.toNat = v := by
            simp only [Nat.toUInt64_eq,UInt64.toNat_ofNat']
            omega
          rw [hpushed,push_mod buffer (by omega) (by omega) (by omega),hword]
        have hstep : decodeFrom (c :: cs) buffer bits symbols out =
            if 8 ≤ bits + 5 then
              decodeFrom cs pushed (bits + 5 - 8) (symbols + 1) (out ++ [(pushed >>> (bits + 5 - 8).toUInt64).toUInt8])
            else decodeFrom cs pushed (bits + 5) (symbols + 1) out := by
          simp only [decodeFrom,hsep,hc,(symbol_reads v hv).1,← hpushed]
          rfl
        have hspelled : buffer.toNat % 2 ^ bits * 2 ^ (5 * (v :: vs).length) + valuesSpelled (v :: vs) =
            pushed.toNat % 2 ^ (bits + 5) * 2 ^ (5 * vs.length) + valuesSpelled vs := by
          rw [hlow,valuesSpelled_cons,List.length_cons,Nat.mul_add,Nat.pow_add]
          ring
        cases hfull : decide (8 ≤ bits + 5) with
        | false =>
          have hshort : ¬ 8 ≤ bits + 5 := of_decide_eq_false hfull
          obtain ⟨bytes,left,low,hleft,hlowlt,hcount,hspells,hout⟩ := ih vs pushed (bits + 5) (symbols + 1) out (by omega) hcs hvs
          refine ⟨bytes,left,low,hleft,hlowlt,?_,hspelled.trans hspells,?_⟩
          · rw [List.length_cons]
            omega
          · rw [hstep,if_neg hshort,hout,List.length_cons,Nat.add_assoc,Nat.add_comm 1]
        | true =>
          have hlong : 8 ≤ bits + 5 := of_decide_eq_true hfull
          obtain ⟨rest,hrest⟩ : ∃ rest, bits + 5 = rest + 8 := ⟨bits + 5 - 8,by omega⟩
          obtain ⟨byte,hbyte⟩ : ∃ byte, byte = (pushed >>> rest.toUInt64).toUInt8 := ⟨_,rfl⟩
          have hsub : bits + 5 - 8 = rest := by omega
          rw [hsub,← hbyte] at hstep
          obtain ⟨bytes,left,low,hleft,hlowlt,hcount,hspells,hout⟩ :=
            ih vs pushed rest (symbols + 1) (out ++ [byte]) (by omega) hcs hvs
          have hsplit : pushed.toNat % 2 ^ (bits + 5) = byte.toNat * 2 ^ rest + pushed.toNat % 2 ^ rest := by
            rw [hbyte,eight_bits pushed (by omega),hrest,
              ← Nat.mod_mod_of_dvd pushed.toNat (Nat.pow_dvd_pow 2 (show rest ≤ rest + 8 by omega)),Nat.div_add_mod']
          refine ⟨byte :: bytes,left,low,hleft,hlowlt,?_,?_,?_⟩
          · simp only [List.length_cons]
            omega
          · have hpow : 2 ^ rest * 2 ^ (5 * vs.length) = 2 ^ (8 * bytes.length) * 2 ^ left := by
              rw [← Nat.pow_add,hcount,Nat.pow_add]
            calc _ = byte.toNat * (2 ^ rest * 2 ^ (5 * vs.length)) +
                  (pushed.toNat % 2 ^ rest * 2 ^ (5 * vs.length) + valuesSpelled vs) := by
                  rw [hspelled,hsplit]
                  ring
              _ = _ := by
                rw [hpow,hspells,bytesSpelled_cons]
                ring
          · rw [hstep,if_pos hlong,hout,List.length_cons,Nat.add_assoc,Nat.add_comm 1,List.append_assoc,List.singleton_append]

/-- What was encoded is read back, whatever is passed over between the symbols. -/
theorem decodeFrom_read {cs : List Char} {bytes : List UInt8} (hread : read cs = (encode bytes).toList) :
    decodeFrom cs 0 0 0 [] = .ok bytes := by
  obtain ⟨vs,pad,hvs,hlt,hpad,hcount,hspells⟩ := encodeFrom_spells bytes 0 0 (by omega)
  have hread : read cs = vs.map symbol := by rw [hread,encode,String.toList_ofList,hvs]
  obtain ⟨bytes',left,low,hleft,hlow,hcount',hspells',hout⟩ := decodeFrom_spells cs vs 0 0 0 [] (by omega) hread hlt
  have hlength : bytes'.length = bytes.length := by omega
  obtain rfl : left = pad := by omega
  simp only [UInt64.toNat_zero,Nat.zero_mod,Nat.zero_mul,Nat.zero_add] at hspells hspells'
  have hsame : bytesSpelled bytes' = bytesSpelled bytes := by
    have hdiv := congrArg (· / 2 ^ left) (hspells'.symm.trans hspells)
    simpa [Nat.mul_add_div (Nat.two_pow_pos left),Nat.mul_comm _ (2 ^ left),Nat.div_eq_of_lt hlow] using hdiv
  rw [hout,decodeFrom,if_neg (by omega),List.nil_append,bytesSpelled_inj hlength hsame]

/-- A padding character that is not trimmed is refused. -/
theorem decodeFrom_padding {cs : List Char} {buffer : UInt64} {bits symbols : ℕ} {out bytes : List UInt8}
    (h : decodeFrom cs buffer bits symbols out = .ok bytes) : '=' ∉ cs := by
  induction cs generalizing buffer bits symbols out with
  | nil => simp
  | cons c cs ih =>
    have hpad : separator '=' = false ∧ value ('=').toUpper = none := by decide
    have hc : c ≠ '=' := by
      rintro rfl
      simp only [decodeFrom,hpad] at h
      cases h
    have hcs : '=' ∉ cs := by
      rw [decodeFrom] at h
      split at h
      · exact ih h
      · split at h
        · cases h
        · split at h <;> exact ih h
    simp [Ne.symm hc,hcs]

/-! ## Padding -/

theorem exists_trimPadding (cs : List Char) : ∃ pad, cs = trimPadding cs ++ List.replicate pad '=' := by
  obtain ⟨pads,hpads⟩ : ∃ pads, pads = (cs.reverse.takeWhile (· = '=')).reverse := ⟨_,rfl⟩
  have hall : pads = List.replicate pads.length '=' := by
    refine List.eq_replicate_iff.2 ⟨rfl,fun c hc => ?_⟩
    rw [hpads,List.mem_reverse] at hc
    simpa using List.mem_takeWhile_imp hc
  have hsplit : cs = trimPadding cs ++ pads := by
    rw [trimPadding,hpads,← List.reverse_append,List.takeWhile_append_dropWhile,List.reverse_reverse]
  exact ⟨pads.length,by rwa [← hall]⟩

theorem trimPadding_append {cs : List Char} (hcs : '=' ∉ cs) (pad : ℕ) : trimPadding (cs ++ List.replicate pad '=') = cs := by
  have hfirst : cs.reverse.dropWhile (· = '=') = cs.reverse := by
    refine List.dropWhile_eq_self_iff.2 fun hpos heq => hcs ?_
    have hmem := List.getElem_mem hpos
    rw [of_decide_eq_true heq] at hmem
    simpa using hmem
  rw [trimPadding,List.reverse_append,List.reverse_replicate,List.dropWhile_append_of_pos (by simp),hfirst,List.reverse_reverse]

/-- Only padding follows padding. -/
theorem trimPadding_iff (cs : List Char) : '=' ∉ trimPadding cs ↔ ∀ c ∈ cs.dropWhile (· ≠ '='), c = '=' := by
  obtain ⟨pad,hpad⟩ := exists_trimPadding cs
  constructor
  · intro hnone c hc
    have hbefore : ∀ c ∈ trimPadding cs, decide (c ≠ '=') = true := by
      intro c hc
      refine decide_eq_true ?_
      rintro rfl
      exact hnone hc
    rw [hpad,List.dropWhile_append_of_pos hbefore] at hc
    exact (List.mem_replicate.1 ((List.dropWhile_sublist _).subset hc)).2
  · intro hall hmem
    have hafter := List.eq_replicate_iff.2 ⟨rfl,hall⟩
    have hbefore : '=' ∉ cs.takeWhile (· ≠ '=') := fun hc => by simpa using List.mem_takeWhile_imp hc
    have hsplit : cs = cs.takeWhile (· ≠ '=') ++ List.replicate (cs.dropWhile (· ≠ '=')).length '=' := by
      rw [← hafter,List.takeWhile_append_dropWhile]
    rw [hsplit,trimPadding_append hbefore] at hmem
    exact hbefore hmem

/-! ## Copies -/

/-- A text someone copied: padding was added to what was encoded, the case of letters changed, and
whitespace and `-` inserted anywhere. -/
def Copy (bytes : List UInt8) (text : String) : Prop :=
  ∃ pad, read text.toList = (encode bytes).toList ++ List.replicate pad '='

theorem toUpper_eq_padding {c : Char} (h : c.toUpper = '=') : c = '=' := by
  unfold Char.toUpper at h
  split at h
  · next hlower =>
    have hval := congrArg (fun c => c.val.toNat) h
    simp only [UInt32.le_iff_toNat_le] at hlower
    simp at hval hlower
    omega
  · exact h

theorem padding_mem_read {cs : List Char} (h : '=' ∈ read cs) : '=' ∈ cs := by
  obtain ⟨c,hc,hupper⟩ := List.mem_map.1 h
  rw [toUpper_eq_padding hupper] at hc
  exact (List.mem_filter.1 hc).1

theorem read_padding (pad : ℕ) : read (List.replicate pad '=') = List.replicate pad '=' := by
  have hpad : separator '=' = false ∧ ('=').toUpper = '=' := by decide
  have hkept : (List.replicate pad '=').filter (! separator ·) = List.replicate pad '=' := by
    refine List.filter_eq_self.2 fun c hc => ?_
    rw [List.eq_of_mem_replicate hc,hpad.1,Bool.not_false]
  rw [read,hkept,List.map_replicate,hpad.2]

theorem padding_not_mem_encode (bytes : List UInt8) : '=' ∉ (encode bytes).toList := by
  obtain ⟨vs,pad,hvs,hlt,-⟩ := encodeFrom_spells bytes 0 0 (by omega)
  rw [encode,String.toList_ofList,hvs]
  rintro hmem
  obtain ⟨v,hv,hsymbol⟩ := List.mem_map.1 hmem
  exact (symbol_reads v (hlt v hv)).2.2 hsymbol

/-- A copy is decoded to what was encoded exactly when nothing follows its first `=` but more of them. -/
theorem copy_decoded_iff {bytes : List UInt8} {text : String} (hcopy : Copy bytes text) :
    decode text = .ok bytes ↔ ∀ c ∈ text.toList.dropWhile (· ≠ '='), c = '=' := by
  rw [← trimPadding_iff]
  constructor
  · exact decodeFrom_padding
  · intro hnone
    obtain ⟨pad,hread⟩ := hcopy
    obtain ⟨tail,htail⟩ := exists_trimPadding text.toList
    rw [htail,read_append,read_padding] at hread
    have hsame := congrArg trimPadding hread
    rw [trimPadding_append (mt padding_mem_read hnone),trimPadding_append (padding_not_mem_encode bytes)] at hsame
    exact decodeFrom_read hsame

/-- The two symbols of one byte, apart and in lower case, with the padding other encoders write. -/
theorem copy_decoded_padded : Copy [102] "m-y ======" ∧
    (decode "m-y ======" = .ok [102] ↔ ∀ c ∈ "m-y ======".toList.dropWhile (· ≠ '='), c = '=') := by
  have hcopy : Copy [102] "m-y ======" := ⟨6,by decide⟩
  exact ⟨hcopy,copy_decoded_iff hcopy⟩

/-- A line end after the padding is whitespace, and the padding before it is refused. -/
theorem padding_before_newline : Copy [102] "MY======\n" ∧ decode "MY======\n" ≠ .ok [102] := by
  refine ⟨⟨6,by decide⟩,?_⟩
  decide

end Rainier.Mfa.Base32
