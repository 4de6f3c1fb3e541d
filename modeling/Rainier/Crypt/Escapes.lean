import Rainier.Crypt.SignedUrls

/-! # Escapes next to characters of several bytes

Reading an escape slices the text two bytes after the `%`. The slice falls inside a
character when the first character after it has three bytes or more, or when it has one
and the next has more.
-/
namespace Rainier.Crypt.UrlSigner
open Rainier

/-- The second byte of the text is not the end of a character. -/
def cut : List Char → Bool
  | [] => false
  | [c] => 0x800 ≤ c.toNat
  | c :: d :: _ => 0x800 ≤ c.toNat || (c.toNat < 0x80 && 0x80 ≤ d.toNat)

/-- No `%` has its slice end inside a character. -/
def whole : List Char → Bool
  | [] => true
  | c :: cs => !(c = '%' && cut cs) && whole cs

/-- `+` is a space, an escape its byte, and a `%` that begins none itself. -/
def unescape : List UInt8 → List UInt8
  | [] => []
  | b :: rest =>
    if b = 43 then 32 :: unescape rest
    else if b = 37 then
      match rest with
      | high :: low :: tail =>
        match fromStrRadix high low with
        | some byte => byte :: unescape tail
        | none => 37 :: unescape (high :: low :: tail)
      | rest => 37 :: unescape rest
    else b :: unescape rest

-- The equations are derived here, before the proofs that rewrite with them.
section
attribute [local simp] unescape
end

/-! ## The bytes of a character -/

def continuation (b : UInt8) : Bool := 0x80 ≤ b && b ≤ 0xBF

theorem utf8EncodeChar_one {c : Char} (h : c.toNat < 0x80) : String.utf8EncodeChar c = [c.toNat.toUInt8] := by
  rw [String.utf8EncodeChar,if_pos (show c.val.toNat ≤ 0x7f from Nat.lt_succ_iff.1 h)]
  rfl

theorem utf8EncodeChar_more {c : Char} (h : 0x80 ≤ c.toNat) : ∃ b rest, String.utf8EncodeChar c = b :: rest ∧ 0xC0 ≤ b ∧
    (∀ x ∈ rest, continuation x = true) ∧ rest ≠ [] ∧ (rest.length = 1 ↔ c.toNat < 0x800) := by
  have hval : c.val.toNat = c.toNat := rfl
  have hcont (n : ℕ) (hn : n < 0x40) : continuation (UInt8.ofNat (n + 0x80)) = true := by
    simp only [continuation,Bool.and_eq_true,decide_eq_true_eq,UInt8.le_iff_toNat_le,UInt8.toNat_ofNat']
    exact ⟨show 0x80 ≤ (n + 0x80) % 256 by omega,show (n + 0x80) % 256 ≤ 0xBF by omega⟩
  have hfirst (n : ℕ) (hlow : 0xC0 ≤ n) (hhigh : n < 256) : (0xC0 : UInt8) ≤ UInt8.ofNat n := by
    simp only [UInt8.le_iff_toNat_le,UInt8.toNat_ofNat']
    exact show 0xC0 ≤ n % 256 by omega
  rw [String.utf8EncodeChar]
  split_ifs with hone htwo hthree
  · omega
  · refine ⟨_,_,rfl,hfirst _ (by omega) (by omega),?_,by simp,by simp; omega⟩
    simp only [List.mem_singleton]
    rintro x rfl
    exact hcont _ (Nat.mod_lt _ (by omega))
  · refine ⟨_,_,rfl,hfirst _ (by omega) (by omega),?_,by simp,by simp; omega⟩
    simp only [List.mem_cons,List.not_mem_nil,or_false]
    rintro x (rfl | rfl) <;> exact hcont _ (Nat.mod_lt _ (by omega))
  · refine ⟨_,_,rfl,hfirst _ (by omega) (by omega),?_,by simp,by simp; omega⟩
    simp only [List.mem_cons,List.not_mem_nil,or_false]
    rintro x (rfl | rfl | rfl) <;> exact hcont _ (Nat.mod_lt _ (by omega))

/-- The bytes of a text begin with no continuation. -/
theorem head_asBytes (cs : List Char) : (Text.asBytes (String.ofList cs)).head?.any continuation = false := by
  cases cs with
  | nil => rfl
  | cons c cs =>
    rw [Text.asBytes_cons]
    by_cases hc : c.toNat < 0x80
    · have hle : ¬ 0x80 ≤ c.toNat.toUInt8 := by
        simp only [UInt8.le_iff_toNat_le,Nat.toUInt8_eq,UInt8.toNat_ofNat']
        exact show ¬ 0x80 ≤ c.toNat % 256 by omega
      rw [utf8EncodeChar_one hc]
      simp [continuation,hle]
    · obtain ⟨b,rest,hb,hfirst,-⟩ := utf8EncodeChar_more (Nat.not_lt.1 hc)
      have hle : ¬ b ≤ 0xBF := by
        simp only [UInt8.le_iff_toNat_le] at hfirst ⊢
        exact fun h => absurd (Nat.le_trans hfirst h) (by decide)
      rw [hb]
      simp [continuation,hle]

/-! ## One step of the scan -/

section Scan
variable {b high low : UInt8} {bytes tail : List UInt8}

theorem decodeBytes_plains (hplain : ∀ b ∈ bytes, b ≠ 43 ∧ b ≠ 37) (rest : List UInt8) :
    decodeBytes (bytes ++ rest) = (decodeBytes rest).map (bytes ++ ·) := by
  induction bytes with
  | nil => simp
  | cons b bytes ih =>
    obtain ⟨hplus,hpercent⟩ := hplain b List.mem_cons_self
    rw [List.cons_append,decodeBytes_plain hplus hpercent,ih fun x hx => hplain x (List.mem_cons_of_mem b hx),Option.map_map]
    rfl

theorem unescape_plains (hplain : ∀ b ∈ bytes, b ≠ 43 ∧ b ≠ 37) (rest : List UInt8) :
    unescape (bytes ++ rest) = bytes ++ unescape rest := by
  induction bytes with
  | nil => rfl
  | cons b bytes ih =>
    obtain ⟨hplus,hpercent⟩ := hplain b List.mem_cons_self
    rw [List.cons_append,unescape.eq_def]
    simp only [hplus,hpercent,if_false]
    rw [ih fun x hx => hplain x (List.mem_cons_of_mem b hx),List.cons_append]

theorem decodeBytes_plus (rest : List UInt8) : decodeBytes (43 :: rest) = (decodeBytes rest).map (32 :: ·) := by
  rw [decodeBytes.eq_def]
  simp only [if_true]

theorem unescape_plus (rest : List UInt8) : unescape (43 :: rest) = 32 :: unescape rest := by
  rw [unescape.eq_def]
  simp only [if_true]

theorem decodeBytes_cut (h : tail.head?.any continuation = true) : decodeBytes (37 :: high :: low :: tail) = none := by
  rw [decodeBytes,if_neg (by decide),if_pos rfl]
  exact if_pos h

theorem decodeBytes_percent (h : tail.head?.any continuation = false) (hnone : fromStrRadix high low = none) :
    decodeBytes (37 :: high :: low :: tail) = (decodeBytes (high :: low :: tail)).map (37 :: ·) := by
  have hwhole : ¬ (tail.head?.any fun b => 0x80 ≤ b && b ≤ 0xBF) = true := Bool.eq_false_iff.1 h
  rw [decodeBytes,if_neg (by decide),if_pos rfl]
  simp only [hwhole,hnone]
  rw [if_neg Bool.false_ne_true]

theorem decodeBytes_short (h : bytes.length < 2) : decodeBytes (37 :: bytes) = (decodeBytes bytes).map (37 :: ·) := by
  match bytes, h with
  | [], _ => rfl
  | [b], _ =>
    rw [decodeBytes,if_neg (by decide),if_pos rfl]
    exact fun _ _ _ heq => by cases heq

theorem unescape_escape {byte : UInt8} (h : fromStrRadix high low = some byte) :
    unescape (37 :: high :: low :: tail) = byte :: unescape tail := by
  rw [unescape,if_neg (by decide),if_pos rfl]
  simp only [h]

theorem unescape_percent (h : fromStrRadix high low = none) :
    unescape (37 :: high :: low :: tail) = 37 :: unescape (high :: low :: tail) := by
  rw [unescape,if_neg (by decide),if_pos rfl]
  simp only [h]

theorem unescape_short (h : bytes.length < 2) : unescape (37 :: bytes) = 37 :: unescape bytes := by
  match bytes, h with
  | [], _ => rfl
  | [b], _ =>
    rw [unescape,if_neg (by decide),if_pos rfl]
    exact fun _ _ _ heq => by cases heq

/-- The digits of an escape are characters of one byte and no `%`. -/
theorem lt_of_fromStrRadix {byte : UInt8} (h : fromStrRadix high low = some byte) :
    high < 0x80 ∧ low < 0x80 ∧ high ≠ 37 ∧ low ≠ 37 := by
  have hdigit (b : UInt8) (hb : (if b < 128 then Percent.hexValue (Char.ofNat b.toNat) else none).isSome = true) :
      b < 0x80 ∧ b ≠ 37 := by
    split at hb
    · next hlt =>
      refine ⟨hlt,?_⟩
      rintro rfl
      cases hb
    · cases hb
  rw [fromStrRadix] at h
  split at h
  · next hplus =>
    obtain ⟨l,hl,-⟩ := Option.map_eq_some_iff.1 h
    obtain ⟨hlow,hne⟩ := hdigit low (Option.isSome_of_eq_some hl)
    exact ⟨by rw [hplus]; decide,hlow,by rw [hplus]; decide,hne⟩
  · obtain ⟨d,hd,hrest⟩ := Option.bind_eq_some_iff.1 h
    obtain ⟨l,hl,-⟩ := Option.map_eq_some_iff.1 hrest
    obtain ⟨hhigh,hne⟩ := hdigit high (Option.isSome_of_eq_some hd)
    obtain ⟨hlow,hne'⟩ := hdigit low (Option.isSome_of_eq_some hl)
    exact ⟨hhigh,hlow,hne,hne'⟩

end Scan

/-! ## The whole scan -/

/-- The scan reads a text exactly when no slice falls inside a character. -/
def Scanned (cs : List Char) : Prop :=
  decodeBytes (Text.asBytes (String.ofList cs)) =
    if whole cs = true then some (unescape (Text.asBytes (String.ofList cs))) else none

theorem not_special {c : Char} (hplus : c ≠ '+') (hpercent : c ≠ '%') : ∀ b ∈ String.utf8EncodeChar c, b ≠ 43 ∧ b ≠ 37 := by
  intro b hb
  constructor
  · rintro rfl
    exact hplus (Text.eq_of_mem_utf8EncodeChar (a := '+') (by decide) hb).symm
  · rintro rfl
    exact hpercent (Text.eq_of_mem_utf8EncodeChar (a := '%') (by decide) hb).symm

theorem whole_cons {c : Char} (hc : c ≠ '%') (cs : List Char) : whole (c :: cs) = whole cs := by
  simp [whole,hc]

theorem whole_percent (cs : List Char) : whole ('%' :: cs) = (!cut cs && whole cs) := by
  simp [whole]

theorem scanned_plain {c : Char} (hplus : c ≠ '+') (hpercent : c ≠ '%') {cs : List Char} (ih : Scanned cs) : Scanned (c :: cs) := by
  have hbytes := not_special hplus hpercent
  rw [Scanned,Text.asBytes_cons,decodeBytes_plains hbytes,unescape_plains hbytes,whole_cons hpercent,ih]
  split <;> simp

theorem scanned_plus {cs : List Char} (ih : Scanned cs) : Scanned ('+' :: cs) := by
  have hbyte : String.utf8EncodeChar '+' = [43] := by decide
  rw [Scanned,Text.asBytes_cons,hbyte,List.singleton_append,decodeBytes_plus,unescape_plus,whole_cons (by decide),ih]
  split <;> simp

/-- A `%` that begins no escape. -/
theorem scanned_literal {cs : List Char} (hcut : cut cs = false) (ih : Scanned cs)
    (hdecode : decodeBytes (37 :: Text.asBytes (String.ofList cs)) = (decodeBytes (Text.asBytes (String.ofList cs))).map (37 :: ·))
    (hunescape : unescape (37 :: Text.asBytes (String.ofList cs)) = 37 :: unescape (Text.asBytes (String.ofList cs))) :
    Scanned ('%' :: cs) := by
  have hbyte : String.utf8EncodeChar '%' = [37] := by decide
  rw [Scanned,Text.asBytes_cons,hbyte,List.singleton_append,hdecode,hunescape,whole_percent,hcut,ih]
  split <;> simp_all

theorem scanned_cut {cs : List Char} (hcut : cut cs = true)
    (hdecode : decodeBytes (37 :: Text.asBytes (String.ofList cs)) = none) : Scanned ('%' :: cs) := by
  have hbyte : String.utf8EncodeChar '%' = [37] := by decide
  rw [Scanned,Text.asBytes_cons,hbyte,List.singleton_append,hdecode,whole_percent,hcut,if_neg (by simp)]

theorem toNat_one_byte {c : Char} (hc : c.toNat < 0x80) : c.toNat.toUInt8.toNat = c.toNat := by
  rw [Nat.toUInt8_eq,UInt8.toNat_ofNat']
  omega

theorem ne_percent_of_byte {c : Char} (h : c.toNat.toUInt8 ≠ 37) : c ≠ '%' := by
  rintro rfl
  exact h (by decide)

theorem scanned_percent {cs : List Char} (ih : ∀ ds : List Char, ds.length ≤ cs.length → Scanned ds) : Scanned ('%' :: cs) := by
  have hself := ih cs (Nat.le_refl _)
  cases cs with
  | nil => exact scanned_literal rfl hself (decodeBytes_short (by decide)) (unescape_short (by decide))
  | cons c cs =>
    by_cases hc : c.toNat < 0x80
    · have hbytes : Text.asBytes (String.ofList (c :: cs)) = c.toNat.toUInt8 :: Text.asBytes (String.ofList cs) := by
        rw [Text.asBytes_cons,utf8EncodeChar_one hc,List.singleton_append]
      cases cs with
      | nil =>
        have hcut : cut [c] = false := by
          simp only [cut,decide_eq_false_iff_not]
          omega
        have hshort : (Text.asBytes (String.ofList [c])).length < 2 := by
          rw [hbytes]
          exact Nat.lt_succ_self 1
        exact scanned_literal hcut hself (decodeBytes_short hshort) (unescape_short hshort)
      | cons d cs =>
        by_cases hd : d.toNat < 0x80
        · have hcut : cut (c :: d :: cs) = false := by
            simp only [cut,Bool.or_eq_false_iff,Bool.and_eq_false_iff,decide_eq_false_iff_not]
            omega
          rw [Text.asBytes_cons d cs,utf8EncodeChar_one hd,List.singleton_append] at hbytes
          have hhead := head_asBytes cs
          cases hbyte : fromStrRadix c.toNat.toUInt8 d.toNat.toUInt8 with
          | none =>
            refine scanned_literal hcut hself ?_ ?_
            · rw [hbytes,decodeBytes_percent hhead hbyte]
            · rw [hbytes,unescape_percent hbyte]
          | some byte =>
            obtain ⟨-,-,hne,hne'⟩ := lt_of_fromStrRadix hbyte
            have hpercent : String.utf8EncodeChar '%' = [37] := by decide
            have hrest := ih cs (by simp only [List.length_cons]; omega)
            rw [Scanned,Text.asBytes_cons,hpercent,List.singleton_append,hbytes,decodeBytes_escape hhead hbyte,unescape_escape hbyte,
              whole_percent,hcut,whole_cons (ne_percent_of_byte hne),whole_cons (ne_percent_of_byte hne'),hrest]
            split <;> simp_all
        · obtain ⟨b,rest,hb,-,hcont,hne,-⟩ := utf8EncodeChar_more (Nat.not_lt.1 hd)
          obtain ⟨x,rest,rfl⟩ := List.exists_cons_of_ne_nil hne
          have hcut : cut (c :: d :: cs) = true := by
            simp only [cut,Bool.or_eq_true,Bool.and_eq_true,decide_eq_true_eq]
            omega
          refine scanned_cut hcut ?_
          rw [hbytes,Text.asBytes_cons,hb]
          exact decodeBytes_cut (hcont x List.mem_cons_self)
    · obtain ⟨b,rest,hb,hfirst,hcont,hne,hlength⟩ := utf8EncodeChar_more (Nat.not_lt.1 hc)
      obtain ⟨x,rest,rfl⟩ := List.exists_cons_of_ne_nil hne
      have hbytes : Text.asBytes (String.ofList (c :: cs)) = b :: x :: (rest ++ Text.asBytes (String.ofList cs)) := by
        rw [Text.asBytes_cons,hb]
        rfl
      cases rest with
      | nil =>
        have hshort : c.toNat < 0x800 := hlength.1 rfl
        have hcut : cut (c :: cs) = false := by
          cases cs <;> simp only [cut,Bool.or_eq_false_iff,Bool.and_eq_false_iff,decide_eq_false_iff_not] <;> omega
        have hnone : fromStrRadix b x = none := by
          cases hbyte : fromStrRadix b x with
          | none => rfl
          | some byte =>
            have hlt := UInt8.lt_iff_toNat_lt.1 (lt_of_fromStrRadix hbyte).1
            have hle := UInt8.le_iff_toNat_le.1 hfirst
            exact absurd (Nat.lt_of_lt_of_le hlt (show (0x80 : UInt8).toNat ≤ (0xC0 : UInt8).toNat by decide)) (Nat.not_lt.2 hle)
        refine scanned_literal hcut hself ?_ ?_
        · rw [hbytes]
          exact decodeBytes_percent (head_asBytes cs) hnone
        · rw [hbytes,unescape_percent hnone]
      | cons y rest =>
        have hlong : 0x800 ≤ c.toNat := by
          by_contra hlt
          have hone := hlength.2 (Nat.not_le.1 hlt)
          simp at hone
        have hcut : cut (c :: cs) = true := by
          cases cs <;> simp [cut,hlong]
        refine scanned_cut hcut ?_
        rw [hbytes]
        exact decodeBytes_cut (hcont y (by simp))

theorem scanned (cs : List Char) : Scanned cs := by
  induction hlength : cs.length using Nat.strongRecOn generalizing cs with
  | ind length ih =>
    cases cs with
    | nil => rfl
    | cons c cs =>
      have hlt : cs.length < length := by
        rw [← hlength,List.length_cons]
        omega
      have hrest := ih cs.length hlt cs rfl
      by_cases hplus : c = '+'
      · rw [hplus]
        exact scanned_plus hrest
      · by_cases hpercent : c = '%'
        · rw [hpercent]
          exact scanned_percent fun ds hds => ih ds.length (by omega) ds rfl
        · exact scanned_plain hplus hpercent hrest

/-! ## The texts of a query -/

theorem decode_eq (text : String) :
    decode text = if whole text.toList = true then some (Text.fromUtf8Lossy (unescape (Text.asBytes text))) else none := by
  have hscanned := scanned text.toList
  rw [Scanned,String.ofList_toList] at hscanned
  rw [decode,hscanned]
  split <;> rfl

/-- What is decoded of a query: names and values. -/
def pairTexts (pair : String) : List String :=
  match Text.splitOnce '=' pair with
  | some (name,value) => [name,value]
  | none => [pair]

def texts (query : String) : List String := ((Text.split '&' query).filter (· ≠ "")).flatMap pairTexts

theorem parsePair_isSome (pair : String) : (parsePair pair).isSome = (pairTexts pair).all fun text => whole text.toList := by
  rw [parsePair,pairTexts]
  cases Text.splitOnce '=' pair with
  | none =>
    simp only [decode_eq]
    split <;> simp_all
  | some found =>
    simp only [decode_eq]
    split <;> split <;> simp_all

theorem parse_isSome (query : String) : (parse query).isSome = true ↔ ∀ text ∈ texts query, whole text.toList = true := by
  rw [parse,texts]
  generalize (Text.split '&' query).filter (· ≠ "") = pieces
  induction pieces with
  | nil => simp
  | cons piece pieces ih =>
    have hstep : ((piece :: pieces).mapM parsePair).isSome = ((parsePair piece).isSome && (pieces.mapM parsePair).isSome) := by
      rw [List.mapM_cons]
      cases parsePair piece with
      | none => rfl
      | some pair => cases pieces.mapM parsePair <;> rfl
    rw [hstep,Bool.and_eq_true,ih,parsePair_isSome,List.all_eq_true]
    simp only [List.flatMap_cons,List.mem_append,or_imp,forall_and]

/-! ## The calls -/

variable {prims : Primitives} {keys : KeyRing} {now : ℤ} {url : String}

theorem verify_isSome : (verify prims keys now url).isSome = (parse (split url).2).isSome := by
  rw [verify]
  simp only [valueOf,canonical]
  cases parse (split url).2 with
  | none => rfl
  | some pairs =>
    simp only [Option.map_some,Option.bind_eq_bind,Option.bind_some]
    split
    · rfl
    · split
      · rfl
      · split
        · rfl
        · split <;> rfl

theorem attach_isSome (expiresAt : Option ℤ) : (attach prims keys url expiresAt).isSome = (parse (split url).2).isSome := by
  have htext : (attachText url expiresAt).isSome = (parse (split url).2).isSome := by
    rw [attachText]
    simp only [canonical,parse_encode]
    generalize parse (split url).2 = parsed
    cases parsed <;> simp
  rw [attach,← htext]
  cases attachText url expiresAt <;> rfl

theorem signatureFor_isSome : (signatureFor prims keys url).isSome = (parse (split url).2).isSome := by
  rw [signatureFor,canonical]
  simp

/-- The calls come back, and what is no escape stays as it is. -/
structure Returns (prims : Primitives) (keys : KeyRing) (now : ℤ) (url : String) : Prop where
  verify : (verify prims keys now url).isSome = true
  attach : ∀ expiresAt, (attach prims keys url expiresAt).isSome = true
  signatureFor : (signatureFor prims keys url).isSome = true
  decode : ∀ text ∈ texts (split url).2, decode text = some (Text.fromUtf8Lossy (unescape (Text.asBytes text)))

/-- The calls come back exactly when no escape of a name or value is cut inside a character. -/
theorem returns_iff (prims : Primitives) (keys : KeyRing) (now : ℤ) (url : String) :
    Returns prims keys now url ↔ ∀ text ∈ texts (split url).2, whole text.toList = true := by
  constructor
  · intro h
    rw [← parse_isSome,← verify_isSome]
    exact h.verify
  · intro h
    have hparse := (parse_isSome (split url).2).2 h
    refine ⟨?_,fun expiresAt => ?_,?_,fun text htext => ?_⟩
    · rw [verify_isSome,hparse]
    · rw [attach_isSome,hparse]
    · rw [signatureFor_isSome,hparse]
    · rw [decode_eq,if_pos (h text htext)]

/-- After a `%` and a letter the slice ends inside the next character. -/
theorem verify_panics : verify openPrims zeroRing 0 "/?a=%aé" = none := by
  have hcut : ∃ text ∈ texts (split "/?a=%aé").2, whole text.toList = false := by decide
  obtain ⟨text,htext,hwhole⟩ := hcut
  rw [← Option.not_isSome_iff_eq_none,verify_isSome,parse_isSome]
  intro h
  rw [h text htext] at hwhole
  cases hwhole

end Rainier.Crypt.UrlSigner
