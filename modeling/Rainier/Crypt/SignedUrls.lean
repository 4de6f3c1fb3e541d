import Rainier.Crypt.UrlSigner
import Mathlib.Data.List.Perm.Basic
import Mathlib.Data.List.TakeWhile

/-! # What a signed URL authorises

The tagged text determines the path it was made of, up to what `pathOf` removes, and the
pairs of the query, up to their order. So a URL that verifies says what some signed URL
says, unless a path that begins with a slash has something removed.
-/
namespace Rainier.Crypt.UrlSigner
open Rainier

/-! ## Escapes -/

/-- ASCII characters as bytes. -/
def bytesOf (cs : List Char) : List UInt8 := cs.map fun c => c.toNat.toUInt8

theorem lt_of_plain {c : Char} (h : Percent.plain reserved c = true) : c.toNat < 128 := by
  have hle : ∀ {d : Char}, decide (c ≤ d) = true → d.toNat < 128 → c.toNat < 128 :=
    fun hd hlt => Nat.lt_of_le_of_lt (of_decide_eq_true hd) hlt
  simp only [Percent.plain,reserved,Bool.or_eq_true,Bool.and_eq_true,decide_eq_true_eq,Bool.not_not] at h
  rcases h with ((h | h) | h) | ((((((h | h) | h) | h) | h) | h) | h)
  all_goals first
    | exact hle (decide_eq_true h.2) (by decide)
    | (rw [h]; decide)

theorem not_mem_percentEncode {c : Char} (hc : Percent.plain reserved c = false) (value : String) :
    c ∉ (percentEncode value).toList := by
  exact PercentEncoding.standard.not_mem_encode hc value

/-- Both digits of an escape, read back. -/
theorem fromStrRadix_hexDigit (b : UInt8) :
    fromStrRadix (Percent.hexDigit (b.toNat / 16)).toNat.toUInt8 (Percent.hexDigit (b.toNat % 16)).toNat.toUInt8 = some b := by
  have hall : ∀ h < 16, ∀ l < 16, fromStrRadix (Percent.hexDigit h).toNat.toUInt8 (Percent.hexDigit l).toNat.toUInt8 =
      some (UInt8.ofNat (h * 16 + l)) := by decide
  have hb := b.toNat_lt
  rw [hall _ (by omega) _ (by omega),Nat.div_add_mod' b.toNat 16,UInt8.ofNat_toNat]

theorem decodeBytes_plain {b : UInt8} (hplus : b ≠ 43) (hpercent : b ≠ 37) (rest : List UInt8) :
    decodeBytes (b :: rest) = (decodeBytes rest).map (b :: ·) := by
  rw [decodeBytes.eq_def]
  simp only [hplus,hpercent,if_false]

theorem decodeBytes_escape {high low byte : UInt8} {tail : List UInt8}
    (htail : tail.head?.any (fun b => 0x80 ≤ b && b ≤ 0xBF) = false) (hbyte : fromStrRadix high low = some byte) :
    decodeBytes (37 :: high :: low :: tail) = (decodeBytes tail).map (byte :: ·) := by
  rw [decodeBytes,if_neg (by decide),if_pos rfl]
  simp only [htail,hbyte,Bool.false_eq_true,if_false]

theorem decodeBytes_encodeByte (b : UInt8) {rest : List Char} (hrest : ∀ c ∈ rest, c.toNat < 128) :
    decodeBytes (bytesOf (Percent.encodeByte reserved b ++ rest)) = (decodeBytes (bytesOf rest)).map (b :: ·) := by
  have hhead : (bytesOf rest).head?.any (fun b => 0x80 ≤ b && b ≤ 0xBF) = false := by
    cases rest with
    | nil => rfl
    | cons c rest =>
      have hc := hrest c List.mem_cons_self
      have hlt : ¬ (0x80 : UInt8) ≤ c.toNat.toUInt8 := by
        rw [UInt8.le_iff_toNat_le]
        simp only [Nat.toUInt8_eq,UInt8.toNat_ofNat']
        change ¬ 128 ≤ c.toNat % 256
        omega
      simp [bytesOf,hlt]
  rw [Percent.encodeByte]
  split
  · exact decodeBytes_escape hhead (fromStrRadix_hexDigit b)
  · next hplain =>
    rw [not_or,Nat.not_le] at hplain
    have hchar : (Char.ofNat b.toNat).toNat.toUInt8 = b := by
      have hall : ∀ n < 128, (Char.ofNat n).toNat.toUInt8 = UInt8.ofNat n := by decide
      rw [hall _ hplain.1,UInt8.ofNat_toNat]
    have hplus : b ≠ 43 := by
      rintro rfl
      exact hplain.2 rfl
    have hpercent : b ≠ 37 := by
      rintro rfl
      exact hplain.2 rfl
    have hbytes : bytesOf ([Char.ofNat b.toNat] ++ rest) = b :: bytesOf rest := by
      rw [bytesOf,List.singleton_append,List.map_cons,hchar]
      rfl
    rw [hbytes,decodeBytes_plain hplus hpercent]

theorem decodeBytes_encode (bytes : List UInt8) :
    decodeBytes (bytesOf (bytes.flatMap (Percent.encodeByte reserved))) = some bytes := by
  induction bytes with
  | nil => rfl
  | cons b bytes ih =>
    have hrest : ∀ c ∈ bytes.flatMap (Percent.encodeByte reserved), c.toNat < 128 := by
      intro c hc
      obtain ⟨b,_,hb⟩ := List.mem_flatMap.mp hc
      exact lt_of_plain (List.all_eq_true.mp (Percent.plain_encodeByte reserved b) c hb)
    rw [List.flatMap_cons,decodeBytes_encodeByte b hrest,ih,Option.map_some]

theorem decode_percentEncode (value : String) : decode (percentEncode value) = some value := by
  have hascii : ∀ c ∈ (Text.asBytes value).flatMap (Percent.encodeByte reserved), c.toNat < 128 := by
    intro c hc
    obtain ⟨b,_,hb⟩ := List.mem_flatMap.mp hc
    exact lt_of_plain (List.all_eq_true.mp (Percent.plain_encodeByte reserved b) c hb)
  have hbytes : Text.asBytes (percentEncode value) = bytesOf ((Text.asBytes value).flatMap (Percent.encodeByte reserved)) :=
    Text.asBytes_ascii hascii
  rw [decode,hbytes,decodeBytes_encode,Option.map_some,Text.fromUtf8Lossy_asBytes]

/-! ## The query -/

theorem parsePair_encodePair (pair : String × String) : parsePair (encodePair pair) = some pair := by
  have hsplit : Text.splitOnce '=' (encodePair pair) = some (percentEncode pair.1,percentEncode pair.2) :=
    Text.splitOnce_append (not_mem_percentEncode (by decide) pair.1) _
  rw [parsePair,hsplit]
  simp [decode_percentEncode]

theorem encodePair_ne_empty (pair : String × String) : encodePair pair ≠ "" := by
  intro h
  have hlist := String.toList_inj.mpr h
  simp [encodePair] at hlist

theorem not_mem_encodePair {c : Char} (hc : Percent.plain reserved c = false) (heq : c ≠ '=') (pair : String × String) :
    c ∉ (encodePair pair).toList := by
  simp [encodePair,not_mem_percentEncode hc,heq]

/-- The query of pairs parses to the pairs. -/
theorem parse_encode (pairs : Pairs) : parse (encode pairs) = some pairs := by
  have hmap : (pairs.map encodePair).mapM parsePair = some pairs := by
    induction pairs with
    | nil => rfl
    | cons pair pairs ih =>
      rw [List.map_cons,List.mapM_cons,parsePair_encodePair,ih]
      rfl
  have hpieces : (Text.split '&' (encode pairs)).filter (· ≠ "") = pairs.map encodePair := by
    cases pairs with
    | nil => rfl
    | cons pair pairs =>
      have hamp : ∀ p ∈ (pair :: pairs).map encodePair, '&' ∉ p.toList := by
        intro p hp
        obtain ⟨q,_,rfl⟩ := List.mem_map.mp hp
        exact not_mem_encodePair (by decide) (by decide) q
      rw [encode,Text.split_join (by simp) hamp,List.filter_eq_self]
      intro p hp
      obtain ⟨q,_,rfl⟩ := List.mem_map.mp hp
      exact decide_eq_true (encodePair_ne_empty q)
  rw [parse,hpieces,hmap]

theorem valueOf_encode (pairs : Pairs) (name : String) :
    valueOf (encode pairs) name = some ((pairs.find? (·.1 == name)).map Prod.snd) := by
  rw [valueOf,parse_encode,Option.map_some]

theorem canonical_encode (path : String) (pairs : Pairs) :
    canonical path (encode pairs) = some (pathOf path ++ "?" ++ encode (sorted (unsigned pairs))) := by
  rw [canonical,parse_encode,Option.map_some]

/-! ## The path -/

theorem after_eq_none {sep cs : List Char} (hsep : sep ≠ []) : after sep cs = none ↔ ¬ sep <:+: cs := by
  induction cs with
  | nil => simp [after,hsep]
  | cons c cs ih =>
    rw [after,List.infix_cons_iff]
    split
    · next hstart => simp [hstart]
    · next hstart => simp [hstart,ih]

theorem after_suffix {sep cs rest : List Char} (h : after sep cs = some rest) :
    rest <:+ cs ∧ rest.length + sep.length ≤ cs.length := by
  induction cs with
  | nil =>
    rw [after] at h
    split at h
    · next hsep =>
      cases h
      simp [List.isEmpty_iff.mp hsep]
    · cases h
  | cons c cs ih =>
    rw [after] at h
    split at h
    · next hstart =>
      cases h
      have hle := hstart.length_le
      refine ⟨List.drop_suffix _ _,?_⟩
      rw [List.length_drop]
      omega
    · obtain ⟨hsuffix,hlength⟩ := ih h
      refine ⟨hsuffix.trans (List.suffix_cons c cs),?_⟩
      rw [List.length_cons]
      omega

/-- There is something between a scheme and a path to be removed. -/
def HasScheme (path : String) : Prop := "://".toList <:+: path.toList

instance (path : String) : Decidable (HasScheme path) := inferInstanceAs (Decidable (_ <:+: _))

theorem pathOf_eq_self {path : String} (h : ¬ HasScheme path) : pathOf path = path := by
  rw [pathOf,(after_eq_none (by decide)).mpr h]

/-- What is left begins with a slash, is shorter, and has no other characters. -/
theorem pathOf_of_hasScheme {path : String} (h : HasScheme path) :
    (pathOf path).toList.head? = some '/' ∧ pathOf path ≠ path ∧
      ∀ c ∈ (pathOf path).toList, c = '/' ∨ c ∈ path.toList := by
  have hlong : 3 ≤ path.toList.length := h.length_le
  cases hafter : after "://".toList path.toList with
  | none => exact absurd h ((after_eq_none (by decide)).mp hafter)
  | some rest =>
    obtain ⟨hsuffix,hlength⟩ := after_suffix hafter
    cases hfound : rest.dropWhile (· ≠ '/') with
    | nil =>
      have hpath : pathOf path = "/" := by simp only [pathOf,hafter,hfound]
      rw [hpath]
      refine ⟨rfl,fun heq => ?_,fun c hc => .inl (by simpa using hc)⟩
      rw [← heq] at hlong
      exact absurd hlong (by decide)
    | cons c found =>
      have hshort : (c :: found).length ≤ rest.length := by
        rw [← hfound]
        exact (List.dropWhile_suffix _).length_le
      have hslash : c = '/' := by
        have hhead := List.head?_dropWhile_not (· ≠ '/') rest
        rw [hfound] at hhead
        simpa using hhead
      have hpath : pathOf path = String.ofList (c :: found) := by simp only [pathOf,hafter,hfound]
      rw [hpath,String.toList_ofList]
      refine ⟨by rw [hslash]; rfl,fun heq => ?_,fun d hd => .inr ?_⟩
      · have hlist := congrArg (List.length ∘ String.toList) heq
        simp only [Function.comp_apply,String.toList_ofList] at hlist
        have hthree : "://".toList.length = 3 := rfl
        omega
      · rw [← hfound] at hd
        exact hsuffix.subset ((List.dropWhile_suffix _).subset hd)

theorem question_not_mem_pathOf {path : String} (h : '?' ∉ path.toList) : '?' ∉ (pathOf path).toList := by
  by_cases hscheme : HasScheme path
  · intro hmem
    rcases (pathOf_of_hasScheme hscheme).2.2 '?' hmem with heq | hmem
    · cases heq
    · exact h hmem
  · rw [pathOf_eq_self hscheme]
    exact h

theorem split_fst_no_question (url : String) : '?' ∉ (split url).1.toList := by
  rw [split]
  cases h : Text.splitOnce '?' url with
  | some r => exact (Text.splitOnce_eq_some h).1
  | none =>
    rw [Text.splitOnce] at h
    split at h
    · next hnil =>
      rw [List.dropWhile_eq_nil_iff] at hnil
      intro hmem
      simpa using hnil '?' hmem
    · cases h

theorem split_append {path : String} (h : '?' ∉ path.toList) (query : String) : split (path ++ "?" ++ query) = (path,query) := by
  have hsplit : Text.splitOnce '?' (path ++ "?" ++ query) = some (path,query) := Text.splitOnce_append h query
  rw [split,hsplit]
  rfl

/-! ## The tagged text -/

theorem canonical_eq_some {path query text : String} : canonical path query = some text ↔
    ∃ pairs, parse query = some pairs ∧ pathOf path ++ "?" ++ encode (sorted (unsigned pairs)) = text :=
  Option.map_eq_some_iff

/-- Texts that are the same come from the same path and the same pairs. -/
theorem canonical_inj {path path' query query' text : String} (hpath : '?' ∉ path.toList) (hpath' : '?' ∉ path'.toList)
    (h : canonical path query = some text) (h' : canonical path' query' = some text) :
    pathOf path = pathOf path' ∧ ∃ pairs pairs', parse query = some pairs ∧ parse query' = some pairs' ∧
      (unsigned pairs).Perm (unsigned pairs') := by
  obtain ⟨pairs,hpairs,htext⟩ := canonical_eq_some.mp h
  obtain ⟨pairs',hpairs',htext'⟩ := canonical_eq_some.mp h'
  have hsplit := split_append (question_not_mem_pathOf hpath) (encode (sorted (unsigned pairs)))
  rw [htext,← htext',split_append (question_not_mem_pathOf hpath') (encode (sorted (unsigned pairs')))] at hsplit
  obtain ⟨hsame,hencode⟩ := Prod.mk.inj hsplit
  refine ⟨hsame.symm,pairs,pairs',hpairs,hpairs',?_⟩
  have hsorted : sorted (unsigned pairs') = sorted (unsigned pairs) := by
    have hparse := congrArg parse hencode
    rw [parse_encode,parse_encode] at hparse
    exact Option.some_inj.mp hparse
  calc (unsigned pairs).Perm (sorted (unsigned pairs)) := (List.perm_insertionSort _ _).symm
    _ = sorted (unsigned pairs') := hsorted.symm
    List.Perm _ (unsigned pairs') := List.perm_insertionSort _ _

/-! ## What is attached -/

theorem encodeByte_unreserved {c : Char} (hc : c.toNat < 128) (h : reserved c = false) :
    Percent.encodeByte reserved c.toNat.toUInt8 = [c] := by
  have hbyte : c.toNat.toUInt8.toNat = c.toNat := by
    simp only [Nat.toUInt8_eq,UInt8.toNat_ofNat']
    omega
  rw [Percent.encodeByte,hbyte,Char.ofNat_toNat,if_neg]
  rw [not_or]
  exact ⟨by omega,by simp [h]⟩

/-- A text of unreserved characters is encoded as itself. -/
theorem percentEncode_eq_self {cs : List Char} (h : ∀ c ∈ cs, c.toNat < 128 ∧ reserved c = false) :
    percentEncode (String.ofList cs) = String.ofList cs := by
  rw [percentEncode,Percent.encode,Text.asBytes_ascii fun c hc => (h c hc).1,List.flatMap_map]
  congr 1
  induction cs with
  | nil => rfl
  | cons c cs ih =>
    rw [List.forall_mem_cons] at h
    rw [List.flatMap_cons,encodeByte_unreserved h.1.1 h.1.2,ih h.2]
    rfl

theorem unreserved_of_isSymbol {c : Char} (h : Base64.isSymbol c = true) : c.toNat < 128 ∧ reserved c = false := by
  have hres : reserved c = false := by
    simp only [Base64.isSymbol,Bool.or_eq_true] at h
    simp only [reserved,Bool.not_eq_false',Bool.or_eq_true]
    tauto
  refine ⟨lt_of_plain ?_,hres⟩
  simp [Percent.plain,hres]

section Keys
variable {prims : Primitives} {keys : KeyRing}

theorem percentEncode_tag {text signature : String} (h : tag prims keys text = .ok signature) :
    percentEncode signature = signature := by
  obtain ⟨detached,_,hok⟩ := bind_eq_ok.mp h
  cases hok
  have hchars := List.all_eq_true.mp (prims.base64.isSymbol_encode (Text.asBytes detached))
  have hself := percentEncode_eq_self fun c hc => unreserved_of_isSymbol (hchars c hc)
  rwa [String.ofList_toList] at hself

theorem verifyTag_tag {text signature : String} (h : tag prims keys text = .ok signature) :
    verifyTag prims keys text signature = true := by
  obtain ⟨detached,hdetached,hok⟩ := bind_eq_ok.mp h
  cases hok
  rw [verifyTag,prims.base64.decode_encode,Option.bind_some,Text.fromUtf8_asBytes]
  exact HmacSigner.verifyDetached_detachedTag hdetached

/-- The signature is one more pair. -/
theorem encode_concat {signature : String} (h : percentEncode signature = signature) (pairs : Pairs) :
    encode pairs ++ (if (encode pairs).isEmpty then "" else "&") ++ "signature=" ++ signature =
      encode (pairs ++ [("signature",signature)]) := by
  have hpair : encodePair ("signature",signature) = "signature=" ++ signature := by
    have hname : percentEncode "signature" = "signature" := by decide
    rw [encodePair,hname,h]
    rfl
  rw [encode,encode,List.map_append,List.map_singleton,hpair]
  cases pairs with
  | nil => simp [Text.join_singleton]
  | cons pair pairs =>
    have hne : (Text.join '&' ((pair :: pairs).map encodePair)).isEmpty = false := by
      rw [String.isEmpty_eq_false_iff]
      intro hempty
      have hparse := parse_encode (pair :: pairs)
      rw [encode,hempty] at hparse
      cases hparse
    rw [hne,Text.join_concat (by simp)]
    simp only [Bool.false_eq_true,if_false,String.append_assoc]
    rfl

theorem attach_eq_ok {url s : String} {expiresAt : Option ℤ} (h : attach prims keys url expiresAt = some (.ok s)) :
    ∃ pairs text signature, parse (split url).2 = some pairs ∧
      attachText url expiresAt = some (encode (attachPairs pairs expiresAt),text) ∧
      canonical (split url).1 (encode (attachPairs pairs expiresAt)) = some text ∧
      tag prims keys text = .ok signature ∧
      s = (split url).1 ++ "?" ++ encode (attachPairs pairs expiresAt ++ [("signature",signature)]) := by
  obtain ⟨⟨query,text⟩,htext,hok⟩ := Option.bind_eq_some_iff.mp h
  obtain ⟨pairs,hpairs,hrest⟩ := Option.bind_eq_some_iff.mp htext
  obtain ⟨text',hcanonical,heq⟩ := Option.bind_eq_some_iff.mp hrest
  cases heq
  obtain ⟨signature,hsignature,hs⟩ := bind_eq_ok.mp (Option.some_inj.mp hok)
  cases hs
  refine ⟨pairs,text,signature,hpairs,htext,hcanonical,hsignature,?_⟩
  rw [← encode_concat (percentEncode_tag hsignature)]
  simp only [String.append_assoc]

/-- Signing leaves the path as it was. -/
theorem split_attach {url s : String} {expiresAt : Option ℤ} (h : attach prims keys url expiresAt = some (.ok s)) :
    (split s).1 = (split url).1 := by
  obtain ⟨_,_,_,_,_,_,_,rfl⟩ := attach_eq_ok h
  rw [split_append (split_fst_no_question url)]

/-- What verifying comes down to. -/
theorem verify_eq_ok {now : ℤ} {url : String} (h : verify prims keys now url = some (.ok ())) :
    ∃ provided text, valueOf (split url).2 "signature" = some (some provided) ∧
      canonical (split url).1 (split url).2 = some text ∧ verifyTag prims keys text provided = true ∧
      ∀ value, valueOf (split url).2 "expires" = some (some value) →
        ∃ e, Text.parseInt (-2 ^ 63) (2 ^ 63 - 1) value = some e ∧ now ≤ e := by
  obtain ⟨first,hfirst,h⟩ := Option.bind_eq_some_iff.mp h
  cases first with
  | none => cases h
  | some provided =>
    obtain ⟨text,htext,h⟩ := Option.bind_eq_some_iff.mp h
    refine ⟨provided,text,hfirst,htext,?_⟩
    split at h
    · cases h
    · next htag =>
      refine ⟨by simpa using htag,fun value hvalue => ?_⟩
      obtain ⟨found,hfound,h⟩ := Option.bind_eq_some_iff.mp h
      have heq : found = some value := Option.some_inj.mp (hfound.symm.trans hvalue)
      subst heq
      dsimp only at h
      split at h
      · cases h
      · next e he =>
        refine ⟨e,he,?_⟩
        split at h
        · cases h
        · next hnow => exact Int.not_lt.mp hnow

end Keys

/-! ## What is authorised -/

/-- A call of `sign`, or of `sign_until` with an expiry. -/
structure Request where
  url : String
  expiresAt : Option ℤ
  fits : ∀ e, expiresAt = some e → -2 ^ 63 ≤ e ∧ e ≤ 2 ^ 63 - 1

/-- The path of a URL; one that begins with a slash has no scheme and no authority. -/
def ownPath (path : String) : String := if path.toList.head? = some '/' then path else pathOf path

/-- No path that begins with a slash has something for `pathOf` to remove. -/
def Request.Plain (r : Request) : Prop := (split r.url).1.toList.head? = some '/' → ¬ HasScheme (split r.url).1

/-- The tag a URL carries verifies for a text only if the ring made a tag for it when it
signed one of the URLs. -/
def Unforged (prims : Primitives) (keys : KeyRing) (requests : List Request) (u : String) : Prop :=
  ∀ provided, valueOf (split u).2 "signature" = some (some provided) → ∀ text, verifyTag prims keys text provided = true →
    ∃ r ∈ requests, (∃ s, attach prims keys r.url r.expiresAt = some (.ok s)) ∧
      ∃ query, attachText r.url r.expiresAt = some (query,text)

/-- A signed URL has the path of `u` and its pairs, and has not expired. -/
def Authorised (prims : Primitives) (keys : KeyRing) (requests : List Request) (now : ℤ) (u : String) : Prop :=
  ∃ r ∈ requests, ∃ s, attach prims keys r.url r.expiresAt = some (.ok s) ∧
    (split u).1 = ownPath (split s).1 ∧
    (∃ pairs pairs', parse (split u).2 = some pairs ∧ parse (split s).2 = some pairs' ∧
      (unsigned pairs).Perm (unsigned pairs')) ∧
    ∀ e, r.expiresAt = some e → now ≤ e

theorem eq_of_mem_attachPairs {pairs : Pairs} {expiresAt : Option ℤ} {pair : String × String}
    (h : pair ∈ attachPairs pairs expiresAt) (hname : pair.1 = "expires") :
    ∃ e, expiresAt = some e ∧ pair = ("expires",e.repr) := by
  rw [attachPairs,List.mem_append] at h
  rcases h with h | h
  · simp only [List.mem_filter,decide_eq_true_eq] at h
    exact absurd hname h.2.2
  · obtain ⟨e,he,rfl⟩ := Option.map_eq_some_iff.mp (Option.mem_toList.mp h)
    exact ⟨e,he,rfl⟩

/-- With an expiry attached, it is the only one. -/
theorem find_expires {pairs signed : Pairs} {e : ℤ} (h : (unsigned signed).Perm (unsigned (attachPairs pairs (some e)))) :
    (signed.find? (·.1 == "expires")).map Prod.snd = some e.repr := by
  have hmem : ("expires",e.repr) ∈ signed := by
    have hattached : ("expires",e.repr) ∈ unsigned (attachPairs pairs (some e)) := by
      simp [unsigned,attachPairs]
    exact List.mem_of_mem_filter (h.mem_iff.mpr hattached)
  have hsome : (signed.find? (·.1 == "expires")).isSome = true := by
    rw [List.find?_isSome]
    exact ⟨_,hmem,rfl⟩
  obtain ⟨pair,hpair⟩ := Option.isSome_iff_exists.mp hsome
  have hname : pair.1 = "expires" := by simpa using List.find?_some hpair
  have hunsigned : pair ∈ unsigned signed := by
    refine List.mem_filter.mpr ⟨List.mem_of_find?_eq_some hpair,?_⟩
    simp [hname]
  obtain ⟨e',he',rfl⟩ := eq_of_mem_attachPairs (List.mem_of_mem_filter (h.mem_iff.mp hunsigned)) hname
  cases he'
  rw [hpair]
  rfl

theorem unsigned_concat (pairs : Pairs) (expiresAt : Option ℤ) (signature : String) :
    unsigned (attachPairs pairs expiresAt ++ [("signature",signature)]) = unsigned (attachPairs pairs expiresAt) := by
  simp [unsigned]

/-- A URL that verifies is authorised by a signed one, if neither has a path that looks absolute and is not. -/
theorem authorised_of_verify {prims : Primitives} {keys : KeyRing} {requests : List Request} {now : ℤ} {u : String}
    (hplain : ∀ r ∈ requests, r.Plain) (hpath : ¬ HasScheme (split u).1) (hunforged : Unforged prims keys requests u)
    (h : verify prims keys now u = some (.ok ())) : Authorised prims keys requests now u := by
  obtain ⟨provided,text,hprovided,htext,htag,hexpires⟩ := verify_eq_ok h
  obtain ⟨r,hr,⟨s,hs⟩,query,hquery⟩ := hunforged provided hprovided text htag
  obtain ⟨pairs,text',signature,hpairs,hattached,hcanonical,hsignature,hurl⟩ := attach_eq_ok hs
  rw [hattached] at hquery
  cases hquery
  obtain ⟨hsame,signed,attached,hsigned,hparse,hperm⟩ :=
    canonical_inj (split_fst_no_question u) (split_fst_no_question r.url) htext hcanonical
  rw [parse_encode] at hparse
  cases hparse
  have hsplit : split s = ((split r.url).1,encode (attachPairs pairs r.expiresAt ++ [("signature",signature)])) := by
    rw [hurl,split_append (split_fst_no_question r.url)]
  refine ⟨r,hr,s,hs,?_,⟨signed,_,hsigned,by rw [hsplit,parse_encode],?_⟩,fun e he => ?_⟩
  · rw [hsplit,ownPath]
    rw [pathOf_eq_self hpath] at hsame
    split
    · next hslash => rw [hsame,pathOf_eq_self (hplain r hr hslash)]
    · exact hsame
  · rw [unsigned_concat]
    exact hperm
  · rw [he] at hperm
    have hvalue : valueOf (split u).2 "expires" = some (some e.repr) := by
      rw [valueOf,hsigned,Option.map_some,find_expires hperm]
    obtain ⟨e',he',hnow⟩ := hexpires _ hvalue
    obtain ⟨hlo,hhi⟩ := r.fits e he
    rw [Text.parseInt_repr hlo hhi] at he'
    cases he'
    exact hnow

/-! ## When nothing but the path goes wrong -/

section Forging
variable {prims : Primitives} {keys : KeyRing}

/-- With a MAC that tells messages apart, a tag verifies for its own text alone. -/
theorem eq_of_verifyTag (hinj : ∀ key m m' t, prims.hmac key m = some t → prims.hmac key m' = some t → m = m')
    {text text' signature : String} (h : tag prims keys text = .ok signature)
    (hverify : verifyTag prims keys text' signature = true) : text' = text := by
  obtain ⟨detached,hdetached,hok⟩ := bind_eq_ok.mp h
  cases hok
  obtain ⟨bytes,hbytes,hok⟩ := bind_eq_ok.mp hdetached
  cases hok
  have hfind : keys.find prims (keys.current.id prims) = some keys.current := by
    rw [KeyRing.find,KeyRing.all,List.find?_cons_of_pos (by simp)]
  have hsplit : Text.splitOnce '.' (keys.current.id prims ++ "." ++ prims.base64.encode bytes) =
      some (keys.current.id prims,prims.base64.encode bytes) := Text.splitOnce_append (HmacSigner.dot_not_mem_id _) _
  rw [verifyTag,prims.base64.decode_encode,Option.bind_some,Text.fromUtf8_asBytes] at hverify
  simp only [HmacSigner.verifyDetached,hsplit,hfind,prims.base64.decode_encode] at hverify
  -- both messages have the same tag
  have hmac : ∀ value bytes, HmacSigner.tag prims keys.current value = .ok bytes → prims.hmac keys.current.bytes
      (Text.asBytes (keys.current.id prims) ++ Text.asBytes "." ++ Text.asBytes value) = some bytes := by
    intro value bytes hvalue
    rw [HmacSigner.tag] at hvalue
    split at hvalue
    · next heq =>
      cases hvalue
      exact heq
    · cases hvalue
  split at hverify
  · next expected presented hexpected hpresented =>
    cases hpresented
    rw [beq_iff_eq] at hverify
    subst hverify
    have hsame := hinj _ _ _ _ (hmac _ _ hexpected) (hmac _ _ hbytes)
    exact Text.asBytes_injective (List.append_cancel_left hsame)
  · cases hverify

theorem unforged_of_signature (hinj : ∀ key m m' t, prims.hmac key m = some t → prims.hmac key m' = some t → m = m')
    {r : Request} {s query text signature u : String} (hs : attach prims keys r.url r.expiresAt = some (.ok s))
    (htext : attachText r.url r.expiresAt = some (query,text)) (hsignature : tag prims keys text = .ok signature)
    (hu : valueOf (split u).2 "signature" = some (some signature)) : Unforged prims keys [r] u := by
  intro provided hprovided text' hverify
  rw [hu] at hprovided
  cases hprovided
  rw [eq_of_verifyTag hinj hsignature hverify]
  exact ⟨r,List.mem_singleton_self r,⟨s,hs⟩,query,htext⟩

theorem attach_of_tag {url query text signature : String} {expiresAt : Option ℤ}
    (htext : attachText url expiresAt = some (query,text)) (htag : tag prims keys text = .ok signature) :
    attach prims keys url expiresAt =
      some (.ok ((split url).1 ++ "?" ++ query ++ (if query.isEmpty then "" else "&") ++ "signature=" ++ signature)) := by
  rw [attach,htext]
  change some (tag prims keys text >>= _) = _
  rw [htag]
  rfl

theorem verify_of_signature {now : ℤ} {url provided text : String}
    (hprovided : valueOf (split url).2 "signature" = some (some provided))
    (htext : canonical (split url).1 (split url).2 = some text) (htag : verifyTag prims keys text provided = true)
    (hexpires : valueOf (split url).2 "expires" = some none) : verify prims keys now url = some (.ok ()) := by
  rw [verify]
  simp [hprovided,htext,htag,hexpires]

end Forging

/-- A MAC that is the message, and a key of zeros. -/
def openPrims : Primitives where
  base64 := .standard
  sha256 _ := []
  hmac _ message := some message

def zeroRing : KeyRing := ⟨⟨List.replicate 32 0,List.length_replicate⟩,[]⟩

theorem openPrims_inj : ∀ key m m' t, openPrims.hmac key m = some t → openPrims.hmac key m' = some t → m = m' :=
  fun _ _ _ _ h h' => Option.some_inj.mp (h.trans h'.symm)

theorem tag_openPrims (text : String) : ∃ signature, tag openPrims zeroRing text = .ok signature := ⟨_,rfl⟩

/-- A request for an absolute URL with the given path, whose text is the path and no query. -/
theorem attachText_absolute {path : String} (hslash : path.toList.head? = some '/') (hquestion : '?' ∉ path.toList) :
    split ("h://h" ++ path) = ("h://h" ++ path,"") ∧ pathOf ("h://h" ++ path) = path ∧
      attachText ("h://h" ++ path) none = some ("",path ++ "?") := by
  obtain ⟨rest,hrest⟩ : ∃ rest, path.toList = '/' :: rest := by
    cases hlist : path.toList with
    | nil =>
      rw [hlist] at hslash
      cases hslash
    | cons c rest =>
      rw [hlist] at hslash
      cases hslash
      exact ⟨rest,rfl⟩
  have hlist : ("h://h" ++ path).toList = 'h' :: ':' :: '/' :: '/' :: 'h' :: '/' :: rest := by
    rw [String.toList_append,hrest]
    rfl
  have hsplit : split ("h://h" ++ path) = ("h://h" ++ path,"") := by
    have hnone : Text.splitOnce '?' ("h://h" ++ path) = none := by
      have hdrop : ("h://h" ++ path).toList.dropWhile (· ≠ '?') = [] := by
        rw [List.dropWhile_eq_nil_iff]
        intro c hc
        rw [String.toList_append,List.mem_append] at hc
        refine decide_eq_true ?_
        rintro rfl
        rcases hc with hc | hc
        · exact absurd hc (by decide)
        · exact hquestion hc
      rw [Text.splitOnce,hdrop]
    rw [split,hnone]
    rfl
  have hpath : pathOf ("h://h" ++ path) = path := by
    have hafter : after "://".toList ("h://h" ++ path).toList = some ('h' :: '/' :: rest) := by
      rw [hlist]
      simp [after]
    have hback : String.ofList ('/' :: rest) = path := by
      rw [← hrest,String.ofList_toList]
    have hdrop : ('h' :: '/' :: rest).dropWhile (· ≠ '/') = '/' :: rest := by simp
    simp only [pathOf,hafter,hdrop]
    exact hback
  refine ⟨hsplit,hpath,?_⟩
  have hcanonical : canonical ("h://h" ++ path) "" = some (path ++ "?") := by
    rw [canonical_eq_some]
    refine ⟨[],rfl,?_⟩
    rw [hpath]
    simp [unsigned,sorted,encode]
  rw [attachText,hsplit]
  change (canonical ("h://h" ++ path) "").bind (fun text => some ("",text)) = _
  rw [hcanonical]
  rfl

/-- Whatever was signed, by whatever keys and at whatever time, a URL with the path `p`
that verifies is authorised by one of the signed URLs: just when `p` has nothing for
`pathOf` to remove. -/
theorem verify_authorises_iff (p : String) (hslash : p.toList.head? = some '/') (hquestion : '?' ∉ p.toList) :
    (∀ (prims : Primitives) (keys : KeyRing) (requests : List Request) (now : ℤ) (u : String),
        (∀ r ∈ requests, r.Plain) → (split u).1 = p → Unforged prims keys requests u →
        verify prims keys now u = some (.ok ()) → Authorised prims keys requests now u) ↔
      ¬ HasScheme p := by
  constructor
  · intro h hscheme
    obtain ⟨hhead,hne,_⟩ := pathOf_of_hasScheme hscheme
    obtain ⟨hsplit,hpath,htext⟩ := attachText_absolute hhead (question_not_mem_pathOf hquestion)
    obtain ⟨signature,hsignature⟩ := tag_openPrims (pathOf p ++ "?")
    -- the path that is left was signed, with a host
    let r : Request := ⟨"h://h" ++ pathOf p,none,nofun⟩
    have hs : attach openPrims zeroRing r.url r.expiresAt =
        some (.ok ((split r.url).1 ++ "?" ++ "" ++ "" ++ "signature=" ++ signature)) := attach_of_tag htext hsignature
    have hu : split (p ++ "?" ++ encode [("signature",signature)]) = (p,encode [("signature",signature)]) :=
      split_append hquestion _
    have hprovided : valueOf (split (p ++ "?" ++ encode [("signature",signature)])).2 "signature" = some (some signature) := by
      rw [hu,valueOf,parse_encode]
      rfl
    have hcanonical : canonical p (encode [("signature",signature)]) = some (pathOf p ++ "?") := by
      rw [canonical_eq_some]
      refine ⟨_,parse_encode _,?_⟩
      simp [unsigned,sorted,encode]
    have hverify : verify openPrims zeroRing 0 (p ++ "?" ++ encode [("signature",signature)]) = some (.ok ()) :=
      verify_of_signature hprovided (by rw [hu]; exact hcanonical) (verifyTag_tag hsignature)
        (by rw [hu,valueOf,parse_encode]; rfl)
    obtain ⟨r',hr',s,hs',hown,_⟩ := h openPrims zeroRing [r] 0 _ (by simp [Request.Plain,r,hsplit]) (by rw [hu])
      (unforged_of_signature openPrims_inj hs htext hsignature hprovided) hverify
    cases List.mem_singleton.mp hr'
    have habsolute : ownPath ("h://h" ++ pathOf p) = pathOf p := by
      rw [ownPath,if_neg (by simp),hpath]
    rw [split_attach hs',hsplit,habsolute,hu] at hown
    exact hne hown.symm
  · intro hp prims keys requests now u hplain hu hunforged hverify
    subst hu
    exact authorised_of_verify hplain hp hunforged hverify

/-- An absolute link with an expiry. -/
def verifyLink : Request := ⟨"https://app.example.com/verify?b=2&a=1",some 2000,by decide⟩

/-- A link to unsubscribe, without an expiry. -/
def unsubscribeLink : Request := ⟨"/unsubscribe?user=42",none,nofun⟩

/-- The first link as its server sees it, with the parameters in another order. -/
def verifyUrl : String := "/verify?a=1&b=2&expires=2000&signature=LkxpOTJaWEpwWm5rX1lUMHhKbUk5TWlabGVIQnBjbVZ6UFRJd01EQQ"

/-- The signature of the second link, on another path, which was never signed. -/
def foreignUrl : String := "/x://y/unsubscribe?user=42&signature=LkxpOTFibk4xWW5OamNtbGlaVDkxYzJWeVBUUXk"

theorem split_verifyUrl : split verifyUrl = ("/verify",encode [("a","1"),("b","2"),("expires","2000"),
    ("signature","LkxpOTJaWEpwWm5rX1lUMHhKbUk5TWlabGVIQnBjbVZ6UFRJd01EQQ")]) := by
  have hurl : verifyUrl = "/verify" ++ "?" ++ encode [("a","1"),("b","2"),("expires","2000"),
      ("signature","LkxpOTJaWEpwWm5rX1lUMHhKbUk5TWlabGVIQnBjbVZ6UFRJd01EQQ")] := by
    decide +kernel
  rw [hurl,split_append (by decide)]

theorem split_foreignUrl : split foreignUrl = ("/x://y/unsubscribe",encode [("user","42"),
    ("signature","LkxpOTFibk4xWW5OamNtbGlaVDkxYzJWeVBUUXk")]) := by
  have hurl : foreignUrl = "/x://y/unsubscribe" ++ "?" ++ encode [("user","42"),
      ("signature","LkxpOTFibk4xWW5OamNtbGlaVDkxYzJWeVBUUXk")] := by
    decide +kernel
  rw [hurl,split_append (by decide)]

/-- The tags of the two links, with what is tagged and how the links are read. -/
def linkTags : { tags : String × String //
    (attachText verifyLink.url verifyLink.expiresAt = some ("b=2&a=1&expires=2000","/verify?a=1&b=2&expires=2000") ∧
      tag openPrims zeroRing "/verify?a=1&b=2&expires=2000" = .ok tags.1) ∧
    (attachText unsubscribeLink.url unsubscribeLink.expiresAt = some ("user=42","/unsubscribe?user=42") ∧
      tag openPrims zeroRing "/unsubscribe?user=42" = .ok tags.2) ∧
    (split verifyUrl).1 = "/verify" ∧ ¬ HasScheme "/verify" ∧
    ((split verifyLink.url).1.toList.head? = some '/' → ¬ HasScheme (split verifyLink.url).1) ∧
    valueOf (split verifyUrl).2 "signature" = some (some tags.1) ∧
    canonical (split verifyUrl).1 (split verifyUrl).2 = some "/verify?a=1&b=2&expires=2000" ∧
    valueOf (split verifyUrl).2 "expires" = some (some "2000") ∧
    valueOf (split foreignUrl).2 "signature" = some (some tags.2) ∧
    canonical (split foreignUrl).1 (split foreignUrl).2 = some "/unsubscribe?user=42" ∧
    valueOf (split foreignUrl).2 "expires" = some none ∧
    (split unsubscribeLink.url).1 ++ "?" ++ "user=42" ++ (if "user=42".isEmpty then "" else "&") ++ "signature=" ++ tags.2 =
      "/unsubscribe?user=42&signature=LkxpOTFibk4xWW5OamNtbGlaVDkxYzJWeVBUUXk" ∧
    (split foreignUrl).1 ≠ ownPath (split unsubscribeLink.url).1 } :=
  ⟨("LkxpOTJaWEpwWm5rX1lUMHhKbUk5TWlabGVIQnBjbVZ6UFRJd01EQQ","LkxpOTFibk4xWW5OamNtbGlaVDkxYzJWeVBUUXk"),
    ⟨by decide +kernel,by decide +kernel⟩,⟨by decide +kernel,by decide +kernel⟩,
    by rw [split_verifyUrl],by decide +kernel,by decide +kernel,
    by rw [split_verifyUrl,valueOf_encode]; rfl,
    by rw [split_verifyUrl,canonical_encode]; decide +kernel,
    by rw [split_verifyUrl,valueOf_encode]; rfl,
    by rw [split_foreignUrl,valueOf_encode]; rfl,
    by rw [split_foreignUrl,canonical_encode]; decide +kernel,
    by rw [split_foreignUrl,valueOf_encode]; rfl,
    by decide +kernel,by rw [split_foreignUrl]; decide +kernel⟩

theorem verify_authorises_link :
    Authorised openPrims zeroRing [verifyLink] 1999
      "/verify?a=1&b=2&expires=2000&signature=LkxpOTJaWEpwWm5rX1lUMHhKbUk5TWlabGVIQnBjbVZ6UFRJd01EQQ" := by
  obtain ⟨⟨htext,htag⟩,-,hpath,hscheme,hplain,hprovided,hcanonical,hexpires,-⟩ := linkTags.property
  refine (verify_authorises_iff "/verify" rfl (by decide)).mpr hscheme openPrims zeroRing [verifyLink] 1999 verifyUrl ?_ hpath
    (unforged_of_signature openPrims_inj (attach_of_tag htext htag) htext htag hprovided) ?_
  · intro r hr
    rw [List.mem_singleton.mp hr]
    exact hplain
  · rw [verify]
    simp [hprovided,hcanonical,verifyTag_tag htag,hexpires]
    decide

/-- Its signature also verifies for another path, which was never signed. -/
theorem verify_not_authorised :
    attach openPrims zeroRing unsubscribeLink.url unsubscribeLink.expiresAt =
        some (.ok "/unsubscribe?user=42&signature=LkxpOTFibk4xWW5OamNtbGlaVDkxYzJWeVBUUXk") ∧
      Unforged openPrims zeroRing [unsubscribeLink]
        "/x://y/unsubscribe?user=42&signature=LkxpOTFibk4xWW5OamNtbGlaVDkxYzJWeVBUUXk" ∧
      verify openPrims zeroRing 0 "/x://y/unsubscribe?user=42&signature=LkxpOTFibk4xWW5OamNtbGlaVDkxYzJWeVBUUXk" =
        some (.ok ()) ∧
      ¬ Authorised openPrims zeroRing [unsubscribeLink] 0
        "/x://y/unsubscribe?user=42&signature=LkxpOTFibk4xWW5OamNtbGlaVDkxYzJWeVBUUXk" := by
  obtain ⟨-,⟨htext,htag⟩,-,-,-,-,-,-,hprovided,hcanonical,hexpires,hlink,hpaths⟩ := linkTags.property
  have hsigned := attach_of_tag htext htag
  rw [hlink] at hsigned
  refine ⟨hsigned,unforged_of_signature openPrims_inj hsigned htext htag hprovided,
    verify_of_signature hprovided hcanonical (verifyTag_tag htag) hexpires,?_⟩
  rintro ⟨r,hr,s,hs,hpath,_⟩
  cases List.mem_singleton.mp hr
  rw [split_attach hs] at hpath
  exact hpaths hpath

end Rainier.Crypt.UrlSigner
