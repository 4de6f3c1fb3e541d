import Mathlib.Data.String.Basic
import Rainier.Crypt.SignedUrls

/-! # Links after a rotation

What a ring signed is verified, in whatever order its parameters come back, as long as the
key that signed it is the one its id finds.
-/
namespace Rainier.Crypt
open Rainier

namespace KeyRing

/-- New keys, the current one first, before all those of a ring. -/
def rotate (ring : KeyRing) : List Key → KeyRing
  | [] => ring
  | current :: added => ⟨current,added ++ ring.all⟩

theorem all_rotate (ring : KeyRing) (added : List Key) : (ring.rotate added).all = added ++ ring.all := by
  cases added with
  | nil => rfl
  | cons current added => rfl

end KeyRing

variable {prims : Primitives} {keys : KeyRing} {added : List Key}

/-- No other key of the added ones has the id of the key that signs. -/
def Distinct (prims : Primitives) (keys : KeyRing) (added : List Key) : Prop :=
  ∀ key ∈ added, key.id prims = keys.current.id prims → key = keys.current

theorem find_rotate (hids : Distinct prims keys added) :
    (keys.rotate added).find prims (keys.current.id prims) = some keys.current := by
  rw [KeyRing.find,KeyRing.all_rotate,List.find?_append]
  cases hfound : added.find? (·.id prims == keys.current.id prims) with
  | none => rw [Option.none_or,KeyRing.all,List.find?_cons_of_pos (by simp)]
  | some key =>
    have hid := List.find?_some hfound
    rw [hids key (List.mem_of_find?_eq_some hfound) (by simpa using hid),Option.some_or]

namespace HmacSigner

/-- A tag is verified where its key is found under its id. -/
theorem verifyDetached_rotated {ring : KeyRing} (hfind : ring.find prims (keys.current.id prims) = some keys.current)
    {value tagged : String} (h : detachedTag prims keys value = .ok tagged) : verifyDetached prims ring value tagged = true := by
  obtain ⟨bytes,hbytes,hok⟩ := bind_eq_ok.mp h
  cases hok
  have hsplit : Text.splitOnce '.' (keys.current.id prims ++ "." ++ prims.base64.encode bytes) =
      some (keys.current.id prims,prims.base64.encode bytes) := Text.splitOnce_append (dot_not_mem_id _) _
  rw [verifyDetached,hsplit]
  simp [hfind,hbytes,prims.base64.decode_encode]

end HmacSigner

namespace UrlSigner

theorem verifyTag_rotated {ring : KeyRing} (hfind : ring.find prims (keys.current.id prims) = some keys.current)
    {text signature : String} (h : tag prims keys text = .ok signature) : verifyTag prims ring text signature = true := by
  obtain ⟨detached,hdetached,hok⟩ := bind_eq_ok.mp h
  cases hok
  rw [verifyTag,prims.base64.decode_encode,Option.bind_some,Text.fromUtf8_asBytes]
  exact HmacSigner.verifyDetached_rotated hfind hdetached

/-! ## Parameters in another order -/

/-- The order of pairs. -/
abbrev before (a b : String × String) : Prop := a.1 < b.1 ∨ (a.1 = b.1 ∧ a.2 ≤ b.2)

theorem sorted_pairwise (pairs : Pairs) : (sorted pairs).Pairwise before := by
  have htotal : Std.Total before := ⟨fun a b => by
    rcases lt_trichotomy a.1 b.1 with hlt | heq | hgt
    · exact .inl (.inl hlt)
    · exact (le_total a.2 b.2).imp (fun h => .inr ⟨heq,h⟩) (fun h => .inr ⟨heq.symm,h⟩)
    · exact .inr (.inl hgt)⟩
  have htrans : IsTrans _ before := ⟨fun a b c hab hbc => by
    rcases hab with hab | ⟨hab,hab'⟩ <;> rcases hbc with hbc | ⟨hbc,hbc'⟩
    · exact .inl (hab.trans hbc)
    · exact .inl (hbc ▸ hab)
    · exact .inl (hab ▸ hbc)
    · exact .inr ⟨hab.trans hbc,hab'.trans hbc'⟩⟩
  rw [sorted]
  exact List.pairwise_insertionSort _ pairs

/-- Sorting forgets the order. -/
theorem sorted_perm {pairs pairs' : Pairs} (h : pairs.Perm pairs') : sorted pairs = sorted pairs' := by
  refine List.Perm.eq_of_pairwise (fun a b _ _ hab hba => ?_) (sorted_pairwise pairs) (sorted_pairwise pairs') ?_
  · rcases hab with hab | ⟨hab,hab'⟩ <;> rcases hba with hba | ⟨hba,hba'⟩
    · exact absurd hab hba.asymm
    · exact absurd hab (hba ▸ lt_irrefl _)
    · exact absurd hba (hab ▸ lt_irrefl _)
    · exact Prod.ext hab (le_antisymm hab' hba')
  · calc (sorted pairs).Perm pairs := List.perm_insertionSort _ _
      List.Perm _ pairs' := h
      List.Perm _ (sorted pairs') := (List.perm_insertionSort _ _).symm

theorem exists_pairs_of_perm {pieces : List String} {pairs : Pairs} (h : pieces.Perm (pairs.map encodePair)) :
    ∃ pairs' : Pairs, pairs'.Perm pairs ∧ pieces = pairs'.map encodePair := by
  have hfilter : (pairs.map encodePair).filterMap parsePair = pairs := by
    rw [List.filterMap_map]
    exact (List.filterMap_congr fun pair _ => parsePair_encodePair pair).trans List.filterMap_some
  refine ⟨pieces.filterMap parsePair,by simpa [hfilter] using h.filterMap parsePair,?_⟩
  have hpieces : ∀ piece ∈ pieces, ∃ pair, piece = encodePair pair := by
    intro piece hpiece
    obtain ⟨pair,-,rfl⟩ := List.mem_map.1 (h.subset hpiece)
    exact ⟨pair,rfl⟩
  clear h
  induction pieces with
  | nil => rfl
  | cons piece pieces ih =>
    obtain ⟨pair,rfl⟩ := hpieces piece List.mem_cons_self
    rw [List.filterMap_cons_some (parsePair_encodePair pair),List.map_cons,
      ← ih fun piece hpiece => hpieces piece (List.mem_cons_of_mem _ hpiece)]

/-- A URL with the parameters of its query in another order. -/
def Reordered (url url' : String) : Prop :=
  ∃ pieces, pieces.Perm (Text.split '&' (split url).2) ∧ url' = (split url).1 ++ "?" ++ Text.join '&' pieces

theorem parse_reordered {path url' : String} {pairs : Pairs} (hpath : '?' ∉ path.toList) (hne : pairs ≠ [])
    (h : Reordered (path ++ "?" ++ encode pairs) url') :
    ∃ pairs' : Pairs, pairs'.Perm pairs ∧ split url' = (path,encode pairs') := by
  obtain ⟨pieces,hperm,rfl⟩ := h
  have hamp : ∀ p ∈ pairs.map encodePair, '&' ∉ p.toList := by
    intro p hp
    obtain ⟨q,-,rfl⟩ := List.mem_map.mp hp
    exact not_mem_encodePair (by decide) (by decide) q
  rw [split_append hpath,encode,Text.split_join (by simpa using hne) hamp] at hperm
  obtain ⟨pairs',hpairs',rfl⟩ := exists_pairs_of_perm hperm
  refine ⟨pairs',hpairs',?_⟩
  rw [split_append hpath,split_append hpath,encode]

/-! ## What signing returns -/

theorem find_signature {pairs pairs' : Pairs} {expiresAt : Option ℤ} {signature : String}
    (h : pairs'.Perm (attachPairs pairs expiresAt ++ [("signature",signature)])) :
    (pairs'.find? (·.1 == "signature")).map Prod.snd = some signature := by
  have hmem : ("signature",signature) ∈ pairs' := h.mem_iff.2 (by simp)
  have hsome : (pairs'.find? (·.1 == "signature")).isSome = true := by
    rw [List.find?_isSome]
    exact ⟨_,hmem,rfl⟩
  obtain ⟨pair,hpair⟩ := Option.isSome_iff_exists.mp hsome
  have hname : pair.1 = "signature" := by simpa using List.find?_some hpair
  have hattached := h.mem_iff.1 (List.mem_of_find?_eq_some hpair)
  rcases List.mem_append.1 hattached with hattached | hlast
  · rw [attachPairs,List.mem_append] at hattached
    rcases hattached with hkept | hexpiry
    · simp [hname] at hkept
    · obtain ⟨e,-,rfl⟩ := Option.map_eq_some_iff.mp (Option.mem_toList.mp hexpiry)
      simp at hname
  · rw [hpair,List.mem_singleton.1 hlast,Option.map_some]

theorem find_no_expiry {pairs pairs' : Pairs} {signature : String}
    (h : pairs'.Perm (attachPairs pairs none ++ [("signature",signature)])) : pairs'.find? (·.1 == "expires") = none := by
  rw [List.find?_eq_none]
  intro pair hpair hname
  have hname : pair.1 = "expires" := by simpa using hname
  have hmem := h.mem_iff.1 hpair
  rcases List.mem_append.1 hmem with hkept | hlast
  · obtain ⟨e,he,-⟩ := eq_of_mem_attachPairs hkept hname
    cases he
  · rw [List.mem_singleton.1 hlast] at hname
    simp at hname

/-- A link is verified with its parameters in any order, on any ring where the signing key's id finds it. -/
theorem verify_reordered {ring : KeyRing} (hfind : ring.find prims (keys.current.id prims) = some keys.current) {now : ℤ}
    {r : Request} (hnow : ∀ e, r.expiresAt = some e → now ≤ e) {s s' : String} (hs : attach prims keys r.url r.expiresAt = some (.ok s))
    (h : Reordered s s') : verify prims ring now s' = some (.ok ()) := by
  obtain ⟨pairs,text,signature,-,-,htext,hsignature,rfl⟩ := attach_eq_ok hs
  obtain ⟨pairs',hpairs',hsplit⟩ := parse_reordered (split_fst_no_question r.url) (by simp) h
  have hunsigned : (unsigned pairs').Perm (unsigned (attachPairs pairs r.expiresAt)) := by
    rw [← unsigned_concat pairs r.expiresAt signature]
    exact hpairs'.filter _
  have htext' : canonical (split r.url).1 (encode pairs') = some text := by
    obtain ⟨attached,hattached,heq⟩ := canonical_eq_some.1 htext
    rw [parse_encode] at hattached
    cases hattached
    exact canonical_eq_some.2 ⟨pairs',parse_encode pairs',by rw [sorted_perm hunsigned,heq]⟩
  have hprovided := valueOf_encode pairs' "signature"
  rw [find_signature hpairs'] at hprovided
  have htag := verifyTag_rotated hfind hsignature
  have hexpires := valueOf_encode pairs' "expires"
  cases hr : r.expiresAt with
  | none =>
    rw [hr] at hpairs'
    rw [find_no_expiry hpairs'] at hexpires
    rw [verify,hsplit]
    simp [hprovided,htext',htag,hexpires]
  | some e =>
    rw [hr] at hunsigned
    rw [find_expires hunsigned] at hexpires
    have hnow := hnow e hr
    obtain ⟨hlow,hhigh⟩ := r.fits e hr
    rw [verify,hsplit]
    simp only [hprovided,htext',htag,hexpires,Option.bind_eq_bind,Option.bind_some,Text.parseInt_repr hlow hhigh]
    rw [if_neg (by simp),if_neg (by omega)]
    rfl

/-- Signing replaces the signature by the same one. -/
theorem sign_sign {url s : String} (h : sign prims keys url = some (.ok s)) : sign prims keys s = some (.ok s) := by
  obtain ⟨pairs,text,signature,-,-,htext,hsignature,hs⟩ := attach_eq_ok h
  have hagain : attachPairs (attachPairs pairs none ++ [("signature",signature)]) none = attachPairs pairs none := by
    simp [attachPairs]
  have hsplit : split s = ((split url).1,encode (attachPairs pairs none ++ [("signature",signature)])) := by
    rw [hs,split_append (split_fst_no_question url)]
  have hattach : attachText s none = some (encode (attachPairs pairs none),text) := by
    rw [attachText,hsplit]
    simp [parse_encode,hagain,htext]
  rw [sign,attach,hattach]
  simp only [Option.bind_eq_bind,Option.bind_some,hsignature,hsplit]
  rw [hs,← encode_concat (percentEncode_tag hsignature)]
  simp only [String.append_assoc]
  rfl

/-- A link the ring gives out, with an expiry that is not past. -/
inductive Issued (prims : Primitives) (keys : KeyRing) (now : ℤ) (url s : String) : Prop
  | sign (h : sign prims keys url = some (.ok s))
  | signUntil (t : ℤ) (hlow : -2 ^ 63 ≤ t) (hhigh : t ≤ 2 ^ 63 - 1) (hnow : now ≤ t) (h : signUntil prims keys url t = some (.ok s))

/-- Links keep verifying while no other key takes the id of the one that signed them; signing twice
is signing once, and what is escaped is read back. -/
theorem issued_verifies (prims : Primitives) (keys : KeyRing) :
    (∀ added, Distinct prims keys added → ∀ now url s s', Issued prims keys now url s → Reordered s s' →
      verify prims (keys.rotate added) now s' = some (.ok ())) ∧
    (∀ url s, sign prims keys url = some (.ok s) → sign prims keys s = some (.ok s)) ∧
    ∀ value, decode (percentEncode value) = some value := by
  refine ⟨fun added hids now url s s' hissued hreordered => ?_,fun url s h => sign_sign h,decode_percentEncode⟩
  have hfind := find_rotate hids
  cases hissued with
  | sign h =>
    have hr : ∀ e, (none : Option ℤ) = some e → -2 ^ 63 ≤ e ∧ e ≤ 2 ^ 63 - 1 := by
      intro e he
      cases he
    refine verify_reordered hfind (r := ⟨url,none,hr⟩) ?_ h hreordered
    intro e he
    cases he
  | signUntil t hlow hhigh hnow h =>
    have hr : ∀ e, some t = some e → -2 ^ 63 ≤ e ∧ e ≤ 2 ^ 63 - 1 := by
      rintro e ⟨⟩
      exact ⟨hlow,hhigh⟩
    refine verify_reordered hfind (r := ⟨url,some t,hr⟩) ?_ h hreordered
    rintro e ⟨⟩
    exact hnow

/-! ## Two keys with one id -/

def oldKey : Key := ⟨List.replicate 30 0 ++ [35,8],by decide⟩

def newKey : Key := ⟨List.replicate 30 0 ++ [88,18],by decide⟩

/-- What SHA-256 and HMAC-SHA256 give for two keys whose ids are `964c21f4`, and for a key of zeros. -/
def sameIdPrims : Primitives where
  base64 := .standard
  sha256 message :=
    if message = Text.asBytes "rainier-key-id\x00" ++ oldKey.bytes then
      [150,76,33,244,254,87,227,2,27,124,6,241,243,146,107,118,
        175,127,70,46,115,132,133,168,117,129,15,36,172,153,197,85]
    else if message = Text.asBytes "rainier-key-id\x00" ++ newKey.bytes then
      [150,76,33,244,20,160,93,112,47,171,118,220,227,25,115,54,
        180,204,12,169,178,96,246,24,46,67,108,234,0,51,220,65]
    else if message = Text.asBytes "rainier-key-id\x00" ++ zeroRing.current.bytes then
      [55,97,96,126,186,219,48,185,66,227,179,105,211,202,17,20,
        109,97,45,27,24,85,212,163,178,219,32,106,181,54,150,26]
    else []
  hmac key message :=
    if message = Text.asBytes "964c21f4./unsubscribe?user=42" then
      if key = oldKey.bytes then
        some [227,255,228,12,85,247,170,32,101,122,216,186,92,146,249,157,
          201,102,255,217,192,21,90,199,237,7,33,165,170,81,73,22]
      else if key = newKey.bytes then
        some [155,100,117,160,36,143,132,159,68,24,142,238,188,147,69,122,
          108,238,17,180,182,124,243,63,206,119,193,161,243,252,57,26]
      else none
    else none

/-- A link signed with the old key. -/
def oldLink : String :=
  "/unsubscribe?user=42&signature=OTY0YzIxZjQuNF9fa0RGWDNxaUJsZXRpNlhKTDVuY2xtXzluQUZWckg3UWNocGFwUlNSWQ"

def oldSignature : String := "OTY0YzIxZjQuNF9fa0RGWDNxaUJsZXRpNlhKTDVuY2xtXzluQUZWckg3UWNocGFwUlNSWQ"

/-- What its query says. -/
def oldPairs : Pairs := [("user","42")] ++ [("signature",oldSignature)]

/-- The tag of the old key, what it decodes to, and how the link is put together. -/
theorem oldTag :
    tag sameIdPrims ⟨oldKey,[]⟩ "/unsubscribe?user=42" = .ok oldSignature ∧
    (sameIdPrims.base64.decode oldSignature).bind Text.fromUtf8 =
      some "964c21f4.4__kDFX3qiBleti6XJL5nclm_9nAFVrH7QchpapRSRY" ∧
    HmacSigner.verifyDetached sameIdPrims (KeyRing.rotate ⟨oldKey,[]⟩ [newKey]) "/unsubscribe?user=42"
      "964c21f4.4__kDFX3qiBleti6XJL5nclm_9nAFVrH7QchpapRSRY" = false ∧
    pathOf "/unsubscribe" ++ "?" ++ encode (sorted (unsigned oldPairs)) = "/unsubscribe?user=42" ∧
    oldLink = "/unsubscribe" ++ "?" ++
      ("user=42" ++ (if "user=42".isEmpty then "" else "&") ++ "signature=" ++ oldSignature) ∧
    "/unsubscribe?signature=OTY0YzIxZjQuNF9fa0RGWDNxaUJsZXRpNlhKTDVuY2xtXzluQUZWckg3UWNocGFwUlNSWQ&user=42" =
      "/unsubscribe" ++ "?" ++ Text.join '&'
        ["signature=OTY0YzIxZjQuNF9fa0RGWDNxaUJsZXRpNlhKTDVuY2xtXzluQUZWckg3UWNocGFwUlNSWQ","user=42"] ∧
    (split "/unsubscribe?user=42").1 = "/unsubscribe" ∧
    "signature=" ++ oldSignature =
      "signature=OTY0YzIxZjQuNF9fa0RGWDNxaUJsZXRpNlhKTDVuY2xtXzluQUZWckg3UWNocGFwUlNSWQ" ∧
    zeroRing.current.id sameIdPrims ≠ oldKey.id sameIdPrims := by
  decide +kernel

theorem encodePair_oldPairs : oldPairs.map encodePair =
    ["user=42","signature=OTY0YzIxZjQuNF9fa0RGWDNxaUJsZXRpNlhKTDVuY2xtXzluQUZWckg3UWNocGFwUlNSWQ"] := by
  obtain ⟨htag,-,-,-,-,-,-,hparameter,-⟩ := oldTag
  have huser : encodePair ("user","42") = "user=42" := by decide
  have hname : percentEncode "signature" ++ "=" = "signature=" := by decide
  simp only [oldPairs,List.map_append,List.map_cons,List.map_nil,huser]
  rw [encodePair,percentEncode_tag htag,hname,hparameter]
  rfl

theorem split_oldLink : split oldLink = ("/unsubscribe",encode oldPairs) := by
  obtain ⟨htag,-,-,-,hurl,-⟩ := oldTag
  have huser : encode [("user","42")] = "user=42" := by decide
  rw [hurl,← huser,encode_concat (percentEncode_tag htag),split_append (by decide)]
  rfl

theorem sign_oldLink : sign sameIdPrims ⟨oldKey,[]⟩ "/unsubscribe?user=42" = some (.ok oldLink) := by
  obtain ⟨htag,-,-,-,hurl,-,hpath,-⟩ := oldTag
  have hsigned := attach_of_tag linkTags.property.2.1.1 htag
  refine hsigned.trans (congrArg (fun s => some (Except.ok s)) ?_)
  rw [hurl,show unsubscribeLink.url = "/unsubscribe?user=42" from rfl,hpath]
  simp only [String.append_assoc]

theorem verify_oldLink : verify sameIdPrims (KeyRing.rotate ⟨oldKey,[]⟩ [newKey]) 0 oldLink =
    some (.error (.unauthorized "This link's signature is not valid.")) := by
  obtain ⟨-,hdecoded,hother,htext,-⟩ := oldTag
  have htag : verifyTag sameIdPrims (KeyRing.rotate ⟨oldKey,[]⟩ [newKey]) "/unsubscribe?user=42"
      oldSignature = false := by
    rw [verifyTag,hdecoded]
    exact hother
  have hprovided : valueOf (encode oldPairs) "signature" = some (some oldSignature) := by
    rw [valueOf_encode]
    rfl
  rw [verify,split_oldLink]
  simp [hprovided,canonical_encode,htext,htag]

theorem pieces_oldLink : Text.split '&' (split oldLink).2 =
    ["user=42","signature=OTY0YzIxZjQuNF9fa0RGWDNxaUJsZXRpNlhKTDVuY2xtXzluQUZWckg3UWNocGFwUlNSWQ"] := by
  have hamp : ∀ p ∈ oldPairs.map encodePair, '&' ∉ p.toList := by
    intro p hp
    obtain ⟨q,-,rfl⟩ := List.mem_map.mp hp
    exact not_mem_encodePair (by decide) (by decide) q
  rw [split_oldLink,encode,Text.split_join (by simp [oldPairs]) hamp,encodePair_oldPairs]

theorem join_oldLink : oldLink = (split oldLink).1 ++ "?" ++ Text.join '&'
    ["user=42","signature=OTY0YzIxZjQuNF9fa0RGWDNxaUJsZXRpNlhKTDVuY2xtXzluQUZWckg3UWNocGFwUlNSWQ"] := by
  obtain ⟨htag,-,-,-,hurl,-⟩ := oldTag
  have huser : encode [("user","42")] = "user=42" := by decide
  rw [split_oldLink,← encodePair_oldPairs,hurl,← huser,encode_concat (percentEncode_tag htag)]
  rfl

/-- The pieces of its query, with what the old key issues, what the ring finds after a rotation to the new key, and the ids. -/
def oldPieces : { pieces : List String //
    sign sameIdPrims ⟨oldKey,[]⟩ "/unsubscribe?user=42" = some (.ok oldLink) ∧
    verify sameIdPrims (KeyRing.rotate ⟨oldKey,[]⟩ [newKey]) 0 oldLink =
      some (.error (.unauthorized "This link's signature is not valid.")) ∧
    zeroRing.current.id sameIdPrims ≠ oldKey.id sameIdPrims ∧
    Text.split '&' (split oldLink).2 = pieces ∧ oldLink = (split oldLink).1 ++ "?" ++ Text.join '&' pieces ∧
    "/unsubscribe?signature=OTY0YzIxZjQuNF9fa0RGWDNxaUJsZXRpNlhKTDVuY2xtXzluQUZWckg3UWNocGFwUlNSWQ&user=42" =
      (split oldLink).1 ++ "?" ++ Text.join '&' pieces.reverse } :=
  ⟨["user=42","signature=OTY0YzIxZjQuNF9fa0RGWDNxaUJsZXRpNlhKTDVuY2xtXzluQUZWckg3UWNocGFwUlNSWQ"],
    sign_oldLink,verify_oldLink,oldTag.2.2.2.2.2.2.2.2,pieces_oldLink,join_oldLink,
    by rw [split_oldLink]; exact oldTag.2.2.2.2.2.1⟩

/-- Under the id the tag names the ring finds the new key, and the link stops verifying. -/
theorem same_id_not_verified :
    sign sameIdPrims ⟨oldKey,[]⟩ "/unsubscribe?user=42" = some (.ok oldLink) ∧ Reordered oldLink oldLink ∧
      verify sameIdPrims (KeyRing.rotate ⟨oldKey,[]⟩ [newKey]) 0 oldLink =
        some (.error (.unauthorized "This link's signature is not valid.")) := by
  obtain ⟨hsign,hverify,-,hsplit,hjoin,-⟩ := oldPieces.property
  exact ⟨hsign,⟨oldPieces.val,List.Perm.of_eq hsplit.symm,hjoin⟩,hverify⟩

/-- A link of the old key, with its parameters the other way round, after a rotation to a key of zeros. -/
theorem issued_verifies_rotated :
    verify sameIdPrims (KeyRing.rotate ⟨oldKey,[]⟩ [zeroRing.current]) 0
      "/unsubscribe?signature=OTY0YzIxZjQuNF9fa0RGWDNxaUJsZXRpNlhKTDVuY2xtXzluQUZWckg3UWNocGFwUlNSWQ&user=42" = some (.ok ()) := by
  obtain ⟨hsign,-,hother,hsplit,-,hjoin⟩ := oldPieces.property
  have hids : Distinct sameIdPrims ⟨oldKey,[]⟩ [zeroRing.current] := by
    intro key hkey hid
    rw [List.mem_singleton.1 hkey] at hid
    exact absurd hid hother
  refine (issued_verifies sameIdPrims ⟨oldKey,[]⟩).1 _ hids 0 "/unsubscribe?user=42" oldLink _ (.sign hsign)
    ⟨oldPieces.val.reverse,?_,hjoin⟩
  exact (List.reverse_perm oldPieces.val).trans (List.Perm.of_eq hsplit.symm)

end UrlSigner
end Rainier.Crypt
