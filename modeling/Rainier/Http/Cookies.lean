import Mathlib.Data.Int.Notation
import Mathlib.Logic.Function.Basic
import Rainier.Routing.Url
import Rainier.Support.Split

/-! # Cookies

A cookie is written as `name=value` and attributes behind it, with names and values
escaped by one set of characters. The header that comes back is taken apart at every `;`,
and each piece at its first `=`.
-/
namespace Rainier.Http
open Rainier

inductive SameSite where
  | lax
  | strict
  | none
  deriving DecidableEq, Repr

/-- A cookie to send, with the type that its times have. -/
structure Cookie (Time : Type) where
  name : String
  value : String
  path : Option String
  domain : Option String
  maxAge : Option ℤ
  expires : Option Time
  secure : Bool
  httpOnly : Bool
  sameSite : Option SameSite

variable {Time : Type}

def SameSite.asStr : SameSite → String
  | .lax => "Lax"
  | .strict => "Strict"
  | .none => "None"

def Cookie.new (name value : String) : Cookie Time :=
  ⟨name,value,some "/",none,none,none,false,true,some .lax⟩

/-- What `utf8_percent_encode` escapes with the set `COOKIE_VALUE`: its characters, and all that is not ASCII. -/
def cookieValue (c : Char) : Bool := Routing.controls c || [' ','"',',',';','\\','%'].contains c || 128 ≤ c.toNat

namespace Cookie
variable (pe : PercentEncoding) (fixdate : Time → String)

/-- What is written behind the name and the value. -/
def attributes (c : Cookie Time) : List String :=
  (c.path.map ("; Path=" ++ ·)).toList ++ (c.domain.map ("; Domain=" ++ ·)).toList ++
    (c.maxAge.map fun seconds => "; Max-Age=" ++ seconds.repr).toList ++
    (c.expires.map fun at_ => "; Expires=" ++ fixdate at_).toList ++
    (if c.secure then ["; Secure"] else []) ++ (if c.httpOnly then ["; HttpOnly"] else []) ++
    (c.sameSite.map fun policy => "; SameSite=" ++ policy.asStr).toList

def toSetCookie (c : Cookie Time) : String :=
  pe.encode cookieValue c.name ++ "=" ++ pe.encode cookieValue c.value ++ String.join (c.attributes fixdate)

/-- The part of the header that a browser sends back. -/
def pair (c : Cookie Time) : String := (Text.split ';' (c.toSetCookie pe fixdate)).headD ""

/-- The `Cookie:` header of a browser that holds the cookies. -/
def header (cookies : List (Cookie Time)) : String :=
  String.ofList (List.intercalate [';',' '] (cookies.map fun c => (c.pair pe fixdate).toList))

end Cookie

/-- The quoted-string form: one quote is taken off each end, or none. -/
def unquote (raw : String) : String :=
  match raw.toList with
  | '"' :: rest => if rest.getLast? = some '"' then String.ofList rest.dropLast else raw
  | _ => raw

def decode (pe : PercentEncoding) (raw : String) : String := Routing.decodeText pe (unquote raw)

/-- One piece between two `;`, or nothing where it is blank. -/
def parseCookie (pe : PercentEncoding) (piece : String) : Option (String × String) :=
  let piece := Text.trim piece
  if piece = "" then none
  else match Text.splitOnce '=' piece with
    | some (name,value) => some (decode pe (Text.trim name),decode pe (Text.trim value))
    -- a bare token is a cookie without a value
    | none => some (decode pe piece,decode pe "")

/-- The map after the pieces, a later one over an earlier. -/
def collectCookies (pe : PercentEncoding) : List String → (String → Option String) → String → Option String
  | [], cookies => cookies
  | piece :: rest, cookies =>
    collectCookies pe rest (match parseCookie pe piece with
      | some (name,value) => Function.update cookies name (some value)
      | none => cookies)

def parseCookieHeader (pe : PercentEncoding) (header : String) : String → Option String :=
  collectCookies pe (Text.split ';' header) fun _ => none

/-- What the cookies are, by name. -/
def Cookie.lookup (cookies : List (Cookie Time)) (name : String) : Option String :=
  (cookies.find? (·.name = name)).map Cookie.value

/-- The header that comes back holds the cookies and nothing else. -/
def RoundTrips (pe : PercentEncoding) (fixdate : Time → String) (cookies : List (Cookie Time)) : Prop :=
  parseCookieHeader pe (Cookie.header pe fixdate cookies) = Cookie.lookup cookies

/-! ## What is escaped -/

section Escaped
variable (pe : PercentEncoding)

theorem not_plain_of_whitespace {c : Char} (hc : Text.isWhitespace c = true) : Percent.plain cookieValue c = false := by
  have hblank : c.toNat = 0x20 → c = ' ' := fun h => Char.toNat_inj.mp h
  have hescaped : cookieValue c = true := by
    simp only [Text.isWhitespace,Bool.or_eq_true,Bool.and_eq_true,decide_eq_true_eq,List.contains_eq_mem,List.mem_cons,
      List.not_mem_nil,or_false] at hc
    simp only [cookieValue,Routing.controls,Bool.or_eq_true,decide_eq_true_eq,List.contains_eq_mem,List.mem_cons]
    have hcases : c.toNat < 32 ∨ c.toNat = 0x20 ∨ 128 ≤ c.toNat := by omega
    tauto
  rw [Bool.eq_false_iff]
  intro hplain
  simp only [Percent.plain,hescaped,Bool.or_eq_true,Bool.and_eq_true,decide_eq_true_eq,Bool.not_true] at hplain
  have hcode : c.toNat < 33 ∨ 128 ≤ c.toNat := by
    simp only [Text.isWhitespace,Bool.or_eq_true,Bool.and_eq_true,decide_eq_true_eq,List.contains_eq_mem,List.mem_cons,
      List.not_mem_nil,or_false] at hc
    omega
  rcases hplain with ((rfl | ⟨hlo,hhi⟩) | ⟨hlo,hhi⟩) | hplain
  · exact absurd hcode (by decide)
  · have hlo : 48 ≤ c.toNat := hlo
    have hhi : c.toNat ≤ 57 := hhi
    omega
  · have hlo : 65 ≤ c.toNat := hlo
    have hhi : c.toNat ≤ 70 := hhi
    omega
  · cases hplain

theorem isWhitespace_escaped {s : String} {c : Char} (hc : c ∈ (pe.encode cookieValue s).toList) :
    Text.isWhitespace c = false :=
  Bool.eq_false_iff.mpr fun hblank => pe.not_mem_encode (not_plain_of_whitespace hblank) s hc

theorem trim_escaped (s : String) : Text.trim (pe.encode cookieValue s) = pe.encode cookieValue s :=
  Text.trim_eq_self (fun _ hc => isWhitespace_escaped pe (List.mem_of_mem_head? hc))
    fun _ hc => isWhitespace_escaped pe (List.mem_of_mem_getLast? hc)

theorem unquote_escaped (s : String) : unquote (pe.encode cookieValue s) = pe.encode cookieValue s := by
  rw [unquote]
  split
  · next rest heq =>
    have hquote : '"' ∉ (pe.encode cookieValue s).toList := pe.not_mem_encode (by decide) s
    rw [heq] at hquote
    exact absurd List.mem_cons_self hquote
  · rfl

theorem decode_escaped (s : String) : decode pe (pe.encode cookieValue s) = s := by
  rw [decode,unquote_escaped,Routing.decodeText,pe.decode_encode_self rfl,Text.fromUtf8Lossy_asBytes]

end Escaped

/-! ## The header -/

section Header
variable (pe : PercentEncoding) (fixdate : Time → String)

theorem attributes_head {c : Cookie Time} {a : String} (ha : a ∈ c.attributes fixdate) :
    ∃ rest, a = String.singleton ';' ++ rest := by
  have hlead : ∀ start rest : String, start.toList.head? = some ';' → ∃ tail, start ++ rest = String.singleton ';' ++ tail := by
    intro start rest hstart
    obtain ⟨tail,htail⟩ := List.head?_eq_some_iff.mp hstart
    refine ⟨String.ofList tail ++ rest,String.toList_injective ?_⟩
    simp [htail]
  have hflag : ∀ (flag : Bool) (text : String), text.toList.head? = some ';' → a ∈ (if flag then [text] else []) →
      ∃ tail, a = String.singleton ';' ++ tail := by
    intro flag text htext hmem
    cases flag with
    | false => cases hmem
    | true =>
      rw [List.mem_singleton.mp hmem,← String.append_empty (s := text)]
      exact hlead text "" htext
  simp only [Cookie.attributes,List.mem_append,Option.mem_toList,Option.map_eq_some_iff] at ha
  rcases ha with (((((⟨path,-,rfl⟩ | ⟨domain,-,rfl⟩) | ⟨seconds,-,rfl⟩) | ⟨time,-,rfl⟩) | hsecure) | honly) | ⟨policy,-,rfl⟩
  · exact hlead _ _ rfl
  · exact hlead _ _ rfl
  · exact hlead _ _ rfl
  · exact hlead _ _ rfl
  · exact hflag c.secure _ rfl hsecure
  · exact hflag c.httpOnly _ rfl honly
  · exact hlead _ _ rfl

theorem pair_free (c : Cookie Time) :
    ';' ∉ (pe.encode cookieValue c.name ++ "=" ++ pe.encode cookieValue c.value).toList := by
  simp only [String.toList_append,List.mem_append,not_or]
  exact ⟨⟨pe.not_mem_encode (by decide) c.name,by decide⟩,pe.not_mem_encode (by decide) c.value⟩

theorem pair_eq (c : Cookie Time) :
    c.pair pe fixdate = pe.encode cookieValue c.name ++ "=" ++ pe.encode cookieValue c.value := by
  have hfree := pair_free pe c
  have hrest : String.join (c.attributes fixdate) = "" ∨
      ∃ rest, String.join (c.attributes fixdate) = String.singleton ';' ++ rest := by
    cases hattributes : c.attributes fixdate with
    | nil => exact .inl rfl
    | cons a attributes =>
      obtain ⟨rest,ha⟩ := attributes_head fixdate (hattributes ▸ List.mem_cons_self : a ∈ c.attributes fixdate)
      refine .inr ⟨rest ++ String.join attributes,?_⟩
      rw [String.join_cons,ha,String.append_assoc]
  rw [Cookie.pair,Cookie.toSetCookie,List.headD_eq_head?_getD,Text.head?_split hfree hrest]
  rfl

theorem header_cons (c : Cookie Time) (cookies : List (Cookie Time)) :
    Cookie.header pe fixdate (c :: cookies) =
      Text.join ';' (c.pair pe fixdate :: cookies.map fun c => String.singleton ' ' ++ c.pair pe fixdate) := by
  rw [Cookie.header,Text.join]
  congr 1
  induction cookies generalizing c with
  | nil => simp
  | cons d rest ih =>
    have hrest := ih d
    simp only [List.map_cons] at hrest ⊢
    rw [List.intercalate_cons_cons,hrest,List.intercalate_cons_cons]
    cases rest with
    | nil => simp
    | cons e rest => simp [List.intercalate_cons_cons]

/-- A blank before a piece does not count. -/
theorem parseCookie_blank (piece : String) : parseCookie pe (String.singleton ' ' ++ piece) = parseCookie pe piece := by
  have htrim := Text.trim_cons (c := ' ') (by decide) piece.toList
  have hpiece : String.ofList (' ' :: piece.toList) = String.singleton ' ' ++ piece := by
    apply String.toList_injective
    simp
  rw [hpiece,String.ofList_toList] at htrim
  rw [parseCookie,parseCookie,htrim]

theorem collect_read {piece name value : String} (hread : parseCookie pe piece = some (name,value)) (rest : List String)
    (cookies : String → Option String) :
    collectCookies pe (piece :: rest) cookies = collectCookies pe rest (Function.update cookies name (some value)) := by
  rw [collectCookies,hread]

theorem collect_blanks (pieces : List String) (cookies : String → Option String) :
    collectCookies pe (pieces.map (String.singleton ' ' ++ ·)) cookies = collectCookies pe pieces cookies := by
  induction pieces generalizing cookies with
  | nil => rfl
  | cons piece rest ih => rw [List.map_cons,collectCookies,collectCookies,parseCookie_blank,ih]

/-- The header is read as the pairs it is made of. -/
theorem parse_header (cookies : List (Cookie Time)) : parseCookieHeader pe (Cookie.header pe fixdate cookies) =
    collectCookies pe (cookies.map (Cookie.pair pe fixdate)) fun _ => none := by
  cases cookies with
  | nil => rfl
  | cons c cookies =>
    have hfree : ∀ c : Cookie Time, ';' ∉ (c.pair pe fixdate).toList := by
      intro c
      rw [pair_eq]
      exact pair_free pe c
    have hpieces : ∀ p ∈ c.pair pe fixdate :: cookies.map (fun c => String.singleton ' ' ++ c.pair pe fixdate), ';' ∉ p.toList := by
      intro p hp
      rcases List.mem_cons.mp hp with rfl | hp
      · exact hfree c
      · obtain ⟨d,-,rfl⟩ := List.mem_map.mp hp
        rw [String.toList_append,List.mem_append,not_or]
        exact ⟨by decide,hfree d⟩
    have hblanks := collect_blanks pe (cookies.map (Cookie.pair pe fixdate))
    rw [List.map_map] at hblanks
    rw [parseCookieHeader,header_cons,Text.split_join (List.cons_ne_nil _ _) hpieces,collectCookies,List.map_cons,collectCookies]
    exact hblanks _

theorem trim_pair (c : Cookie Time) : Text.trim (c.pair pe fixdate) = c.pair pe fixdate := by
  have hplain : ∀ d ∈ (c.pair pe fixdate).toList, Text.isWhitespace d = false := by
    intro d hd
    rw [pair_eq,String.toList_append,String.toList_append,List.mem_append,List.mem_append] at hd
    rcases hd with (hd | hd) | hd
    · exact isWhitespace_escaped pe hd
    · rw [List.mem_singleton.mp hd]
      rfl
    · exact isWhitespace_escaped pe hd
  exact Text.trim_eq_self (fun d hd => hplain d (List.mem_of_mem_head? hd)) fun d hd => hplain d (List.mem_of_mem_getLast? hd)

/-- A pair is read at its first `=`. -/
theorem parseCookie_pair (h : pe.Piecewise) {c : Cookie Time} {name rest : String} (hname : '=' ∉ name.toList)
    (hpair : c.pair pe fixdate = pe.encode cookieValue name ++ String.singleton '=' ++ rest) :
    parseCookie pe (c.pair pe fixdate) = some (name,decode pe (Text.trim rest)) := by
  have hfree : '=' ∉ (pe.encode cookieValue name).toList :=
    mt (h.mem_encode_iff (by decide) (by decide) (by decide) name).mp hname
  have hne : c.pair pe fixdate ≠ "" := by
    intro hempty
    have hmem : '=' ∈ (c.pair pe fixdate).toList := by
      rw [hpair]
      simp
    rw [hempty] at hmem
    cases hmem
  rw [parseCookie,trim_pair]
  simp only [if_neg hne]
  rw [hpair,Text.splitOnce_append hfree rest]
  simp only [trim_escaped,decode_escaped]

theorem parseCookie_plain (h : pe.Piecewise) {c : Cookie Time} (hc : '=' ∉ c.name.toList) :
    parseCookie pe (c.pair pe fixdate) = some (c.name,c.value) := by
  rw [parseCookie_pair pe fixdate h hc (pair_eq pe fixdate c),trim_escaped,decode_escaped]

/-- A name with `=` in it is read up to there. -/
theorem parseCookie_cut (h : pe.Piecewise) {c : Cookie Time} (hc : '=' ∈ c.name.toList) :
    ∃ name value, '=' ∉ name.toList ∧ parseCookie pe (c.pair pe fixdate) = some (name,value) := by
  obtain ⟨front,back,hsplit,hfront⟩ := List.eq_append_cons_of_mem hc
  have hname : c.name = String.ofList front ++ (String.singleton '=' ++ String.ofList back) := by
    apply String.toList_injective
    simpa using hsplit
  have hpair : c.pair pe fixdate = pe.encode cookieValue (String.ofList front) ++ String.singleton '=' ++
      (pe.encode cookieValue (String.ofList back) ++ "=" ++ pe.encode cookieValue c.value) := by
    rw [pair_eq,hname,h.encode_append,h.encode_append,h.encode_self cookieValue '=' (by decide) (by decide)]
    simp only [String.append_assoc]
  have hplain : '=' ∉ (String.ofList front).toList := by
    rwa [String.toList_ofList]
  exact ⟨String.ofList front,_,hplain,parseCookie_pair pe fixdate h hplain hpair⟩

/-- No name that is read has `=` in it. -/
theorem parseCookie_name (h : pe.Piecewise) (c : Cookie Time) :
    ∃ name value, '=' ∉ name.toList ∧ parseCookie pe (c.pair pe fixdate) = some (name,value) := by
  by_cases hc : '=' ∈ c.name.toList
  · exact parseCookie_cut pe fixdate h hc
  · exact ⟨c.name,c.value,hc,parseCookie_plain pe fixdate h hc⟩

theorem collect_missing (h : pe.Piecewise) {name : String} (hname : '=' ∈ name.toList) (cookies : List (Cookie Time))
    (start : String → Option String) (hstart : start name = none) :
    collectCookies pe (cookies.map (Cookie.pair pe fixdate)) start name = none := by
  induction cookies generalizing start with
  | nil => exact hstart
  | cons c rest ih =>
    obtain ⟨key,value,hkey,hread⟩ := parseCookie_name pe fixdate h c
    have hne : name ≠ key := fun heq => hkey (heq ▸ hname)
    rw [List.map_cons,collect_read pe hread]
    apply ih
    rw [Function.update_of_ne hne,hstart]

theorem lookup_cons (c : Cookie Time) (rest : List (Cookie Time)) (name : String) :
    Cookie.lookup (c :: rest) name = if c.name = name then some c.value else Cookie.lookup rest name := by
  by_cases hname : c.name = name <;> simp [Cookie.lookup,hname]

theorem collect_all (h : pe.Piecewise) {cookies : List (Cookie Time)} (hplain : ∀ c ∈ cookies, '=' ∉ c.name.toList)
    (hnames : (cookies.map Cookie.name).Nodup) (start : String → Option String) (name : String) :
    collectCookies pe (cookies.map (Cookie.pair pe fixdate)) start name = (Cookie.lookup cookies name <|> start name) := by
  induction cookies generalizing start with
  | nil => rfl
  | cons c rest ih =>
    rw [List.map_cons,List.nodup_cons] at hnames
    have hread := parseCookie_plain pe fixdate h (hplain c List.mem_cons_self)
    rw [List.map_cons,collect_read pe hread,ih (fun d hd => hplain d (List.mem_cons_of_mem c hd)) hnames.2,lookup_cons]
    by_cases hname : c.name = name
    · have hnone : Cookie.lookup rest name = none := by
        rw [Cookie.lookup,Option.map_eq_none_iff,List.find?_eq_none]
        intro d hd heq
        rw [← of_decide_eq_true heq] at hname
        exact hnames.1 (hname ▸ List.mem_map_of_mem hd)
      rw [if_pos hname,hnone,← hname,Function.update_self]
      rfl
    · rw [if_neg hname,Function.update_of_ne (Ne.symm hname)]

end Header

/-- Cookies of different names come back just when no name has `=` in it. -/
theorem roundTrips_iff (pe : PercentEncoding) (h : pe.Piecewise) (fixdate : Time → String) (cookies : List (Cookie Time))
    (hnames : (cookies.map Cookie.name).Nodup) :
    RoundTrips pe fixdate cookies ↔ ∀ c ∈ cookies, '=' ∉ c.name.toList := by
  constructor
  · intro hround c hc hmem
    have hread := congrFun hround c.name
    rw [parse_header,collect_missing pe fixdate h hmem cookies _ rfl] at hread
    rw [eq_comm,Cookie.lookup,Option.map_eq_none_iff,List.find?_eq_none] at hread
    exact hread c hc (decide_eq_true rfl)
  · intro hplain
    funext name
    rw [parse_header,collect_all pe fixdate h hplain hnames]
    simp

theorem theme_roundTrips : RoundTrips PercentEncoding.standard (fun _ : Unit => "")
    [Cookie.new "theme" "a=b; \"c\" 100%",Cookie.new "größe" " é"] :=
  (roundTrips_iff PercentEncoding.standard PercentEncoding.standard_piecewise _ _ (by decide)).mpr (by decide)

/-- The name `a=b` comes back as `a`. -/
theorem equals_in_name : ¬RoundTrips PercentEncoding.standard (fun _ : Unit => "") [Cookie.new "a=b" "c"] ∧
    parseCookieHeader PercentEncoding.standard (Cookie.header PercentEncoding.standard (fun _ : Unit => "") [Cookie.new "a=b" "c"]) "a" =
      some "b=c" := by
  have hread : parseCookieHeader PercentEncoding.standard
      (Cookie.header PercentEncoding.standard (fun _ : Unit => "") [Cookie.new "a=b" "c"]) "a" = some "b=c" := by
    decide
  refine ⟨fun hround => ?_,hread⟩
  rw [RoundTrips] at hround
  rw [hround] at hread
  exact absurd hread (by decide)

end Rainier.Http
