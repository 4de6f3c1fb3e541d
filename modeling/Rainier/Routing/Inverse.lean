import Rainier.Routing.Router
import Rainier.Routing.Url

/-! # Reading a generated URL back

The path of a URL generated for a pattern is matched against that pattern again.
`Proper` says which patterns and parameter lists are meant, `expected` what they should be
read back as, and `Legible` when they are.
-/
namespace Rainier.Routing
open Rainier

/-- What comes before any query. -/
def pathPart (url : String) : String := String.ofList (url.toList.takeWhile (· ≠ '?'))

/-- The names differ, what may be left out comes last, there is one wildcard at most, and
parameters are left out from the end. -/
structure Proper (given : String → Option String) (segments : List Segment) : Prop where
  names : (names segments).Nodup
  last : segments.Pairwise fun a b => a.isOptional = true → b.isOptional = true
  one : segments.Pairwise fun a b => ∀ v w, a = .wildcard v → b ≠ .wildcard w
  optionals : segments.Pairwise fun a b => ∀ m n, a = .optionalParam m → b = .optionalParam n → given m = none → given n = none
  wildcard : ∀ w n, .wildcard w ∈ segments → .optionalParam n ∈ segments → given n = none → given w = none

/-- The supplied values of the pattern's parameters, with an empty wildcard when it was omitted. -/
def expected (given : String → Option String) (segments : List Segment) : Params := fun n =>
  if .wildcard n ∈ segments then some ((given n).getD "") else if n ∈ names segments then given n else none

/-- No literal has a question mark; no value of a single segment is empty; every optional
parameter before a wildcard is supplied and none after it is; and a wildcard's value is
empty or has no empty segment. -/
structure Legible (given : String → Option String) (segments : List Segment) : Prop where
  literal : ∀ l, .static l ∈ segments → '?' ∉ l.toList
  value : ∀ n, .param n ∈ segments ∨ .optionalParam n ∈ segments → given n ≠ some ""
  before : segments.Pairwise fun a b => ∀ n w, a = .optionalParam n → b = .wildcard w → given n ≠ none
  after : segments.Pairwise fun a b => ∀ w n, a = .wildcard w → b = .optionalParam n → given n = none
  whole : ∀ w v, .wildcard w ∈ segments → given w = some v → v = "" ∨ "" ∉ Text.split '/' v

/-! ## Encoded values -/

section Encoding
variable (pe : PercentEncoding)

theorem encode_eq_empty {value : String} : pe.encode pathSegment value = "" ↔ value = "" := by
  constructor
  · intro h
    have hbytes : pe.decode (pe.encode pathSegment value) = Text.asBytes value := pe.decode_encode_self rfl value
    rw [h,pe.decode_empty] at hbytes
    have hvalue := Text.fromUtf8Lossy_asBytes value
    rw [← hbytes] at hvalue
    exact hvalue.symm.trans (Text.fromUtf8Lossy_asBytes "")
  · rintro rfl
    exact pe.encode_empty pathSegment

theorem decode_join (values : List String) :
    pe.decode (Text.join '/' (values.map (pe.encode pathSegment))) = Text.asBytes (Text.join '/' values) := by
  induction values with
  | nil => exact pe.decode_empty
  | cons value rest ih =>
    cases rest with
    | nil =>
      have hbytes := pe.decode_encode pathSegment value "" rfl
      rw [String.append_empty,pe.decode_empty,List.append_nil] at hbytes
      simpa [Text.join_singleton] using hbytes
    | cons other rest =>
      rw [List.map_cons,Text.join_cons (by simp),String.append_assoc,pe.decode_encode pathSegment _ _ rfl,
        pe.decode_char '/' _ (by decide),ih,Text.join_cons (List.cons_ne_nil other rest),Text.asBytes_append,
        Text.asBytes_append,List.append_assoc]

theorem decodeText_join (values : List String) :
    decodeText pe (Text.join '/' (values.map (pe.encode pathSegment))) = Text.join '/' values := by
  rw [decodeText,decode_join,Text.fromUtf8Lossy_asBytes]

theorem decodeText_encode (value : String) : decodeText pe (pe.encode pathSegment value) = value := by
  have h := decodeText_join pe [value]
  rwa [List.map_singleton,Text.join_singleton,Text.join_singleton] at h

theorem decodeText_ne_empty {raw : String} (h : raw ≠ "") : decodeText pe raw ≠ "" :=
  Text.fromUtf8Lossy_ne_empty (pe.decode_ne raw h)

end Encoding

/-! ## The segments of a generated path -/

theorem slashed_eq_join {pieces : List String} (hne : pieces ≠ []) : slashed pieces = Text.join '/' ("" :: pieces) := by
  rw [← slash_join hne,Text.join_cons hne]
  rfl

theorem splitPath_slashed {pieces : List String} (hne : pieces ≠ []) (h : ∀ p ∈ pieces, '/' ∉ p.toList) :
    splitPath (slashed pieces) = pieces.filter (· ≠ "") := by
  have hpieces : ∀ q ∈ "" :: pieces, '/' ∉ q.toList := by
    intro q hq
    rcases List.mem_cons.mp hq with rfl | hq
    · simp
    · exact h q hq
  rw [slashed_eq_join hne,splitPath,Text.split_join (by simp) hpieces,List.filter_cons_of_neg (by decide)]

theorem splitPath_pathOf {pieces : List String} (h : ∀ p ∈ pieces, '/' ∉ p.toList) :
    splitPath (pathOf pieces) = pieces.filter (· ≠ "") := by
  cases pieces with
  | nil => rfl
  | cons p rest =>
    have hne : (slashed (p :: rest)).isEmpty = false := by
      rw [slashed_eq_join (List.cons_ne_nil p rest),Text.join_cons (List.cons_ne_nil p rest)]
      simp [String.isEmpty_eq_false_iff]
    rw [pathOf,hne,if_neg (by decide),splitPath_slashed (List.cons_ne_nil p rest) h]

theorem compile_normaliseUri (pattern : String) : compile (normaliseUri pattern) = compile pattern := by
  rw [compile,splitPath_normaliseUri,compile]

theorem static_of_compilePiece {piece l : String} (h : compilePiece piece = .static l) : l = piece := by
  rw [compilePiece] at h
  split at h
  · cases h
    rfl
  · split at h
    · cases h
    · split at h <;> cases h

/-- A literal is a segment of the pattern. -/
theorem mem_splitPath_of_static {pattern l : String} (h : .static l ∈ compile pattern) : l ∈ splitPath pattern := by
  obtain ⟨piece,hpiece,hl⟩ := List.mem_map.mp h
  rw [static_of_compilePiece hl]
  exact hpiece

/-! ## Captures -/

/-- Where names differ, a name belongs to one segment. -/
theorem eq_of_name {segments : List Segment} (h : (names segments).Nodup) {a b : Segment} {n : String}
    (ha : a ∈ segments) (hb : b ∈ segments) (han : a.name? = some n) (hbn : b.name? = some n) : a = b := by
  induction segments with
  | nil => cases ha
  | cons s rest ih =>
    have hrest : (names rest).Nodup := h.sublist ((List.sublist_cons_self s rest).filterMap _)
    -- the name of the first segment is not one of the rest
    have hfresh : ∀ c ∈ rest, s.name? = some n → c.name? ≠ some n := by
      intro c hc hsn hcn
      rw [names,List.filterMap_cons_some hsn] at h
      exact (List.nodup_cons.mp h).1 (mem_names hc hcn)
    rcases List.mem_cons.mp ha with heqa | ha <;> rcases List.mem_cons.mp hb with heqb | hb
    · rw [heqa,heqb]
    · exact absurd hbn (hfresh b hb (heqa ▸ han))
    · exact absurd han (hfresh a ha (heqb ▸ hbn))
    · exact ih hrest ha hb

namespace Params

theorem insertAll_of_not_mem {params : Params} {captures : List (String × String)} {n : String}
    (h : n ∉ captures.map Prod.fst) : params.insertAll captures n = params n := by
  induction captures generalizing params with
  | nil => rfl
  | cons c rest ih =>
    rw [List.map_cons,List.mem_cons,not_or] at h
    change Params.insertAll (Function.update params c.1 (some c.2)) rest n = params n
    rw [ih h.2,Function.update_of_ne h.1]

/-- Where the keys differ, the captures are what is there afterwards. -/
theorem insertAll_eq_some {captures : List (String × String)} (h : (captures.map Prod.fst).Nodup) {params : Params}
    {n v : String} (hparams : params n = none) : params.insertAll captures n = some v ↔ (n,v) ∈ captures := by
  induction captures generalizing params with
  | nil => simp [insertAll,hparams]
  | cons c rest ih =>
    obtain ⟨hnot,hnodup⟩ := List.nodup_cons.mp (List.map_cons ▸ h)
    change Params.insertAll (Function.update params c.1 (some c.2)) rest n = some v ↔ (n,v) ∈ c :: rest
    by_cases hn : n = c.1
    · subst hn
      rw [insertAll_of_not_mem hnot,Function.update_self]
      constructor
      · rintro ⟨⟩
        exact List.mem_cons_self
      · intro hmem
        rcases List.mem_cons.mp hmem with heq | hmem
        · rw [← heq]
        · exact absurd (List.mem_map_of_mem hmem) hnot
    · rw [ih hnodup (by rw [Function.update_of_ne hn,hparams]),List.mem_cons]
      constructor
      · exact .inr
      · rintro (heq | hmem)
        · exact absurd (congrArg Prod.fst heq) hn
        · exact hmem

end Params

/-- What a wildcard's value is read back as: its empty segments are gone. -/
def readBack (value : String) : String := Text.join '/' ((Text.split '/' value).filter (· ≠ ""))

theorem readBack_eq_self {value : String} : readBack value = value ↔ value = "" ∨ "" ∉ Text.split '/' value := by
  constructor
  · intro h
    by_cases hnil : (Text.split '/' value).filter (· ≠ "") = []
    · rw [readBack,hnil] at h
      exact .inl h.symm
    · have hsplit : Text.split '/' (readBack value) = (Text.split '/' value).filter (· ≠ "") :=
        Text.split_join hnil fun p hp => Text.not_mem_of_mem_split (List.mem_of_mem_filter hp)
      rw [h] at hsplit
      refine .inr fun hmem => ?_
      rw [hsplit] at hmem
      simpa using (List.mem_filter.mp hmem).2
  · rintro (rfl | h)
    · decide
    · have hfilter : (Text.split '/' value).filter (· ≠ "") = Text.split '/' value :=
        List.filter_eq_self.mpr fun p hp => decide_eq_true (ne_of_mem_of_not_mem hp h)
      rw [readBack,hfilter,Text.join_split]

/-- What a segment of the pattern captures of its own pieces. -/
def Segment.capture (given : String → Option String) : Segment → Option (String × String)
  | static _ => none
  | param name | optionalParam name => (given name).map (name,·)
  | wildcard name => some (name,readBack ((given name).getD ""))

variable {given : String → Option String} {segments : List Segment}

theorem name_of_capture {s : Segment} {c : String × String} (h : s.capture given = some c) : s.name? = some c.1 := by
  cases s with
  | static l => cases h
  | param n | optionalParam n =>
    obtain ⟨v,_,rfl⟩ := Option.map_eq_some_iff.mp h
    rfl
  | wildcard n =>
    cases h
    rfl

theorem captures_nodup (h : (names segments).Nodup) :
    ((segments.filterMap (Segment.capture given)).map Prod.fst).Nodup := by
  refine h.sublist ?_
  induction segments with
  | nil => exact .slnil
  | cons s rest ih =>
    have hrest : (names rest).Nodup := h.sublist ((List.sublist_cons_self s rest).filterMap _)
    cases hs : s.capture given with
    | none =>
      rw [List.filterMap_cons_none hs]
      exact (ih hrest).trans ((List.sublist_cons_self s rest).filterMap _)
    | some c =>
      rw [List.filterMap_cons_some hs,List.map_cons,names,List.filterMap_cons_some (name_of_capture hs)]
      exact (ih hrest).cons_cons c.1

theorem mem_captures {n v : String} : (n,v) ∈ segments.filterMap (Segment.capture given) ↔
    (.wildcard n ∈ segments ∧ v = readBack ((given n).getD "")) ∨
      ((.param n ∈ segments ∨ .optionalParam n ∈ segments) ∧ given n = some v) := by
  rw [List.mem_filterMap]
  constructor
  · rintro ⟨s,hs,hcapture⟩
    cases s with
    | static l => cases hcapture
    | param m =>
      obtain ⟨v,hv,⟨⟩⟩ := Option.map_eq_some_iff.mp hcapture
      exact .inr ⟨.inl hs,hv⟩
    | optionalParam m =>
      obtain ⟨v,hv,⟨⟩⟩ := Option.map_eq_some_iff.mp hcapture
      exact .inr ⟨.inr hs,hv⟩
    | wildcard m =>
      cases hcapture
      exact .inl ⟨hs,rfl⟩
  · rintro (⟨hs,rfl⟩ | ⟨hs | hs,hv⟩)
    · exact ⟨_,hs,rfl⟩
    · exact ⟨_,hs,by simp [Segment.capture,hv]⟩
    · exact ⟨_,hs,by simp [Segment.capture,hv]⟩

theorem expected_eq_some (h : (names segments).Nodup) {n v : String} : expected given segments n = some v ↔
    (.wildcard n ∈ segments ∧ v = (given n).getD "") ∨
      ((.param n ∈ segments ∨ .optionalParam n ∈ segments) ∧ given n = some v) := by
  rw [expected]
  split
  · next hw =>
    have hnot : ¬ (.param n ∈ segments ∨ .optionalParam n ∈ segments) := by
      rintro (hp | hp)
      · cases eq_of_name h hw hp rfl rfl
      · cases eq_of_name h hw hp rfl rfl
    simp [hw,hnot,eq_comm]
  · next hw =>
    split
    · next hn =>
      obtain ⟨s,hs,hname⟩ := List.mem_filterMap.mp hn
      have hparam : .param n ∈ segments ∨ .optionalParam n ∈ segments := by
        cases s with
        | static l => cases hname
        | param m =>
          cases hname
          exact .inl hs
        | optionalParam m =>
          cases hname
          exact .inr hs
        | wildcard m =>
          cases hname
          exact absurd hs hw
      simp [hw,hparam]
    · next hn =>
      have hnot : ¬ (.param n ∈ segments ∨ .optionalParam n ∈ segments) := by
        rintro (hp | hp)
        · exact hn (mem_names hp rfl)
        · exact hn (mem_names hp rfl)
      simp [hw,hnot]

/-- The captures are what is expected when the wildcard's value reads back as itself. -/
theorem captures_eq_expected_iff (h : (names segments).Nodup) :
    Params.insertAll (fun _ => none) (segments.filterMap (Segment.capture given)) = expected given segments ↔
      ∀ w v, .wildcard w ∈ segments → given w = some v → v = "" ∨ "" ∉ Text.split '/' v := by
  constructor
  · intro heq w v hw hv
    have hmem : (w,readBack ((given w).getD "")) ∈ segments.filterMap (Segment.capture given) :=
      mem_captures.mpr (.inl ⟨hw,rfl⟩)
    have hread : Params.insertAll (fun _ => none) (segments.filterMap (Segment.capture given)) w = _ :=
      (Params.insertAll_eq_some (captures_nodup h) rfl).mpr hmem
    rw [heq,expected,if_pos hw,hv,Option.getD_some,Option.some_inj] at hread
    exact readBack_eq_self.mp hread.symm
  · intro hwhole
    funext n
    refine Option.ext fun v => ?_
    rw [Params.insertAll_eq_some (captures_nodup h) rfl,mem_captures,expected_eq_some h]
    refine or_congr_left (and_congr_right fun hw => ?_)
    have hself : readBack ((given n).getD "") = (given n).getD "" := by
      rw [readBack_eq_self]
      cases hv : given n with
      | none => exact .inl rfl
      | some v => exact hwhole n v hw hv
    rw [hself]

/-! ## Reading the pieces -/

/-- The segment is an optional parameter that was left out. -/
def Omitted (given : String → Option String) (s : Segment) : Prop := ∃ n, s = .optionalParam n ∧ given n = none

/-- Every required value is there, none is empty, and once something is left out, or a
wildcard has taken all, only left-out parameters follow. -/
structure Readable (given : String → Option String) (segments : List Segment) : Prop where
  literal : ∀ l, .static l ∈ segments → l ≠ ""
  required : ∀ n, .param n ∈ segments → given n ≠ none
  value : ∀ n, .param n ∈ segments ∨ .optionalParam n ∈ segments → given n ≠ some ""
  omitted : segments.Pairwise fun a b => Omitted given a → Omitted given b
  wildcard : segments.Pairwise fun a b => ∀ w, a = .wildcard w → Omitted given b

theorem Readable.tail {s : Segment} {rest : List Segment} (h : Readable given (s :: rest)) : Readable given rest where
  literal l hl := h.literal l (List.mem_cons_of_mem s hl)
  required n hn := h.required n (List.mem_cons_of_mem s hn)
  value n hn := h.value n (hn.imp (List.mem_cons_of_mem s) (List.mem_cons_of_mem s))
  omitted := (List.pairwise_cons.mp h.omitted).2
  wildcard := (List.pairwise_cons.mp h.wildcard).2

theorem Proper.readable (h : Proper given segments)
    (hliteral : ∀ l, .static l ∈ segments → l ≠ "") (hrequired : ∀ n, .param n ∈ segments → given n ≠ none)
    (hvalue : ∀ n, .param n ∈ segments ∨ .optionalParam n ∈ segments → given n ≠ some "")
    (hbefore : segments.Pairwise fun a b => ∀ n w, a = .optionalParam n → b = .wildcard w → given n ≠ none)
    (hafter : segments.Pairwise fun a b => ∀ w n, a = .wildcard w → b = .optionalParam n → given n = none) :
    Readable given segments where
  literal := hliteral
  required := hrequired
  value := hvalue
  omitted := by
    refine ((h.last.and h.optionals).and hbefore).imp ?_
    rintro a b ⟨⟨hlast,hoptionals⟩,hbefore⟩ ⟨m,rfl,hm⟩
    cases b with
    | static l => cases hlast rfl
    | param n => cases hlast rfl
    | optionalParam n => exact ⟨n,rfl,hoptionals m n rfl rfl hm⟩
    | wildcard w => exact absurd hm (hbefore m w rfl rfl)
  wildcard := by
    refine ((h.last.and h.one).and hafter).imp ?_
    rintro a b ⟨⟨hlast,hone⟩,hafter⟩ v rfl
    cases b with
    | static l => cases hlast rfl
    | param n => cases hlast rfl
    | optionalParam n => exact ⟨n,rfl,hafter v n rfl rfl⟩
    | wildcard w => exact absurd rfl (hone v w rfl)

section Reading
variable (pe : PercentEncoding)

theorem omitted_isOptional {rest : List Segment} (h : ∀ s ∈ rest, Omitted given s) :
    rest.all Segment.isOptional = true := by
  rw [List.all_eq_true]
  intro s hs
  obtain ⟨n,rfl,_⟩ := h s hs
  rfl

/-- Left-out parameters write nothing and capture nothing. -/
theorem omitted_nil {rest : List Segment} (h : ∀ s ∈ rest, Omitted given s) :
    rest.flatMap (Segment.pieces pe given) = [] ∧ rest.filterMap (Segment.capture given) = [] := by
  refine ⟨List.flatMap_eq_nil_iff.mpr fun s hs => ?_,List.filterMap_eq_nil_iff.mpr fun s hs => ?_⟩
  · obtain ⟨n,rfl,hn⟩ := h s hs
    simp [Segment.pieces,hn]
  · obtain ⟨n,rfl,hn⟩ := h s hs
    simp [Segment.capture,hn]

theorem matchSegments_omitted {rest : List Segment} (h : ∀ s ∈ rest, Omitted given s) (decode : String → String)
    (allows : String → String → Bool) (params : Params) :
    Route.matchSegments decode allows rest [] params = some params := by
  cases rest with
  | nil => rfl
  | cons s rest =>
    obtain ⟨n,rfl,_⟩ := h s List.mem_cons_self
    have hrest := omitted_isOptional fun s' hs' => h s' (List.mem_cons_of_mem _ hs')
    simp only [Route.matchSegments,hrest,if_true]

/-- The path segments of a value that stands for one segment. -/
theorem pieces_value {n v : String} (hn : given n = some v) (hv : v ≠ "") :
    (((given n).map (pe.encode pathSegment)).toList).filter (· ≠ "") = [pe.encode pathSegment v] := by
  have hne : pe.encode pathSegment v ≠ "" := fun h => hv ((encode_eq_empty pe).mp h)
  simp [hn,hne]

/-- The segments written for a wildcard, joined and decoded. -/
theorem decode_wildcard (w : String) :
    decodeText pe (Text.join '/' (((Segment.wildcard w).pieces pe given).filter (· ≠ ""))) =
      readBack ((given w).getD "") := by
  cases hw : given w with
  | none =>
    have hpieces : ((Segment.wildcard w).pieces pe given).filter (· ≠ "") = ([] : List String).map (pe.encode pathSegment) := by
      simp [Segment.pieces,hw]
    rw [hpieces,decodeText_join]
    decide
  | some v =>
    have hpieces : ((Segment.wildcard w).pieces pe given).filter (· ≠ "") =
        ((Text.split '/' v).filter (· ≠ "")).map (pe.encode pathSegment) := by
      simp only [Segment.pieces,hw,Option.map_some,Option.getD_some,List.filter_map]
      refine congrArg _ (List.filter_congr fun p _ => ?_)
      simp [encode_eq_empty]
    rw [hpieces,decodeText_join]
    rfl

theorem matchSegments_pieces (h : Readable given segments) (params : Params) :
    Route.matchSegments (decodeText pe) (fun _ _ => true) segments
        ((segments.flatMap (Segment.pieces pe given)).filter (· ≠ "")) params =
      some (params.insertAll (segments.filterMap (Segment.capture given))) := by
  induction segments generalizing params with
  | nil => rfl
  | cons s rest ih =>
    rw [List.flatMap_cons,List.filter_append]
    cases s with
    | static l =>
      have hl : ((Segment.static l).pieces pe given).filter (· ≠ "") = [l] := by
        simp [Segment.pieces,h.literal l List.mem_cons_self]
      rw [hl,List.singleton_append,Route.matchSegments,if_pos rfl]
      exact ih h.tail params
    | param n =>
      obtain ⟨v,hn⟩ := Option.ne_none_iff_exists'.mp (h.required n List.mem_cons_self)
      have hv : v ≠ "" := fun he => h.value n (.inl List.mem_cons_self) (he ▸ hn)
      have hcapture : (Segment.param n).capture given = some (n,v) := by
        simp [Segment.capture,hn]
      rw [Segment.pieces,pieces_value pe hn hv,List.singleton_append,Route.matchSegments,if_pos rfl,decodeText_encode,
        List.filterMap_cons_some hcapture]
      exact ih h.tail _
    | optionalParam n =>
      cases hn : given n with
      | none =>
        have hafter : ∀ b ∈ rest, Omitted given b := fun b hb => (List.pairwise_cons.mp h.omitted).1 b hb ⟨n,rfl,hn⟩
        have hrest := omitted_nil pe hafter
        have hcapture : (Segment.optionalParam n).capture given = none := by
          simp [Segment.capture,hn]
        rw [hrest.1,List.filterMap_cons_none hcapture,hrest.2]
        simp [Segment.pieces,hn,Route.matchSegments,omitted_isOptional hafter,Params.insertAll]
      | some v =>
        have hv : v ≠ "" := fun he => h.value n (.inr List.mem_cons_self) (he ▸ hn)
        have hcapture : (Segment.optionalParam n).capture given = some (n,v) := by
          simp [Segment.capture,hn]
        rw [Segment.pieces,pieces_value pe hn hv,List.singleton_append,Route.matchSegments,if_pos rfl,decodeText_encode,
          List.filterMap_cons_some hcapture]
        exact ih h.tail _
    | wildcard w =>
      have hafter : ∀ b ∈ rest, Omitted given b := fun b hb => (List.pairwise_cons.mp h.wildcard).1 b hb w rfl
      have hrest := omitted_nil pe hafter
      have hcapture : (Segment.wildcard w).capture given = some (w,readBack ((given w).getD "")) := rfl
      rw [hrest.1,List.filter_nil,List.append_nil,Route.matchSegments,decode_wildcard,if_pos rfl,
        matchSegments_omitted hafter,List.filterMap_cons_some hcapture,hrest.2]
      rfl

end Reading

/-! ## What a reading tells of the pattern -/

section Reads
variable {decode : String → String} {allows : String → String → Bool} {actual : List String}
  {captures : List (String × String)}

theorem Reads.static_mem (h : Reads decode allows segments actual captures) {l : String} (hl : .static l ∈ segments) :
    l ∈ actual := by
  induction h with
  | nil => cases hl
  | static literal _ ih =>
    rcases List.mem_cons.mp hl with heq | hl
    · cases heq
      exact List.mem_cons_self
    · exact List.mem_cons_of_mem _ (ih hl)
  | param name raw _ _ ih | taken name raw _ _ ih => exact List.mem_cons_of_mem _ (ih (by simpa using hl))
  | absent name hrest =>
    rcases List.mem_cons.mp hl with heq | hl
    · cases heq
    · cases List.all_eq_true.mp hrest _ hl
  | wildcard name actual _ _ ih => cases ih (by simpa using hl)

/-- A parameter of one segment captures something, where no text decodes to nothing. -/
theorem Reads.capture_ne_empty (hdecode : ∀ raw, raw ≠ "" → decode raw ≠ "")
    (h : Reads decode allows segments actual captures) (hactual : ∀ raw ∈ actual, raw ≠ "") {n v : String}
    (hc : (n,v) ∈ captures) : .wildcard n ∈ segments ∨ v ≠ "" := by
  induction h with
  | nil => cases hc
  | static literal _ ih =>
    refine (ih (fun raw hraw => hactual raw (List.mem_cons_of_mem _ hraw)) hc).imp_left (List.mem_cons_of_mem _)
  | param name raw _ _ ih | taken name raw _ _ ih =>
    rcases List.mem_cons.mp hc with heq | hc
    · cases heq
      exact .inr (hdecode raw (hactual raw List.mem_cons_self))
    · exact (ih (fun raw hraw => hactual raw (List.mem_cons_of_mem _ hraw)) hc).imp_left (List.mem_cons_of_mem _)
  | absent name hrest => cases hc
  | wildcard name actual _ _ ih =>
    rcases List.mem_cons.mp hc with heq | hc
    · cases heq
      exact .inl List.mem_cons_self
    · exact (ih (by simp) hc).imp_left (List.mem_cons_of_mem _)

/-- The names captured are those of an initial part of the pattern. -/
theorem Reads.captured_names (h : Reads decode allows segments actual captures) :
    ∃ pre post, segments = pre ++ post ∧ captures.map Prod.fst = names pre := by
  induction h with
  | nil => exact ⟨[],[],rfl,rfl⟩
  | static literal _ ih =>
    obtain ⟨pre,post,rfl,hnames⟩ := ih
    exact ⟨.static literal :: pre,post,rfl,hnames⟩
  | param name raw _ _ ih =>
    obtain ⟨pre,post,rfl,hnames⟩ := ih
    exact ⟨.param name :: pre,post,rfl,by rw [List.map_cons,hnames]; rfl⟩
  | taken name raw _ _ ih =>
    obtain ⟨pre,post,rfl,hnames⟩ := ih
    exact ⟨.optionalParam name :: pre,post,rfl,by rw [List.map_cons,hnames]; rfl⟩
  | absent name hrest => exact ⟨[],_,rfl,rfl⟩
  | wildcard name actual _ _ ih =>
    obtain ⟨pre,post,rfl,hnames⟩ := ih
    exact ⟨.wildcard name :: pre,post,rfl,by rw [List.map_cons,hnames]; rfl⟩

/-- Of an empty path, only wildcards capture. -/
theorem Reads.wildcard_of_nil (h : Reads decode allows segments [] captures) {n : String}
    (hn : n ∈ captures.map Prod.fst) : .wildcard n ∈ segments := by
  generalize hactual : ([] : List String) = actual at h
  induction h with
  | nil => cases hn
  | static literal _ _ => cases hactual
  | param name raw _ _ _ | taken name raw _ _ _ => cases hactual
  | absent name hrest => cases hn
  | wildcard name actual _ _ ih =>
    rcases List.mem_cons.mp (List.map_cons ▸ hn) with rfl | hn
    · exact List.mem_cons_self
    · exact List.mem_cons_of_mem _ (ih hn rfl)

/-- An optional parameter after a wildcard captures nothing. -/
theorem Reads.after_wildcard (hnames : (names segments).Nodup) (h : Reads decode allows segments actual captures) :
    segments.Pairwise fun a b => ∀ w n, a = .wildcard w → b = .optionalParam n → n ∉ captures.map Prod.fst := by
  induction h with
  | nil => exact .nil
  | static literal _ ih => exact List.pairwise_cons.mpr ⟨fun b _ w n => nofun,ih hnames⟩
  | param name raw _ _ ih | taken name raw _ _ ih =>
    obtain ⟨hnot,hnodup⟩ := List.nodup_cons.mp hnames
    refine List.pairwise_cons.mpr ⟨fun b _ w n => nofun,(ih hnodup).imp_of_mem fun {a b} _ hb hab w n ha hn hmem => ?_⟩
    subst hn
    rcases List.mem_cons.mp (List.map_cons ▸ hmem) with rfl | hmem
    · exact hnot (mem_names hb rfl)
    · exact hab w n ha rfl hmem
  | absent name hrest => exact List.pairwise_of_forall fun _ _ _ _ _ _ hmem => nomatch hmem
  | @wildcard name rest actual captures _ hreads ih =>
    obtain ⟨hnot,hnodup⟩ := List.nodup_cons.mp hnames
    have hlater : ∀ n, .optionalParam n ∈ rest → n ≠ name := by
      rintro n hn rfl
      exact hnot (mem_names hn rfl)
    refine List.pairwise_cons.mpr ⟨fun b hb w n _ hn hmem => ?_,
      (ih hnodup).imp_of_mem fun {a b} _ hb hab w n ha hn hmem => ?_⟩
    · subst hn
      rcases List.mem_cons.mp (List.map_cons ▸ hmem) with heq | hmem
      · exact hlater n hb heq
      · cases eq_of_name hnodup hb (hreads.wildcard_of_nil hmem) rfl rfl
    · subst hn
      rcases List.mem_cons.mp (List.map_cons ▸ hmem) with heq | hmem
      · exact hlater n hb heq
      · exact hab w n ha rfl hmem

end Reads

/-! ## The inverse -/

theorem not_mem_pathPart (url : String) : '?' ∉ (pathPart url).toList := by
  rw [pathPart,String.toList_ofList]
  intro h
  simpa using List.all_eq_true.mp List.all_takeWhile '?' h

/-- What a reading of a path without a question mark needs of the pattern, when it captures what is expected. -/
theorem legible_of_reads (pe : PercentEncoding) {allows : String → String → Bool} {captures : List (String × String)}
    {url : String} (hnames : (names segments).Nodup)
    (h : Reads (decodeText pe) allows segments (splitPath (pathPart url)) captures)
    (hexpected : expected given segments = Params.insertAll (fun _ => none) captures) :
    (∀ l, .static l ∈ segments → '?' ∉ l.toList) ∧
      (∀ n, .param n ∈ segments ∨ .optionalParam n ∈ segments → given n ≠ some "") ∧
      (segments.Pairwise fun a b => ∀ n w, a = .optionalParam n → b = .wildcard w → given n ≠ none) ∧
      segments.Pairwise fun a b => ∀ w n, a = .wildcard w → b = .optionalParam n → given n = none := by
  obtain ⟨pre,post,hsegments,hcaptured⟩ := h.captured_names
  have hnodup : (captures.map Prod.fst).Nodup := by
    rw [hcaptured]
    refine hnames.sublist ?_
    rw [hsegments]
    exact (List.sublist_append_left pre post).filterMap _
  have hmem : ∀ n v, expected given segments n = some v ↔ (n,v) ∈ captures := by
    intro n v
    rw [hexpected]
    exact Params.insertAll_eq_some hnodup rfl
  have hnot : ∀ n, .optionalParam n ∈ segments → .wildcard n ∉ segments := by
    intro n hn hw
    cases eq_of_name hnames hn hw rfl rfl
  refine ⟨fun l hl hq => ?_,fun n hn hempty => ?_,?_,?_⟩
  · have hpiece := h.static_mem hl
    exact not_mem_pathPart url (Text.mem_of_mem_split (List.mem_of_mem_filter hpiece) hq)
  · have hcapture := (hmem n "").mp ((expected_eq_some hnames).mpr (.inr ⟨hn,hempty⟩))
    have hactual : ∀ raw ∈ splitPath (pathPart url), raw ≠ "" := fun raw hraw => (not_mem_of_mem_splitPath hraw).2
    rcases h.capture_ne_empty (fun _ => decodeText_ne_empty pe) hactual hcapture with hw | hne
    · rcases hn with hn | hn
      · cases eq_of_name hnames hn hw rfl rfl
      · exact hnot n hn hw
    · exact hne rfl
  -- the wildcard is captured, so it and what comes before it are in the initial part
  · have hpre : ∀ n, .optionalParam n ∈ pre → given n ≠ none := by
      intro n hn hnone
      have hkey : n ∈ captures.map Prod.fst := by
        rw [hcaptured]
        exact mem_names hn rfl
      obtain ⟨⟨m,v⟩,hc,rfl⟩ := List.mem_map.mp hkey
      have hsegment : .optionalParam m ∈ segments := hsegments ▸ List.mem_append_left post hn
      rcases (expected_eq_some hnames).mp ((hmem m v).mpr hc) with ⟨hw,_⟩ | ⟨_,hgiven⟩
      · exact hnot m hsegment hw
      · simp only [hnone] at hgiven
        cases hgiven
    have hpost : ∀ w, .wildcard w ∉ post := by
      intro w hw
      have hsegment : .wildcard w ∈ segments := hsegments ▸ List.mem_append_right pre hw
      have hc := (hmem w _).mp ((expected_eq_some hnames).mpr (.inl ⟨hsegment,rfl⟩))
      have hkey : w ∈ names pre := hcaptured ▸ List.mem_map_of_mem hc
      rw [hsegments,names,List.filterMap_append] at hnames
      exact (List.nodup_append.mp hnames).2.2 w hkey w (mem_names hw rfl) rfl
    rw [hsegments,List.pairwise_append]
    refine ⟨List.pairwise_iff_forall_sublist.mpr fun {a b} hab n w ha _ => ?_,
      List.pairwise_iff_forall_sublist.mpr fun {a b} hab n w _ hb => ?_,fun a ha b _ n w hn _ => ?_⟩
    · exact hpre n (ha ▸ hab.subset List.mem_cons_self)
    · exact absurd (hb ▸ hab.subset (List.mem_cons_of_mem _ List.mem_cons_self)) (hpost w)
    · exact hpre n (hn ▸ ha)
  · refine (h.after_wildcard hnames).imp_of_mem fun {a b} _ hb hab w n ha hn => ?_
    subst hn
    cases hgiven : given n with
    | none => rfl
    | some v =>
      have hc := (hmem n v).mp ((expected_eq_some hnames).mpr (.inr ⟨.inr hb,hgiven⟩))
      exact absurd (List.mem_map_of_mem hc) (hab w n ha rfl)

/-- A character that is escaped is in no piece, unless a literal has it. -/
theorem not_mem_pieces (pe : PercentEncoding) {c : Char} (hc : Percent.plain pathSegment c = false)
    (hliteral : ∀ l, .static l ∈ segments → c ∉ l.toList) :
    ∀ p ∈ segments.flatMap (Segment.pieces pe given), c ∉ p.toList := by
  intro p hp
  obtain ⟨s,hs,hp⟩ := List.mem_flatMap.mp hp
  cases s with
  | static l =>
    rw [List.mem_singleton.mp hp]
    exact hliteral l hs
  | param n | optionalParam n =>
    obtain ⟨v,_,rfl⟩ := Option.map_eq_some_iff.mp (Option.mem_toList.mp hp)
    exact pe.not_mem_encode hc v
  | wildcard n =>
    cases hn : given n with
    | none => simp [Segment.pieces,hn] at hp
    | some v =>
      simp only [Segment.pieces,hn,Option.map_some,Option.getD_some] at hp
      obtain ⟨piece,_,rfl⟩ := List.mem_map.mp hp
      exact pe.not_mem_encode hc piece

theorem not_mem_slashed {c : Char} (hc : c ≠ '/') {pieces : List String} (h : ∀ p ∈ pieces, c ∉ p.toList) :
    c ∉ (slashed pieces).toList := by
  induction pieces with
  | nil => simp [slashed]
  | cons p rest ih =>
    have hcons : slashed (p :: rest) = slashed [p] ++ slashed rest := slashed_append [p] rest
    have hp : c ∉ p.toList := h p List.mem_cons_self
    have hrest := ih fun q hq => h q (List.mem_cons_of_mem p hq)
    rw [hcons,String.toList_append,List.mem_append,not_or]
    refine ⟨?_,hrest⟩
    simp [slashed,hc,hp]

theorem not_mem_pathOf {c : Char} (hc : c ≠ '/') {pieces : List String} (h : ∀ p ∈ pieces, c ∉ p.toList) :
    c ∉ (pathOf pieces).toList := by
  rw [pathOf]
  split
  · simpa using hc
  · exact not_mem_slashed hc h

/-- Without a question mark in the path, the query begins after it. -/
theorem pathPart_eq {url path : String} {after : List Char} (hurl : url.toList = path.toList ++ after)
    (hafter : after = [] ∨ after.head? = some '?') (hpath : '?' ∉ path.toList) : pathPart url = path := by
  have htake : url.toList.takeWhile (· ≠ '?') = path.toList := by
    have hall : ∀ c ∈ path.toList, decide (c ≠ '?') = true := fun c hc => decide_eq_true (ne_of_mem_of_not_mem hc hpath)
    rw [hurl,List.takeWhile_append_of_pos hall]
    cases after with
    | nil => simp
    | cons c rest =>
      have hc : c = '?' := by simpa using hafter
      simp [hc]
  rw [pathPart,htake,String.ofList_toList]

namespace UrlGenerator
variable {pe : PercentEncoding} {g : UrlGenerator} {name pattern url : String} {params : List (String × String)}

/-- The path of a generated URL, matched against the pattern, gives what its segments capture. -/
theorem matchPath_route (hpattern : g.routes name = some pattern) (hnames : (names (compile pattern)).Nodup)
    (hok : g.route pe name params = .ok url) (hreadable : Readable (Routing.given params) (compile pattern))
    (hliteral : ∀ l, .static l ∈ compile pattern → '?' ∉ l.toList) (methods : List Method) :
    (Route.new methods pattern).matchPath (decodeText pe) (pathPart url) =
      some (Params.insertAll (fun _ => none) ((compile pattern).filterMap (Segment.capture (Routing.given params)))) := by
  obtain ⟨_,after,hurl,hafter⟩ := route_eq hpattern hnames hok
  have hslash : ∀ p ∈ (compile pattern).flatMap (Segment.pieces pe (Routing.given params)), '/' ∉ p.toList :=
    not_mem_pieces pe (by decide) fun l hl => (not_mem_of_mem_splitPath (mem_splitPath_of_static hl)).1
  have hquestion : '?' ∉ (pathOf ((compile pattern).flatMap (Segment.pieces pe (Routing.given params)))).toList :=
    not_mem_pathOf (by decide) (not_mem_pieces pe (by decide) hliteral)
  rw [pathPart_eq hurl hafter hquestion,Route.matchPath,Route.new]
  simp only [compile_normaliseUri,splitPath_pathOf hslash]
  exact matchSegments_pieces pe hreadable _

/-- A generated path, for a proper pattern and parameter list, is read back as what was
supplied just when they are legible. -/
theorem route_inverts_iff (pe : PercentEncoding) (g : UrlGenerator) (methods : List Method) (name pattern url : String)
    (params : List (String × String)) (hpattern : g.routes name = some pattern)
    (hproper : Proper (Routing.given params) (compile pattern)) (hok : g.route pe name params = .ok url) :
    (Route.new methods pattern).matchPath (decodeText pe) (pathPart url) =
        some (expected (Routing.given params) (compile pattern)) ↔
      Legible (Routing.given params) (compile pattern) := by
  have hliteral : ∀ l, .static l ∈ compile pattern → l ≠ "" :=
    fun l hl => (not_mem_of_mem_splitPath (mem_splitPath_of_static hl)).2
  have hrequired := (route_eq hpattern hproper.names hok).1
  constructor
  · intro h
    obtain ⟨captures,hreads,hexpected⟩ := (Route.matchPath_iff _ _ _ _).mp h
    have hsegments : (Route.new methods pattern).segments = compile pattern := compile_normaliseUri pattern
    rw [hsegments] at hreads
    obtain ⟨hquestion,hvalue,hbefore,hafter⟩ := legible_of_reads pe hproper.names hreads hexpected
    have hreadable := hproper.readable hliteral hrequired hvalue hbefore hafter
    rw [matchPath_route hpattern hproper.names hok hreadable hquestion,Option.some_inj,
      captures_eq_expected_iff hproper.names] at h
    exact ⟨hquestion,hvalue,hbefore,hafter,h⟩
  · intro h
    have hreadable := hproper.readable hliteral hrequired h.value h.before h.after
    rw [matchPath_route hpattern hproper.names hok hreadable h.literal,Option.some_inj,
      captures_eq_expected_iff hproper.names]
    exact h.whole

/-- A route with a parameter, an optional one and a wildcard. -/
def filesUrls : UrlGenerator := ⟨fun name => if name = "files" then some "/files/\x7bowner\x7d/\x7brev?\x7d/\x7bpath*\x7d" else none⟩

def filesParams : List (String × String) := [("path","src/é.rs"),("owner","a/b?"),("rev","100%"),("page","2")]

/-- Slashes, percent signs, question marks and letters that are not ASCII come back. -/
theorem route_inverts_files :
    filesUrls.route .standard "files" filesParams = .ok "/files/a%2Fb%3F/100%25/src/%C3%A9.rs?page=2" ∧
      (Route.new [.get] "/files/\x7bowner\x7d/\x7brev?\x7d/\x7bpath*\x7d").matchPath (decodeText .standard)
          (pathPart "/files/a%2Fb%3F/100%25/src/%C3%A9.rs?page=2") =
        some (expected (Routing.given filesParams) (compile "/files/\x7bowner\x7d/\x7brev?\x7d/\x7bpath*\x7d")) := by
  have hsegments : compile "/files/\x7bowner\x7d/\x7brev?\x7d/\x7bpath*\x7d" =
      [.static "files",.param "owner",.optionalParam "rev",.wildcard "path"] := by decide
  have hroute : filesUrls.route .standard "files" filesParams = .ok "/files/a%2Fb%3F/100%25/src/%C3%A9.rs?page=2" := by
    decide +kernel
  have howner : Routing.given filesParams "owner" = some "a/b?" := by decide
  have hrev : Routing.given filesParams "rev" = some "100%" := by decide
  have hpath : Routing.given filesParams "path" = some "src/é.rs" := by decide
  refine ⟨hroute,(route_inverts_iff .standard filesUrls [.get] "files" _ _ filesParams rfl ?_ hroute).mpr ?_⟩
  · rw [hsegments]
    exact ⟨by decide,by simp [Segment.isOptional],by simp,by simp,by simp [hrev]⟩
  · rw [hsegments]
    refine ⟨by simp,by simp [hrev,howner],by simp [hrev],by simp,fun w v hw hv => ?_⟩
    obtain rfl : w = "path" := by simpa using hw
    rw [hpath] at hv
    cases hv
    exact .inr (by decide)

/-- A post without a name. -/
def postsUrls : UrlGenerator := ⟨fun name => if name = "posts" then some "/posts/\x7bpost\x7d" else none⟩

/-- An empty value is accepted, and the URL made of it is not one of the route's. -/
theorem route_not_inverted :
    Proper (Routing.given [("post","")]) (compile "/posts/\x7bpost\x7d") ∧
      postsUrls.route .standard "posts" [("post","")] = .ok "/posts/" ∧
      (Route.new [.get] "/posts/\x7bpost\x7d").matchPath (decodeText .standard) (pathPart "/posts/") = none := by
  have hsegments : compile "/posts/\x7bpost\x7d" = [.static "posts",.param "post"] := by decide
  refine ⟨?_,rfl,rfl⟩
  rw [hsegments]
  exact ⟨by decide,by simp [Segment.isOptional],by simp,by simp,by simp⟩

end UrlGenerator
end Rainier.Routing
