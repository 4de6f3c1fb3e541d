import Mathlib.Data.List.Induction
import Rainier.Http.Input
import Rainier.Routing.Inverse

/-! # Reading the query of a generated URL back

The parameters a pattern does not use are written as the query of its URL, and a request
reads the query as a form.
-/
namespace Rainier.Routing
open Rainier

/-- What comes after the first question mark. -/
def queryPart (url : String) : String := String.ofList (url.toList.dropWhile (· ≠ '?')).tail

/-- The query is read back as the parameters whose names the pattern does not have. -/
def Survives (pe : PercentEncoding) (pattern : String) (params : List (String × String)) (url : String) : Prop :=
  ∃ fields, Http.parseUrlencoded pe (queryPart url) = .object fields ∧
    ∀ key, Json.field fields key = if key ∈ names (compile pattern) then none else (given params key).map Json.string

/-- Every required parameter can be supplied: its name is a proper key, and no segment
before it has taken the value already. -/
def Fillable (segments : List Segment) : Prop :=
  ∀ before n after, segments = before ++ .param n :: after → n ∉ names before ∧ n ≠ "" ∧ '[' ∉ n.toList

/-! ## Components -/

section Components
variable (pe : PercentEncoding)

theorem decodeComponent_of_not_mem {raw : String} (h : '+' ∉ raw.toList) :
    Http.decodeComponent pe raw = Text.fromUtf8Lossy (pe.decode raw) := by
  have hmap : (raw.toList.map fun c => if c = '+' then ' ' else c) = raw.toList := by
    refine (List.map_congr_left fun c hc => ?_).trans (List.map_id _)
    exact if_neg (ne_of_mem_of_not_mem hc h)
  rw [Http.decodeComponent,hmap,String.ofList_toList]

theorem decodeComponent_encode (value : String) : Http.decodeComponent pe (pe.encode queryComponent value) = value := by
  rw [decodeComponent_of_not_mem pe (pe.not_mem_encode (by decide) value),pe.decode_encode_self rfl,
    Text.fromUtf8Lossy_asBytes]

/-- A question mark in a component stays. -/
theorem decodeComponent_question (value : String) :
    Http.decodeComponent pe ("?" ++ pe.encode queryComponent value) = "?" ++ value := by
  have hplus : '+' ∉ ("?" ++ pe.encode queryComponent value).toList := by
    rw [String.toList_append,List.mem_append,not_or]
    exact ⟨by decide,pe.not_mem_encode (by decide) value⟩
  have hchar : pe.decode ("?" ++ pe.encode queryComponent value) = Text.asBytes ("?" ++ value) := by
    have hself : pe.decode (pe.encode queryComponent value) = Text.asBytes value := pe.decode_encode_self rfl value
    rw [Text.asBytes_append,← hself]
    exact pe.decode_char '?' _ (by decide)
  rw [decodeComponent_of_not_mem pe hplus,hchar,Text.fromUtf8Lossy_asBytes]

/-- One pair as it is written. -/
def written (p : String × String) : String := pe.encode queryComponent p.1 ++ "=" ++ pe.encode queryComponent p.2

theorem decodePair_written (p : String × String) : Http.decodePair pe (written pe p) = p := by
  have hsplit : Text.splitOnce '=' (written pe p) = some (pe.encode queryComponent p.1,pe.encode queryComponent p.2) :=
    Text.splitOnce_append (pe.not_mem_encode (by decide) p.1) _
  rw [Http.decodePair,hsplit]
  simp only [decodeComponent_encode]

theorem amp_not_mem_written (p : String × String) : '&' ∉ (written pe p).toList := by
  simp only [written,String.toList_append,List.mem_append,not_or]
  exact ⟨⟨pe.not_mem_encode (by decide) p.1,by decide⟩,pe.not_mem_encode (by decide) p.2⟩

theorem written_ne_empty (p : String × String) : written pe p ≠ "" := by
  intro h
  have hmem : '=' ∈ (written pe p).toList := by simp [written]
  rw [h] at hmem
  cases hmem

/-- What was left over is read back pair by pair, in the order it was written. -/
theorem formUrlencoded_query (extras : Supplied) :
    Http.formUrlencoded pe (UrlGenerator.query pe extras) = extras.mergeSort fun a b => decide (a.1 ≤ b.1) := by
  have hquery : UrlGenerator.query pe extras =
      Text.join '&' ((extras.mergeSort fun a b => decide (a.1 ≤ b.1)).map (written pe)) := by
    apply String.toList_injective
    rw [UrlGenerator.query,Text.join,String.toList_ofList,String.toList_intercalate]
    rfl
  rw [hquery]
  generalize (extras.mergeSort fun a b => decide (a.1 ≤ b.1)) = sorted
  cases sorted with
  | nil => rfl
  | cons p rest =>
    have hamp : ∀ piece ∈ (p :: rest).map (written pe), '&' ∉ piece.toList := by
      intro piece hpiece
      obtain ⟨q,_,rfl⟩ := List.mem_map.mp hpiece
      exact amp_not_mem_written pe q
    have hkept : ((p :: rest).map (written pe)).filter (· ≠ "") = (p :: rest).map (written pe) := by
      refine List.filter_eq_self.mpr fun piece hpiece => ?_
      obtain ⟨q,_,rfl⟩ := List.mem_map.mp hpiece
      exact decide_eq_true (written_ne_empty pe q)
    rw [Http.formUrlencoded,Text.split_join (by simp) hamp,hkept,List.map_map]
    refine (List.map_congr_left fun q _ => ?_).trans (List.map_id _)
    exact decodePair_written pe q

end Components

/-! ## What is left over -/

namespace Supplied

theorem collect_concat (params : List (String × String)) (p : String × String) :
    collect (params ++ [p]) = p :: (collect params).filter (·.1 ≠ p.1) := by
  rw [collect,List.foldl_append]
  rfl

theorem mem_keys_collect {params : List (String × String)} {n : String} :
    n ∈ (collect params).map Prod.fst ↔ n ∈ params.map Prod.fst := by
  induction params using List.reverseRecOn with
  | nil => rfl
  | append_singleton params p ih =>
    rw [collect_concat]
    simp only [List.map_cons,List.mem_cons,List.map_append,List.mem_append,List.map_nil,List.not_mem_nil,or_false,← ih]
    simp only [List.mem_map,List.mem_filter,decide_eq_true_eq]
    constructor
    · rintro (rfl | ⟨q,⟨hq,_⟩,rfl⟩)
      · exact .inr rfl
      · exact .inl ⟨q,hq,rfl⟩
    · rintro (⟨q,hq,rfl⟩ | rfl)
      · by_cases heq : q.1 = p.1
        · exact .inl heq
        · exact .inr ⟨q,⟨hq,heq⟩,rfl⟩
      · exact .inl rfl

theorem nodup_keys_collect (params : List (String × String)) : ((collect params).map Prod.fst).Nodup := by
  induction params using List.reverseRecOn with
  | nil => exact List.nodup_nil
  | append_singleton params p ih =>
    rw [collect_concat,List.map_cons,List.nodup_cons]
    refine ⟨?_,ih.sublist (List.filter_sublist.map Prod.fst)⟩
    simp [List.mem_map,List.mem_filter]

/-- With every name once, a value is looked up just when it is there. -/
theorem lookup_eq_some_iff {supplied : Supplied} (h : (supplied.map Prod.fst).Nodup) {n v : String} :
    supplied.lookup n = some v ↔ (n,v) ∈ supplied := by
  induction supplied with
  | nil => simp
  | cons p rest ih =>
    rw [List.map_cons,List.nodup_cons] at h
    rw [List.lookup_cons,List.mem_cons]
    by_cases hn : n = p.1
    · subst hn
      simp only [BEq.rfl,Option.some_inj]
      constructor
      · rintro rfl
        exact .inl rfl
      · rintro (heq | hmem)
        · rw [← heq]
        · exact absurd (List.mem_map_of_mem hmem) h.1
    · simp only [beq_eq_false_iff_ne.mpr hn,ih h.2]
      constructor
      · exact .inr
      · rintro (heq | hmem)
        · exact absurd (congrArg Prod.fst heq) hn
        · exact hmem

theorem lookup_perm {a b : Supplied} (h : a.Perm b) (hkeys : (a.map Prod.fst).Nodup) (n : String) : a.lookup n = b.lookup n := by
  refine Option.ext fun v => ?_
  rw [lookup_eq_some_iff hkeys,lookup_eq_some_iff ((h.map Prod.fst).nodup_iff.mp hkeys),h.mem_iff]

theorem lookup_filter {supplied : Supplied} (kept : String → Prop) [DecidablePred kept] (n : String) :
    List.lookup n (supplied.filter fun p => kept p.1) = if kept n then supplied.lookup n else none := by
  induction supplied with
  | nil => simp
  | cons p rest ih =>
    by_cases hn : n = p.1
    · subst hn
      by_cases hkept : kept p.1
      · rw [List.filter_cons_of_pos (by simpa using hkept),if_pos hkept,List.lookup_cons,List.lookup_cons,BEq.rfl]
      · rw [List.filter_cons_of_neg (by simpa using hkept),ih,if_neg hkept,if_neg hkept]
    · by_cases hkept : kept p.1
      · rw [List.filter_cons_of_pos (by simpa using hkept),List.lookup_cons,List.lookup_cons,beq_eq_false_iff_ne.mpr hn]
        exact ih
      · rw [List.filter_cons_of_neg (by simpa using hkept),ih,List.lookup_cons,beq_eq_false_iff_ne.mpr hn]

end Supplied

namespace UrlGenerator
variable {pe : PercentEncoding} {name : String}

/-- The loop leaves what the pattern has no name for. -/
theorem buildPath_left {segments : List Segment} {supplied left : Supplied} {path out : String}
    (h : buildPath pe name segments supplied path = .ok (out,left)) : left = supplied.filter (·.1 ∉ names segments) := by
  have hremove (n : String) (rest : List Segment) (given : Supplied) :
      (given.remove n).filter (·.1 ∉ names rest) = given.filter (·.1 ∉ n :: names rest) := by
    rw [Supplied.remove,List.filter_filter]
    refine List.filter_congr fun p _ => ?_
    simp only [ne_eq,List.mem_cons,not_or,Bool.decide_and,Bool.and_comm]
  have habsent (n : String) (rest : List Segment) (given : Supplied) (hn : given.lookup n = none) :
      given.filter (·.1 ∉ names rest) = given.filter (·.1 ∉ n :: names rest) := by
    refine List.filter_congr fun p hp => ?_
    have hne : p.1 ≠ n := by
      rintro rfl
      rw [List.lookup_eq_none_iff] at hn
      simpa using hn p hp
    simp [hne]
  induction segments generalizing supplied path with
  | nil =>
    cases h
    simp [names]
  | cons s rest ih =>
    cases s with
    | static literal =>
      rw [buildPath] at h
      exact ih h
    | param n =>
      rw [buildPath] at h
      split at h
      · cases h
      · exact (ih h).trans (hremove n rest supplied)
    | optionalParam n | wildcard n =>
      rw [buildPath] at h
      split at h
      · next hn => exact (ih h).trans (habsent n rest supplied hn)
      · exact (ih h).trans (hremove n rest supplied)

/-- A question mark comes into the path from a literal, and only from there. -/
theorem question_mem_buildPath {segments : List Segment} {supplied left : Supplied} {path out : String}
    (h : buildPath pe name segments supplied path = .ok (out,left)) :
    '?' ∈ out.toList ↔ '?' ∈ path.toList ∨ ∃ l, .static l ∈ segments ∧ '?' ∈ l.toList := by
  induction segments generalizing supplied path with
  | nil =>
    cases h
    simp
  | cons s rest ih =>
    obtain ⟨supplied',_,hrest,_⟩ := buildPath_cons h
    have hs : '?' ∈ (slashed (s.pieces pe fun n => supplied.lookup n)).toList ↔ ∃ l, .static l = s ∧ '?' ∈ l.toList := by
      constructor
      · intro hmem
        by_contra hnone
        have hpieces : ∀ p ∈ [s].flatMap (Segment.pieces pe fun n => supplied.lookup n), '?' ∉ p.toList :=
          not_mem_pieces pe (by decide) fun l hl hq => hnone ⟨l,List.mem_singleton.mp hl,hq⟩
        rw [List.flatMap_singleton] at hpieces
        exact not_mem_slashed (by decide) hpieces hmem
      · rintro ⟨l,rfl,hq⟩
        simp [Segment.pieces,slashed,hq]
    rw [ih hrest,String.toList_append,List.mem_append,hs,or_assoc]
    refine or_congr_right ?_
    constructor
    · rintro (⟨l,rfl,hq⟩ | ⟨l,hl,hq⟩)
      · exact ⟨l,List.mem_cons_self,hq⟩
      · exact ⟨l,List.mem_cons_of_mem s hl,hq⟩
    · rintro ⟨l,hl,hq⟩
      rcases List.mem_cons.mp hl with heq | hl
      · exact .inl ⟨l,heq,hq⟩
      · exact .inr ⟨l,hl,hq⟩

/-- The URL is what the loop has made of the pattern, and the query of what it has left. -/
theorem route_split {g : UrlGenerator} {pattern url : String} {params : List (String × String)}
    (hpattern : g.routes name = some pattern) (h : g.route pe name params = .ok url) :
    ∃ path, ('?' ∈ path.toList ↔ ∃ l, .static l ∈ compile pattern ∧ '?' ∈ l.toList) ∧
      url = path ++ (if ((Supplied.collect params).filter (·.1 ∉ names (compile pattern))).isEmpty then ""
        else "?" ++ query pe ((Supplied.collect params).filter (·.1 ∉ names (compile pattern)))) := by
  rw [route,hpattern] at h
  obtain ⟨⟨out,left⟩,hbuild,hurl⟩ := bind_eq_ok.mp h
  have hleft := buildPath_left hbuild
  have hquestion := question_mem_buildPath hbuild
  simp only [Except.ok.injEq] at hurl
  refine ⟨if out.isEmpty then "/" else out,?_,?_⟩
  · rw [← false_or (∃ l, _),← (by simp : '?' ∈ "".toList ↔ False),← hquestion]
    split
    · next hempty =>
      rw [String.isEmpty_iff.mp hempty]
      simp
    · rfl
  · rw [← hurl,hleft]
    split
    · rw [String.append_empty]
    · rw [String.append_assoc]

end UrlGenerator

/-! ## Patterns without a question mark -/

section Survival
variable {pe : PercentEncoding} {g : UrlGenerator} {name pattern url : String} {params : List (String × String)}

theorem queryPart_append {path : String} (h : '?' ∉ path.toList) (rest : String) : queryPart (path ++ rest) = queryPart rest := by
  have hall : ∀ c ∈ path.toList, decide (c ≠ '?') = true := fun c hc => decide_eq_true (ne_of_mem_of_not_mem hc h)
  rw [queryPart,queryPart,String.toList_append,List.dropWhile_append_of_pos hall]

theorem queryPart_question (query : String) : queryPart ("?" ++ query) = query := by
  have hlist : ("?" ++ query).toList = '?' :: query.toList := by simp
  rw [queryPart,hlist,List.dropWhile_cons_of_neg (by decide),List.tail_cons,String.ofList_toList]

theorem given_concat (params : List (String × String)) (p : String × String) : given (params ++ [p]) p.1 = some p.2 := by
  rw [given,Supplied.collect_concat,List.lookup_cons,BEq.rfl]

theorem given_eq_none {n : String} (h : n ∉ params.map Prod.fst) : given params n = none := by
  rw [given,List.lookup_eq_none_iff]
  intro p hp
  rw [bne_iff_ne]
  rintro rfl
  exact h (Supplied.mem_keys_collect.mp (List.mem_map_of_mem hp))

/-- Where no literal has a question mark the query is what was left over, and is read as that. -/
theorem survives_of_literals (hpattern : g.routes name = some pattern) (hkeys : ∀ p ∈ params, '[' ∉ p.1.toList)
    (hliteral : ∀ l, .static l ∈ compile pattern → '?' ∉ l.toList) (hok : g.route pe name params = .ok url) :
    Survives pe pattern params url := by
  obtain ⟨path,hquestion,rfl⟩ := UrlGenerator.route_split hpattern hok
  have hpath : '?' ∉ path.toList := fun hmem => by
    obtain ⟨l,hl,hq⟩ := hquestion.mp hmem
    exact hliteral l hl hq
  have hlookup (key : String) : List.lookup key ((Supplied.collect params).filter (·.1 ∉ names (compile pattern))) =
      if key ∈ names (compile pattern) then none else given params key := by
    rw [Supplied.lookup_filter (· ∉ names (compile pattern)),ite_not]
    rfl
  generalize hleft : (Supplied.collect params).filter (·.1 ∉ names (compile pattern)) = left at hlookup ⊢
  have hnodup : (left.map Prod.fst).Nodup := by
    rw [← hleft]
    exact (Supplied.nodup_keys_collect params).sublist (List.filter_sublist.map Prod.fst)
  have hplain : ∀ p ∈ left, '[' ∉ p.1.toList := by
    intro p hp
    rw [← hleft] at hp
    have hmem := Supplied.mem_keys_collect.mp (List.mem_map_of_mem (List.mem_filter.mp hp).1)
    obtain ⟨q,hq,heq⟩ := List.mem_map.mp hmem
    exact heq ▸ hkeys q hq
  have hform : Http.formUrlencoded pe (queryPart (path ++ (if left.isEmpty then "" else "?" ++ UrlGenerator.query pe left))) =
      left.mergeSort fun a b => decide (a.1 ≤ b.1) := by
    rw [queryPart_append hpath]
    split
    · next hempty =>
      rw [List.isEmpty_iff.mp hempty,List.mergeSort_nil]
      rfl
    · rw [queryPart_question,formUrlencoded_query]
  have hperm := List.mergeSort_perm left fun a b => decide (a.1 ≤ b.1)
  have hsorted := (hperm.map Prod.fst).nodup_iff.mpr hnodup
  obtain ⟨result,hresult,hfield⟩ := Http.foldl_insert_plain (fun p hp => hplain p (hperm.mem_iff.mp hp)) hsorted
    (fun _ _ => Json.field_nil _)
  refine ⟨result,by rw [Http.parseUrlencoded,hform,hresult],fun key => ?_⟩
  rw [hfield,Json.field_nil,Option.or_none,Supplied.lookup_perm hperm hsorted,hlookup,apply_ite (Option.map Json.string)]
  rfl

end Survival

/-! ## Patterns with a question mark -/

section Shifted
variable {pe : PercentEncoding} {g : UrlGenerator} {name pattern : String}

/-- The names of the parameters that must be supplied. -/
def required (segments : List Segment) : List String :=
  segments.filterMap fun s => match s with
    | .param n => some n
    | _ => none

theorem required_subset {segments : List Segment} {n : String} (h : n ∈ required segments) : n ∈ names segments := by
  obtain ⟨s,hs,hn⟩ := List.mem_filterMap.mp h
  cases s with
  | param m => exact mem_names hs hn
  | static _ | optionalParam _ | wildcard _ => cases hn

theorem Supplied.lookup_remove_congr {a b : Supplied} {n : String} {rest : List String}
    (h : ∀ m ∈ n :: rest, a.lookup m = b.lookup m) : ∀ m ∈ rest, (a.remove n).lookup m = (b.remove n).lookup m := by
  intro m hm
  by_cases hmn : m = n
  · rw [Supplied.remove,Supplied.remove,Supplied.lookup_filter (· ≠ n),Supplied.lookup_filter (· ≠ n),
      if_neg (not_not.mpr hmn),if_neg (not_not.mpr hmn)]
  · rw [lookup_remove hmn,lookup_remove hmn]
    exact h m (List.mem_cons_of_mem n hm)

/-- The path depends on the values of the pattern's parameters alone. -/
theorem UrlGenerator.buildPath_congr (pe : PercentEncoding) (name : String) {segments : List Segment} {a b : Supplied}
    (h : ∀ n ∈ names segments, a.lookup n = b.lookup n) (path : String) :
    (buildPath pe name segments a path).map Prod.fst = (buildPath pe name segments b path).map Prod.fst := by
  induction segments generalizing a b path with
  | nil => rfl
  | cons s rest ih =>
    cases s with
    | static literal => exact ih h _
    | param n =>
      have hn := h n List.mem_cons_self
      rw [buildPath,buildPath,← hn]
      cases a.lookup n with
      | none => rfl
      | some value => exact ih (Supplied.lookup_remove_congr h) _
    | optionalParam n | wildcard n =>
      have hn := h n List.mem_cons_self
      rw [buildPath,buildPath,← hn]
      cases a.lookup n with
      | none => exact ih (fun m hm => h m (List.mem_cons_of_mem n hm)) _
      | some value => exact ih (Supplied.lookup_remove_congr h) _

/-- The loop ends well when every required parameter is there and not taken before. -/
theorem UrlGenerator.exists_buildPath {segments : List Segment} {supplied : Supplied}
    (h : ∀ before n after, segments = before ++ .param n :: after → n ∉ names before ∧ supplied.lookup n ≠ none) (path : String) :
    ∃ r, buildPath pe name segments supplied path = .ok r := by
  induction segments generalizing supplied path with
  | nil => exact ⟨_,rfl⟩
  | cons s rest ih =>
    have hsame : (∀ n, s.name? = some n → supplied.lookup n = none) → ∀ before m after, rest = before ++ .param m :: after →
        m ∉ names before ∧ supplied.lookup m ≠ none := by
      intro _ before m after heq
      obtain ⟨hm,hvalue⟩ := h (s :: before) m after (by rw [heq,List.cons_append])
      refine ⟨fun hmem => hm ?_,hvalue⟩
      obtain ⟨t,ht,hname⟩ := List.mem_filterMap.mp hmem
      exact mem_names (List.mem_cons_of_mem s ht) hname
    have hremoved (n : String) (hn : s.name? = some n) : ∀ before m after, rest = before ++ .param m :: after →
        m ∉ names before ∧ (supplied.remove n).lookup m ≠ none := by
      intro before m after heq
      obtain ⟨hm,hvalue⟩ := h (s :: before) m after (by rw [heq,List.cons_append])
      rw [names,List.filterMap_cons_some hn,List.mem_cons,not_or] at hm
      exact ⟨hm.2,by rwa [lookup_remove hm.1]⟩
    cases s with
    | static literal => exact ih (hsame fun _ hn => by cases hn) _
    | param n =>
      obtain ⟨value,hvalue⟩ := Option.ne_none_iff_exists'.mp (h [] n rest rfl).2
      rw [buildPath,hvalue]
      exact ih (hremoved n rfl) _
    | optionalParam n | wildcard n =>
      rw [buildPath]
      cases hlookup : supplied.lookup n with
      | none => exact ih (hsame fun m hm => by cases hm; exact hlookup) _
      | some value => exact ih (hremoved n rfl) _

theorem lookup_remove_self (supplied : Supplied) (n : String) : (supplied.remove n).lookup n = none := by
  rw [Supplied.remove,Supplied.lookup_filter (· ≠ n),if_neg (not_not.mpr rfl)]

/-- And it ends well only then. -/
theorem UrlGenerator.params_of_buildPath {segments : List Segment} {supplied : Supplied} {path : String}
    {r : String × Supplied} (h : buildPath pe name segments supplied path = .ok r) {before : List Segment} {n : String}
    {after : List Segment} (heq : segments = before ++ .param n :: after) : n ∉ names before ∧ supplied.lookup n ≠ none := by
  induction segments generalizing supplied path before with
  | nil => simp at heq
  | cons s rest ih =>
    cases before with
    | nil =>
      obtain ⟨_,_,_,hparam⟩ := buildPath_cons h
      exact ⟨List.not_mem_nil,hparam n (List.cons.inj heq).1⟩
    | cons t before =>
      rw [List.cons_append,List.cons.injEq] at heq
      obtain ⟨rfl,heq⟩ := heq
      have hkept (m : String) (hm : s.name? = some m) (hnone : supplied.lookup m = none)
          (hrest : n ∉ names before ∧ supplied.lookup n ≠ none) : n ∉ names (s :: before) ∧ supplied.lookup n ≠ none := by
        rw [names,List.filterMap_cons_some hm,List.mem_cons,not_or]
        exact ⟨⟨fun heq => hrest.2 (heq ▸ hnone),hrest.1⟩,hrest.2⟩
      have htaken (m : String) (hm : s.name? = some m) (hrest : n ∉ names before ∧ (supplied.remove m).lookup n ≠ none) :
          n ∉ names (s :: before) ∧ supplied.lookup n ≠ none := by
        have hne : n ≠ m := fun heq => hrest.2 (heq ▸ lookup_remove_self supplied m)
        rw [names,List.filterMap_cons_some hm,List.mem_cons,not_or,← lookup_remove hne]
        exact ⟨⟨hne,hrest.1⟩,hrest.2⟩
      cases s with
      | static literal =>
        have hrest := ih h heq
        exact hrest
      | param m =>
        rw [buildPath] at h
        split at h
        · cases h
        · exact htaken m rfl (ih h heq)
      | optionalParam m | wildcard m =>
        rw [buildPath] at h
        split at h
        · next hnone => exact hkept m rfl hnone (ih h heq)
        · exact htaken m rfl (ih h heq)

/-- A pattern that makes a URL of proper keys can be filled. -/
theorem fillable_of_route {params : List (String × String)} {url : String} (hpattern : g.routes name = some pattern)
    (hkeys : ∀ p ∈ params, p.1 ≠ "" ∧ '[' ∉ p.1.toList) (hok : g.route pe name params = .ok url) : Fillable (compile pattern) := by
  rw [UrlGenerator.route,hpattern] at hok
  obtain ⟨r,hbuild,_⟩ := bind_eq_ok.mp hok
  intro before n after heq
  obtain ⟨hn,hlookup⟩ := UrlGenerator.params_of_buildPath hbuild heq
  obtain ⟨v,hv⟩ := Option.ne_none_iff_exists'.mp hlookup
  have hmem := (Supplied.lookup_eq_some_iff (Supplied.nodup_keys_collect params)).mp hv
  obtain ⟨p,hp,hpn⟩ := List.mem_map.mp (Supplied.mem_keys_collect.mp (List.mem_map_of_mem hmem))
  have hkey := hkeys p hp
  rw [hpn] at hkey
  exact ⟨hn,hkey⟩

/-- A URL whose path has a question mark: what follows the first one comes before the query. -/
theorem UrlGenerator.route_of_buildPath {params : List (String × String)} {out : String} {left : Supplied}
    (hpattern : g.routes name = some pattern) (h : buildPath pe name (compile pattern) (.collect params) "" = .ok (out,left))
    (hquestion : '?' ∈ out.toList) :
    g.route pe name params = .ok (out ++ (if left.isEmpty then "" else "?" ++ query pe left)) := by
  have hne : out.isEmpty = false := by
    rw [String.isEmpty_eq_false_iff]
    rintro rfl
    cases hquestion
  rw [route,hpattern]
  refine bind_eq_ok.mpr ⟨(out,left),h,?_⟩
  simp only [hne,Bool.false_eq_true,if_false]
  split
  · rw [String.append_empty]
  · rw [String.append_assoc]

/-- Empty values for the required parameters, and then some more. -/
def filled (segments : List Segment) (extra : List (String × String)) : List (String × String) :=
  (required segments).map (·,"") ++ extra

theorem key_of_mem_filled {segments : List Segment} {extra : List (String × String)} {n : String} :
    n ∈ (filled segments extra).map Prod.fst ↔ n ∈ required segments ∨ n ∈ extra.map Prod.fst := by
  simp [filled]

theorem exists_buildPath_filled (pe : PercentEncoding) (name : String) (h : Fillable (compile pattern)) (extra : List (String × String)) :
    ∃ r, UrlGenerator.buildPath pe name (compile pattern) (.collect (filled (compile pattern) extra)) "" = .ok r := by
  refine UrlGenerator.exists_buildPath (fun before n after heq => ⟨(h before n after heq).1,?_⟩) ""
  rw [Ne,List.lookup_eq_none_iff]
  have hrequired : n ∈ required (compile pattern) := by
    rw [heq]
    exact List.mem_filterMap.mpr ⟨.param n,by simp,rfl⟩
  have hkey := Supplied.mem_keys_collect.mpr (key_of_mem_filled.mpr (.inl hrequired : n ∈ _ ∨ n ∈ extra.map Prod.fst))
  obtain ⟨p,hp,rfl⟩ := List.mem_map.mp hkey
  intro hnone
  simpa using hnone p hp

/-- The keys supplied are proper ones. -/
theorem filled_keys (h : Fillable (compile pattern)) {extra : List (String × String)}
    (hextra : ∀ p ∈ extra, p.1 ≠ "" ∧ '[' ∉ p.1.toList) : ∀ p ∈ filled (compile pattern) extra, p.1 ≠ "" ∧ '[' ∉ p.1.toList := by
  intro p hp
  rcases List.mem_append.mp hp with hp | hp
  · obtain ⟨n,hn,rfl⟩ := List.mem_map.mp hp
    obtain ⟨s,hs,hname⟩ := List.mem_filterMap.mp hn
    cases s with
    | param m =>
      cases hname
      obtain ⟨before,after,heq⟩ := List.append_of_mem hs
      exact (h before n after heq).2
    | static _ | optionalParam _ | wildcard _ => cases hname
  · exact hextra p hp

/-- Separators before a text make no pairs. -/
theorem formUrlencoded_separators {w : List Char} (h : ∀ c ∈ w, c = '&') (rest : String) :
    Http.formUrlencoded pe (String.ofList w ++ rest) = Http.formUrlencoded pe rest := by
  induction w with
  | nil => rw [String.ofList_nil,String.empty_append]
  | cons c w ih =>
    have hsplit : Text.split '&' (String.ofList (c :: w) ++ rest) = "" :: Text.split '&' (String.ofList w ++ rest) := by
      rw [h c List.mem_cons_self,Text.split,Text.split,String.toList_append,String.toList_append,String.toList_ofList,
        String.toList_ofList,List.cons_append,List.splitOn_cons_eq_if_modifyHead]
      rfl
    rw [Http.formUrlencoded,hsplit,List.filter_cons_of_neg (by decide)]
    exact ih fun c hc => h c (List.mem_cons_of_mem _ hc)

/-- After a question mark the first key of a query has it too. -/
theorem formUrlencoded_question (p : String × String) :
    Http.formUrlencoded pe ("?" ++ written pe p) = [("?" ++ p.1,p.2)] := by
  have hamp : '&' ∉ ("?" ++ written pe p).toList := by
    rw [String.toList_append,List.mem_append,not_or]
    exact ⟨by decide,amp_not_mem_written pe p⟩
  have hequal : '=' ∉ ("?" ++ pe.encode queryComponent p.1).toList := by
    rw [String.toList_append,List.mem_append,not_or]
    exact ⟨by decide,pe.not_mem_encode (by decide) p.1⟩
  have hsplit : Text.split '&' ("?" ++ written pe p) = ["?" ++ written pe p] := by
    have hjoin := Text.split_join (List.cons_ne_nil ("?" ++ written pe p) []) fun q hq => by
      rw [List.mem_singleton.mp hq]
      exact hamp
    rwa [Text.join_singleton] at hjoin
  have hpair : Http.decodePair pe ("?" ++ written pe p) = ("?" ++ p.1,p.2) := by
    have honce := Text.splitOnce_append hequal (pe.encode queryComponent p.2)
    have hwritten : "?" ++ written pe p =
        "?" ++ pe.encode queryComponent p.1 ++ String.singleton '=' ++ pe.encode queryComponent p.2 := by
      rw [written,String.append_assoc,String.append_assoc,String.append_assoc]
      rfl
    rw [Http.decodePair,hwritten,honce]
    simp only [decodeComponent_question,decodeComponent_encode]
  rw [Http.formUrlencoded,hsplit,List.filter_cons_of_pos (by simp),List.filter_nil,List.map_singleton,hpair]

/-- A name that is none of those in a list, and a proper key. -/
theorem exists_fresh_key (taken : List String) : ∃ key, key ∉ taken ∧ key ≠ "" ∧ '[' ∉ key.toList := by
  refine ⟨String.ofList (List.replicate ((taken.map String.toList).flatten.length + 1) 'k'),fun hmem => ?_,fun hempty => ?_,?_⟩
  · have hle := (List.sublist_flatten_of_mem (List.mem_map_of_mem (f := String.toList) hmem)).length_le
    rw [String.toList_ofList,List.length_replicate] at hle
    omega
  · have hlist := congrArg String.toList hempty
    rw [String.toList_ofList] at hlist
    cases hlist
  · rw [String.toList_ofList]
    intro hmem
    cases List.eq_of_mem_replicate hmem

/-- One parameter more, under another name, changes no value. -/
theorem lookup_collect_concat {params : List (String × String)} {p : String × String} {n : String} (h : n ≠ p.1) :
    (Supplied.collect (params ++ [p])).lookup n = (Supplied.collect params).lookup n := by
  rw [Supplied.collect_concat,List.lookup_cons,beq_eq_false_iff_ne.mpr h]
  exact lookup_remove h

/-- The required parameters are used up, and a fresh key is left over. -/
theorem left_filled {segments : List Segment} :
    (Supplied.collect (filled segments [])).filter (·.1 ∉ names segments) = [] ∧ ∀ p : String × String, p.1 ∉ names segments →
      (Supplied.collect (filled segments [] ++ [p])).filter (·.1 ∉ names segments) = [p] := by
  have hused : ∀ q ∈ Supplied.collect (filled segments []), q.1 ∈ names segments := by
    intro q hq
    rcases key_of_mem_filled.mp (Supplied.mem_keys_collect.mp (List.mem_map_of_mem hq)) with hn | hn
    · exact required_subset hn
    · cases hn
  refine ⟨List.filter_eq_nil_iff.mpr fun q hq => by simpa using hused q hq,fun p hp => ?_⟩
  rw [Supplied.collect_concat,List.filter_cons_of_pos (by simpa using hp),List.filter_eq_nil_iff.mpr]
  intro q hq
  simp [hused q (List.mem_filter.mp hq).1]

/-- A pattern with a question mark in a literal that can be filled: either what follows the
first question mark is read as parameters, or the query is read with a question mark. -/
theorem exists_not_survives (pe : PercentEncoding) (hpattern : g.routes name = some pattern) (hfillable : Fillable (compile pattern)) {l : String}
    (hl : .static l ∈ compile pattern) (hq : '?' ∈ l.toList) :
    ∃ params url, (∀ p ∈ params, p.1 ≠ "" ∧ '[' ∉ p.1.toList) ∧ g.route pe name params = .ok url ∧
      ¬ Survives pe pattern params url := by
  obtain ⟨key,hfresh,hkey⟩ := exists_fresh_key (names (compile pattern))
  have hproper : ∀ p ∈ [(key,"")], p.1 ≠ "" ∧ '[' ∉ p.1.toList := by
    intro p hp
    rw [List.mem_singleton.mp hp]
    exact hkey
  have hconcat : filled (compile pattern) [(key,"")] = filled (compile pattern) [] ++ [(key,"")] := by simp [filled]
  -- the same path, with nothing left over and with the fresh key left over
  obtain ⟨⟨out,left⟩,hbuild⟩ := exists_buildPath_filled pe name hfillable []
  obtain ⟨⟨out',left'⟩,hbuild'⟩ := exists_buildPath_filled pe name hfillable [(key,"")]
  have hleft := (UrlGenerator.buildPath_left hbuild).trans left_filled.1
  have hleft' := UrlGenerator.buildPath_left hbuild'
  rw [hconcat,left_filled.2 (key,"") hfresh] at hleft'
  have hlookup : ∀ n ∈ names (compile pattern), (Supplied.collect (filled (compile pattern) [(key,"")])).lookup n =
      (Supplied.collect (filled (compile pattern) [])).lookup n := by
    intro n hn
    rw [hconcat]
    exact lookup_collect_concat (ne_of_mem_of_not_mem hn hfresh)
  have hpaths := UrlGenerator.buildPath_congr pe name hlookup ""
  rw [hbuild,hbuild'] at hpaths
  obtain rfl : out' = out := Except.ok.inj hpaths
  subst hleft hleft'
  have hquestion : '?' ∈ out'.toList := (UrlGenerator.question_mem_buildPath hbuild).mpr (.inr ⟨l,hl,hq⟩)
  obtain ⟨u,w,hsplit,hu⟩ := List.eq_append_cons_of_mem hquestion
  have hquery (rest : String) : queryPart (out' ++ rest) = String.ofList w ++ rest := by
    have hcut : out' ++ rest = String.ofList u ++ ("?" ++ (String.ofList w ++ rest)) := by
      apply String.toList_injective
      simp [hsplit]
    rw [hcut,queryPart_append (by simpa using hu),queryPart_question]
  by_cases hpairs : Http.formUrlencoded pe (String.ofList w) = []
  · -- nothing but separators comes before the query
    refine ⟨filled (compile pattern) [(key,"")],_,filled_keys hfillable hproper,
      UrlGenerator.route_of_buildPath hpattern hbuild' hquestion,?_⟩
    rintro ⟨fields,hparse,hfields⟩
    have hseparators : ∀ c ∈ w, c = '&' := by
      have hnone := Text.eq_sep_of_filter_split (List.map_eq_nil_iff.mp hpairs)
      simpa using hnone
    have hwritten : UrlGenerator.query pe [(key,"")] = written pe (key,"") := by
      simp [UrlGenerator.query,written,List.mergeSort_singleton,String.intercalate_singleton]
    simp only [List.isEmpty_cons,Bool.false_eq_true,if_false] at hparse
    rw [Http.parseUrlencoded,hquery,hwritten,formUrlencoded_separators hseparators,formUrlencoded_question] at hparse
    have hplain : '[' ∉ ("?" ++ key).toList := by
      rw [String.toList_append,List.mem_append,not_or]
      exact ⟨by decide,hkey.2⟩
    rw [List.foldl_cons,List.foldl_nil,Http.insert_plain hplain (Json.field_nil _)] at hparse
    cases hparse
    have hfield := hfields key
    have hne : key ≠ "?" ++ key := by
      intro heq
      have hlength := congrArg (fun s : String => s.toList.length) heq
      simp at hlength
    rw [if_neg hfresh,hconcat,given_concat _ (key,""),Json.field_insert,if_neg hne] at hfield
    cases hfield
  · -- something before it is read as a parameter
    refine ⟨filled (compile pattern) [],_,filled_keys hfillable (by simp),
      UrlGenerator.route_of_buildPath hpattern hbuild hquestion,?_⟩
    rintro ⟨fields,hparse,hfields⟩
    rw [List.isEmpty_nil,if_pos rfl,Http.parseUrlencoded,hquery,String.append_empty] at hparse
    obtain ⟨result,extra,hresult,hsome⟩ := Http.exists_field_of_ne_nil hpairs
    rw [hparse] at hresult
    cases hresult
    rw [hfields] at hsome
    split at hsome
    · cases hsome
    · next hextra =>
      rw [given_eq_none fun hmem => hextra ((key_of_mem_filled.mp hmem).elim required_subset fun h => by cases h)] at hsome
      cases hsome

end Shifted

/-- For every named pattern: in every URL it makes, of whatever parameters with proper
names, the query is read back as what the pattern did not use, just when no literal of the
pattern has a question mark or it can make no URL. -/
theorem query_survives_iff (pe : PercentEncoding) (g : UrlGenerator) (name pattern : String) (hpattern : g.routes name = some pattern) :
    (∀ params url, (∀ p ∈ params, p.1 ≠ "" ∧ '[' ∉ p.1.toList) → g.route pe name params = .ok url →
        Survives pe pattern params url) ↔
      (∀ l, .static l ∈ compile pattern → '?' ∉ l.toList) ∨ ¬ Fillable (compile pattern) := by
  constructor
  · intro h
    by_contra hnot
    rw [not_or,not_not] at hnot
    obtain ⟨hliteral,hfillable⟩ := hnot
    push Not at hliteral
    obtain ⟨l,hl,hq⟩ := hliteral
    obtain ⟨params,url,hkeys,hok,hlost⟩ := exists_not_survives pe hpattern hfillable hl hq
    exact hlost (h params url hkeys hok)
  · rintro (hliteral | hunfillable) params url hkeys hok
    · exact survives_of_literals hpattern (fun p hp => (hkeys p hp).2) hliteral hok
    · exact absurd (fillable_of_route hpattern hkeys hok) hunfillable

/-- A key and a value with separators, escapes and letters that are not ASCII. -/
theorem query_survives_posts : Survives .standard "/posts/\x7bpost\x7d" [("post","7"),("q&größe","1+1=50%?")]
    "/posts/7?q%26gr%C3%B6%C3%9Fe=1%2B1%3D50%25%3F" := by
  have hliteral : ∀ l, .static l ∈ compile "/posts/\x7bpost\x7d" → '?' ∉ l.toList := by
    have hsegments : compile "/posts/\x7bpost\x7d" = [.static "posts",.param "post"] := by decide
    rw [hsegments]
    simp
  refine (query_survives_iff .standard ⟨fun name => if name = "posts" then some "/posts/\x7bpost\x7d" else none⟩ "posts"
    "/posts/\x7bpost\x7d" rfl).mpr (.inl hliteral) _ _ (by decide) ?_
  decide +kernel

/-- A question mark in a pattern is written as it stands, and the query is read from there. -/
theorem literal_question_shifts :
    UrlGenerator.route .standard ⟨fun name => if name = "help" then some "/what?" else none⟩ "help" [("page","2")] =
        .ok "/what??page=2" ∧
      Http.parseUrlencoded .standard (queryPart "/what??page=2") = .object [("?page",.string "2")] ∧
      ¬ Survives .standard "/what?" [("page","2")] "/what??page=2" := by
  have hparse : Http.parseUrlencoded .standard (queryPart "/what??page=2") = .object [("?page",.string "2")] := by
    decide +kernel
  refine ⟨by decide +kernel,hparse,?_⟩
  rintro ⟨fields,hfields,hlookup⟩
  rw [hparse] at hfields
  cases hfields
  have hpage := hlookup "page"
  revert hpage
  decide +kernel

end Rainier.Routing
