import Rainier.Routing.Route
import Rainier.Support.Error
import Rainier.Support.Percent

/-! # URLs of named routes

The pattern of a route is filled in segment by segment; each parameter used is taken
out of the supplied ones, and what is left becomes the query.
-/
namespace Rainier.Routing
open Rainier

/-- `percent_decode_str(raw).decode_utf8_lossy()`. -/
def decodeText (pe : PercentEncoding) (raw : String) : String := Text.fromUtf8Lossy (pe.decode raw)

/-- `CONTROLS`: the C0 controls and `DEL`. -/
def controls (c : Char) : Bool := c.toNat < 32 || c.toNat = 127

/-- `PATH_SEGMENT`: a slash in a value does not make two segments. -/
def pathSegment (c : Char) : Bool :=
  controls c || [' ','"','#','<','>','?','\x60','\x7b','\x7d','/','%'].contains c

/-- `QUERY_COMPONENT`. -/
def queryComponent (c : Char) : Bool :=
  controls c || [' ','"','#','<','>','\x60','\x7b','\x7d','%','&','=','+','?'].contains c

/-- The parameters not used yet, each name once. -/
abbrev Supplied := List (String × String)

namespace Supplied

/-- Of two values for one name, the later counts. -/
def collect (params : List (String × String)) : Supplied :=
  params.foldl (fun supplied p => p :: supplied.filter (·.1 ≠ p.1)) []

def remove (supplied : Supplied) (name : String) : Supplied := supplied.filter (·.1 ≠ name)

end Supplied

structure UrlGenerator where
  routes : String → Option String

namespace UrlGenerator
variable (pe : PercentEncoding)

def encodeWildcard (value : String) : String := Text.join '/' ((Text.split '/' value).map (pe.encode pathSegment))

/-- The loop over the segments: the path so far and the parameters left. -/
def buildPath (name : String) : List Segment → Supplied → String → Except Error (String × Supplied)
  | [], supplied, path => .ok (path,supplied)
  | .static literal :: rest, supplied, path => buildPath name rest supplied (path ++ "/" ++ literal)
  | .param param :: rest, supplied, path =>
    match supplied.lookup param with
    | none => .error (.internal ("the `" ++ name ++ "` route needs a `" ++ param ++ "` parameter"))
    | some value => buildPath name rest (supplied.remove param) (path ++ "/" ++ pe.encode pathSegment value)
  | .optionalParam param :: rest, supplied, path =>
    match supplied.lookup param with
    | none => buildPath name rest supplied path
    | some value => buildPath name rest (supplied.remove param) (path ++ "/" ++ pe.encode pathSegment value)
  | .wildcard param :: rest, supplied, path =>
    match supplied.lookup param with
    | none => buildPath name rest supplied path
    | some value => buildPath name rest (supplied.remove param) (path ++ "/" ++ encodeWildcard pe value)

/-- The extra parameters, sorted so that one call always makes the same URL. -/
def query (extras : Supplied) : String :=
  "&".intercalate ((extras.mergeSort fun a b => decide (a.1 ≤ b.1)).map fun p =>
    pe.encode queryComponent p.1 ++ "=" ++ pe.encode queryComponent p.2)

def route (g : UrlGenerator) (name : String) (params : List (String × String)) : Except Error String :=
  match g.routes name with
  | none => .error (.internal ("no route is named `" ++ name ++
      "` — check the name, or that the route is registered before URLs are generated"))
  | some pattern => do
    let (path,left) ← buildPath pe name (compile pattern) (.collect params) ""
    let path := if path.isEmpty then "/" else path
    .ok (if left.isEmpty then path else path ++ "?" ++ query pe left)

end UrlGenerator

/-! ## What the path is made of -/

/-- The value a parameter list gives a name. -/
def given (params : List (String × String)) (name : String) : Option String := (Supplied.collect params).lookup name

namespace Segment

/-- The path segments written for a segment of the pattern. -/
def pieces (pe : PercentEncoding) (given : String → Option String) : Segment → List String
  | static literal => [literal]
  | param name | optionalParam name => ((given name).map (pe.encode pathSegment)).toList
  | wildcard name => ((given name).map fun value => (Text.split '/' value).map (pe.encode pathSegment)).getD []

end Segment

/-- Every segment after a slash. -/
def slashed (pieces : List String) : String := String.join (pieces.map ("/" ++ ·))

/-- The path of the segments; without any, the root. -/
def pathOf (pieces : List String) : String := if (slashed pieces).isEmpty then "/" else slashed pieces

theorem slashed_append (a b : List String) : slashed (a ++ b) = slashed a ++ slashed b := by
  rw [slashed,List.map_append,String.join_append]
  rfl

theorem slash_join {pieces : List String} (h : pieces ≠ []) : "/" ++ Text.join '/' pieces = slashed pieces := by
  induction pieces with
  | nil => exact absurd rfl h
  | cons p rest ih =>
    cases rest with
    | nil => simp [Text.join_singleton,slashed]
    | cons q rest =>
      have hslash : String.singleton '/' = "/" := rfl
      rw [Text.join_cons (List.cons_ne_nil q rest),hslash,String.append_assoc,ih (List.cons_ne_nil q rest)]
      simp [slashed,String.append_assoc]

theorem lookup_remove {supplied : Supplied} {name other : String} (h : other ≠ name) :
    (supplied.remove name).lookup other = supplied.lookup other := by
  induction supplied with
  | nil => rfl
  | cons p rest ih =>
    rw [Supplied.remove] at ih
    rw [Supplied.remove,List.filter_cons]
    split
    · rw [List.lookup_cons,List.lookup_cons,ih]
    · next hp =>
      have hne : (other == p.1) = false := by
        rw [beq_eq_false_iff_ne]
        intro heq
        simp only [ne_eq,decide_not,Bool.not_eq_true',decide_eq_false_iff_not,Decidable.not_not] at hp
        exact h (heq.trans hp)
      rw [ih,List.lookup_cons,hne]

/-- The names of a pattern's parameters. -/
def names (segments : List Segment) : List String := segments.filterMap Segment.name?

theorem mem_names {segments : List Segment} {s : Segment} {name : String} (h : s ∈ segments) (hname : s.name? = some name) :
    name ∈ names segments := List.mem_filterMap.mpr ⟨s,h,hname⟩

/-- What is looked up decides the pieces. -/
theorem pieces_congr (pe : PercentEncoding) {look look' : String → Option String} {s : Segment}
    (h : ∀ n, s.name? = some n → look n = look' n) : s.pieces pe look = s.pieces pe look' := by
  cases s with
  | static literal => rfl
  | param n | optionalParam n | wildcard n => simp only [Segment.pieces,h n rfl]

namespace UrlGenerator
variable {pe : PercentEncoding} {name : String} {given : String → Option String}

/-- One turn of the loop writes the pieces of its segment and takes out no name but its own. -/
theorem buildPath_cons {s : Segment} {rest : List Segment} {supplied : Supplied} {path : String} {r : String × Supplied}
    (h : buildPath pe name (s :: rest) supplied path = .ok r) :
    ∃ supplied' : Supplied, (supplied' = supplied ∨ ∃ p, s.name? = some p ∧ supplied' = supplied.remove p) ∧
      buildPath pe name rest supplied' (path ++ slashed (s.pieces pe (fun n => supplied.lookup n))) = .ok r ∧
      ∀ n, s = .param n → supplied.lookup n ≠ none := by
  have hnone (n : String) (hn : supplied.lookup n = none) :
      path ++ slashed (((supplied.lookup n).map (pe.encode pathSegment)).toList) = path := by
    simp [hn,slashed]
  have hsome (n value : String) (hn : supplied.lookup n = some value) :
      path ++ slashed (((supplied.lookup n).map (pe.encode pathSegment)).toList) =
        path ++ "/" ++ pe.encode pathSegment value := by
    simp [hn,slashed,String.append_assoc]
  cases s with
  | static literal =>
    have hpath : path ++ slashed ((Segment.static literal).pieces pe (fun n => supplied.lookup n)) = path ++ "/" ++ literal := by
      simp [Segment.pieces,slashed,String.append_assoc]
    rw [hpath]
    exact ⟨supplied,.inl rfl,h,nofun⟩
  | param n =>
    rw [buildPath] at h
    split at h
    · cases h
    · next value hn =>
      rw [← hsome n value hn] at h
      refine ⟨_,.inr ⟨n,rfl,rfl⟩,h,?_⟩
      rintro _ ⟨⟩
      simp [hn]
  | optionalParam n =>
    rw [buildPath] at h
    split at h
    · next hn =>
      rw [← hnone n hn] at h
      exact ⟨_,.inl rfl,h,nofun⟩
    · next value hn =>
      rw [← hsome n value hn] at h
      exact ⟨_,.inr ⟨n,rfl,rfl⟩,h,nofun⟩
  | wildcard n =>
    rw [buildPath] at h
    split at h
    · next hn =>
      have hpath : path ++ slashed ((Segment.wildcard n).pieces pe (fun n => supplied.lookup n)) = path := by
        simp [Segment.pieces,hn,slashed]
      rw [hpath]
      exact ⟨_,.inl rfl,h,nofun⟩
    · next value hn =>
      have hne : (Text.split '/' value).map (pe.encode pathSegment) ≠ [] := by
        simp [Text.split_ne_nil]
      have hpath : path ++ slashed ((Segment.wildcard n).pieces pe (fun n => supplied.lookup n)) =
          path ++ "/" ++ encodeWildcard pe value := by
        simp only [Segment.pieces,hn,Option.map_some,Option.getD_some,← slash_join hne,encodeWildcard,String.append_assoc]
      rw [hpath]
      exact ⟨_,.inr ⟨n,rfl,rfl⟩,h,nofun⟩

theorem buildPath_eq {segments : List Segment} (hnames : (names segments).Nodup) {supplied left : Supplied}
    (hsupplied : ∀ n ∈ names segments, supplied.lookup n = given n) {path out : String}
    (h : buildPath pe name segments supplied path = .ok (out,left)) :
    out = path ++ slashed (segments.flatMap (Segment.pieces pe given)) ∧ ∀ n, .param n ∈ segments → given n ≠ none := by
  induction segments generalizing supplied path with
  | nil =>
    cases h
    exact ⟨by simp [slashed],by simp⟩
  | cons s rest ih =>
    obtain ⟨supplied',hleft,hrest,hparam⟩ := buildPath_cons h
    have hsub : List.Sublist (names rest) (names (s :: rest)) := (List.sublist_cons_self s rest).filterMap _
    -- the names after this one are looked up as before
    have hlook : ∀ n ∈ names rest, supplied'.lookup n = given n := by
      intro n hn
      rcases hleft with rfl | ⟨p,hp,rfl⟩
      · exact hsupplied n (hsub.subset hn)
      · rw [names,List.filterMap_cons_some hp] at hnames
        rw [lookup_remove (ne_of_mem_of_not_mem hn (List.nodup_cons.mp hnames).1)]
        exact hsupplied n (hsub.subset hn)
    have hself : ∀ n, s.name? = some n → supplied.lookup n = given n :=
      fun n hn => hsupplied n (mem_names List.mem_cons_self hn)
    obtain ⟨hout,hparams⟩ := ih (hnames.sublist hsub) hlook hrest
    rw [pieces_congr pe hself] at hout
    refine ⟨by rw [hout,List.flatMap_cons,slashed_append,String.append_assoc],fun n hn => ?_⟩
    rcases List.mem_cons.mp hn with rfl | hn
    · rw [← hself n rfl]
      exact hparam n rfl
    · exact hparams n hn

/-- A URL is the path of its pieces, and a query if something was left over. -/
theorem route_eq {g : UrlGenerator} {pattern url : String} {params : List (String × String)}
    (hpattern : g.routes name = some pattern) (hnames : (names (compile pattern)).Nodup)
    (h : g.route pe name params = .ok url) :
    (∀ n, .param n ∈ compile pattern → Routing.given params n ≠ none) ∧ ∃ after : List Char,
      url.toList = (pathOf ((compile pattern).flatMap (Segment.pieces pe (Routing.given params)))).toList ++ after ∧
        (after = [] ∨ after.head? = some '?') := by
  rw [route,hpattern] at h
  obtain ⟨⟨path,left⟩,hbuild,hurl⟩ := bind_eq_ok.mp h
  obtain ⟨hout,hparams⟩ := buildPath_eq hnames (fun n _ => (rfl : _ = Routing.given params n)) hbuild
  rw [String.empty_append] at hout
  subst hout
  refine ⟨hparams,?_⟩
  simp only [Except.ok.injEq] at hurl
  subst hurl
  rw [pathOf]
  split
  · exact ⟨[],by simp,.inl rfl⟩
  · exact ⟨_,by rw [String.append_assoc,String.toList_append],.inr (by simp)⟩

end UrlGenerator
end Rainier.Routing
