import Rainier.Routing.Route

/-! # Dispatch

Routes are tried in the order they were declared. The first that matches the path and
answers the method runs; the methods of those that match the path alone are
collected on the way, for the `Allow` header of a 405.
-/
namespace Rainier.Routing
open Rainier

structure CompiledRouter where
  routes : List Route
  hasFallback : Bool

inductive Outcome where
  | ran (route : ℕ) (params : Params)
  | methodNotAllowed (message allow : String)
  | ranFallback
  | notFound (message : String)

namespace CompiledRouter
variable (decode : String → String)

/-- `allowed` with the methods of a route that are not there yet. -/
def allow (allowed methods : List Method) : List Method :=
  methods.foldl (fun allowed m => if m ∈ allowed then allowed else allowed ++ [m]) allowed

/-- The loop over the routes: one that runs, or the methods collected. -/
def search (path : String) (method : Method) : List Route → ℕ → List Method → (ℕ × Params) ⊕ List Method
  | [], _, allowed => .inr allowed
  | r :: rest, i, allowed =>
    match r.matchPath decode path with
    | none => search path method rest (i + 1) allowed
    | some params =>
      if r.accepts method then .inl (i,params)
      else search path method rest (i + 1) (allow allowed r.methods)

def dispatch (c : CompiledRouter) (path : String) (method : Method) : Outcome :=
  match search decode path method c.routes 0 [] with
  | .inl (i,params) => .ran i params
  | .inr allowed =>
    if allowed.isEmpty then
      if c.hasFallback then .ranFallback else .notFound ("No route matches " ++ path)
    else .methodNotAllowed ("The " ++ method.asStr ++ " method is not supported for this route.")
      (", ".intercalate (allowed.map Method.asStr))

end CompiledRouter

/-! ## What a pattern reads -/

/-- The segments of a path read from left to right by those of a pattern, with what they
capture. An optional parameter takes a segment while there is one; when there is none, it
and all that follows are left out. A wildcard takes all that is left. -/
inductive Reads (decode : String → String) (allows : String → String → Bool) :
    List Segment → List String → List (String × String) → Prop where
  | nil : Reads decode allows [] [] []
  | static (literal : String) {rest : List Segment} {actual : List String} {captures : List (String × String)}
    (h : Reads decode allows rest actual captures) :
    Reads decode allows (.static literal :: rest) (literal :: actual) captures
  | param (name raw : String) {rest : List Segment} {actual : List String} {captures : List (String × String)}
    (hallows : allows name (decode raw) = true) (h : Reads decode allows rest actual captures) :
    Reads decode allows (.param name :: rest) (raw :: actual) ((name,decode raw) :: captures)
  | taken (name raw : String) {rest : List Segment} {actual : List String} {captures : List (String × String)}
    (hallows : allows name (decode raw) = true) (h : Reads decode allows rest actual captures) :
    Reads decode allows (.optionalParam name :: rest) (raw :: actual) ((name,decode raw) :: captures)
  | absent (name : String) {rest : List Segment} (h : rest.all Segment.isOptional = true) :
    Reads decode allows (.optionalParam name :: rest) [] []
  | wildcard (name : String) {rest : List Segment} (actual : List String) {captures : List (String × String)}
    (hallows : allows name (decode (Text.join '/' actual)) = true) (h : Reads decode allows rest [] captures) :
    Reads decode allows (.wildcard name :: rest) actual ((name,decode (Text.join '/' actual)) :: captures)

/-- `params` with captures inserted one after the other. -/
def Params.insertAll (params : Params) (captures : List (String × String)) : Params :=
  captures.foldl (fun params c => Function.update params c.1 (some c.2)) params

section Matching
variable {decode : String → String} {allows : String → String → Bool} {segments : List Segment}
  {actual : List String} {params result : Params}

theorem reads_of_matchSegments (h : Route.matchSegments decode allows segments actual params = some result) :
    ∃ captures, Reads decode allows segments actual captures ∧ result = params.insertAll captures := by
  induction segments generalizing actual params with
  | nil =>
    rw [Route.matchSegments] at h
    split at h
    · next hempty =>
      rw [List.isEmpty_iff] at hempty
      subst hempty
      cases h
      exact ⟨[],.nil,rfl⟩
    · cases h
  | cons segment rest ih =>
    cases segment with
    | static literal =>
      cases actual with
      | nil => cases h
      | cons raw actual =>
        rw [Route.matchSegments] at h
        split at h
        · next heq =>
          subst heq
          obtain ⟨captures,hreads,hresult⟩ := ih h
          exact ⟨captures,.static _ hreads,hresult⟩
        · cases h
    | param name =>
      cases actual with
      | nil => cases h
      | cons raw actual =>
        rw [Route.matchSegments] at h
        split at h
        · next hallows =>
          obtain ⟨captures,hreads,hresult⟩ := ih h
          exact ⟨_,.param name raw hallows hreads,hresult⟩
        · cases h
    | optionalParam name =>
      cases actual with
      | nil =>
        rw [Route.matchSegments] at h
        split at h
        · next hrest =>
          cases h
          exact ⟨[],.absent name hrest,rfl⟩
        · cases h
      | cons raw actual =>
        rw [Route.matchSegments] at h
        split at h
        · next hallows =>
          obtain ⟨captures,hreads,hresult⟩ := ih h
          exact ⟨_,.taken name raw hallows hreads,hresult⟩
        · cases h
    | wildcard name =>
      rw [Route.matchSegments] at h
      split at h
      · next hallows =>
        obtain ⟨captures,hreads,hresult⟩ := ih h
        exact ⟨_,.wildcard name actual hallows hreads,hresult⟩
      · cases h

theorem Reads.matchSegments {captures : List (String × String)} (h : Reads decode allows segments actual captures)
    (params : Params) : Route.matchSegments decode allows segments actual params = some (params.insertAll captures) := by
  induction h generalizing params with
  | nil => rfl
  | static literal h ih =>
    simp only [Route.matchSegments,if_true]
    exact ih params
  | param name raw hallows h ih =>
    simp only [Route.matchSegments,hallows,if_true]
    exact ih _
  | taken name raw hallows h ih =>
    simp only [Route.matchSegments,hallows,if_true]
    exact ih _
  | absent name h =>
    simp only [Route.matchSegments,h,if_true]
    rfl
  | wildcard name actual hallows h ih =>
    simp only [Route.matchSegments,hallows,if_true]
    exact ih _

end Matching

/-- A route matches what its segments read, and captures what they capture. -/
theorem Route.matchPath_iff (decode : String → String) (r : Route) (path : String) (params : Params) :
    r.matchPath decode path = some params ↔
      ∃ captures, Reads decode r.allows r.segments (splitPath path) captures ∧
        params = Params.insertAll (fun _ => none) captures := by
  constructor
  · exact reads_of_matchSegments
  · rintro ⟨captures,h,rfl⟩
    exact h.matchSegments _

/-! ## The loop -/

namespace CompiledRouter
variable {decode : String → String} {path : String} {method : Method}

theorem mem_allow {allowed methods : List Method} {m : Method} :
    m ∈ allow allowed methods ↔ m ∈ allowed ∨ m ∈ methods := by
  induction methods generalizing allowed with
  | nil => simp [allow]
  | cons x methods ih =>
    rw [allow,List.foldl_cons,← allow,ih]
    split
    · next hx =>
      constructor
      · rintro (h | h)
        · exact .inl h
        · exact .inr (List.mem_cons_of_mem x h)
      · rintro (h | h)
        · exact .inl h
        · rcases List.mem_cons.mp h with rfl | h
          · exact .inl hx
          · exact .inr h
    · simp [or_assoc]

theorem nodup_allow {allowed : List Method} (h : allowed.Nodup) (methods : List Method) :
    (allow allowed methods).Nodup := by
  induction methods generalizing allowed with
  | nil => exact h
  | cons x methods ih =>
    rw [allow,List.foldl_cons,← allow]
    split
    · exact ih h
    · next hx =>
      apply ih
      rw [List.nodup_append]
      refine ⟨h,by simp,fun a ha b hb heq => hx ?_⟩
      rw [← List.mem_singleton.mp hb,← heq]
      exact ha

theorem accepts_iff {r : Route} : r.accepts method = true ↔ method ∈ r.methods := by
  simp [Route.accepts]

/-- The route that runs: it matches the path, answers the method, and none before it does. -/
structure First (decode : String → String) (path : String) (method : Method) (routes : List Route) (i : ℕ)
    (params : Params) : Prop where
  runs : ∃ r, routes[i]? = some r ∧ r.matchPath decode path = some params ∧ method ∈ r.methods
  before : ∀ j < i, ∀ r, routes[j]? = some r → (r.matchPath decode path).isSome = true → method ∉ r.methods

theorem search_first {routes : List Route} {i : ℕ} {params : Params} (h : First decode path method routes i params)
    (start : ℕ) (allowed : List Method) :
    search decode path method routes start allowed = .inl (start + i,params) := by
  induction routes generalizing i start allowed with
  | nil =>
    obtain ⟨r,hr,_⟩ := h.runs
    cases hr
  | cons r rest ih =>
    obtain ⟨r',hr',hmatch,hmethod⟩ := h.runs
    cases i with
    | zero =>
      cases hr'
      rw [search,hmatch]
      exact if_pos (accepts_iff.mpr hmethod)
    | succ i =>
      have hrest : First decode path method rest i params := by
        refine ⟨⟨r',hr',hmatch,hmethod⟩,fun j hj r'' hr'' => ?_⟩
        exact h.before (j + 1) (Nat.succ_lt_succ hj) r'' hr''
      have hskip := h.before 0 (Nat.succ_pos i) r rfl
      have hstart : start + 1 + i = start + (i + 1) := by omega
      rw [search]
      split
      · rw [ih hrest,hstart]
      · next found hfound =>
        rw [if_neg (fun ha => hskip (by rw [hfound]; rfl) (accepts_iff.mp ha)),ih hrest,hstart]

theorem search_none {routes : List Route}
    (h : ∀ r ∈ routes, (r.matchPath decode path).isSome = true → method ∉ r.methods) (start : ℕ) (allowed : List Method) :
    ∃ collected, search decode path method routes start allowed = .inr collected ∧
      (allowed.Nodup → collected.Nodup) ∧ ∀ m, m ∈ collected ↔
        m ∈ allowed ∨ ∃ r ∈ routes, (r.matchPath decode path).isSome = true ∧ m ∈ r.methods := by
  induction routes generalizing start allowed with
  | nil => exact ⟨allowed,rfl,id,by simp⟩
  | cons r rest ih =>
    have hrest : ∀ r ∈ rest, (r.matchPath decode path).isSome = true → method ∉ r.methods :=
      fun r' hr' => h r' (List.mem_cons_of_mem r hr')
    rw [search]
    split
    · next hno =>
      obtain ⟨collected,hsearch,hnodup,hmem⟩ := ih hrest (start + 1) allowed
      refine ⟨collected,hsearch,hnodup,fun m => ?_⟩
      simp [hmem,hno]
    · next found hfound =>
      have hsome : (r.matchPath decode path).isSome = true := by
        rw [hfound]
        rfl
      rw [if_neg fun ha => h r List.mem_cons_self hsome (accepts_iff.mp ha)]
      obtain ⟨collected,hsearch,hnodup,hmem⟩ := ih hrest (start + 1) (allow allowed r.methods)
      refine ⟨collected,hsearch,fun hd => hnodup (nodup_allow hd _),fun m => ?_⟩
      simp [hmem,mem_allow,hfound,or_assoc]

/-- What dispatch decides for every table, path and method: the first route that matches
the path and answers the method runs; where there is none, the methods of the routes that
match the path make up the answer; and where they have none, nothing was found. A route
matches what its segments read. -/
theorem dispatch_decides (decode : String → String) (c : CompiledRouter) (path : String) (method : Method) :
    (∀ i params, First decode path method c.routes i params → c.dispatch decode path method = .ran i params) ∧
      ((∀ r ∈ c.routes, (r.matchPath decode path).isSome = true → method ∉ r.methods) →
        (∃ r ∈ c.routes, (r.matchPath decode path).isSome = true ∧ r.methods ≠ []) →
        ∃ allowed : List Method, allowed.Nodup ∧
          (∀ m, m ∈ allowed ↔ ∃ r ∈ c.routes, (r.matchPath decode path).isSome = true ∧ m ∈ r.methods) ∧
          c.dispatch decode path method = .methodNotAllowed
            ("The " ++ method.asStr ++ " method is not supported for this route.")
            (", ".intercalate (allowed.map Method.asStr))) ∧
      ((∀ r ∈ c.routes, (r.matchPath decode path).isSome = true → r.methods = []) →
        c.dispatch decode path method =
          if c.hasFallback then .ranFallback else .notFound ("No route matches " ++ path)) ∧
      ∀ r ∈ c.routes, ∀ params, r.matchPath decode path = some params ↔
        ∃ captures, Reads decode r.allows r.segments (splitPath path) captures ∧
          params = Params.insertAll (fun _ => none) captures := by
  refine ⟨fun i params h => ?_,fun hnone hsome => ?_,fun hempty => ?_,fun r _ params => r.matchPath_iff decode path params⟩
  · rw [dispatch,search_first h 0 [],Nat.zero_add]
  · obtain ⟨collected,hsearch,hnodup,hmem⟩ := search_none hnone 0 []
    obtain ⟨r,hr,hmatch,hmethods⟩ := hsome
    obtain ⟨m,hm⟩ := List.exists_mem_of_ne_nil _ hmethods
    have hin : m ∈ collected := (hmem m).mpr (.inr ⟨r,hr,hmatch,hm⟩)
    refine ⟨collected,hnodup List.nodup_nil,fun m => by simp [hmem],?_⟩
    rw [dispatch,hsearch]
    refine if_neg fun h => ?_
    rw [List.isEmpty_iff.mp h] at hin
    cases hin
  · have hnone : ∀ r ∈ c.routes, (r.matchPath decode path).isSome = true → method ∉ r.methods := by
      intro r hr hmatch hmem
      rw [hempty r hr hmatch] at hmem
      cases hmem
    obtain ⟨collected,hsearch,_,hmem⟩ := search_none hnone 0 []
    have hnil : collected = [] := by
      rw [List.eq_nil_iff_forall_not_mem]
      intro m hm
      rcases (hmem m).mp hm with hm | ⟨r,hr,hmatch,hm⟩
      · cases hm
      · rw [hempty r hr hmatch] at hm
        cases hm
    rw [dispatch,hsearch,hnil]
    rfl

/-- Two routes at one path; the second is the first that answers. -/
theorem dispatch_decides_example :
    (CompiledRouter.mk [.new [.get] "/posts/\x7bpost\x7d",.new [.put] "posts/\x7bid\x7d/"] false).dispatch id "/posts/7" .put =
      .ran 1 (Params.insertAll (fun _ => none) [("id","7")]) := by
  refine (dispatch_decides id _ "/posts/7" .put).1 1 _ ⟨⟨_,rfl,?_,?_⟩,?_⟩
  · refine (Route.matchPath_iff id _ "/posts/7" _).mpr ⟨_,?_,rfl⟩
    exact .static "posts" (.param "id" "7" rfl .nil)
  · decide
  · intro j hj r hr _
    obtain rfl : j = 0 := by omega
    cases hr
    decide

/-- A looser reading: an optional parameter may also be skipped while segments are left,
and a wildcard takes whatever is left. -/
inductive LooseReads (decode : String → String) (allows : String → String → Bool) :
    List Segment → List String → Prop where
  | nil : LooseReads decode allows [] []
  | static (literal : String) {rest : List Segment} {actual : List String} (h : LooseReads decode allows rest actual) :
    LooseReads decode allows (.static literal :: rest) (literal :: actual)
  | param (name raw : String) {rest : List Segment} {actual : List String} (hallows : allows name (decode raw) = true)
    (h : LooseReads decode allows rest actual) : LooseReads decode allows (.param name :: rest) (raw :: actual)
  | taken (name raw : String) {rest : List Segment} {actual : List String} (hallows : allows name (decode raw) = true)
    (h : LooseReads decode allows rest actual) : LooseReads decode allows (.optionalParam name :: rest) (raw :: actual)
  | skipped (name : String) {rest : List Segment} {actual : List String} (hrest : rest.all Segment.isOptional = true)
    (h : LooseReads decode allows rest actual) : LooseReads decode allows (.optionalParam name :: rest) actual
  | wildcard (name : String) {rest : List Segment} {actual : List String} (h : LooseReads decode allows rest []) :
    LooseReads decode allows (.wildcard name :: rest) actual

/-- A wildcard that must be a number. -/
def wildRoute : Route := .whereParam (.new [.get] "/\x7bn*\x7d") "n" .number

/-- Two optional parameters, the first a number. -/
def optionalRoute : Route := .whereParam (.new [.get] "/\x7bx?\x7d/\x7by?\x7d") "x" .number

/-- A wildcard is held to its constraint; an optional parameter that refuses a segment is
not skipped; and a route that answers no method does not make a 405. -/
theorem dispatch_not_loose :
    (LooseReads id wildRoute.allows wildRoute.segments (splitPath "/abc") ∧
        (CompiledRouter.mk [wildRoute] false).dispatch id "/abc" .get = .notFound "No route matches /abc") ∧
      (LooseReads id optionalRoute.allows optionalRoute.segments (splitPath "/b") ∧
        (CompiledRouter.mk [optionalRoute] false).dispatch id "/b" .get = .notFound "No route matches /b") ∧
      ((Route.matchPath id (.new [] "/") "/").isSome = true ∧
        (CompiledRouter.mk [.new [] "/"] false).dispatch id "/" .get = .notFound "No route matches /") := by
  refine ⟨⟨?_,rfl⟩,⟨?_,rfl⟩,by decide,rfl⟩
  · change LooseReads id _ [.wildcard "n"] ["abc"]
    exact .wildcard "n" .nil
  · change LooseReads id _ [.optionalParam "x",.optionalParam "y"] ["b"]
    exact .skipped "x" rfl (.taken "y" "b" rfl .nil)

end CompiledRouter
end Rainier.Routing
