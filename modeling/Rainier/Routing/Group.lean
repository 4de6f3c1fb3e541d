import Rainier.Routing.Route

/-! # Route groups

A group runs a closure that declares routes, and then applies its attributes to every
route the closure added. Groups inside it have applied theirs by then.
-/
namespace Rainier.Routing
open Rainier
variable {M T : Type}

/-- A route under declaration, with the stages of its middleware and the types of
middleware it opts out of. -/
@[ext] structure DeclaredRoute (M T : Type) extends Route where
  middleware : List M
  excludedMiddleware : List T

structure GroupAttributes (M : Type) where
  uriPrefix : String
  namePrefix : String
  middleware : List M
  constraints : String → Option ParamConstraint

/-- `trim_start_matches('/')`. -/
def trimStartMatches (s : String) : String := String.ofList (s.toList.dropWhile (· = '/'))

/-- `trim_matches('/')`. -/
def trimMatches (s : String) : String :=
  String.ofList ((s.toList.dropWhile (· = '/')).reverse.dropWhile (· = '/')).reverse

namespace DeclaredRoute

def new (methods : List Method) (uri : String) : DeclaredRoute M T where
  toRoute := Route.new methods uri
  middleware := []
  excludedMiddleware := []

/-- The calls that configure a route once it is declared. -/
inductive Setting (M T : Type) where
  | name (name : String)
  | middleware (stages : List M)
  | withoutMiddleware (type : T)
  | whereParam (param : String) (constraint : ParamConstraint)

def configure (r : DeclaredRoute M T) : Setting M T → DeclaredRoute M T
  | .name name => { r with name := some name }
  | .middleware stages => { r with middleware := r.middleware ++ stages }
  | .withoutMiddleware type => { r with excludedMiddleware := r.excludedMiddleware ++ [type] }
  | .whereParam param constraint => { r with toRoute := r.toRoute.whereParam param constraint }

def prefixWith (r : DeclaredRoute M T) (start : String) : DeclaredRoute M T :=
  if start = "" then r
  else
    let uri := normaliseUri ("/" ++ trimMatches start ++ "/" ++ trimStartMatches r.uri)
    { r with uri, segments := compile uri }

def prependMiddleware (r : DeclaredRoute M T) (outer : List M) : DeclaredRoute M T :=
  { r with middleware := outer ++ r.middleware }

/-- A route without a name does not get one. -/
def prependName (r : DeclaredRoute M T) (start : String) : DeclaredRoute M T :=
  if start = "" then r else { r with name := r.name.map (start ++ ·) }

/-- What the route has set for itself stays. -/
def addConstraints (r : DeclaredRoute M T) (constraints : String → Option ParamConstraint) : DeclaredRoute M T :=
  { r with constraints := fun param => (r.constraints param).or (constraints param) }

end DeclaredRoute

/-- The routes, in the order of their declaration. -/
abbrev Router (M T : Type) := List (DeclaredRoute M T)

namespace Router

def add (router : Router M T) (methods : List Method) (uri : String) (settings : List (DeclaredRoute.Setting M T)) :
    Router M T := router ++ [settings.foldl .configure (.new methods uri)]

/-- The loop body of `group`. -/
def applied (attributes : GroupAttributes M) (r : DeclaredRoute M T) : DeclaredRoute M T :=
  (((r.prefixWith attributes.uriPrefix).prependMiddleware attributes.middleware).prependName
    attributes.namePrefix).addConstraints attributes.constraints

def group (router : Router M T) (attributes : GroupAttributes M) (declare : Router M T → Router M T) : Router M T :=
  let start := router.length
  let router := declare router
  router.take start ++ (router.drop start).map (applied attributes)

end Router

/-- What a closure declares: routes with their settings, and groups with closures of their own. -/
inductive Declarations (M T : Type) where
  | done
  | route (methods : List Method) (uri : String) (settings : List (DeclaredRoute.Setting M T)) (rest : Declarations M T)
  | group (attributes : GroupAttributes M) (inner rest : Declarations M T)

/-- The closure run on a router. -/
def Declarations.run : Declarations M T → Router M T → Router M T
  | done, router => router
  | route methods uri settings rest, router => rest.run (router.add methods uri settings)
  | group attributes inner rest, router => rest.run (router.group attributes inner.run)

/-! ## The flattened composition -/

/-- A declared route alone, with the groups around it from the outermost to the innermost. -/
structure Placed (M T : Type) where
  groups : List (GroupAttributes M)
  methods : List Method
  uri : String
  settings : List (DeclaredRoute.Setting M T)

/-- The routes of a closure that is run inside groups. -/
def Declarations.flatten (groups : List (GroupAttributes M)) : Declarations M T → List (Placed M T)
  | done => []
  | route methods uri settings rest => ⟨groups,methods,uri,settings⟩ :: rest.flatten groups
  | group attributes inner rest => inner.flatten (groups ++ [attributes]) ++ rest.flatten groups

namespace Placed

/-- The route as it was declared, without any group. -/
def own (p : Placed M T) : DeclaredRoute M T := p.settings.foldl .configure (.new p.methods p.uri)

/-- The prefixes and the uri joined by slashes. -/
def joined (p : Placed M T) : String := Text.join '/' (p.groups.map GroupAttributes.uriPrefix ++ [p.uri])

/-- The route the groups should make of it. -/
def composed (p : Placed M T) : DeclaredRoute M T where
  methods := p.own.methods
  uri := normaliseUri p.joined
  segments := compile (normaliseUri p.joined)
  name := p.own.name.map fun name => String.join (p.groups.map GroupAttributes.namePrefix) ++ name
  -- the route's own, or else that of the innermost group that has one
  constraints param := (p.own.constraints param).or (p.groups.reverse.findSome? fun g => g.constraints param)
  middleware := (p.groups.map GroupAttributes.middleware).flatten ++ p.own.middleware
  excludedMiddleware := p.own.excludedMiddleware

end Placed

/-! ## Patterns joined by slashes -/

theorem splitPath_slash (a b : String) : splitPath (a ++ "/" ++ b) = splitPath a ++ splitPath b := by
  have hlist : (a ++ "/" ++ b).toList = a.toList ++ '/' :: b.toList := by simp
  simp only [splitPath,Text.split,hlist,List.splitOn_append_cons_self,List.map_append,List.filter_append]

/-- A slash at the start of a path says nothing. -/
theorem splitPath_slash_left (b : String) : splitPath ("/" ++ b) = splitPath b := splitPath_slash "" b

theorem splitPath_slash_right (a : String) : splitPath (a ++ "/") = splitPath a := by
  have h := splitPath_slash a ""
  rwa [String.append_empty,show splitPath "" = [] by rfl,List.append_nil] at h

theorem splitPath_dropWhile (cs : List Char) :
    splitPath (String.ofList (cs.dropWhile (· = '/'))) = splitPath (String.ofList cs) := by
  induction cs with
  | nil => rfl
  | cons c cs ih =>
    by_cases hc : c = '/'
    · have hcons : String.ofList (c :: cs) = "/" ++ String.ofList cs := String.toList_injective (by simp [hc])
      rw [List.dropWhile_cons_of_pos (by simpa using hc),ih,hcons,splitPath_slash_left]
    · rw [List.dropWhile_cons_of_neg (by simpa using hc)]

theorem splitPath_reverse_dropWhile (cs : List Char) :
    splitPath (String.ofList (cs.dropWhile (· = '/')).reverse) = splitPath (String.ofList cs.reverse) := by
  induction cs with
  | nil => rfl
  | cons c cs ih =>
    by_cases hc : c = '/'
    · have hcons : String.ofList (c :: cs).reverse = String.ofList cs.reverse ++ "/" :=
        String.toList_injective (by simp [hc])
      rw [List.dropWhile_cons_of_pos (by simpa using hc),ih,hcons,splitPath_slash_right]
    · rw [List.dropWhile_cons_of_neg (by simpa using hc)]

theorem splitPath_trimStartMatches (s : String) : splitPath (trimStartMatches s) = splitPath s := by
  rw [trimStartMatches,splitPath_dropWhile,String.ofList_toList]

theorem splitPath_trimMatches (s : String) : splitPath (trimMatches s) = splitPath s := by
  rw [trimMatches,splitPath_reverse_dropWhile,List.reverse_reverse,splitPath_dropWhile,String.ofList_toList]

theorem normaliseUri_congr {a b : String} (h : splitPath a = splitPath b) : normaliseUri a = normaliseUri b := by
  rw [normaliseUri,normaliseUri,h]

/-- A prefix before a normalised pattern, however it is written. -/
theorem normaliseUri_prefixed (start uri : String) :
    normaliseUri ("/" ++ trimMatches start ++ "/" ++ trimStartMatches (normaliseUri uri)) = normaliseUri (start ++ "/" ++ uri) := by
  apply normaliseUri_congr
  rw [splitPath_slash,splitPath_slash_left,splitPath_trimMatches,splitPath_trimStartMatches,splitPath_normaliseUri,
    splitPath_slash]

/-! ## One group -/

theorem DeclaredRoute.prependName_eq (r : DeclaredRoute M T) (start : String) :
    r.prependName start = { r with name := r.name.map (start ++ ·) } := by
  rw [prependName]
  split
  · next hempty =>
    have hid : ("" ++ · : String → String) = id := funext fun _ => String.empty_append
    rw [hempty,hid,Option.map_id]
    rfl
  · rfl

/-- A prefix changes the pattern alone. -/
theorem DeclaredRoute.prefixWith_frame (r : DeclaredRoute M T) (start : String) :
    (r.prefixWith start).methods = r.methods ∧ (r.prefixWith start).name = r.name ∧
      (r.prefixWith start).constraints = r.constraints ∧ (r.prefixWith start).middleware = r.middleware ∧
      (r.prefixWith start).excludedMiddleware = r.excludedMiddleware := by
  rw [prefixWith]
  split <;> exact ⟨rfl,rfl,rfl,rfl,rfl⟩

/-! What each part of a route is after a turn of the loop, from what it was after the prefix. -/
namespace Router
variable (attributes : GroupAttributes M) (r : DeclaredRoute M T)

theorem applied_uri : (applied attributes r).uri = (r.prefixWith attributes.uriPrefix).uri := by
  rw [applied,DeclaredRoute.prependName_eq]
  rfl

theorem applied_segments : (applied attributes r).segments = (r.prefixWith attributes.uriPrefix).segments := by
  rw [applied,DeclaredRoute.prependName_eq]
  rfl

theorem applied_methods : (applied attributes r).methods = (r.prefixWith attributes.uriPrefix).methods := by
  rw [applied,DeclaredRoute.prependName_eq]
  rfl

theorem applied_excludedMiddleware :
    (applied attributes r).excludedMiddleware = (r.prefixWith attributes.uriPrefix).excludedMiddleware := by
  rw [applied,DeclaredRoute.prependName_eq]
  rfl

theorem applied_name :
    (applied attributes r).name = (r.prefixWith attributes.uriPrefix).name.map (attributes.namePrefix ++ ·) := by
  rw [applied,DeclaredRoute.prependName_eq]
  rfl

theorem applied_constraints : (applied attributes r).constraints =
    fun param => ((r.prefixWith attributes.uriPrefix).constraints param).or (attributes.constraints param) := by
  rw [applied,DeclaredRoute.prependName_eq]
  rfl

theorem applied_middleware :
    (applied attributes r).middleware = attributes.middleware ++ (r.prefixWith attributes.uriPrefix).middleware := by
  rw [applied,DeclaredRoute.prependName_eq]
  rfl

end Router

namespace Placed
variable (p : Placed M T) (attributes : GroupAttributes M)

/-- The same route with one more group around all others. -/
def within : Placed M T := { p with groups := attributes :: p.groups }

@[simp] theorem own_within : (p.within attributes).own = p.own := rfl

@[simp] theorem groups_within : (p.within attributes).groups = attributes :: p.groups := rfl

theorem joined_within : (p.within attributes).joined = attributes.uriPrefix ++ "/" ++ p.joined := by
  rw [joined,joined,within,List.map_cons,List.cons_append,Text.join_cons (by simp)]
  rfl

/-- Before a route as its inner groups have left it, a prefix is joined to theirs. -/
theorem composed_prefixWith :
    (p.composed.prefixWith attributes.uriPrefix).uri = (p.within attributes).composed.uri ∧
      (p.composed.prefixWith attributes.uriPrefix).segments = (p.within attributes).composed.segments := by
  rw [DeclaredRoute.prefixWith]
  split
  · next hempty =>
    have huri : normaliseUri (p.within attributes).joined = normaliseUri p.joined := by
      rw [joined_within,hempty]
      exact normaliseUri_congr (splitPath_slash_left p.joined)
    rw [composed,composed,huri]
    exact ⟨rfl,rfl⟩
  · simp only [composed,normaliseUri_prefixed,joined_within,and_self]

/-- Applied to a route as its inner groups have left it, a group adds itself around them. -/
theorem applied_composed : Router.applied attributes p.composed = (p.within attributes).composed := by
  obtain ⟨huri,hsegments⟩ := p.composed_prefixWith attributes
  obtain ⟨hmethods,hname,hconstraints,hmiddleware,hexcluded⟩ := p.composed.prefixWith_frame attributes.uriPrefix
  apply DeclaredRoute.ext
  case uri => rw [Router.applied_uri,huri]
  case segments => rw [Router.applied_segments,hsegments]
  case methods => rw [Router.applied_methods,hmethods]; rfl
  case excludedMiddleware => rw [Router.applied_excludedMiddleware,hexcluded]; rfl
  case name =>
    rw [Router.applied_name,hname]
    simp only [composed,own_within,groups_within,Option.map_map,List.map_cons,String.join_cons]
    refine congrArg (fun f => p.own.name.map f) (funext fun name => ?_)
    exact String.append_assoc.symm
  case constraints =>
    rw [Router.applied_constraints,hconstraints]
    funext param
    simp only [composed,own_within,groups_within,List.reverse_cons,List.findSome?_append,List.findSome?_singleton,
      Option.or_assoc]
  case middleware =>
    rw [Router.applied_middleware,hmiddleware]
    simp [composed]

end Placed

theorem Declarations.flatten_cons (attributes : GroupAttributes M) (groups : List (GroupAttributes M))
    (declarations : Declarations M T) :
    declarations.flatten (attributes :: groups) = (declarations.flatten groups).map fun p => p.within attributes := by
  induction declarations generalizing groups with
  | done => rfl
  | route methods uri settings rest ih =>
    rw [flatten,flatten,ih,List.map_cons]
    rfl
  | group inner attributes' rest ihInner ihRest =>
    rw [flatten,flatten,List.map_append,← ihRest,← ihInner,List.cons_append]

/-- No setting changes the pattern of a route. -/
theorem DeclaredRoute.foldl_configure_uri (settings : List (Setting M T)) (r : DeclaredRoute M T) :
    (settings.foldl configure r).uri = r.uri ∧ (settings.foldl configure r).segments = r.segments := by
  induction settings generalizing r with
  | nil => exact ⟨rfl,rfl⟩
  | cons setting rest ih =>
    rw [List.foldl_cons,(ih (r.configure setting)).1,(ih (r.configure setting)).2]
    cases setting <;> exact ⟨rfl,rfl⟩

/-- Without a group a route is composed as it was declared. -/
theorem Placed.composed_nil (methods : List Method) (uri : String) (settings : List (DeclaredRoute.Setting M T)) :
    Placed.composed ⟨[],methods,uri,settings⟩ = settings.foldl .configure (.new methods uri) := by
  obtain ⟨huri,hsegments⟩ := DeclaredRoute.foldl_configure_uri settings (.new (M := M) (T := T) methods uri)
  have hjoined : joined (M := M) (T := T) ⟨[],methods,uri,settings⟩ = uri := Text.join_singleton uri
  apply DeclaredRoute.ext
  case uri =>
    rw [huri,composed,hjoined]
    rfl
  case segments =>
    rw [hsegments,composed,hjoined]
    rfl
  case name => simp [composed,own]
  case constraints => simp [composed,own]
  case methods => rfl
  case middleware => rfl
  case excludedMiddleware => rfl

/-- What a closure does to a router: the routes that were there stay as they are, and each
declared route is added as the groups around it compose. -/
theorem Declarations.run_eq_composed (declarations : Declarations M T) (router : Router M T) :
    declarations.run router = router ++ (declarations.flatten []).map Placed.composed := by
  induction declarations generalizing router with
  | done => simp [run,flatten]
  | route methods uri settings rest ih =>
    rw [run,ih,flatten,Router.add,List.map_cons,Placed.composed_nil,List.append_assoc]
    rfl
  | group attributes inner rest ihInner ihRest =>
    have hgroup : Router.group router attributes inner.run = router ++ (inner.flatten [attributes]).map Placed.composed := by
      simp only [Router.group,ihInner,List.take_left,List.drop_left,flatten_cons,List.map_map]
      refine congrArg (router ++ ·) (List.map_congr_left fun p _ => ?_)
      exact p.applied_composed attributes
    rw [run,ihRest,hgroup,flatten,List.map_append,List.append_assoc]
    rfl

end Rainier.Routing
