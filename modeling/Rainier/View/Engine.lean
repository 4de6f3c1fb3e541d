import Rainier.Support.Error
import Rainier.Support.JsonPath
import Rainier.View.Template
import Mathlib.Logic.Function.Basic

/-! # Rendering a template

`renderNodes` appends to what has been rendered so far and reads the sections a
child template has given. `renderNamed` loads a template by name; its `room` is how
many more templates may be entered before a cycle is suspected. Nothing resumes
after an error, so the room an including template has is the room it had before.
-/
namespace Rainier.View
open Rainier

/-- What the renderer asks of `f64`. -/
structure Floats (F : Type) where
  /-- `Number::as_f64`. -/
  asF64 : JsonNumber → Option F
  /-- `str::parse`. -/
  parse : String → Option F
  isZero : F → Bool
  partialCmp : F → F → Option Ordering
  /-- The two are less than `f64::EPSILON` apart. -/
  near : F → F → Bool
  /-- The text of a number that is not an integer. -/
  display : BitVec 64 → String

/-- An engine: its floats, how a template is read and parsed, and the asset resolver. -/
structure Engine (F : Type) where
  floats : Floats F
  load : String → Except Error (Template F)
  vite : Option (List String → Except Error String)

def maxDepth : ℕ := 32

/-- What is between a pair of the given quotes. -/
def quoted (quote : Char) (s : String) : Option String :=
  match s.toList with
  | c :: rest =>
    if c = quote ∧ rest.getLast? = some quote then some (String.ofList rest.dropLast) else none
  | [] => none

def unquote (value : String) : String :=
  let trimmed := Text.trim value
  ((quoted '\'' trimmed).or (quoted '"' trimmed)).getD trimmed

def lookup (data : Json) (expr : Expr) : Option Json := data.walk expr.path

def escapeChar (c : Char) : List Char :=
  if c = '&' then "&amp;".toList
  else if c = '<' then "&lt;".toList
  else if c = '>' then "&gt;".toList
  else if c = '"' then "&quot;".toList
  else if c = '\'' then "&#39;".toList
  else [c]

def escapeHtml (value : String) : String := String.ofList (value.toList.flatMap escapeChar)

variable {F : Type} (e : Engine F)

namespace Engine

def stringify : Option Json → String
  | none | some .null => ""
  | some (.string text) => text
  | some (.bool b) => toString b
  | some (.number n) => Json.writeNumber e.floats.display n
  | some other => other.write e.floats.display

def truthy : Option Json → Bool
  | none | some .null => false
  | some (.bool b) => b
  | some (.string text) => !text.isEmpty
  | some (.number n) => (e.floats.asF64 n).any fun x => !e.floats.isZero x
  | some (.array items) => !items.isEmpty
  | some (.object fields) => !fields.isEmpty

def ordering : Option Json → Literal F → Option Ordering
  | some (.number a), .number b => (e.floats.asF64 a).bind fun a => e.floats.partialCmp a b
  | some (.string a), .number b => (e.floats.parse a).bind fun a => e.floats.partialCmp a b
  | _, _ => none

def equal : Option Json → Literal F → Bool
  | none, .null | some .null, .null => true
  | some (.string a), .text b => a == b
  | some (.bool a), .bool b => a == b
  | some (.number a), .number b => (e.floats.asF64 a).any fun a => e.floats.near a b
  | some (.string a), .number b => (e.floats.parse a).any fun a => e.floats.near a b
  | some (.number a), .text b => Json.writeNumber e.floats.display a == b
  | _, _ => false

def compare (left : Option Json) (op : CompareOp) (right : Literal F) : Bool :=
  match op with
  | .eq => e.equal left right
  | .ne => !e.equal left right
  | .gt => e.ordering left right = some .gt
  | .gte => e.ordering left right = some .gt ∨ e.ordering left right = some .eq
  | .lt => e.ordering left right = some .lt
  | .lte => e.ordering left right = some .lt ∨ e.ordering left right = some .eq

def evaluate (data : Json) : Condition F → Bool
  | .truthy expr => e.truthy (lookup data expr)
  | .falsy expr => !e.truthy (lookup data expr)
  | .compare left op right => e.compare (lookup data left) op right

end Engine

/-- What a loop walks over: indices or keys with their elements, and nothing where there is
no collection. -/
def pairs : Option Json → List (Json × Json)
  | some (.array items) => items.zipIdx.map fun p => (.number (.posInt p.2),p.1)
  | some (.object fields) => fields.map fun p => (.string p.1,p.2)
  | _ => []

/-- The data with the loop's variables in it. -/
def scope (data : Json) (key : Option String) (value : String) (pair : Json × Json) : Json :=
  let outer := match data with
    | .object fields => fields
    | _ => []
  let inner := Json.insert outer value pair.2
  match key with
  | some key => .object (Json.insert inner key pair.1)
  | none => .object inner

/-- The sections a child has rendered, by name. -/
abbrev Sections := String → Option String

def noVite : Error := .internal ("the template uses @vite but the engine has no resolver — attach " ++
  "one with `TemplateEngine::new(…).with_vite(Vite::new(\"public\"))` " ++
  "(the framework's default bootstrap does)")

section Nodes
variable (enter : String → Json → Except Error String)

mutual
def renderNodes : List (Node F) → Json → Sections → String → Except Error String
  | [], _, _, out => .ok out
  | node :: rest, data, sections, out => do
    let out ← renderNode node data sections out
    renderNodes rest data sections out

def renderNode : Node F → Json → Sections → String → Except Error String
  | .text text, _, _, out => .ok (out ++ text)
  | .echo expr raw, data, _, out =>
    let rendered := e.stringify (lookup data expr)
    .ok (out ++ if raw then rendered else escapeHtml rendered)
  | .ifBlock branches otherwise, data, sections, out =>
    match renderBranches branches data sections out with
    | some taken => taken
    | none => renderOtherwise otherwise data sections out
  | .foreachBlock collection key value body, data, sections, out =>
    (pairs (lookup data collection)).foldlM
      (fun out pair => renderNodes body (scope data key value pair) sections out) out
  | .includeView name, data, _, out => do
    let rendered ← enter name data
    return out ++ rendered
  | .vite entries, _, _, out => do
    match e.vite with
    | none => .error noVite
    | some vite => do
      let tags ← vite entries
      return out ++ tags
  | .yieldSection name, _, sections, out => .ok (out ++ (sections name).getD "")
  | .sectionBlock _ body, data, sections, out => renderNodes body data sections out

/-- The first branch whose condition holds, if there is one. -/
def renderBranches : List (Condition F × List (Node F)) → Json → Sections → String →
    Option (Except Error String)
  | [], _, _, _ => none
  | (condition,body) :: rest, data, sections, out =>
    if e.evaluate data condition then some (renderNodes body data sections out)
    else renderBranches rest data sections out

def renderOtherwise : Option (List (Node F)) → Json → Sections → String → Except Error String
  | some body, data, sections, out => renderNodes body data sections out
  | none, _, _, out => .ok out
end

/-- The sections at the top of a child template, each rendered on its own. -/
def collectSections (data : Json) : List (Node F) → Sections → Except Error Sections
  | [], sections => .ok sections
  | .sectionBlock name body :: rest, sections => do
    let rendered ← renderNodes e enter body data (fun _ => none) ""
    collectSections data rest (Function.update sections name (some rendered))
  | _ :: rest, sections => collectSections data rest sections

end Nodes

def tooDeep (name : String) : Error := .internal ("view `" ++ name ++ "` nests more than " ++ toString maxDepth ++
  " levels deep — this is almost certainly a template including itself")

def renderNamed : ℕ → String → Json → Except Error String
  | 0, name, _ => .error (tooDeep name)
  | room + 1, name, data => do
    let template ← e.load name
    match template.extends' with
    | some layout => do
      let sections ← collectSections e (renderNamed room) data template.nodes (fun _ => none)
      let parent ← e.load (unquote layout)
      renderNodes e (renderNamed room) parent.nodes data sections ""
    | none => renderNodes e (renderNamed room) template.nodes data (fun _ => none) ""

def render (name : String) (data : Json) : Except Error String := renderNamed e maxDepth name data

end Rainier.View
