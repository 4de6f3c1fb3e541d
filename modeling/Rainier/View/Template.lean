import Mathlib.Data.List.Basic

/-! # Templates

The tree a template is parsed into: text, echoes, conditionals, loops, includes,
the sections a child gives its layout and the places the layout puts them. `F` is
the type of `f64`.
-/
namespace Rainier.View

/-- A dotted path into the data. -/
structure Expr where
  path : List String
  deriving DecidableEq, Repr

inductive CompareOp where
  | eq
  | ne
  | gt
  | gte
  | lt
  | lte
  deriving DecidableEq, Repr

inductive Literal (F : Type) where
  | text (s : String)
  | number (x : F)
  | bool (b : Bool)
  | null
  deriving DecidableEq, Repr

inductive Condition (F : Type) where
  | truthy (expr : Expr)
  | falsy (expr : Expr)
  | compare (left : Expr) (op : CompareOp) (right : Literal F)
  deriving DecidableEq, Repr

inductive Node (F : Type) where
  | text (s : String)
  | echo (expr : Expr) (raw : Bool)
  | ifBlock (branches : List (Condition F × List (Node F))) (otherwise : Option (List (Node F)))
  | foreachBlock (collection : Expr) (key : Option String) (value : String) (body : List (Node F))
  | includeView (name : String)
  | vite (entries : List String)
  | yieldSection (name : String)
  | sectionBlock (name : String) (body : List (Node F))
  deriving Repr

structure Template (F : Type) where
  extends' : Option String
  nodes : List (Node F)
  deriving Repr

end Rainier.View
