import Rainier.Support.Error
import Rainier.Support.Split
import Rainier.View.Template

/-! # Reading a template

The source is cut into text, echoes and directives, and the directives are parsed into a
tree. How a float is read is a parameter.
-/
namespace Rainier.View
open Rainier

inductive Token where
  | text (s : String)
  | echo (expr : String) (raw : Bool)
  | directive (name : String) (arg : Option String)
  deriving DecidableEq, Repr

/-! ## The lexer -/

/-- `starts_with` at the head of what is left. -/
def startsWith (needle : String) (cs : List Char) : Bool := needle.toList.isPrefixOf cs

/-- `find_from`: what comes before the first occurrence of the closer. -/
def beforeCloser (needle : String) : List Char → Option (List Char)
  | [] => none
  | c :: cs => if startsWith needle (c :: cs) then some [] else (beforeCloser needle cs).map (c :: ·)

def isNameChar (c : Char) : Bool := ('A' ≤ c && c ≤ 'Z') || ('a' ≤ c && c ≤ 'z') || Text.isDigit c || c = '_'

/-- The text up to the parenthesis that closes the one before it. -/
def balance : ℕ → List Char → Option (List Char)
  | _, [] => none
  | depth, '(' :: cs => (balance (depth + 1) cs).map ('(' :: ·)
  | depth, ')' :: cs => if depth = 1 then some [] else (balance (depth - 1) cs).map (')' :: ·)
  | depth, c :: cs => (balance depth cs).map (c :: ·)

/-- What stands after an at-sign: the directive, and how many characters it takes up. -/
def lexDirective (cs : List Char) : Option (Token × ℕ) :=
  let name := cs.takeWhile isNameChar
  if name.isEmpty then none
  else
    match cs.dropWhile isNameChar with
    | '(' :: rest =>
      -- unbalanced: treated as plain text rather than eating the rest
      (balance 1 rest).map fun arg =>
        (.directive (String.ofList name) (some (Text.trim (String.ofList arg))),name.length + arg.length + 2)
    | _ => some (.directive (String.ofList name) none,name.length)

def flush (text : List Char) : List Token := if text.isEmpty then [] else [.text (String.ofList text)]

/-- The loop over the characters. `skip` counts those that belong to the last token. -/
def lexFrom : List Char → ℕ → List Char → List Token
  | [], _, text => flush text
  | _ :: cs, skip + 1, text => lexFrom cs skip text
  | c :: cs, 0, text =>
    match (if startsWith "\x7b!!" (c :: cs) then beforeCloser "!!\x7d" ((c :: cs).drop 3) else none) with
    | some expr => flush text ++ .echo (String.ofList expr) true :: lexFrom cs (expr.length + 5) []
    | none =>
      match (if startsWith "\x7b\x7b" (c :: cs) then beforeCloser "\x7d\x7d" ((c :: cs).drop 2) else none) with
      | some expr => flush text ++ .echo (String.ofList expr) false :: lexFrom cs (expr.length + 3) []
      | none =>
        if c = '@' then
          if cs.head? = some '@' then lexFrom cs 1 (text ++ ['@'])
          else
            match lexDirective cs with
            | some (token,length) => flush text ++ token :: lexFrom cs length []
            | none => lexFrom cs 0 (text ++ [c])
        else lexFrom cs 0 (text ++ [c])

def lex (source : String) : List Token := lexFrom source.toList 0 []

/-! ## Expressions and conditions -/

def Expr.parse (source : String) : Expr := ⟨Text.split '.' (Text.trim source)⟩

/-- `split_once` at a text that is not empty. -/
def splitOnceText (token : List Char) : List Char → Option (List Char × List Char)
  | [] => none
  | c :: cs =>
    if token.isPrefixOf (c :: cs) then some ([],(c :: cs).drop token.length)
    else (splitOnceText token cs).map fun parts => (c :: parts.1,parts.2)

/-- What a pair of quotes encloses. -/
def stripQuotes (quote : Char) (cs : List Char) : Option (List Char) :=
  match cs with
  | c :: rest => if c = quote ∧ rest.getLast? = some quote then some rest.dropLast else none
  | [] => none

def Template.unquote (value : String) : String :=
  let trimmed := (Text.trim value).toList
  String.ofList (((stripQuotes '\x27' trimmed).or (stripQuotes '"' trimmed)).getD trimmed)

/-- The operators, in the order they are looked for. -/
def operators : List (String × CompareOp) := [("==",.eq),("!=",.ne),(">=",.gte),("<=",.lte),(">",.gt),("<",.lt)]

section Parser
variable {F : Type} (float : String → Option F)

def parseLiteral (source : String) : Literal F :=
  match (stripQuotes '\x27' source.toList).or (stripQuotes '"' source.toList) with
  | some text => .text (String.ofList text)
  | none =>
    if source = "true" then .bool true
    else if source = "false" then .bool false
    else if source = "null" ∨ source = "nil" then .null
    else
      match float source with
      | some number => .number number
      -- an unquoted word reads as a string
      | none => .text source

/-- The loop over the operators: the first one that occurs anywhere is taken. -/
def parseCompare (source : String) : List (String × CompareOp) → Option (Condition F)
  | [] => none
  | (token,op) :: rest =>
    match splitOnceText token.toList source.toList with
    | some (left,right) =>
      some (.compare (.parse (String.ofList left)) op (parseLiteral float (Text.trim (String.ofList right))))
    | none => parseCompare source rest

def parseCondition (source : String) : Condition F :=
  let source := Text.trim source
  match parseCompare float source operators with
  | some condition => condition
  | none =>
    match Text.stripPrefix "!" source with
    | some rest => .falsy (.parse rest)
    | none => .truthy (.parse source)

/-! ## The parser -/

/-- What is left of the tokens. -/
abbrev Rest (tokens : List Token) := {rest : List Token // rest.length ≤ tokens.length}

def requireArg (arg : Option String) (directive : String) : Except Error String :=
  match arg with
  | some arg => .ok arg
  | none => .error (.internal (directive ++ " needs an argument"))

/-- One quoted entry, or a list of them in brackets. -/
def parseViteEntries (arg : String) : Except Error (List String) :=
  let trimmed := Text.trim arg
  let items := match trimmed.toList with
    | '[' :: list =>
      if list.getLast? = some ']' then
        ((Text.split ',' (String.ofList list.dropLast)).map Template.unquote).filter (· ≠ "")
      else [Template.unquote trimmed].filter (· ≠ "")
    | _ => [Template.unquote trimmed].filter (· ≠ "")
  if items.isEmpty then
    .error (.internal ("@vite needs at least one entry — `@vite('resources/js/app.js')` or " ++
      "`@vite(['resources/css/app.css', 'resources/js/app.js'])`"))
  else .ok items

/-- The loop's collection, key and value. -/
def parseBinding (arg : String) : Except Error (Expr × Option String × String) :=
  match splitOnceText " as ".toList arg.toList with
  | none => .error (.internal ("@foreach(" ++ arg ++ ") should read `@foreach(items as item)`"))
  | some (collection,binding) =>
    match splitOnceText "=>".toList binding with
    | some (key,value) => .ok (.parse (String.ofList collection),some (Text.trim (String.ofList key)),Text.trim (String.ofList value))
    | none => .ok (.parse (String.ofList collection),none,Text.trim (String.ofList binding))

mutual

/-- Nodes until one of the terminators, which is left. -/
def parseNodes (terminators : List String) (tokens : List Token) : Except Error (List (Node F) × Rest tokens) :=
  match tokens with
  | [] =>
    if terminators.isEmpty then .ok ([],⟨[],Nat.le_refl _⟩)
    else .error (.internal ("the template ended while still inside a block — expected @" ++ " or @".intercalate terminators))
  | .text s :: after => do
    let (nodes,⟨rest,hrest⟩) ← parseNodes terminators after
    .ok (.text s :: nodes,⟨rest,Nat.le_succ_of_le hrest⟩)
  | .echo expr raw :: after => do
    let (nodes,⟨rest,hrest⟩) ← parseNodes terminators after
    .ok (.echo (.parse expr) raw :: nodes,⟨rest,Nat.le_succ_of_le hrest⟩)
  | .directive name arg :: after => do
    if name ∈ terminators then .ok ([],⟨.directive name arg :: after,Nat.le_refl _⟩)
    else if name = "extends" then
      let (nodes,⟨rest,hrest⟩) ← parseNodes terminators after
      .ok (nodes,⟨rest,Nat.le_succ_of_le hrest⟩)
    else
      let (node,⟨next,hnext⟩) ← parseDirective name arg after
      let (nodes,⟨rest,hrest⟩) ← parseNodes terminators next
      .ok (node :: nodes,⟨rest,Nat.le_succ_of_le (Nat.le_trans hrest hnext)⟩)
termination_by (tokens.length,0)
decreasing_by all_goals (simp_wf; omega)

/-- The node of a directive. -/
def parseDirective (name : String) (arg : Option String) (tokens : List Token) : Except Error (Node F × Rest tokens) :=
  match name with
  | "if" => do
    let condition ← requireArg arg "@if"
    let (branches,otherwise,rest) ← parseBranches (parseCondition float condition) tokens
    .ok (.ifBlock branches otherwise,rest)
  | "foreach" => do
    let arg ← requireArg arg "@foreach"
    let (collection,key,value) ← parseBinding arg
    let (body,⟨rest,hrest⟩) ← parseNodes ["endforeach"] tokens
    .ok (.foreachBlock collection key value body,⟨rest.tail,by rw [List.length_tail]; omega⟩)
  | "section" => do
    let arg ← requireArg arg "@section"
    let (body,⟨rest,hrest⟩) ← parseNodes ["endsection"] tokens
    .ok (.sectionBlock (Template.unquote arg) body,⟨rest.tail,by rw [List.length_tail]; omega⟩)
  | "include" => do
    let arg ← requireArg arg "@include"
    .ok (.includeView (Template.unquote arg),⟨tokens,Nat.le_refl _⟩)
  | "vite" => do
    let arg ← requireArg arg "@vite"
    let entries ← parseViteEntries arg
    .ok (.vite entries,⟨tokens,Nat.le_refl _⟩)
  | "yield" => do
    let arg ← requireArg arg "@yield"
    .ok (.yieldSection (Template.unquote arg),⟨tokens,Nat.le_refl _⟩)
  | other => .error (.internal ("unknown template directive `@" ++ other ++ "`"))
termination_by (tokens.length,2)

/-- The loop of `parse_if`: a branch after the other, from the condition of the first. -/
def parseBranches (condition : Condition F) (tokens : List Token) :
    Except Error (List (Condition F × List (Node F)) × Option (List (Node F)) × Rest tokens) := do
  let (body,rest) ← parseNodes ["elseif","else","endif"] tokens
  match rest with
  | ⟨.directive name arg :: after,hrest⟩ =>
    if name = "elseif" then
      let next ← requireArg arg "@elseif"
      let (branches,otherwise,⟨rest,hnext⟩) ← parseBranches (parseCondition float next) after
      .ok ((condition,body) :: branches,otherwise,⟨rest,Nat.le_trans hnext (Nat.le_of_succ_le hrest)⟩)
    else if name = "else" then
      let (otherwise,⟨rest,helse⟩) ← parseNodes ["endif"] after
      .ok ([(condition,body)],some otherwise,⟨rest.tail,by rw [List.length_tail]; rw [List.length_cons] at hrest; omega⟩)
    else .ok ([(condition,body)],none,⟨after,Nat.le_of_succ_le hrest⟩)
  | _ => .error (.internal "@if was never closed with @endif")
termination_by (tokens.length,1)

end

/-- The layout, when the first directive names one. -/
def parseExtends (tokens : List Token) : Except Error (Option String) :=
  let first := tokens.find? fun token => match token with
    | .text s => Text.trim s ≠ ""
    | _ => true
  match first with
  | some (.directive "extends" arg) =>
    match arg with
    | some arg => .ok (some arg)
    | none => .error (.internal "@extends needs a layout name")
  | _ => .ok none

def parse (source : String) : Except Error (Template F) := do
  let layout ← parseExtends (lex source)
  let (nodes,_) ← parseNodes float [] (lex source)
  .ok ⟨layout,nodes⟩

end Parser
end Rainier.View
