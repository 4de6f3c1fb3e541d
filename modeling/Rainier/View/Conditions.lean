import Mathlib.Data.List.Infix
import Mathlib.Data.List.TakeWhile
import Rainier.View.Parser

/-! # Conditions with a quoted literal

`@if(path op "text")` should be read as it is written. The lexer balances parentheses
without regard to the quotes, and the operators are looked for in the whole argument, in
the quotes too.
-/
namespace Rainier.View
open Rainier

def CompareOp.text : CompareOp → String
  | eq => "=="
  | ne => "!="
  | gte => ">="
  | lte => "<="
  | gt => ">"
  | lt => "<"

/-- A name in a dotted path: no whitespace, and none of the characters that end it. -/
structure Identifier (name : String) : Prop where
  ne_empty : name ≠ ""
  plain : ∀ c ∈ name.toList, Text.isWhitespace c = false ∧ c ∉ ['.','(',')','=','!','<','>']

/-- The whitespace around an operator. -/
def Blank (s : String) : Prop := ∀ c ∈ s.toList, Text.isWhitespace c = true

instance (s : String) : Decidable (Blank s) := decidable_of_iff (s.toList.all Text.isWhitespace = true) List.all_eq_true

/-- What stands between the parentheses. -/
def argument (path : List String) (w₁ : String) (op : CompareOp) (w₂ : String) (quote : Char) (s : String) : List Char :=
  (Text.join '.' path).toList ++ w₁.toList ++ op.text.toList ++ w₂.toList ++ quote :: s.toList ++ [quote]

/-- `@if(argument)body@endif`. -/
def ifSource (argument : List Char) (body : String) : String :=
  String.ofList ('@' :: 'i' :: 'f' :: '(' :: argument ++ ')' :: (body ++ "@endif").toList)

/-- Every parenthesis has its partner, in a text with so many open before it. -/
def Paired : ℕ → List Char → Prop
  | depth, [] => depth = 0
  | depth, '(' :: cs => Paired (depth + 1) cs
  | depth, ')' :: cs => 0 < depth ∧ Paired (depth - 1) cs
  | depth, _ :: cs => Paired depth cs

/-- The operators that are looked for before this one. -/
def CompareOp.earlier (op : CompareOp) : List String := (operators.takeWhile fun entry => entry.2 ≠ op).map Prod.fst

/-! ## Occurrences -/

section Occurrences
variable {t : List Char} {c : Char}

theorem prefix_append_cons_iff (hc : c ∉ t) {a b : List Char} : t <+: a ++ c :: b ↔ t <+: a := by
  constructor
  · intro h
    by_cases hlen : t.length ≤ a.length
    · exact List.prefix_of_prefix_length_le h (List.prefix_append a (c :: b)) hlen
    · have hlong : a ++ [c] <+: t := by
        have hwhole : a ++ [c] <+: a ++ c :: b := ⟨b,by simp⟩
        refine List.prefix_of_prefix_length_le hwhole h ?_
        rw [List.length_append,List.length_singleton]
        omega
      exact absurd (hlong.subset (by simp)) hc
  · exact fun h => h.trans (List.prefix_append a (c :: b))

/-- A text is looked for before a character that is not in it, and then behind it. -/
theorem splitOnceText_append_cons (ht : t ≠ []) (hc : c ∉ t) (a b : List Char) : splitOnceText t (a ++ c :: b) =
    ((splitOnceText t a).map fun p => (p.1,p.2 ++ c :: b)).or ((splitOnceText t b).map fun p => (a ++ c :: p.1,p.2)) := by
  have hfirst (a : List Char) : t.isPrefixOf (a ++ c :: b) = t.isPrefixOf a := by
    rw [Bool.eq_iff_iff,List.isPrefixOf_iff_prefix,List.isPrefixOf_iff_prefix,prefix_append_cons_iff hc]
  induction a with
  | nil =>
    have hnil : t.isPrefixOf [] = false := by
      cases t with
      | nil => exact absurd rfl ht
      | cons _ _ => rfl
    have hhead := hfirst []
    rw [hnil,List.nil_append] at hhead
    have hnone : splitOnceText t [] = none := rfl
    rw [hnone,List.nil_append,splitOnceText,hhead]
    rfl
  | cons x a ih =>
    have hhead := hfirst (x :: a)
    rw [List.cons_append] at hhead
    rw [List.cons_append,splitOnceText,hhead,splitOnceText]
    split
    · next hfound =>
      have hlen := (List.isPrefixOf_iff_prefix.mp hfound).length_le
      rw [← List.cons_append,List.drop_append_of_le_length hlen]
      rfl
    · rw [ih]
      cases splitOnceText t a <;> simp [Function.comp_def]

/-- What is not in the text may stand before it. -/
theorem splitOnceText_append (ht : t ≠ []) {a : List Char} (ha : ∀ c ∈ a, c ∉ t) (b : List Char) :
    splitOnceText t (a ++ b) = (splitOnceText t b).map fun p => (a ++ p.1,p.2) := by
  induction a with
  | nil => simp
  | cons c a ih =>
    have hcons := splitOnceText_append_cons ht (ha c List.mem_cons_self) [] (a ++ b)
    rw [List.nil_append,ih fun d hd => ha d (List.mem_cons_of_mem c hd)] at hcons
    rw [List.cons_append,hcons]
    cases splitOnceText t b <;> rfl

theorem splitOnceText_self (ht : t ≠ []) (b : List Char) : splitOnceText t (t ++ b) = some ([],b) := by
  obtain ⟨c,rest,rfl⟩ := List.exists_cons_of_ne_nil ht
  have hfirst : (c :: rest).isPrefixOf (c :: (rest ++ b)) = true := List.isPrefixOf_iff_prefix.mpr ⟨b,rfl⟩
  rw [List.cons_append,splitOnceText,if_pos hfirst]
  simp

theorem splitOnceText_eq_none (ht : t ≠ []) {cs : List Char} : splitOnceText t cs = none ↔ ¬ t <:+: cs := by
  induction cs with
  | nil => simpa [splitOnceText] using ht
  | cons c cs ih =>
    rw [splitOnceText,List.infix_cons_iff,not_or,← ih,← List.isPrefixOf_iff_prefix]
    by_cases hfirst : t.isPrefixOf (c :: cs) = true <;> simp [hfirst]

end Occurrences

/-! ## Parentheses -/

section Parentheses
variable {depth : ℕ} {cs tail : List Char}

/-- Characters that are no parentheses are passed over. -/
theorem balance_append {a : List Char} (ha : ∀ c ∈ a, c ≠ '(' ∧ c ≠ ')') (cs : List Char) :
    balance depth (a ++ cs) = (balance depth cs).map (a ++ ·) := by
  induction a with
  | nil => simp
  | cons c a ih =>
    obtain ⟨hopen,hclose⟩ := ha c List.mem_cons_self
    rw [List.cons_append,balance.eq_4 _ _ _ hopen hclose,ih fun d hd => ha d (List.mem_cons_of_mem c hd),Option.map_map]
    rfl

/-- A text is what comes before the closing parenthesis just when its own are paired. -/
theorem balance_eq_iff : balance (depth + 1) (cs ++ ')' :: tail) = some cs ↔ Paired depth cs := by
  induction cs generalizing depth with
  | nil =>
    rw [List.nil_append,balance,Paired]
    by_cases hdepth : depth = 0
    · simp [hdepth]
    · simp [hdepth]
  | cons c cs ih =>
    rw [List.cons_append]
    by_cases hopen : c = '('
    · subst hopen
      rw [balance,Paired,← ih]
      simp [Option.map_eq_some_iff]
    · by_cases hclose : c = ')'
      · subst hclose
        rw [balance,Paired]
        cases depth with
        | zero => simp
        | succ depth =>
          rw [if_neg (by omega),Nat.add_sub_cancel,Nat.add_sub_cancel,← ih]
          simp [Option.map_eq_some_iff]
      · rw [balance.eq_4 _ _ _ hopen hclose,Paired.eq_4 _ _ _ hopen hclose,← ih]
        simp [Option.map_eq_some_iff]

theorem paired_append_singleton {c : Char} (hopen : c ≠ '(') (hclose : c ≠ ')') : Paired depth (cs ++ [c]) ↔ Paired depth cs := by
  induction cs generalizing depth with
  | nil => rw [List.nil_append,Paired.eq_4 _ _ _ hopen hclose]
  | cons d cs ih =>
    rw [List.cons_append]
    by_cases hd : d = '('
    · subst hd
      rw [Paired,Paired,ih]
    · by_cases hd' : d = ')'
      · subst hd'
        rw [Paired,Paired,ih]
      · rw [Paired.eq_4 _ _ _ hd hd',Paired.eq_4 _ _ _ hd hd',ih]

/-- The argument that is found is followed by its parenthesis. -/
theorem eq_of_balance {arg : List Char} (h : balance depth cs = some arg) : ∃ rest, cs = arg ++ ')' :: rest := by
  induction cs generalizing depth arg with
  | nil => cases h
  | cons c cs ih =>
    by_cases hclose : c = ')'
    · subst hclose
      rw [balance] at h
      split at h
      · cases h
        exact ⟨cs,rfl⟩
      · obtain ⟨arg,harg,rfl⟩ := Option.map_eq_some_iff.mp h
        obtain ⟨rest,rfl⟩ := ih harg
        exact ⟨rest,rfl⟩
    · have hnext : ∃ depth' arg', balance depth' cs = some arg' ∧ arg = c :: arg' := by
        by_cases hopen : c = '('
        · subst hopen
          rw [balance] at h
          obtain ⟨arg,harg,rfl⟩ := Option.map_eq_some_iff.mp h
          exact ⟨_,arg,harg,rfl⟩
        · rw [balance.eq_4 _ _ _ hopen hclose] at h
          obtain ⟨arg,harg,rfl⟩ := Option.map_eq_some_iff.mp h
          exact ⟨_,arg,harg,rfl⟩
      obtain ⟨depth',arg',harg,rfl⟩ := hnext
      obtain ⟨rest,rfl⟩ := ih harg
      exact ⟨rest,rfl⟩

end Parentheses

/-! ## The tokens of a conditional -/

section Tokens

theorem lexFrom_skip (a b : List Char) (text : List Char) : lexFrom (a ++ b) a.length text = lexFrom b 0 text := by
  induction a with
  | nil => rfl
  | cons c a ih =>
    rw [List.cons_append,List.length_cons,lexFrom]
    exact ih

/-- The characters of text come first. -/
theorem head_lexFrom (cs : List Char) (skip : ℕ) {text : List Char} (h : text ≠ []) :
    ∃ s tokens, lexFrom cs skip text = .text s :: tokens := by
  have hflush (text : List Char) (h : text ≠ []) : flush text = [.text (String.ofList text)] := by
    rw [flush,List.isEmpty_eq_false_iff.mpr h]
    rfl
  induction cs generalizing skip text with
  | nil =>
    rw [lexFrom,hflush text h]
    exact ⟨_,_,rfl⟩
  | cons c cs ih =>
    cases skip with
    | succ skip =>
      rw [lexFrom]
      exact ih skip h
    | zero =>
      rw [lexFrom]
      split
      · rw [hflush text h]
        exact ⟨_,_,rfl⟩
      · split
        · rw [hflush text h]
          exact ⟨_,_,rfl⟩
        · split
          · split
            · exact ih 1 (by simp)
            · split
              · rw [hflush text h]
                exact ⟨_,_,rfl⟩
              · exact ih 0 (by simp)
          · exact ih 0 (by simp)

/-- The directive of a conditional, when its parentheses are balanced; else it is text. -/
theorem lex_if (cs : List Char) : lexFrom ('@' :: 'i' :: 'f' :: '(' :: cs) 0 [] =
    match balance 1 cs with
    | some arg => .directive "if" (some (Text.trim (String.ofList arg))) :: lexFrom (cs.drop (arg.length + 1)) 0 []
    | none => lexFrom ('i' :: 'f' :: '(' :: cs) 0 ['@'] := by
  have hdirective : lexDirective ('i' :: 'f' :: '(' :: cs) =
      (balance 1 cs).map fun arg => (.directive "if" (some (Text.trim (String.ofList arg))),2 + arg.length + 2) := rfl
  have hraw : startsWith "\x7b!!" ('@' :: 'i' :: 'f' :: '(' :: cs) = false := rfl
  have hecho : startsWith "\x7b\x7b" ('@' :: 'i' :: 'f' :: '(' :: cs) = false := rfl
  rw [lexFrom,hraw,hecho,hdirective]
  cases hbalance : balance 1 cs with
  | none => rfl
  | some arg =>
    obtain ⟨rest,rfl⟩ := eq_of_balance hbalance
    have hlength : 2 + arg.length + 2 = ('i' :: 'f' :: '(' :: (arg ++ [')'])).length := by
      simp only [List.length_cons,List.length_append,List.length_nil]
      omega
    have hsplit : 'i' :: 'f' :: '(' :: (arg ++ ')' :: rest) = 'i' :: 'f' :: '(' :: (arg ++ [')']) ++ rest := by simp
    have hdrop : (arg ++ ')' :: rest).drop (arg.length + 1) = rest := by
      rw [← List.drop_drop,List.drop_left]
      rfl
    simp only [Option.map_some,hlength,hsplit,lexFrom_skip,hdrop]
    rfl

end Tokens

/-! ## The tree of a conditional -/

section Trees
variable {F : Type} {float : String → Option F}

/-- The first condition goes through to the tree, and decides nothing else. -/
theorem parseBranches_eq_ok {condition : Condition F} {tokens : List Token} {branches : List (Condition F × List (Node F))}
    {otherwise : Option (List (Node F))} {rest : Rest tokens}
    (h : parseBranches float condition tokens = .ok (branches,otherwise,rest)) :
    ∃ body more, branches = (condition,body) :: more ∧
      ∀ other, parseBranches float other tokens = .ok ((other,body) :: more,otherwise,rest) := by
  have hunfold (other : Condition F) := parseBranches.eq_def float other tokens
  rw [hunfold] at h
  obtain ⟨⟨body,after⟩,hbody,h⟩ := bind_eq_ok.mp h
  simp only [hunfold,hbody]
  obtain ⟨after,hafter⟩ := after
  cases after with
  | nil => cases h
  | cons token after => cases token with
  | text _ => cases h
  | echo _ _ => cases h
  | directive name arg =>
    by_cases helseif : name = "elseif"
    · simp only [if_pos helseif] at h
      obtain ⟨next,hnext,h⟩ := bind_eq_ok.mp h
      obtain ⟨⟨more,last,next'⟩,hmore,h⟩ := bind_eq_ok.mp h
      cases h
      refine ⟨body,more,rfl,fun other => bind_eq_ok.mpr ⟨_,rfl,?_⟩⟩
      simp only [if_pos helseif]
      exact bind_eq_ok.mpr ⟨next,hnext,bind_eq_ok.mpr ⟨_,hmore,rfl⟩⟩
    · by_cases helse : name = "else"
      · simp only [if_neg helseif,if_pos helse] at h
        obtain ⟨⟨last,next'⟩,hlast,h⟩ := bind_eq_ok.mp h
        cases h
        refine ⟨body,[],rfl,fun other => bind_eq_ok.mpr ⟨_,rfl,?_⟩⟩
        simp only [if_neg helseif,if_pos helse]
        exact bind_eq_ok.mpr ⟨_,hlast,rfl⟩
      · simp only [if_neg helseif,if_neg helse] at h
        cases h
        refine ⟨body,[],rfl,fun other => bind_eq_ok.mpr ⟨_,rfl,?_⟩⟩
        simp only [if_neg helseif,if_neg helse]

theorem parseExtends_if (arg : Option String) (tokens : List Token) : parseExtends (.directive "if" arg :: tokens) = .ok none := rfl

theorem parse_of_lex {source : String} {tokens : List Token} (h : lex source = tokens) : parse float source = (do
    let layout ← parseExtends tokens
    let (nodes,_) ← parseNodes float [] tokens
    .ok ⟨layout,nodes⟩) := by
  subst h
  rfl

/-- A source that begins with a conditional is one conditional, with the condition of its
argument, when its branches end and nothing comes behind them. -/
theorem parse_if_iff {source arg : String} {tokens : List Token} (hlex : lex source = .directive "if" (some arg) :: tokens)
    {condition : Condition F} {body : List (Node F)} {more : List (Condition F × List (Node F))}
    {otherwise : Option (List (Node F))} :
    parse float source = .ok ⟨none,[.ifBlock ((condition,body) :: more) otherwise]⟩ ↔
      condition = parseCondition float arg ∧ ∃ (rest : Rest tokens) (left : Rest rest.1),
        (∀ other, parseBranches float other tokens = .ok ((other,body) :: more,otherwise,rest)) ∧
        parseNodes float [] rest.1 = .ok ([],left) := by
  have hif : ("if" : String) ≠ "extends" := by decide
  have hnode : parseDirective float "if" (some arg) tokens =
      (parseBranches float (parseCondition float arg) tokens).bind fun found => .ok (.ifBlock found.1 found.2.1,found.2.2) := by
    rw [parseDirective]
    rfl
  have hnodes : parseNodes float [] (.directive "if" (some arg) :: tokens) =
      (parseDirective float "if" (some arg) tokens).bind fun found => (parseNodes float [] found.2.1).bind fun after =>
        .ok (found.1 :: after.1,⟨after.2.1,Nat.le_succ_of_le (Nat.le_trans after.2.2 found.2.2)⟩) := by
    rw [parseNodes]
    simp only [List.not_mem_nil,if_false,if_neg hif]
    rfl
  rw [parse_of_lex hlex,parseExtends_if,hnodes,hnode]
  constructor
  · intro h
    obtain ⟨_,_,h⟩ := bind_eq_ok.mp h
    obtain ⟨⟨nodes,left⟩,hok,h⟩ := bind_eq_ok.mp h
    cases h
    obtain ⟨⟨node,next⟩,hok,hleft⟩ := bind_eq_ok.mp hok
    obtain ⟨⟨branches,last,rest⟩,hbranches,hok⟩ := bind_eq_ok.mp hok
    cases hok
    obtain ⟨⟨nodes,left⟩,hrest,hleft⟩ := bind_eq_ok.mp hleft
    cases hleft
    obtain ⟨body,more,heq,hother⟩ := parseBranches_eq_ok hbranches
    cases heq
    exact ⟨rfl,rest,left,hother,hrest⟩
  · rintro ⟨rfl,rest,left,hbranches,hleft⟩
    rw [hbranches]
    refine bind_eq_ok.mpr ⟨_,rfl,bind_eq_ok.mpr ⟨([.ifBlock ((parseCondition float arg,body) :: more) otherwise],
      ⟨left.1,Nat.le_succ_of_le (Nat.le_trans left.2 rest.2)⟩),?_,rfl⟩⟩
    exact bind_eq_ok.mpr ⟨_,rfl,bind_eq_ok.mpr ⟨_,hleft,rfl⟩⟩

/-- A source that begins with text is no conditional. -/
theorem parse_text_ne {source s : String} {tokens : List Token} (hlex : lex source = .text s :: tokens)
    (layout : Option String) (branches : List (Condition F × List (Node F))) (otherwise : Option (List (Node F))) :
    parse float source ≠ .ok ⟨layout,[.ifBlock branches otherwise]⟩ := by
  rw [parse_of_lex hlex]
  intro h
  obtain ⟨_,_,h⟩ := bind_eq_ok.mp h
  obtain ⟨⟨nodes,_⟩,hnodes,h⟩ := bind_eq_ok.mp h
  cases h
  rw [parseNodes] at hnodes
  obtain ⟨⟨nodes,_⟩,_,hnodes⟩ := bind_eq_ok.mp hnodes
  cases hnodes

end Trees

/-! ## Arguments -/

/-- Whitespace around a text that has none at its ends is trimmed off. -/
theorem trim_blank {w y w' : List Char} (hw : ∀ c ∈ w, Text.isWhitespace c = true) (hw' : ∀ c ∈ w', Text.isWhitespace c = true)
    (hne : y ≠ []) (hhead : ∀ c ∈ y.head?, Text.isWhitespace c = false) (hlast : ∀ c ∈ y.getLast?, Text.isWhitespace c = false) :
    Text.trim (String.ofList (w ++ y ++ w')) = String.ofList y := by
  have hstart : (w ++ y ++ w').dropWhile Text.isWhitespace = y ++ w' := by
    rw [List.append_assoc,List.dropWhile_append_of_pos hw]
    obtain ⟨c,rest,rfl⟩ := List.exists_cons_of_ne_nil hne
    rw [List.cons_append,List.dropWhile_cons_of_neg (by simp [hhead c rfl])]
  have hend : (y ++ w').reverse.dropWhile Text.isWhitespace = y.reverse := by
    rw [List.reverse_append,List.dropWhile_append_of_pos fun c hc => hw' c (List.mem_reverse.mp hc)]
    exact Text.dropWhile_eq_self (by simpa using hlast)
  rw [Text.trim,String.toList_ofList,hstart,hend,List.reverse_reverse]

/-- What is trimmed off behind a text is whitespace. -/
theorem exists_trim {cs : List Char} (hhead : ∀ c ∈ cs.head?, Text.isWhitespace c = false) : ∃ gap,
    cs = (Text.trim (String.ofList cs)).toList ++ gap ∧ (∀ c ∈ gap, Text.isWhitespace c = true) ∧
      ∀ c ∈ (Text.trim (String.ofList cs)).toList.getLast?, Text.isWhitespace c = false := by
  have htrim : (Text.trim (String.ofList cs)).toList = (cs.reverse.dropWhile Text.isWhitespace).reverse := by
    rw [Text.trim,String.toList_ofList,String.toList_ofList,Text.dropWhile_eq_self hhead]
  rw [htrim]
  refine ⟨(cs.reverse.takeWhile Text.isWhitespace).reverse,?_,fun c hc => ?_,fun c hc => ?_⟩
  · rw [← List.reverse_append,List.takeWhile_append_dropWhile,List.reverse_reverse]
  · exact List.mem_takeWhile_imp (List.mem_reverse.mp hc)
  · rw [List.getLast?_reverse] at hc
    have hfirst := List.head?_dropWhile_not Text.isWhitespace cs.reverse
    rw [Option.mem_def.mp hc] at hfirst
    exact hfirst

section Arguments
variable {F : Type} {float : String → Option F} {op : CompareOp}

theorem text_mem_operators (op : CompareOp) : (op.text,op) ∈ operators := by
  cases op <;> decide

theorem eq_text_of_mem {token : String} (h : (token,op) ∈ operators) : token = op.text := by
  cases op <;> simp_all [operators,CompareOp.text]

/-- The characters of an operator. -/
theorem mem_operator {token : String} (h : token ∈ operators.map Prod.fst) {c : Char} (hc : c ∈ token.toList) :
    c ∈ ['=','!','<','>'] := by
  have hall : ((operators.map Prod.fst).all fun token => token.toList.all fun c => c ∈ ['=','!','<','>']) = true := by decide
  exact of_decide_eq_true (List.all_eq_true.mp (List.all_eq_true.mp hall token h) c hc)

theorem operator_ne_nil {token : String} (h : token ∈ operators.map Prod.fst) : token.toList ≠ [] := by
  have hall : ∀ token ∈ operators.map Prod.fst, token.toList ≠ [] := by decide
  exact hall token h

theorem mem_of_mem_earlier {token : String} (h : token ∈ op.earlier) : token ∈ operators.map Prod.fst := by
  obtain ⟨entry,hentry,rfl⟩ := List.mem_map.mp h
  exact List.mem_map_of_mem (List.takeWhile_subset _ hentry)

/-- An earlier operator is no part of a later one. -/
theorem splitOnceText_earlier {token : String} (h : token ∈ op.earlier) : splitOnceText token.toList op.text.toList = none := by
  have hall : ∀ op : CompareOp, ∀ token ∈ op.earlier, splitOnceText token.toList op.text.toList = none := by
    intro op
    cases op <;> decide
  exact hall op token h

/-- A comparison is read with an operator just when it occurs and no earlier one does. -/
theorem parseCompare_eq_some {source : String} {entries : List (String × CompareOp)} {left : Expr} {right : Literal F}
    (h : parseCompare float source entries = some (.compare left op right)) :
    (∀ token ∈ (entries.takeWhile fun entry => entry.2 ≠ op).map Prod.fst, splitOnceText token.toList source.toList = none) ∧
      ∃ token before after, (token,op) ∈ entries ∧ splitOnceText token.toList source.toList = some (before,after) ∧
        left = .parse (String.ofList before) ∧ right = parseLiteral float (Text.trim (String.ofList after)) := by
  induction entries with
  | nil => cases h
  | cons entry rest ih =>
    obtain ⟨token,found⟩ := entry
    rw [parseCompare] at h
    split at h
    · next before after hsplit =>
      simp only [Option.some.injEq,Condition.compare.injEq] at h
      obtain ⟨rfl,rfl,rfl⟩ := h
      refine ⟨?_,token,before,after,List.mem_cons_self,hsplit,rfl,rfl⟩
      simp
    · next hnone =>
      obtain ⟨hearlier,token',before,after,hmem,hsplit⟩ := ih h
      refine ⟨fun other hother => ?_,token',before,after,List.mem_cons_of_mem _ hmem,hsplit⟩
      rw [List.takeWhile_cons] at hother
      split at hother
      · rcases List.mem_cons.mp hother with rfl | hother
        · exact hnone
        · exact hearlier other hother
      · cases hother

theorem parseCompare_of_split (float : String → Option F) {cs before after : List Char}
    (hearlier : ∀ token ∈ op.earlier, splitOnceText token.toList cs = none)
    (hsplit : splitOnceText op.text.toList cs = some (before,after)) : parseCompare float (String.ofList cs) operators =
      some (.compare (.parse (String.ofList before)) op (parseLiteral float (Text.trim (String.ofList after)))) := by
  have hfirst (entries : List (String × CompareOp)) (hmem : (op.text,op) ∈ entries)
      (hown : ∀ token, (token,op) ∈ entries → token = op.text)
      (h : ∀ token ∈ (entries.takeWhile fun entry => entry.2 ≠ op).map Prod.fst, splitOnceText token.toList cs = none) :
      parseCompare float (String.ofList cs) entries =
        some (.compare (.parse (String.ofList before)) op (parseLiteral float (Text.trim (String.ofList after)))) := by
    induction entries with
    | nil => cases hmem
    | cons entry rest ih =>
      obtain ⟨token,found⟩ := entry
      rw [parseCompare,String.toList_ofList]
      by_cases hfound : found = op
      · subst hfound
        rw [hown token List.mem_cons_self,hsplit]
      · rw [List.takeWhile_cons_of_pos (by simpa using hfound)] at h
        rw [h token List.mem_cons_self]
        refine ih ((List.mem_cons.mp hmem).resolve_left fun heq => hfound (congrArg Prod.snd heq).symm) ?_ ?_
        · exact fun other hother => hown other (List.mem_cons_of_mem _ hother)
        · exact fun other hother => h other (List.mem_cons_of_mem _ hother)
  exact hfirst operators (text_mem_operators op) (fun token h => eq_text_of_mem h) hearlier

/-- A quoted literal is the text in the quotes just when the last character is the quote. -/
theorem parseLiteral_quoted_iff {quote : Char} (hquote : quote = '\x27' ∨ quote = '"') {s : String} (hs : quote ∉ s.toList)
    (R : List Char) : parseLiteral float (String.ofList (quote :: R)) = .text s ↔ R = s.toList ++ [quote] := by
  have hstrip (q : Char) : stripQuotes q (quote :: R) = if quote = q ∧ R.getLast? = some q then some R.dropLast else none := rfl
  rw [parseLiteral,String.toList_ofList]
  by_cases hlast : R.getLast? = some quote
  · have hfound : (stripQuotes '\x27' (quote :: R)).or (stripQuotes '"' (quote :: R)) = some R.dropLast := by
      rcases hquote with rfl | rfl
      · rw [hstrip '\x27',if_pos ⟨rfl,hlast⟩,Option.some_or]
      · rw [hstrip '\x27',if_neg fun h => absurd h.1 (by decide),Option.none_or,hstrip,if_pos ⟨rfl,hlast⟩]
    have hR : R = R.dropLast ++ [quote] := by
      obtain ⟨init,rfl⟩ := List.getLast?_eq_some_iff.mp hlast
      simp
    rw [hfound]
    simp only [Literal.text.injEq]
    constructor
    · rintro rfl
      rw [String.toList_ofList]
      exact hR
    · intro h
      rw [h,List.dropLast_concat,String.ofList_toList]
  · have hnone : (stripQuotes '\x27' (quote :: R)).or (stripQuotes '"' (quote :: R)) = none := by
      have hne (q : Char) : ¬ (quote = q ∧ R.getLast? = some q) := by
        rintro ⟨rfl,h⟩
        exact hlast h
      rw [hstrip,hstrip,if_neg (hne _),if_neg (hne _),Option.none_or]
    have hword (word : String) (hw : '\x27' ∉ word.toList ∧ '"' ∉ word.toList) : String.ofList (quote :: R) ≠ word := by
      rintro rfl
      rw [String.toList_ofList] at hw
      rcases hquote with rfl | rfl
      · exact hw.1 List.mem_cons_self
      · exact hw.2 List.mem_cons_self
    rw [hnone]
    simp only [hword "true" (by decide),hword "false" (by decide),hword "null" (by decide),
      hword "nil" (by decide),or_self,if_false]
    constructor
    · intro h
      split at h
      · cases h
      · cases h
        rw [String.toList_ofList] at hs
        exact absurd List.mem_cons_self hs
    · rintro rfl
      simp at hlast

variable {path : List String} {w₁ w₂ s : String} {quote : Char}

/-- What stands before the operator has none of the characters of operators and parentheses. -/
theorem mem_subject (hnames : ∀ name ∈ path, Identifier name) (hw₁ : Blank w₁) {c : Char}
    (hc : c ∈ (Text.join '.' path).toList ++ w₁.toList) : c ∉ ['(',')','=','!','<','>'] := by
  rcases List.mem_append.mp hc with hc | hc
  · rcases Text.mem_join hc with rfl | ⟨name,hname,hc⟩
    · decide
    · intro hmem
      exact ((hnames name hname).plain c hc).2 (List.mem_cons_of_mem '.' hmem)
  · have hblank := hw₁ c hc
    intro hmem
    simp only [List.mem_cons,List.not_mem_nil,or_false] at hmem
    rcases hmem with rfl | rfl | rfl | rfl | rfl | rfl <;> revert hblank <;> decide

theorem mem_join_plain (hnames : ∀ name ∈ path, Identifier name) {c : Char} (hc : c ∈ (Text.join '.' path).toList) :
    Text.isWhitespace c = false := by
  rcases Text.mem_join hc with rfl | ⟨name,hname,hc⟩
  · rfl
  · exact ((hnames name hname).plain c hc).1

theorem join_ne_nil (hpath : path ≠ []) (hnames : ∀ name ∈ path, Identifier name) : (Text.join '.' path).toList ≠ [] := by
  obtain ⟨name,rest,rfl⟩ := List.exists_cons_of_ne_nil hpath
  have hname := (hnames name List.mem_cons_self).ne_empty
  obtain ⟨c,hc⟩ := List.exists_mem_of_ne_nil name.toList fun h => hname (String.toList_eq_nil_iff.mp h)
  exact List.ne_nil_of_mem (Text.mem_join_of_mem List.mem_cons_self hc)

/-- The path is read back from what stands before the operator. -/
theorem parse_subject (hpath : path ≠ []) (hnames : ∀ name ∈ path, Identifier name) (hw₁ : Blank w₁) :
    Expr.parse (String.ofList ((Text.join '.' path).toList ++ w₁.toList)) = ⟨path⟩ := by
  have htrim := trim_blank (w := []) (by simp) hw₁ (join_ne_nil hpath hnames)
    (fun c hc => mem_join_plain hnames (List.mem_of_mem_head? hc)) fun c hc => mem_join_plain hnames (List.mem_of_mem_getLast? hc)
  rw [List.nil_append,String.ofList_toList] at htrim
  rw [Expr.parse,htrim,Text.split_join hpath fun name hname hdot => ((hnames name hname).plain '.' hdot).2 List.mem_cons_self]

theorem head_subject (hpath : path ≠ []) (hnames : ∀ name ∈ path, Identifier name) (after : List Char) :
    ∀ c ∈ ((Text.join '.' path).toList ++ after).head?, Text.isWhitespace c = false := by
  intro c hc
  have hne := join_ne_nil hpath hnames
  rw [List.head?_append_of_ne_nil _ hne] at hc
  exact mem_join_plain hnames (List.mem_of_mem_head? hc)

/-- The operator is found where it is written. -/
theorem splitOnceText_subject (op : CompareOp) (hnames : ∀ name ∈ path, Identifier name) (hw₁ : Blank w₁) (after : List Char) :
    splitOnceText op.text.toList ((Text.join '.' path).toList ++ w₁.toList ++ (op.text.toList ++ after)) =
      some ((Text.join '.' path).toList ++ w₁.toList,after) := by
  have hop : op.text ∈ operators.map Prod.fst := List.mem_map_of_mem (text_mem_operators op)
  have hbefore : ∀ c ∈ (Text.join '.' path).toList ++ w₁.toList, c ∉ op.text.toList := by
    intro c hc hmem
    exact mem_subject hnames hw₁ hc (List.mem_cons_of_mem '(' (List.mem_cons_of_mem ')' (mem_operator hop hmem)))
  rw [splitOnceText_append (operator_ne_nil hop) hbefore,splitOnceText_self (operator_ne_nil hop)]
  simp

/-- The literal behind the operator. -/
theorem trim_literal (hw₂ : Blank w₂) (hquote : Text.isWhitespace quote = false) {R : List Char}
    (hlast : ∀ c ∈ (quote :: R).getLast?, Text.isWhitespace c = false) :
    Text.trim (String.ofList (w₂.toList ++ quote :: R)) = String.ofList (quote :: R) := by
  have hhead : ∀ c ∈ (quote :: R).head?, Text.isWhitespace c = false := by
    rintro c ⟨⟩
    exact hquote
  have hnone : ∀ c ∈ ([] : List Char), Text.isWhitespace c = true := by simp
  have htrim := trim_blank hw₂ hnone (List.cons_ne_nil quote R) hhead hlast
  rwa [List.append_nil] at htrim

theorem quote_plain (hquote : quote = '\x27' ∨ quote = '"') :
    Text.isWhitespace quote = false ∧ quote ∉ ['(',')','=','!','<','>'] := by
  rcases hquote with rfl | rfl <;> decide

/-- An earlier operator occurs in the argument just when it occurs in the quotes. -/
theorem splitOnceText_argument (hnames : ∀ name ∈ path, Identifier name) (hw₁ : Blank w₁) (hw₂ : Blank w₂)
    (hquote : quote = '\x27' ∨ quote = '"') {token : String} (htoken : token ∈ op.earlier) :
    splitOnceText token.toList ((Text.join '.' path).toList ++ w₁.toList ++
        (op.text.toList ++ (w₂.toList ++ quote :: (s.toList ++ [quote])))) = none ↔ ¬ token.toList <:+: s.toList := by
  have hop := mem_of_mem_earlier htoken
  have hne := operator_ne_nil hop
  constructor
  · intro h hinside
    have hlater : s.toList <:+: (Text.join '.' path).toList ++ w₁.toList ++
        (op.text.toList ++ (w₂.toList ++ quote :: (s.toList ++ [quote]))) :=
      ⟨(Text.join '.' path).toList ++ w₁.toList ++ (op.text.toList ++ (w₂.toList ++ [quote])),[quote],by simp⟩
    exact (splitOnceText_eq_none hne).mp h (hinside.trans hlater)
  · intro hfree
    have hchars {c : Char} (hc : c ∉ ['(',')','=','!','<','>']) : c ∉ token.toList :=
      fun hmem => hc (List.mem_cons_of_mem '(' (List.mem_cons_of_mem ')' (mem_operator hop hmem)))
    have hgap : ∀ c ∈ w₂.toList ++ [quote], c ∉ token.toList := by
      intro c hc
      refine hchars ?_
      rcases List.mem_append.mp hc with hc | hc
      · exact mem_subject hnames hw₂ (List.mem_append_right _ hc)
      · rw [List.mem_singleton.mp hc]
        exact (quote_plain hquote).2
    have hquoted : splitOnceText token.toList (s.toList ++ [quote]) = none := by
      rw [splitOnceText_append_cons hne (hgap quote (by simp)),(splitOnceText_eq_none hne).mpr hfree]
      rfl
    obtain ⟨c,rest,hcs⟩ := List.exists_cons_of_ne_nil (l := w₂.toList ++ [quote]) (by simp)
    have hafter : w₂.toList ++ quote :: (s.toList ++ [quote]) = c :: (rest ++ (s.toList ++ [quote])) := by
      have happend := congrArg (· ++ (s.toList ++ [quote])) hcs
      simpa using happend
    rw [hcs] at hgap
    rw [splitOnceText_append hne fun d hd => hchars (mem_subject hnames hw₁ hd),hafter,
      splitOnceText_append_cons hne (hgap c List.mem_cons_self),splitOnceText_earlier htoken,
      splitOnceText_append hne fun d hd => hgap d (List.mem_cons_of_mem c hd),hquoted]
    rfl

theorem quote_head (hquote : Text.isWhitespace quote = false) (R : List Char) :
    ∀ c ∈ (quote :: R).head?, Text.isWhitespace c = false := by
  rintro c ⟨⟩
  exact hquote

theorem trim_eq_argument (w₁ : String) (op : CompareOp) (w₂ : String) (hpath : path ≠ [])
    (hnames : ∀ name ∈ path, Identifier name) {R : List Char} (hlast : ∀ c ∈ (quote :: R).getLast?, Text.isWhitespace c = false) :
    Text.trim (String.ofList ((Text.join '.' path).toList ++ w₁.toList ++ (op.text.toList ++ (w₂.toList ++ quote :: R)))) =
      String.ofList ((Text.join '.' path).toList ++ w₁.toList ++ (op.text.toList ++ (w₂.toList ++ quote :: R))) := by
  refine Text.trim_eq_self ?_ ?_
  · rw [String.toList_ofList,List.append_assoc]
    exact head_subject hpath hnames _
  · rw [String.toList_ofList,← List.append_assoc,← List.append_assoc,List.getLast?_append_of_ne_nil _ (List.cons_ne_nil quote R)]
    exact hlast

/-- A trimmed argument is read as it is written just when the quote is closed at its end
and no earlier operator is in the text. -/
theorem parseCondition_eq_iff (hpath : path ≠ []) (hnames : ∀ name ∈ path, Identifier name) (hw₁ : Blank w₁) (hw₂ : Blank w₂)
    (hquote : quote = '\x27' ∨ quote = '"') (hs : quote ∉ s.toList) {R : List Char}
    (hlast : ∀ c ∈ (quote :: R).getLast?, Text.isWhitespace c = false) :
    parseCondition float (String.ofList ((Text.join '.' path).toList ++ w₁.toList ++ (op.text.toList ++ (w₂.toList ++ quote :: R)))) =
      .compare ⟨path⟩ op (.text s) ↔ R = s.toList ++ [quote] ∧ ∀ token ∈ op.earlier, ¬ token.toList <:+: s.toList := by
  have hsource := trim_eq_argument w₁ op w₂ hpath hnames hlast
  have hsplit := splitOnceText_subject op hnames hw₁ (w₂.toList ++ quote :: R)
  have hright := trim_literal hw₂ (quote_plain hquote).1 hlast
  rw [parseCondition,hsource]
  constructor
  · intro h
    split at h
    · next condition hcompare =>
      subst h
      obtain ⟨hearlier,token,before,after,hmem,hfound,hleft,hliteral⟩ := parseCompare_eq_some hcompare
      rw [eq_text_of_mem hmem,String.toList_ofList,hsplit] at hfound
      cases hfound
      rw [hright] at hliteral
      have hR := (parseLiteral_quoted_iff hquote hs R).mp hliteral.symm
      subst hR
      refine ⟨rfl,fun token htoken => ?_⟩
      have hnone := hearlier token htoken
      rw [String.toList_ofList] at hnone
      exact (splitOnceText_argument hnames hw₁ hw₂ hquote htoken).mp hnone
    · split at h <;> cases h
  · rintro ⟨rfl,hfree⟩
    have hcompare := parseCompare_of_split float (fun token htoken =>
      (splitOnceText_argument hnames hw₁ hw₂ hquote htoken).mpr (hfree token htoken)) hsplit
    rw [hcompare,parse_subject hpath hnames hw₁,hright,(parseLiteral_quoted_iff hquote hs _).mpr rfl]

end Arguments

/-! ## Sources -/

section Sources
variable {F : Type} {float : String → Option F} {op : CompareOp} {path : List String} {w₁ w₂ s : String} {quote : Char}

/-- The argument that is found begins with what stands before the quote, and with the
quote. -/
theorem exists_of_balance (op : CompareOp) (s : String) (hnames : ∀ name ∈ path, Identifier name) (hw₁ : Blank w₁) (hw₂ : Blank w₂)
    (hquote : quote = '\x27' ∨ quote = '"') (tail : List Char) :
    balance 1 (argument path w₁ op w₂ quote s ++ ')' :: tail) = (balance 1 (s.toList ++ [quote] ++ ')' :: tail)).map fun R =>
      (Text.join '.' path).toList ++ w₁.toList ++ (op.text.toList ++ (w₂.toList ++ quote :: R)) := by
  have hop : op.text ∈ operators.map Prod.fst := List.mem_map_of_mem (text_mem_operators op)
  have hlead : ∀ c ∈ (Text.join '.' path).toList ++ w₁.toList ++ (op.text.toList ++ (w₂.toList ++ [quote])),
      c ≠ '(' ∧ c ≠ ')' := by
    have hplain {c : Char} (hc : c ∉ ['(',')','=','!','<','>']) : c ≠ '(' ∧ c ≠ ')' := by
      simp only [List.mem_cons,not_or] at hc
      exact ⟨hc.1,hc.2.1⟩
    intro c hc
    rcases List.mem_append.mp hc with hc | hc
    · exact hplain (mem_subject hnames hw₁ hc)
    · rcases List.mem_append.mp hc with hc | hc
      · have hmem := mem_operator hop hc
        constructor <;> rintro rfl <;> revert hmem <;> decide
      · rcases List.mem_append.mp hc with hc | hc
        · exact hplain (mem_subject hnames hw₂ (List.mem_append_right _ hc))
        · rw [List.mem_singleton.mp hc]
          exact hplain (quote_plain hquote).2
  have hsplit : argument path w₁ op w₂ quote s ++ ')' :: tail =
      (Text.join '.' path).toList ++ w₁.toList ++ (op.text.toList ++ (w₂.toList ++ [quote])) ++ (s.toList ++ [quote] ++ ')' :: tail) := by
    simp [argument]
  rw [hsplit,balance_append hlead]
  congr 1
  funext R
  simp

/-- What is trimmed off an argument is whitespace behind the quote. -/
theorem trim_argument (w₁ : String) (op : CompareOp) (w₂ : String) (hpath : path ≠ [])
    (hnames : ∀ name ∈ path, Identifier name) (hquote : Text.isWhitespace quote = false) (R : List Char) : ∃ R' gap, R = R' ++ gap ∧ (∀ c ∈ gap, Text.isWhitespace c = true) ∧
      (∀ c ∈ (quote :: R').getLast?, Text.isWhitespace c = false) ∧
      Text.trim (String.ofList ((Text.join '.' path).toList ++ w₁.toList ++ (op.text.toList ++ (w₂.toList ++ quote :: R)))) =
        String.ofList ((Text.join '.' path).toList ++ w₁.toList ++ (op.text.toList ++ (w₂.toList ++ quote :: R'))) := by
  obtain ⟨gap,hgap,hblank,hlast⟩ := exists_trim (quote_head hquote R)
  have hne : (Text.trim (String.ofList (quote :: R))).toList ≠ [] := by
    intro hnil
    rw [hnil,List.nil_append] at hgap
    have hwhite := hblank quote (hgap ▸ List.mem_cons_self)
    rw [hquote] at hwhite
    cases hwhite
  obtain ⟨c,R',hR'⟩ := List.exists_cons_of_ne_nil hne
  rw [hR'] at hgap hlast
  obtain ⟨rfl,rfl⟩ := List.cons.inj hgap
  refine ⟨R',gap,rfl,hblank,hlast,?_⟩
  have hnone : ∀ c ∈ ([] : List Char), Text.isWhitespace c = true := by simp
  have hhead := head_subject hpath hnames (w₁.toList ++ (op.text.toList ++ (w₂.toList ++ quote :: R')))
  have hend : ∀ c ∈ ((Text.join '.' path).toList ++ (w₁.toList ++ (op.text.toList ++ (w₂.toList ++ quote :: R')))).getLast?,
      Text.isWhitespace c = false := by
    simp only [← List.append_assoc]
    rw [List.getLast?_append_of_ne_nil _ (List.cons_ne_nil quote R')]
    exact hlast
  have htrim := trim_blank hnone hblank (by simp) hhead hend
  simpa using htrim

theorem lex_ifSource (arg : List Char) (body : String) : lex (ifSource arg body) =
    match balance 1 (arg ++ ')' :: (body ++ "@endif").toList) with
    | some found => .directive "if" (some (Text.trim (String.ofList found))) ::
        lexFrom ((arg ++ ')' :: (body ++ "@endif").toList).drop (found.length + 1)) 0 []
    | none => lexFrom ('i' :: 'f' :: '(' :: (arg ++ ')' :: (body ++ "@endif").toList)) 0 ['@'] := by
  rw [lex,ifSource,String.toList_ofList]
  exact lex_if _

/-- The tokens of a conditional whose argument is found. -/
theorem lex_ifSource_of_balance {arg : List Char} (body : String)
    (h : balance 1 (arg ++ ')' :: (body ++ "@endif").toList) = some arg) :
    lex (ifSource arg body) = .directive "if" (some (Text.trim (String.ofList arg))) :: lex (body ++ "@endif") := by
  have hdrop : (arg ++ ')' :: (body ++ "@endif").toList).drop (arg.length + 1) = (body ++ "@endif").toList := by
    rw [← List.drop_drop,List.drop_left]
    rfl
  rw [lex_ifSource,h]
  simp only [hdrop,lex]

/-- A condition with a quoted literal is read as it is written just when the parentheses in
the quotes are paired and no operator that is looked for earlier is in the quotes. -/
theorem condition_reads_iff (float : String → Option F) {path : List String} (hpath : path ≠ [])
    (hnames : ∀ name ∈ path, Identifier name) {w₁ w₂ : String} (hw₁ : Blank w₁) (hw₂ : Blank w₂) (op : CompareOp)
    {quote : Char} (hquote : quote = '\x27' ∨ quote = '"')
    {s : String} (hs : quote ∉ s.toList) {body : String} {nodes : List (Node F)} {more : List (Condition F × List (Node F))}
    {otherwise : Option (List (Node F))}
    (hbody : parse float (ifSource ['x'] body) = .ok ⟨none,[.ifBlock ((.truthy ⟨["x"]⟩,nodes) :: more) otherwise]⟩) :
    parse float (ifSource (argument path w₁ op w₂ quote s) body) =
        .ok ⟨none,[.ifBlock ((.compare ⟨path⟩ op (.text s),nodes) :: more) otherwise]⟩ ↔
      Paired 0 s.toList ∧ ∀ token ∈ op.earlier, ¬ token.toList <:+: s.toList := by
  have hplain := quote_plain hquote
  have hquotes : quote ≠ '(' ∧ quote ≠ ')' := by
    have hmem := hplain.2
    simp only [List.mem_cons,not_or] at hmem
    exact ⟨hmem.1,hmem.2.1⟩
  have hfound := exists_of_balance op s hnames hw₁ hw₂ hquote (body ++ "@endif").toList
  constructor
  · intro h
    have hlex := lex_ifSource (argument path w₁ op w₂ quote s) body
    cases hR : balance 1 (s.toList ++ [quote] ++ ')' :: (body ++ "@endif").toList) with
    | none =>
      rw [hfound,hR,Option.map_none] at hlex
      obtain ⟨text,tokens,htext⟩ := head_lexFrom
        ('i' :: 'f' :: '(' :: (argument path w₁ op w₂ quote s ++ ')' :: (body ++ "@endif").toList)) 0 (List.cons_ne_nil '@' [])
      rw [htext] at hlex
      exact absurd h (parse_text_ne hlex _ _ _)
    | some R =>
      rw [hfound,hR,Option.map_some] at hlex
      obtain ⟨hcondition,-⟩ := (parse_if_iff hlex).mp h
      obtain ⟨R',gap,rfl,hgap,hlast,htrim⟩ := trim_argument w₁ op w₂ hpath hnames hplain.1 R
      rw [htrim] at hcondition
      obtain ⟨rfl,hfree⟩ := (parseCondition_eq_iff hpath hnames hw₁ hw₂ hquote hs hlast).mp hcondition.symm
      -- no parenthesis is whitespace, so that nothing was trimmed off
      obtain ⟨rest,hrest⟩ := eq_of_balance hR
      rw [List.append_assoc _ gap,List.append_cancel_left_eq] at hrest
      have hnil : gap = [] := by
        cases gap with
        | nil => rfl
        | cons c gap =>
          obtain ⟨rfl,-⟩ := List.cons.inj hrest
          exact absurd (hgap ')' List.mem_cons_self) (by decide)
      subst hnil
      rw [List.append_nil,balance_eq_iff,paired_append_singleton hquotes.1 hquotes.2] at hR
      exact ⟨hR,hfree⟩
  · rintro ⟨hpaired,hfree⟩
    have hx : balance 1 (['x'] ++ ')' :: (body ++ "@endif").toList) = some ['x'] := rfl
    obtain ⟨-,rest,left,hbranches,hleft⟩ := (parse_if_iff (lex_ifSource_of_balance body hx)).mp hbody
    have hbalance : balance 1 (s.toList ++ [quote] ++ ')' :: (body ++ "@endif").toList) = some (s.toList ++ [quote]) :=
      balance_eq_iff.mpr ((paired_append_singleton hquotes.1 hquotes.2).mpr hpaired)
    have hargument : argument path w₁ op w₂ quote s =
        (Text.join '.' path).toList ++ w₁.toList ++ (op.text.toList ++ (w₂.toList ++ quote :: (s.toList ++ [quote]))) := by
      simp [argument]
    rw [hbalance,Option.map_some,← hargument] at hfound
    have hlast : ∀ c ∈ (quote :: (s.toList ++ [quote])).getLast?, Text.isWhitespace c = false := by
      rw [← List.cons_append,List.getLast?_concat]
      rintro c ⟨⟩
      exact hplain.1
    refine (parse_if_iff (lex_ifSource_of_balance body hfound)).mpr ⟨?_,rest,left,hbranches,hleft⟩
    rw [hargument,trim_eq_argument w₁ op w₂ hpath hnames hlast]
    exact ((parseCondition_eq_iff hpath hnames hw₁ hw₂ hquote hs hlast).mpr ⟨rfl,hfree⟩).symm

/-- A body that stands in a conditional. -/
theorem parse_greeting : parse (F := ℕ) (fun _ => none) (ifSource ['x'] "hi") =
    .ok ⟨none,[.ifBlock [(.truthy ⟨["x"]⟩,[.text "hi"])] none]⟩ := by
  have hlex : lex (ifSource ['x'] "hi") = [.directive "if" (some "x"),.text "hi",.directive "endif" none] := by decide
  have hcondition : .truthy ⟨["x"]⟩ = parseCondition (F := ℕ) (fun _ => none) "x" := by decide
  refine (parse_if_iff hlex).mpr ⟨hcondition,⟨[],by simp⟩,⟨[],by simp⟩,fun other => ?_,?_⟩
  · rw [parseBranches,parseNodes,parseNodes]
    rfl
  · rw [parseNodes]
    rfl

theorem condition_reads_parentheses : parse (F := ℕ) (fun _ => none) (ifSource (argument ["a","b"] " " .gte " " '"' "x(y)") "hi") =
        .ok ⟨none,[.ifBlock [(.compare ⟨["a","b"]⟩ .gte (.text "x(y)"),[.text "hi"])] none]⟩ ↔
      Paired 0 "x(y)".toList ∧ ∀ token ∈ CompareOp.gte.earlier, ¬ token.toList <:+: "x(y)".toList :=
  condition_reads_iff (fun _ => none) (by decide) (by
    intro name hname
    simp only [List.mem_cons,List.not_mem_nil,or_false] at hname
    rcases hname with rfl | rfl <;> refine ⟨by decide,fun c hc => ?_⟩ <;> simp at hc <;> subst hc <;> decide) (by decide)
    (by decide) .gte (.inr rfl) (by decide) parse_greeting

/-- A parenthesis in the quotes is not passed over: the conditional is read as text. -/
theorem open_parenthesis_in_quotes : parse (F := ℕ) (fun _ => none) (ifSource (argument ["a"] " " .eq " " '"' "(") "hi") =
    .error (.internal "unknown template directive `@endif`") := by
  have hlex : lex (ifSource (argument ["a"] " " .eq " " '"' "(") "hi") = [.text "@if(a == \"(\")hi",.directive "endif" none] := by
    decide
  rw [parse_of_lex hlex]
  have hextends : parseExtends [.text "@if(a == \"(\")hi",.directive "endif" none] = .ok none := by decide
  rw [hextends,parseNodes,parseNodes]
  simp [parseDirective]
  rfl

end Sources
end Rainier.View
