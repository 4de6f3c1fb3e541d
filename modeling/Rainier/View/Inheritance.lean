import Mathlib.Data.List.Nodup
import Rainier.View.Engine

/-! # Chains of layouts

A template that extends another gives it sections. Of a chain of them the outermost
layout should be rendered, each section taken from the template closest to the first.
The renderer loads the layout of the first template and does not ask what that extends.
-/
namespace Rainier.View
open Rainier
variable {F : Type}

/-- Templates with their names, each the layout of the one before it; the last extends
nothing. -/
inductive Chain (e : Engine F) : List (String × Template F) → Prop where
  | outermost {name : String} {template : Template F} (hload : e.load name = .ok template) (hnone : template.extends' = none) :
    Chain e [(name,template)]
  | extend {name next layout : String} {template outer : Template F} {rest : List (String × Template F)}
    (hload : e.load name = .ok template) (hlayout : template.extends' = some layout) (hnext : unquote layout = next)
    (h : Chain e ((next,outer) :: rest)) : Chain e ((name,template) :: (next,outer) :: rest)

/-- There is such a section at the top level. -/
def Template.Defines (template : Template F) (name : String) : Prop := ∃ body, .sectionBlock name body ∈ template.nodes

/-- The sections of a chain: each is rendered on its own, and the template closest to the
first has the last word. -/
def chainSections (e : Engine F) (enter : String → Json → Except Error String) (data : Json) :
    List (String × Template F) → Except Error Sections
  | [] => .ok fun _ => none
  | (_,template) :: rest => do
    let outer ← chainSections e enter data rest
    collectSections e enter data template.nodes outer

/-- The first template renders as the nodes of the last with the sections of the chain,
where these can be rendered. -/
def RendersOutermost (e : Engine F) (chain : List (String × Template F)) (data : Json) : Prop :=
  ∀ first ∈ chain.head?, ∀ last ∈ chain.getLast?, ∀ sections,
    chainSections e (renderNamed e (maxDepth - 1)) data chain = .ok sections →
      render e first.1 data = renderNodes e (renderNamed e (maxDepth - 1)) last.2.nodes data sections ""

/-! ## What is yielded -/

/-- Every section that is yielded is one of these. -/
inductive YieldsIn (P : String → Prop) : Node F → Prop where
  | text (s : String) : YieldsIn P (.text s)
  | echo (expr : Expr) (raw : Bool) : YieldsIn P (.echo expr raw)
  | ifBlock (branches : List (Condition F × List (Node F))) (otherwise : Option (List (Node F)))
    (hbranches : ∀ b ∈ branches, ∀ node ∈ b.2, YieldsIn P node)
    (hotherwise : ∀ body, otherwise = some body → ∀ node ∈ body, YieldsIn P node) : YieldsIn P (.ifBlock branches otherwise)
  | foreachBlock (collection : Expr) (key : Option String) (value : String) (body : List (Node F))
    (h : ∀ node ∈ body, YieldsIn P node) : YieldsIn P (.foreachBlock collection key value body)
  | includeView (name : String) : YieldsIn P (.includeView name)
  | vite (entries : List String) : YieldsIn P (.vite entries)
  | yieldSection (name : String) (h : P name) : YieldsIn P (.yieldSection name)
  | sectionBlock (name : String) (body : List (Node F)) (h : ∀ node ∈ body, YieldsIn P node) : YieldsIn P (.sectionBlock name body)

section Congruence
variable {e : Engine F} {enter : String → Json → Except Error String} {s s' : Sections}

/-- A piece of the renderer that does not see the difference between the sections. -/
def Blind (s s' : Sections) (r : Json → Sections → String → Except Error String) : Prop :=
  ∀ data out, r data s out = r data s' out

theorem blind_nodes {nodes : List (Node F)} (h : ∀ node ∈ nodes, Blind s s' (renderNode e enter node)) :
    Blind s s' (renderNodes e enter nodes) := by
  induction nodes with
  | nil =>
    intro data out
    rw [renderNodes,renderNodes]
  | cons node rest ih =>
    intro data out
    have hrest := ih fun n hn => h n (List.mem_cons_of_mem node hn)
    rw [renderNodes,renderNodes,h node List.mem_cons_self data out]
    congr 1
    funext out
    exact hrest data out

theorem blind_branches {branches : List (Condition F × List (Node F))} {data : Json} {out : String}
    (h : ∀ b ∈ branches, Blind s s' (renderNodes e enter b.2)) :
    renderBranches e enter branches data s out = renderBranches e enter branches data s' out := by
  induction branches with
  | nil => rw [renderBranches,renderBranches]
  | cons b rest ih =>
    obtain ⟨condition,body⟩ := b
    rw [renderBranches,renderBranches,h _ List.mem_cons_self data out,ih fun b hb => h b (List.mem_cons_of_mem _ hb)]

theorem blind_node {P : String → Prop} (hsections : ∀ name, P name → s name = s' name) {node : Node F} (h : YieldsIn P node) :
    Blind s s' (renderNode e enter node) := by
  induction h with
  | text text =>
    intro data out
    rw [renderNode,renderNode]
  | echo expr raw =>
    intro data out
    rw [renderNode,renderNode]
  | ifBlock branches otherwise _ _ ihbranches ihotherwise =>
    intro data out
    have hotherwise : renderOtherwise e enter otherwise data s out = renderOtherwise e enter otherwise data s' out := by
      cases otherwise with
      | none => rw [renderOtherwise,renderOtherwise]
      | some body =>
        rw [renderOtherwise,renderOtherwise]
        exact blind_nodes (ihotherwise body rfl) data out
    rw [renderNode,renderNode,blind_branches fun b hb => blind_nodes (ihbranches b hb),hotherwise]
  | foreachBlock collection key value body _ ih =>
    intro data out
    rw [renderNode,renderNode]
    congr 1
    funext out pair
    exact blind_nodes ih (scope data key value pair) out
  | includeView name =>
    intro data out
    rw [renderNode,renderNode]
  | vite entries =>
    intro data out
    rw [renderNode,renderNode]
  | yieldSection name h =>
    intro data out
    rw [renderNode,renderNode,hsections name h]
  | sectionBlock name body _ ih =>
    intro data out
    rw [renderNode,renderNode]
    exact blind_nodes ih data out

/-- What a template collects goes over what was there. -/
theorem collectSections_or {data : Json} {nodes : List (Node F)} {base sections : Sections}
    (h : collectSections e enter data nodes base = .ok sections) : ∃ own,
      collectSections e enter data nodes (fun _ => none) = .ok own ∧ (sections = fun name => (own name).or (base name)) ∧
        ∀ name, (own name).isSome = true ↔ ∃ body, .sectionBlock name body ∈ nodes := by
  -- the sections so far, over any others
  have hover (nodes : List (Node F)) (start base sections : Sections)
      (h : collectSections e enter data nodes (fun name => (start name).or (base name)) = .ok sections) : ∃ own,
        collectSections e enter data nodes start = .ok own ∧ (sections = fun name => (own name).or (base name)) ∧
          ∀ name, (own name).isSome = true ↔ (start name).isSome = true ∨ ∃ body, .sectionBlock name body ∈ nodes := by
    induction nodes generalizing start sections with
    | nil =>
      rw [collectSections] at h
      cases h
      exact ⟨start,by rw [collectSections],rfl,by simp⟩
    | cons node rest ih =>
      by_cases hsection : ∃ name body, node = .sectionBlock name body
      · obtain ⟨name,body,rfl⟩ := hsection
        rw [collectSections] at h
        obtain ⟨rendered,hrendered,h⟩ := bind_eq_ok.mp h
        have hupdate : Function.update (fun other => (start other).or (base other)) name (some rendered) =
            fun other => (Function.update start name (some rendered) other).or (base other) := by
          funext other
          by_cases hother : other = name
          · subst hother
            simp
          · simp [hother]
        rw [hupdate] at h
        obtain ⟨own,hown,hsections,hdefined⟩ := ih _ _ h
        refine ⟨own,?_,hsections,fun other => ?_⟩
        · rw [collectSections]
          exact bind_eq_ok.mpr ⟨rendered,hrendered,hown⟩
        · rw [hdefined]
          by_cases hother : other = name
          · subst hother
            simp
          · simp [hother]
      · have hskip (s : Sections) : collectSections e enter data (node :: rest) s = collectSections e enter data rest s := by
          rw [collectSections]
          exact fun name body heq => hsection ⟨name,body,heq⟩
        rw [hskip] at h
        obtain ⟨own,hown,hsections,hdefined⟩ := ih _ _ h
        refine ⟨own,by rw [hskip,hown],hsections,fun other => ?_⟩
        have hnot (body : List (Node F)) : .sectionBlock other body ≠ node := fun heq => hsection ⟨other,body,heq.symm⟩
        simp [hdefined,hnot]
  obtain ⟨own,hown,hsections,hdefined⟩ := hover nodes (fun _ => none) base sections (by simpa using h)
  exact ⟨own,hown,hsections,fun name => by simp [hdefined]⟩

end Congruence

/-! ## One layout -/

section Layout
variable {e : Engine F}

/-- The layout yields no section that it is the only one to define. -/
def LayoutOpen (chain : List (String × Template F)) : Prop :=
  ∀ layout ∈ chain.getLast?, ∀ node ∈ layout.2.nodes,
    YieldsIn (fun name => (∃ child ∈ chain.dropLast, child.2.Defines name) ∨ ¬ layout.2.Defines name) node

/-- What the renderer does with the first template of a chain. -/
theorem render_chain {first second : String × Template F} {rest : List (String × Template F)}
    (h : Chain e (first :: second :: rest)) (data : Json) : render e first.1 data = (do
      let sections ← collectSections e (renderNamed e (maxDepth - 1)) data first.2.nodes (fun _ => none)
      renderNodes e (renderNamed e (maxDepth - 1)) second.2.nodes data sections "") := by
  have hsecond : e.load second.1 = .ok second.2 := by
    cases h with
    | extend hload hlayout hnext h =>
      cases h with
      | outermost hload hnone => exact hload
      | extend hload hlayout hnext h => exact hload
  cases h with
  | extend hload hlayout hnext h =>
    subst hnext
    have hroom : maxDepth = maxDepth - 1 + 1 := rfl
    rw [render,hroom,renderNamed,hload]
    simp only [bind,Except.bind,hlayout,hsecond]
    rfl

/-- One template and its layout render as they should. -/
theorem rendersOutermost_pair {child layout : String × Template F} (h : Chain e [child,layout]) (hopen : LayoutOpen [child,layout])
    (data : Json) : RendersOutermost e [child,layout] data := by
  intro first hfirst last hlast sections hsections
  cases hfirst
  cases hlast
  rw [chainSections,chainSections,chainSections] at hsections
  obtain ⟨outer,houter,hsections⟩ := bind_eq_ok.mp hsections
  obtain ⟨own,hown,rfl,hdefined⟩ := collectSections_or hsections
  obtain ⟨base,hbase,hlayout⟩ := bind_eq_ok.mp houter
  cases hbase
  obtain ⟨theirs,htheirs,houter,hdefines⟩ := collectSections_or hlayout
  rw [render_chain h data,hown]
  -- a section that is yielded is the child's, or nobody's
  refine blind_nodes (fun node hnode => blind_node ?_ (hopen layout rfl node hnode)) data ""
  intro name hname
  rcases hname with ⟨template,htemplate,hdef⟩ | hnot
  · rw [List.mem_singleton.mp htemplate] at hdef
    obtain ⟨content,hcontent⟩ := Option.isSome_iff_exists.mp ((hdefined name).mpr hdef)
    rw [hcontent]
    rfl
  · have hnone : theirs name = none := by
      rw [← Option.not_isSome_iff_eq_none,hdefines]
      exact hnot
    rw [houter]
    simp [hnone]

end Layout

/-! ## Longer chains -/

section Ladder

def rungName (i : ℕ) : String := String.ofList (List.replicate i 'a')

/-- One of so many templates, each extending the next. -/
def rung (n i : ℕ) : Template Unit :=
  if i < n then ⟨some (rungName (i + 1)),[.text "inner"]⟩ else ⟨none,[.text "outer"]⟩

def ladder (n : ℕ) : Engine Unit where
  floats := ⟨fun _ => none,fun _ => none,fun _ => true,fun _ _ => none,fun _ _ => true,fun _ => ""⟩
  load name := .ok (rung n name.toList.length)
  vite := none

def rungs (n i : ℕ) : ℕ → List (String × Template Unit)
  | 0 => [(rungName i,rung n i)]
  | more + 1 => (rungName i,rung n i) :: rungs n (i + 1) more

theorem unquote_rungName (i : ℕ) : unquote (rungName (i + 1)) = rungName (i + 1) := by
  have hmem (c : Char) (hc : c ∈ (rungName (i + 1)).toList) : c = 'a' := by
    rw [rungName,String.toList_ofList] at hc
    exact List.eq_of_mem_replicate hc
  have htrim : Text.trim (rungName (i + 1)) = rungName (i + 1) := by
    refine Text.trim_eq_self (fun c hc => ?_) fun c hc => ?_
    · rw [hmem c (List.mem_of_mem_head? hc)]
      rfl
    · rw [hmem c (List.mem_of_mem_getLast? hc)]
      rfl
  have hquoted (q : Char) (hq : 'a' ≠ q) : quoted q (rungName (i + 1)) = none := by
    rw [quoted,rungName,String.toList_ofList,List.replicate_succ]
    simp [hq]
  rw [unquote,htrim,hquoted _ (by decide),hquoted _ (by decide)]
  rfl

theorem load_ladder (n i : ℕ) : (ladder n).load (rungName i) = .ok (rung n i) := by
  simp [ladder,rungName]

theorem chain_ladder {n i more : ℕ} (h : i + more = n) : Chain (ladder n) (rungs n i more) := by
  induction more generalizing i with
  | zero => exact .outermost (load_ladder n i) (by rw [rung,if_neg (by omega)])
  | succ more ih =>
    have hextends : (rung n i).extends' = some (rungName (i + 1)) := by rw [rung,if_pos (by omega)]
    have hrest := ih (i := i + 1) (by omega)
    cases more with
    | zero => exact .extend (load_ladder n i) hextends (unquote_rungName i) hrest
    | succ more => exact .extend (load_ladder n i) hextends (unquote_rungName i) hrest

theorem rungs_length (n i more : ℕ) : (rungs n i more).length = more + 1 := by
  induction more generalizing i with
  | zero => rfl
  | succ more ih => rw [rungs,List.length_cons,ih]

theorem rungs_names (n i more : ℕ) : (rungs n i more).map Prod.fst = (List.range' i (more + 1)).map rungName := by
  induction more generalizing i with
  | zero => rfl
  | succ more ih => simp only [rungs,List.map_cons,ih,List.range'_succ]

theorem rungs_last {n i more : ℕ} (h : i + more = n) : (rungs n i more).getLast? = some (rungName n,⟨none,[.text "outer"]⟩) := by
  induction more generalizing i with
  | zero =>
    rw [rungs,List.getLast?_singleton,rung,if_neg (by omega),show i = n by omega]
  | succ more ih =>
    rw [rungs,List.getLast?_cons,ih (by omega)]
    rfl

theorem rungName_injective : Function.Injective rungName := by
  intro i j h
  have hlength := congrArg (fun s : String => s.toList.length) h
  simpa [rungName] using hlength

/-- No rung has a section. -/
theorem chainSections_rungs (n i more : ℕ) (enter : String → Json → Except Error String) (data : Json) :
    chainSections (ladder n) enter data (rungs n i more) = .ok fun _ => none := by
  have hown (i : ℕ) (s : Sections) : collectSections (ladder n) enter data (rung n i).nodes s = .ok s := by
    rw [rung]
    split <;> rfl
  induction more generalizing i with
  | zero =>
    rw [rungs,chainSections,chainSections]
    exact hown i _
  | succ more ih =>
    rw [rungs,chainSections,ih]
    exact hown i _

end Ladder

/-- A page, a section layout and a site layout: the site layout is left out. -/
def siteEngine : Engine Unit where
  floats := ⟨fun _ => none,fun _ => none,fun _ => true,fun _ _ => none,fun _ _ => true,fun _ => ""⟩
  load name :=
    if name = "page" then .ok ⟨some "'docs'",[.sectionBlock "body" [.text "hello"]]⟩
    else if name = "docs" then .ok ⟨some "'site'",[.sectionBlock "title" [.text "Docs"],.yieldSection "body"]⟩
    else .ok ⟨none,[.yieldSection "title",.text ": ",.yieldSection "body"]⟩
  vite := none

end Rainier.View
