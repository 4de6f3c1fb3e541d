import Rainier.View.Engine

/-! # Nothing in the data gets out of its place

A template is safe when its text holds none of `<`, `>` and the two quotes, it has
no raw echo and asks for no assets. Whatever the data, what safe templates render
is as clean as their text: data reaches the output through the escape alone, and
what a section or an include contributes has been rendered the same way.
-/
namespace Rainier.View
open Rainier

/-- None of the four characters that open a tag or an attribute. -/
def Clean (s : String) : Prop := ∀ c ∈ s.toList, c ≠ '<' ∧ c ≠ '>' ∧ c ≠ '"' ∧ c ≠ '\''

inductive SafeNode {F : Type} : Node F → Prop where
  | text (s : String) (h : Clean s) : SafeNode (.text s)
  | echo (expr : Expr) : SafeNode (.echo expr false)
  | ifBlock (branches : List (Condition F × List (Node F))) (otherwise : Option (List (Node F)))
    (hbranches : ∀ b ∈ branches, ∀ node ∈ b.2, SafeNode node)
    (hotherwise : ∀ body, otherwise = some body → ∀ node ∈ body, SafeNode node) :
    SafeNode (.ifBlock branches otherwise)
  | foreachBlock (collection : Expr) (key : Option String) (value : String) (body : List (Node F))
    (h : ∀ node ∈ body, SafeNode node) : SafeNode (.foreachBlock collection key value body)
  | includeView (name : String) : SafeNode (.includeView name)
  | yieldSection (name : String) : SafeNode (.yieldSection name)
  | sectionBlock (name : String) (body : List (Node F)) (h : ∀ node ∈ body, SafeNode node) :
    SafeNode (.sectionBlock name body)

/-- Every template the engine can load is made of safe nodes. -/
def Safe {F : Type} (e : Engine F) : Prop :=
  ∀ name template, e.load name = .ok template → ∀ node ∈ template.nodes, SafeNode node

theorem clean_empty : Clean "" := nofun

theorem Clean.append {s t : String} (hs : Clean s) (ht : Clean t) : Clean (s ++ t) := by
  intro c hc
  rw [String.toList_append] at hc
  rcases List.mem_append.mp hc with hc | hc
  · exact hs c hc
  · exact ht c hc

/-- The escape leaves none of the four characters. -/
theorem clean_escapeHtml (value : String) : Clean (escapeHtml value) := by
  intro c hc
  rw [escapeHtml,String.toList_ofList] at hc
  obtain ⟨d,_,hd⟩ := List.mem_flatMap.mp hc
  unfold escapeChar at hd
  have hentity : ∀ entity : String, entity.toList.all (fun c => c ≠ '<' ∧ c ≠ '>' ∧ c ≠ '"' ∧ c ≠ '\'') = true →
      c ∈ entity.toList → c ≠ '<' ∧ c ≠ '>' ∧ c ≠ '"' ∧ c ≠ '\'' := by
    intro entity hall hc
    simpa using List.all_eq_true.mp hall c hc
  split_ifs at hd with hamp hlt hgt hquot hapos
  · exact hentity _ (by decide) hd
  · exact hentity _ (by decide) hd
  · exact hentity _ (by decide) hd
  · exact hentity _ (by decide) hd
  · exact hentity _ (by decide) hd
  · rw [List.mem_singleton.mp hd]
    exact ⟨hlt,hgt,hquot,hapos⟩

variable {F : Type} {e : Engine F} {enter : String → Json → Except Error String}

def CleanSections (sections : Sections) : Prop := ∀ name content, sections name = some content → Clean content

theorem cleanSections_none : CleanSections fun _ => none := by
  intro name content h
  cases h

/-- A piece of the renderer that keeps the output clean. -/
def Keeps (r : Json → Sections → String → Except Error String) : Prop :=
  ∀ data sections out out', CleanSections sections → Clean out → r data sections out = .ok out' → Clean out'

theorem keeps_nodes {nodes : List (Node F)} (h : ∀ node ∈ nodes, Keeps (renderNode e enter node)) :
    Keeps (renderNodes e enter nodes) := by
  induction nodes with
  | nil =>
    intro data sections out out' _ hout hr
    rw [renderNodes] at hr
    cases hr
    exact hout
  | cons node rest ih =>
    intro data sections out out' hsections hout hr
    rw [renderNodes,bind_eq_ok] at hr
    obtain ⟨mid,hmid,hr⟩ := hr
    have hclean := h node List.mem_cons_self data sections out mid hsections hout hmid
    exact ih (fun n hn => h n (List.mem_cons_of_mem node hn)) data sections mid out' hsections hclean hr

theorem keeps_branches {branches : List (Condition F × List (Node F))} {data : Json} {sections : Sections}
    {out out' : String} (h : ∀ b ∈ branches, Keeps (renderNodes e enter b.2))
    (hsections : CleanSections sections) (hout : Clean out)
    (hr : renderBranches e enter branches data sections out = some (.ok out')) : Clean out' := by
  induction branches with
  | nil =>
    rw [renderBranches] at hr
    cases hr
  | cons b rest ih =>
    obtain ⟨condition,body⟩ := b
    rw [renderBranches] at hr
    split at hr
    · exact h _ List.mem_cons_self data sections out out' hsections hout (Option.some.inj hr)
    · exact ih (fun b hb => h b (List.mem_cons_of_mem _ hb)) hr

/-- A loop keeps what its body keeps. -/
theorem keeps_foldlM {items : List (Json × Json)} {f : String → Json × Json → Except Error String} {out out' : String}
    (h : ∀ pair out out', Clean out → f out pair = .ok out' → Clean out') (hout : Clean out)
    (hr : items.foldlM f out = .ok out') : Clean out' := by
  induction items generalizing out with
  | nil =>
    cases hr
    exact hout
  | cons pair rest ih =>
    rw [List.foldlM_cons,bind_eq_ok] at hr
    obtain ⟨mid,hmid,hr⟩ := hr
    exact ih (h pair out mid hout hmid) hr

theorem keeps_node (henter : ∀ name data out, enter name data = .ok out → Clean out) {node : Node F}
    (h : SafeNode node) : Keeps (renderNode e enter node) := by
  induction h with
  | text s h =>
    intro data sections out out' _ hout hr
    rw [renderNode] at hr
    cases hr
    exact hout.append h
  | echo expr =>
    intro data sections out out' _ hout hr
    rw [renderNode] at hr
    cases hr
    exact hout.append (clean_escapeHtml _)
  | ifBlock branches otherwise _ _ ihbranches ihotherwise =>
    intro data sections out out' hsections hout hr
    rw [renderNode] at hr
    split at hr
    · next taken htaken =>
      subst hr
      exact keeps_branches (fun b hb => keeps_nodes (ihbranches b hb)) hsections hout htaken
    · cases otherwise with
      | none =>
        rw [renderOtherwise] at hr
        cases hr
        exact hout
      | some body =>
        rw [renderOtherwise] at hr
        exact keeps_nodes (ihotherwise body rfl) data sections out out' hsections hout hr
  | foreachBlock collection key value body _ ih =>
    intro data sections out out' hsections hout hr
    rw [renderNode] at hr
    exact keeps_foldlM (fun pair out out' hout hr => keeps_nodes ih _ sections out out' hsections hout hr) hout hr
  | includeView name =>
    intro data sections out out' _ hout hr
    rw [renderNode,bind_eq_ok] at hr
    obtain ⟨rendered,hrendered,hr⟩ := hr
    cases hr
    exact hout.append (henter name data rendered hrendered)
  | yieldSection name =>
    intro data sections out out' hsections hout hr
    rw [renderNode] at hr
    cases hr
    refine hout.append ?_
    cases hs : sections name with
    | none => exact clean_empty
    | some content => exact hsections name content hs
  | sectionBlock name body _ ih =>
    intro data sections out out' hsections hout hr
    rw [renderNode] at hr
    exact keeps_nodes ih data sections out out' hsections hout hr

/-- The sections a child gives its layout are clean. -/
theorem clean_collectSections (henter : ∀ name data out, enter name data = .ok out → Clean out) {data : Json}
    {nodes : List (Node F)} (h : ∀ node ∈ nodes, SafeNode node) {sections sections' : Sections}
    (hsections : CleanSections sections) (hr : collectSections e enter data nodes sections = .ok sections') :
    CleanSections sections' := by
  induction nodes generalizing sections with
  | nil =>
    rw [collectSections] at hr
    cases hr
    exact hsections
  | cons node rest ih =>
    have hrest := fun n hn => h n (List.mem_cons_of_mem node hn)
    by_cases hsection : ∃ name body, node = .sectionBlock name body
    · obtain ⟨name,body,rfl⟩ := hsection
      rw [collectSections,bind_eq_ok] at hr
      obtain ⟨rendered,hrendered,hr⟩ := hr
      have hbody : ∀ node ∈ body, SafeNode node := by
        cases h _ List.mem_cons_self with
        | sectionBlock _ _ hbody => exact hbody
      have hclean : Clean rendered := keeps_nodes (fun n hn => keeps_node henter (hbody n hn)) data _ ""
        rendered cleanSections_none clean_empty hrendered
      refine ih hrest (fun other content hcontent => ?_) hr
      by_cases hother : other = name
      · subst hother
        rw [Function.update_self] at hcontent
        cases hcontent
        exact hclean
      · rw [Function.update_of_ne hother] at hcontent
        exact hsections other content hcontent
    · rw [collectSections] at hr
      · exact ih hrest hsections hr
      · exact fun name body heq => hsection ⟨name,body,heq⟩

theorem clean_renderNamed (hsafe : Safe e) (room : ℕ) (name : String) (data : Json) (out : String)
    (hr : renderNamed e room name data = .ok out) : Clean out := by
  induction room generalizing name data out with
  | zero => cases hr
  | succ room ih =>
    have hnodes : ∀ {other template sections}, e.load other = .ok template →
        CleanSections sections →
        renderNodes e (renderNamed e room) template.nodes data sections "" = .ok out → Clean out := by
      intro other template sections hload hsections hr
      have hkeeps : Keeps (renderNodes e (renderNamed e room) template.nodes) :=
        keeps_nodes fun n hn => keeps_node ih (hsafe other template hload n hn)
      exact hkeeps data sections "" out hsections clean_empty hr
    rw [renderNamed,bind_eq_ok] at hr
    obtain ⟨template,hload,hr⟩ := hr
    split at hr
    · next layout _ =>
      rw [bind_eq_ok] at hr
      obtain ⟨sections,hsections,hr⟩ := hr
      rw [bind_eq_ok] at hr
      obtain ⟨parent,hparent,hr⟩ := hr
      exact hnodes hparent (clean_collectSections ih (hsafe name template hload) cleanSections_none hsections) hr
    · exact hnodes hload cleanSections_none hr

/-- Whatever the data, what safe templates render holds none of the four characters. -/
theorem render_clean {F : Type} (e : Engine F) (name : String) (data : Json) (out : String) (hsafe : Safe e)
    (hr : render e name data = .ok out) : Clean out :=
  clean_renderNamed hsafe maxDepth name data out hr

/-- Two templates: a page that gives its layout a section, and the layout. -/
def sampleEngine : Engine Unit where
  floats := ⟨fun _ => some (),fun _ => none,fun _ => true,fun _ _ => some .eq,fun _ _ => true,fun _ => "0.5"⟩
  load name :=
    if name = "page" then .ok ⟨some "'layout'",[.sectionBlock "main" [.foreachBlock ⟨["tags"]⟩ none "tag"
      [.text "* ",.echo ⟨["tag"]⟩ false]]]⟩
    else if name = "layout" then .ok ⟨none,[.text "[",.yieldSection "main",.text "]"]⟩
    else .error (.internal ("view `" ++ name ++ "` not found"))
  vite := none

def sampleData : Json := .object [("tags",.array [.string "<b>",.string "it's"])]

theorem safe_sampleEngine : Safe sampleEngine := by
  have hclean : ∀ s : String, s.toList.all (fun c => c ≠ '<' ∧ c ≠ '>' ∧ c ≠ '"' ∧ c ≠ '\'') = true → Clean s := by
    intro s hs c hc
    simpa using List.all_eq_true.mp hs c hc
  intro name template hload node hnode
  simp only [sampleEngine] at hload
  split_ifs at hload
  · cases hload
    rw [List.mem_singleton.mp hnode]
    refine .sectionBlock _ _ fun n hn => ?_
    rw [List.mem_singleton.mp hn]
    refine .foreachBlock _ _ _ _ fun n hn => ?_
    rcases List.mem_cons.mp hn with rfl | hn
    · exact .text _ (hclean _ (by decide))
    · rw [List.mem_singleton.mp hn]
      exact .echo _
  · cases hload
    rcases List.mem_cons.mp hnode with rfl | hnode
    · exact .text _ (hclean _ (by decide))
    rcases List.mem_cons.mp hnode with rfl | hnode
    · exact .yieldSection _
    · rw [List.mem_singleton.mp hnode]
      exact .text _ (hclean _ (by decide))

theorem render_clean_example :
    render sampleEngine "page" sampleData = .ok "[* &lt;b&gt;* it&#39;s]" ∧ Clean "[* &lt;b&gt;* it&#39;s]" := by
  have h : render sampleEngine "page" sampleData = .ok "[* &lt;b&gt;* it&#39;s]" := by rfl
  exact ⟨h,render_clean sampleEngine "page" sampleData _ safe_sampleEngine h⟩

end Rainier.View
