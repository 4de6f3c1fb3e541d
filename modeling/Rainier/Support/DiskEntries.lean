import Mathlib.Data.List.Nodup
import Rainier.Support.Disk

/-! # One entry of a disk

What there is after one file has been written, removed or moved: everything else as it was, and the
paths to directories still lead there.
-/
namespace Rainier.Disk

/-- No location has two nodes. -/
def Distinct (d : Disk) : Prop := (d.map Prod.fst).Nodup

variable {d d' : Disk} {loc source target dir : Location} {n : String} {node : Node} {contents : List UInt8}

theorem mem_of_node (h : d.node loc = some node) : (loc,node) ∈ d := by
  obtain ⟨entry,hfind,rfl⟩ := Option.map_eq_some_iff.1 h
  have hloc : entry.1 = loc := by simpa using List.find?_some hfind
  rw [← hloc]
  exact List.mem_of_find?_eq_some hfind

theorem node_eq_some_iff (hd : d.Distinct) : d.node loc = some node ↔ (loc,node) ∈ d := by
  refine ⟨mem_of_node,fun hmem => ?_⟩
  cases hfind : d.find? (·.1 = loc) with
  | none => exact absurd (List.find?_eq_none.1 hfind _ hmem) (by simp)
  | some entry =>
    have hloc : entry.1 = loc := by simpa using List.find?_some hfind
    have hsame := List.inj_on_of_nodup_map hd (List.mem_of_find?_eq_some hfind) hmem hloc
    rw [Disk.node,hfind,hsame]
    rfl

theorem node_erase (d : Disk) (loc loc' : Location) : (d.erase loc).node loc' = if loc' = loc then none else d.node loc' := by
  rw [Disk.node,Disk.erase,List.find?_filter]
  by_cases h : loc' = loc
  · subst h
    simp
  · rw [if_neg h,Disk.node]
    congr 2
    funext entry
    by_cases hentry : entry.1 = loc' <;> simp [hentry,h]

theorem Distinct.erase (h : d.Distinct) (loc : Location) : (d.erase loc).Distinct :=
  h.sublist (List.filter_sublist.map Prod.fst)

theorem Distinct.set (h : d.Distinct) (loc : Location) (node : Node) : (d.set loc node).Distinct := by
  refine List.nodup_cons.2 ⟨fun hmem => ?_,h.erase loc⟩
  obtain ⟨entry,hentry,heq⟩ := List.mem_map.1 hmem
  exact of_decide_eq_true (List.mem_filter.1 hentry).2 heq

theorem Distinct.withDirs (h : d.Distinct) (locs : List Location) : (d.withDirs locs).Distinct := by
  induction locs generalizing d with
  | nil => exact h
  | cons loc locs ih => exact ih (h.set loc .dir)

theorem mem_children_iff : n ∈ d.children loc ↔ d.node (loc ++ [n]) ≠ none := by
  rw [children,List.mem_filterMap]
  constructor
  · rintro ⟨entry,hentry,hn⟩
    split_ifs at hn with hdrop
    have hloc : entry.1 = loc ++ [n] := by
      rw [← hdrop]
      exact (List.dropLast_append_getLast? n hn).symm
    intro hnone
    rw [Disk.node,Option.map_eq_none_iff,List.find?_eq_none] at hnone
    exact hnone entry hentry (by simpa using hloc)
  · intro hnode
    obtain ⟨node,hnode⟩ := Option.ne_none_iff_exists'.1 hnode
    exact ⟨_,mem_of_node hnode,by simp⟩

theorem Distinct.children (h : d.Distinct) (loc : Location) : (d.children loc).Nodup := by
  induction d with
  | nil => exact List.nodup_nil
  | cons entry d ih =>
    obtain ⟨hnot,hrest⟩ := List.nodup_cons.1 h
    have hchildren : Disk.children (entry :: d) loc =
        (if entry.1.dropLast = loc then entry.1.getLast? else none).toList ++ Disk.children d loc := by
      rw [Disk.children,List.filterMap_cons]
      cases (if entry.1.dropLast = loc then entry.1.getLast? else none) <;> rfl
    rw [hchildren]
    cases hlast : (if entry.1.dropLast = loc then entry.1.getLast? else none) with
    | none => exact ih hrest
    | some name =>
      split_ifs at hlast with hdrop
      rw [Option.toList_some,List.singleton_append]
      refine List.nodup_cons.2 ⟨fun hmem => ?_,ih hrest⟩
      rw [mem_children_iff] at hmem
      obtain ⟨node,hnode⟩ := Option.ne_none_iff_exists'.1 hmem
      rw [← hdrop,List.dropLast_append_getLast? name hlast] at hnode
      exact hnot (List.mem_map.2 ⟨_,mem_of_node hnode,rfl⟩)

/-- Beneath what is no directory there is nothing. -/
theorem Closed.beneath (hd : d.Closed) (h : d.node loc ≠ some .dir) (n : String) (rest : List String) : d.node (loc ++ n :: rest) = none := by
  have hfirst : d.node (loc ++ [n]) = none := by
    by_contra hsome
    exact h (hd.parent loc n hsome)
  exact node_beneath hd hfirst rest

theorem Closed.eq_of_prefix (hd : d.Closed) (h : d.node loc ≠ some .dir) {loc' : Location} (hpre : loc <+: loc') (hnode : d.node loc' ≠ none) :
    loc' = loc := by
  obtain ⟨rest,rfl⟩ := hpre
  cases rest with
  | nil => exact List.append_nil loc
  | cons n rest => exact absurd (hd.beneath h n rest) hnode

/-! ## A file that is moved -/

theorem prefix_iff_of_mem (hd : d.Closed) (hdistinct : d.Distinct) (h : d.node loc ≠ some .dir) {entry : Location × Node} (hentry : entry ∈ d) :
    loc <+: entry.1 ↔ entry.1 = loc := by
  constructor
  · intro hpre
    refine hd.eq_of_prefix h hpre ?_
    rw [(node_eq_some_iff hdistinct).2 hentry]
    exact Option.some_ne_none _
  · intro heq
    rw [heq]

theorem mem_move_iff (hd : d.Closed) (hdistinct : d.Distinct) (hsource : d.node source ≠ some .dir) (htarget : d.node target ≠ some .dir)
    (hne : source ≠ target) {entry : Location × Node} :
    entry ∈ d.move source target ↔ entry.1 = target ∧ (source,entry.2) ∈ d ∨ entry.1 ≠ target ∧ entry.1 ≠ source ∧ entry ∈ d := by
  have honly : ∀ e ∈ d, ∀ loc, d.node loc ≠ some .dir → (loc <+: e.1 ↔ e.1 = loc) :=
    fun e he loc hloc => prefix_iff_of_mem hd hdistinct hloc he
  rw [move,if_neg hne,List.mem_map]
  constructor
  · rintro ⟨e,he,rfl⟩
    obtain ⟨he,hnot⟩ := List.mem_filter.1 he
    have hnot' : e.1 ≠ target := by
      intro heq
      have hself : target.isPrefixOf target = true := List.isPrefixOf_iff_prefix.2 List.prefix_rfl
      simp [heq,hself] at hnot
    by_cases hself : e.1 = source
    · left
      have hpre : source.isPrefixOf e.1 = true := by simp [hself]
      rw [if_pos hpre]
      refine ⟨?_,?_⟩
      · simp [hself]
      · rw [← hself]
        exact he
    · right
      have hpre : ¬source.isPrefixOf e.1 = true := by
        rw [List.isPrefixOf_iff_prefix,honly e he source hsource]
        exact hself
      rw [if_neg hpre]
      exact ⟨hnot',hself,he⟩
  · rintro (⟨htop,he⟩ | ⟨hnot,hself,he⟩)
    · refine ⟨(source,entry.2),List.mem_filter.2 ⟨he,?_⟩,?_⟩
      · have hpre : ¬target <+: source := by
          rw [honly _ he target htarget]
          exact hne
        simpa [← List.isPrefixOf_iff_prefix] using hpre
      · rw [if_pos (by simp)]
        refine Prod.ext ?_ rfl
        simp [htop]
    · refine ⟨entry,List.mem_filter.2 ⟨he,?_⟩,?_⟩
      · have hpre : ¬target <+: entry.1 := by
          rw [honly _ he target htarget]
          exact hnot
        simpa [← List.isPrefixOf_iff_prefix] using hpre
      · rw [if_neg]
        rw [List.isPrefixOf_iff_prefix,honly _ he source hsource]
        exact hself

theorem Distinct.move (hdistinct : d.Distinct) (hd : d.Closed) (hsource : d.node source ≠ some .dir) (hne : source ≠ target) : (d.move source target).Distinct := by
  have honly : ∀ e ∈ d, ∀ loc, d.node loc ≠ some .dir → (loc <+: e.1 ↔ e.1 = loc) :=
    fun e he loc hloc => prefix_iff_of_mem hd hdistinct hloc he
  have hself : target.isPrefixOf target = true := List.isPrefixOf_iff_prefix.2 List.prefix_rfl
  -- the new location of an entry
  have hmoved : ∀ e ∈ d.filter fun entry => !target.isPrefixOf entry.1,
      e.1 = source ∧ (if source.isPrefixOf e.1 then (target ++ e.1.drop source.length,e.2) else e).1 = target ∨
        e.1 ≠ source ∧ (if source.isPrefixOf e.1 then (target ++ e.1.drop source.length,e.2) else e).1 = e.1 ∧ e.1 ≠ target := by
    intro e he
    obtain ⟨he,hnot⟩ := List.mem_filter.1 he
    by_cases hsame : e.1 = source
    · refine .inl ⟨hsame,?_⟩
      rw [if_pos (List.isPrefixOf_iff_prefix.2 (hsame ▸ List.prefix_rfl))]
      simp [hsame]
    · refine .inr ⟨hsame,?_,?_⟩
      · rw [if_neg]
        rw [List.isPrefixOf_iff_prefix,honly e he source hsource]
        exact hsame
      · intro heq
        simp [heq,hself] at hnot
  rw [Distinct,Disk.move,if_neg hne,List.map_map]
  refine List.Nodup.map_on ?_ (hdistinct.of_map.filter _)
  intro x hx y hy heq
  have hlocs : x.1 = y.1 := by
    obtain ⟨hx1,hxloc⟩ | ⟨-,hxloc,hxnot⟩ := hmoved x hx
    · obtain ⟨hy1,-⟩ | ⟨-,hyloc,hynot⟩ := hmoved y hy
      · rw [hx1,hy1]
      · exact absurd (hyloc.symm.trans (heq.symm.trans hxloc)) hynot
    · obtain ⟨-,hyloc⟩ | ⟨-,hyloc,-⟩ := hmoved y hy
      · exact absurd (hxloc.symm.trans (heq.trans hyloc)) hxnot
      · exact hxloc.symm.trans (heq.trans hyloc)
  exact List.inj_on_of_nodup_map hdistinct (List.mem_of_mem_filter hx) (List.mem_of_mem_filter hy) hlocs

theorem node_move (hd : d.Closed) (hdistinct : d.Distinct) (hsource : d.node source ≠ some .dir) (htarget : d.node target ≠ some .dir)
    (hne : source ≠ target) (loc : Location) :
    (d.move source target).node loc = if loc = target then d.node source else if loc = source then none else d.node loc := by
  apply Option.ext
  intro node
  rw [node_eq_some_iff (hdistinct.move hd hsource hne),mem_move_iff hd hdistinct hsource htarget hne]
  split_ifs with htop hself
  · rw [node_eq_some_iff hdistinct]
    simp [htop]
  · simp [hself,hne]
  · rw [node_eq_some_iff hdistinct]
    simp [htop,hself]

/-! ## Directories that are kept -/

/-- The directories and the links are as they were, wherever there was one. -/
structure KeepsDirs (d d' : Disk) : Prop where
  dir : ∀ loc, d.node loc = some .dir → d'.node loc = some .dir
  link : ∀ loc absolute target, d.node loc = some (.link absolute target) → d'.node loc = some (.link absolute target)

theorem walkWith_keepsDirs (hkeep : d.KeepsDirs d') {left : ℕ} {follow follow' : Location → List Component → Walked}
    (hfollow : ∀ loc cs loc' left', d.node loc' = some .dir → follow loc cs = .found loc' left' → follow' loc cs = .found loc' left')
    (cs : List Component) (loc : Location) {loc' : Location} {left' : ℕ} (hdir : d.node loc' = some .dir)
    (h : walkWith d left follow loc cs = .found loc' left') : walkWith d' left follow' loc cs = .found loc' left' := by
  induction cs generalizing loc with
  | nil => exact h
  | cons c cs ih =>
    cases c with
    | up => exact ih loc.dropLast h
    | name n =>
      rw [walkWith] at h ⊢
      cases hnode : d.node (loc ++ [n]) with
      | none =>
        rw [hnode] at h
        simp only at h
        split_ifs at h
      | some node =>
        rw [hnode] at h
        cases node with
        | dir =>
          rw [hkeep.dir _ hnode]
          exact ih (loc ++ [n]) h
        | file contents =>
          simp only at h
          split_ifs at h
          cases h
          rw [hnode] at hdir
          cases hdir
        | link absolute target =>
          rw [hkeep.link _ _ _ hnode]
          exact hfollow _ _ _ _ hdir h

theorem walk_keepsDirs (hkeep : d.KeepsDirs d') {left : ℕ} {cs : List Component} {loc loc' : Location} {left' : ℕ}
    (hdir : d.node loc' = some .dir) (h : d.walk left loc cs = .found loc' left') : d'.walk left loc cs = .found loc' left' := by
  induction left generalizing loc cs loc' left' with
  | zero => exact walkWith_keepsDirs hkeep (fun _ _ _ _ _ h => by cases h) cs loc hdir h
  | succ left ih => exact walkWith_keepsDirs hkeep (fun _ _ _ _ hdir h => ih hdir h) cs loc hdir h

theorem directory_keepsDirs (hkeep : d.KeepsDirs d') {path : List Component} (h : d.directory path = .ok loc) : d'.directory path = .ok loc := by
  obtain ⟨⟨left,hwalk⟩,hdir⟩ := directory_eq_ok.1 h
  exact directory_eq_ok.2 ⟨⟨left,walk_keepsDirs hkeep hdir hwalk⟩,hkeep.dir loc hdir⟩

end Rainier.Disk
