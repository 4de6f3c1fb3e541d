import Mathlib.Data.List.Pairwise
import Rainier.Filesystem.Memory

/-! # Listings of a disk in memory

The files are kept in one map. What is listed under a prefix, and the directories that are, are drawn
from its paths.
-/
namespace Rainier.Filesystem

/-- The map, with every path in it once. -/
structure MemoryDisk where
  entries : List (String × List UInt8)
  distinct : (entries.map Prod.fst).Nodup

/-- The part of a path after a prefix. -/
def stripPrefix (path pre : String) : Option String :=
  if pre = "" then some path else (Text.stripPrefix pre path).bind (Text.stripPrefix "/")

/-- `Vec::dedup`: of neighbours that are equal one stays. -/
def dedup : List String → List String
  | [] => []
  | [s] => [s]
  | s :: t :: rest => if s = t then dedup (t :: rest) else s :: dedup (t :: rest)

/-- The calls that both disks have an implementation of their own for. -/
inductive Request where
  | get (path : String)
  | put (path : String) (contents : List UInt8)
  | exists_ (path : String)
  | delete (path : String)
  | list (given : String)
  | directories (given : String)
  deriving DecidableEq, Repr

def Request.call : Request → Call
  | .get path => .get path
  | .put path contents => .put path contents
  | .exists_ path => .exists_ path
  | .delete path => .delete path
  | .list given => .list given
  | .directories given => .directories given

namespace MemoryDisk

variable (m : MemoryDisk)

def empty : MemoryDisk := ⟨[],List.nodup_nil⟩

/-- What is stored under each path. -/
def files : MemoryFilesystem := fun path => (m.entries.find? (·.1 = path)).map (·.2)

def remove (path : String) : MemoryDisk where
  entries := m.entries.filter (·.1 ≠ path)
  distinct := m.distinct.sublist (List.filter_sublist.map Prod.fst)

def insert (path : String) (contents : List UInt8) : MemoryDisk where
  entries := (path,contents) :: m.entries.filter (·.1 ≠ path)
  distinct := by
    refine List.nodup_cons.2 ⟨?_,(m.remove path).distinct⟩
    intro hmem
    obtain ⟨entry,hentry,heq⟩ := List.mem_map.1 hmem
    exact of_decide_eq_true (List.mem_filter.1 hentry).2 heq

def put (path : String) (contents : List UInt8) : Except Error Unit × MemoryDisk :=
  match normalised path with
  | .error e => (.error e,m)
  | .ok path => (.ok (),m.insert path contents)

def delete (path : String) : Except Error Bool × MemoryDisk :=
  match normalised path with
  | .error e => (.error e,m)
  | .ok path => (.ok (m.files path).isSome,m.remove path)

/-- What is directly under the prefix and no deeper. -/
def listedUnder (pre : String) : List Metadata :=
  m.entries.filterMap fun entry =>
    match stripPrefix entry.1 pre with
    | none => none
    | some rest => if '/' ∈ rest.toList then none else some ⟨entry.1,entry.2.length⟩

def list (given : String) : Except Error (List Metadata) :=
  (normalisePrefix given).map fun segments =>
    (m.listedUnder (Text.join '/' segments)).mergeSort fun a b => decide (a.path ≤ b.path)

/-- The directories that paths imply: those with something after the next separator. -/
def impliedUnder (pre : String) : List String :=
  m.entries.filterMap fun entry =>
    match stripPrefix entry.1 pre with
    | none => none
    | some rest =>
      match Text.splitOnce '/' rest with
      | none => none
      | some (segment,_) => some (if pre = "" then segment else pre ++ "/" ++ segment)

def directories (given : String) : Except Error (List String) :=
  (normalisePrefix given).map fun segments =>
    dedup ((m.impliedUnder (Text.join '/' segments)).mergeSort fun a b => decide (a ≤ b))

def run : Request → Except Error Reply × MemoryDisk
  | .get path => ((m.files.get path).1.map .contents,m)
  | .put path contents => ((m.put path contents).1.map fun _ => .done,(m.put path contents).2)
  | .exists_ path => ((m.files.exists_ path).1.map .flag,m)
  | .delete path => ((m.delete path).1.map .flag,(m.delete path).2)
  | .list given => ((m.list given).map .entries,m)
  | .directories given => ((m.directories given).map .names,m)

end MemoryDisk

variable {m : MemoryDisk} {path p q : String} {contents : List UInt8}

/-! ## The map as a function -/

theorem mem_entries_iff : (p,contents) ∈ m.entries ↔ m.files p = some contents := by
  rw [MemoryDisk.files,Option.map_eq_some_iff]
  constructor
  · intro hmem
    cases hfind : m.entries.find? (·.1 = p) with
    | none => exact absurd (List.find?_eq_none.1 hfind _ hmem) (by simp)
    | some entry =>
      have hentry : entry.1 = p := by simpa using List.find?_some hfind
      have hsame := List.inj_on_of_nodup_map m.distinct (List.mem_of_find?_eq_some hfind) hmem hentry
      exact ⟨entry,rfl,by rw [hsame]⟩
  · rintro ⟨entry,hfind,rfl⟩
    have hentry : entry.1 = p := by simpa using List.find?_some hfind
    rw [← hentry]
    exact List.mem_of_find?_eq_some hfind

theorem files_remove (p : String) : (m.remove p).files = Function.update m.files p none := by
  funext q
  apply Option.ext
  intro c
  rw [← mem_entries_iff,MemoryDisk.remove,List.mem_filter,Function.update_apply]
  by_cases hq : q = p
  · simp [hq]
  · simp [hq,mem_entries_iff]

theorem files_insert (p : String) (contents : List UInt8) :
    (m.insert p contents).files = Function.update m.files p (some contents) := by
  funext q
  apply Option.ext
  intro c
  rw [← mem_entries_iff,MemoryDisk.insert,List.mem_cons,List.mem_filter,Function.update_apply]
  by_cases hq : q = p
  · simp [hq,eq_comm]
  · simp [hq,mem_entries_iff]

/-- A put and a deletion are those of the function. -/
theorem put_files (path : String) (contents : List UInt8) :
    ((m.put path contents).1,(m.put path contents).2.files) = m.files.put path contents := by
  rw [MemoryDisk.put,MemoryFilesystem.put]
  cases normalised path with
  | error e => rfl
  | ok p => simp only [files_insert]

theorem delete_files (path : String) : ((m.delete path).1,(m.delete path).2.files) = m.files.delete path := by
  rw [MemoryDisk.delete,MemoryFilesystem.delete]
  cases normalised path with
  | error e => rfl
  | ok p => simp only [files_remove]

/-! ## Paths and their segments -/

/-- The segments of a path: names without a separator. -/
def Names (segments : List String) : Prop := ∀ segment ∈ segments, segment ≠ "" ∧ '/' ∉ segment.toList

theorem names_of_normalisePath {p : StoragePath} (h : normalisePath path = .ok p) : Names p.segments := by
  obtain ⟨hsplit,hplain⟩ := split_text h
  intro segment hsegment
  refine ⟨(hplain segment hsegment).1,?_⟩
  rw [← hsplit] at hsegment
  exact Text.not_mem_of_mem_split hsegment

theorem names_of_normalisePrefix {given : String} {segments : List String} (h : normalisePrefix given = .ok segments) : Names segments := by
  rw [normalisePrefix] at h
  split_ifs at h with hempty
  · cases h
    intro segment hsegment
    cases hsegment
  · obtain ⟨p,hp,h⟩ := bind_eq_ok.1 h
    cases h
    exact names_of_normalisePath hp

theorem split_names {segments : List String} (hne : segments ≠ []) (h : Names segments) :
    Text.split '/' (Text.join '/' segments) = segments :=
  Text.split_join hne fun segment hsegment => (h segment hsegment).2

theorem join_ne_empty {segments : List String} (hne : segments ≠ []) (h : Names segments) : Text.join '/' segments ≠ "" := by
  intro hempty
  have hsplit := split_names hne h
  rw [hempty] at hsplit
  have hself : Text.split '/' "" = [""] := by decide
  rw [hself] at hsplit
  exact (h "" (by rw [← hsplit]; exact List.mem_cons_self)).1 rfl

theorem join_injective {segments segments' : List String} (hne : segments ≠ []) (hne' : segments' ≠ []) (h : Names segments)
    (h' : Names segments') (heq : Text.join '/' segments = Text.join '/' segments') : segments = segments' := by
  rw [← split_names hne h,heq,split_names hne' h']

theorem slashed_append {front back : List String} (hfront : front ≠ []) (hback : back ≠ []) :
    Text.join '/' (front ++ back) = Text.join '/' front ++ "/" ++ Text.join '/' back := by
  induction front with
  | nil => exact absurd rfl hfront
  | cons name front ih =>
    by_cases hempty : front = []
    · subst hempty
      rw [List.singleton_append,Text.join_cons hback,Text.join_singleton]
      rfl
    · rw [List.cons_append,Text.join_cons (by simp [hempty]),Text.join_cons hempty,ih hempty]
      simp only [String.append_assoc]

/-- What is under a prefix has its segments in front. -/
theorem stripPrefix_join {segments front : List String} (hne : segments ≠ []) (h : Names segments) (hfront : Names front) {rest : String} :
    stripPrefix (Text.join '/' segments) (Text.join '/' front) = some rest ↔
      ∃ back, back ≠ [] ∧ segments = front ++ back ∧ rest = Text.join '/' back := by
  rw [stripPrefix]
  by_cases hempty : front = []
  · subst hempty
    simp only [Text.join_nil,if_true,List.nil_append,Option.some.injEq]
    constructor
    · rintro rfl
      exact ⟨segments,hne,rfl,rfl⟩
    · rintro ⟨back,-,rfl,rfl⟩
      rfl
  · rw [if_neg (join_ne_empty hempty hfront),Option.bind_eq_some_iff]
    constructor
    · rintro ⟨after,hafter,hrest⟩
      rw [Text.stripPrefix_eq_some] at hafter hrest
      subst hrest
      have hpieces : ∀ piece ∈ front ++ Text.split '/' rest, '/' ∉ piece.toList := by
        intro piece hpiece
        obtain hpiece | hpiece := List.mem_append.1 hpiece
        · exact (hfront piece hpiece).2
        · exact Text.not_mem_of_mem_split hpiece
      refine ⟨Text.split '/' rest,Text.split_ne_nil rest,?_,(Text.join_split rest).symm⟩
      rw [← split_names hne h,hafter,← String.append_assoc]
      conv_lhs => rw [← @Text.join_split '/' rest]
      rw [← slashed_append hempty (Text.split_ne_nil rest)]
      exact Text.split_join (by simp [hempty]) hpieces
    · rintro ⟨back,hback,rfl,rfl⟩
      refine ⟨"/" ++ Text.join '/' back,Text.stripPrefix_eq_some.2 ?_,Text.stripPrefix_eq_some.2 rfl⟩
      rw [slashed_append hempty hback,String.append_assoc]

/-! ## What is listed -/

/-- Every path of the map is one of segments. -/
def MemoryDisk.Named (m : MemoryDisk) : Prop :=
  ∀ p contents, m.files p = some contents → ∃ segments, segments ≠ [] ∧ Names segments ∧ p = Text.join '/' segments

theorem slash_mem_join_iff {back : List String} (hne : back ≠ []) (h : Names back) :
    '/' ∈ (Text.join '/' back).toList ↔ ¬∃ name, back = [name] := by
  obtain ⟨name,rest,rfl⟩ := List.exists_cons_of_ne_nil hne
  have hname := (h name List.mem_cons_self).2
  by_cases hrest : rest = []
  · subst hrest
    rw [Text.join_singleton]
    exact iff_of_false hname fun hnot => hnot ⟨name,rfl⟩
  · rw [Text.join_cons hrest]
    refine iff_of_true (by simp) ?_
    rintro ⟨other,heq⟩
    exact hrest (List.cons.inj heq).2

theorem mem_listedUnder_iff (hm : m.Named) {front : List String} (hfront : Names front) {x : Metadata} :
    x ∈ m.listedUnder (Text.join '/' front) ↔ ∃ name contents, Names (front ++ [name]) ∧
      m.files (Text.join '/' (front ++ [name])) = some contents ∧ x = ⟨Text.join '/' (front ++ [name]),contents.length⟩ := by
  rw [MemoryDisk.listedUnder,List.mem_filterMap]
  constructor
  · rintro ⟨⟨p,contents⟩,hentry,hx⟩
    rw [mem_entries_iff] at hentry
    obtain ⟨segments,hne,hnames,rfl⟩ := hm p contents hentry
    cases hrest : stripPrefix (Text.join '/' segments) (Text.join '/' front) with
    | none => simp [hrest] at hx
    | some rest =>
      obtain ⟨back,hback,rfl,rfl⟩ := (stripPrefix_join hne hnames hfront).1 hrest
      have hbacknames : Names back := fun segment hsegment => hnames segment (List.mem_append_right front hsegment)
      simp only [hrest,Option.ite_none_left_eq_some] at hx
      obtain ⟨hflat,hx⟩ := hx
      rw [slash_mem_join_iff hback hbacknames,not_not] at hflat
      obtain ⟨name,rfl⟩ := hflat
      exact ⟨name,contents,hnames,hentry,(Option.some.inj hx).symm⟩
  · rintro ⟨name,contents,hnames,hentry,rfl⟩
    refine ⟨(Text.join '/' (front ++ [name]),contents),mem_entries_iff.2 hentry,?_⟩
    have hrest := (stripPrefix_join (by simp) hnames hfront).2 ⟨[name],List.cons_ne_nil _ _,rfl,rfl⟩
    have hname := (hnames name (by simp)).2
    simp only [hrest,Text.join_singleton]
    rw [if_neg hname]

theorem nodup_listedUnder (m : MemoryDisk) (pre : String) : ((m.listedUnder pre).map Metadata.path).Nodup := by
  have hpath : ∀ {entry : String × List UInt8} {x : Metadata}, (match stripPrefix entry.1 pre with
      | none => none
      | some rest => if '/' ∈ rest.toList then none else some ⟨entry.1,entry.2.length⟩) = some x → x.path = entry.1 := by
    intro entry x hx
    split at hx
    · cases hx
    · split_ifs at hx
      cases hx
      rfl
  rw [MemoryDisk.listedUnder,List.Nodup,List.pairwise_map]
  refine List.Pairwise.filterMap _ ?_ (List.pairwise_map.1 m.distinct)
  intro entry entry' hne x hx x' hx'
  rw [hpath hx,hpath hx']
  exact hne

theorem splitOnce_eq_none {name : String} (h : '/' ∉ name.toList) : Text.splitOnce '/' name = none := by
  have hall : ∀ c ∈ name.toList, decide (c ≠ '/') = true := fun c hc => decide_eq_true (ne_of_mem_of_not_mem hc h)
  rw [Text.splitOnce,List.dropWhile_eq_nil_iff.2 hall]

theorem mem_impliedUnder_iff (hm : m.Named) {front : List String} (hfront : Names front) {s : String} :
    s ∈ m.impliedUnder (Text.join '/' front) ↔ ∃ name back contents, back ≠ [] ∧ Names (front ++ name :: back) ∧
      m.files (Text.join '/' (front ++ name :: back)) = some contents ∧ s = Text.join '/' (front ++ [name]) := by
  have hlisted : ∀ name, Names (front ++ [name]) →
      (if Text.join '/' front = "" then name else Text.join '/' front ++ "/" ++ name) = Text.join '/' (front ++ [name]) := by
    intro name hname
    by_cases hempty : front = []
    · subst hempty
      rw [Text.join_nil,if_pos rfl,List.nil_append,Text.join_singleton]
    · rw [if_neg (join_ne_empty hempty hfront),slashed_append hempty (List.cons_ne_nil _ _),Text.join_singleton]
  rw [MemoryDisk.impliedUnder,List.mem_filterMap]
  constructor
  · rintro ⟨⟨p,contents⟩,hentry,hs⟩
    rw [mem_entries_iff] at hentry
    obtain ⟨segments,hne,hnames,rfl⟩ := hm p contents hentry
    cases hrest : stripPrefix (Text.join '/' segments) (Text.join '/' front) with
    | none => simp [hrest] at hs
    | some rest =>
      obtain ⟨back,hback,rfl,rfl⟩ := (stripPrefix_join hne hnames hfront).1 hrest
      obtain ⟨name,back,rfl⟩ := List.exists_cons_of_ne_nil hback
      have hname := (hnames name (by simp)).2
      simp only [hrest] at hs
      by_cases hlast : back = []
      · subst hlast
        rw [Text.join_singleton,splitOnce_eq_none hname] at hs
        cases hs
      · rw [Text.join_cons hlast,Text.splitOnce_append hname] at hs
        refine ⟨name,back,contents,hlast,hnames,hentry,?_⟩
        rw [← hlisted name fun segment hsegment => hnames segment (by simp at hsegment ⊢; tauto)]
        exact (Option.some.inj hs).symm
  · rintro ⟨name,back,contents,hback,hnames,hentry,rfl⟩
    refine ⟨(Text.join '/' (front ++ name :: back),contents),mem_entries_iff.2 hentry,?_⟩
    have hrest := (stripPrefix_join (by simp) hnames hfront).2 ⟨name :: back,List.cons_ne_nil _ _,rfl,rfl⟩
    have hname := (hnames name (by simp)).2
    simp only [hrest]
    rw [Text.join_cons hback,Text.splitOnce_append hname]
    simp only
    rw [hlisted name fun segment hsegment => hnames segment (by simp at hsegment ⊢; tauto)]

/-! ## Sorted -/

section Sorted

variable {α : Type} (key : α → String)

/-- A list in the order of distinct keys is known by its members. -/
theorem eq_of_sorted {l l' : List α} (hl : l.Pairwise fun a b => key a < key b) (hl' : l'.Pairwise fun a b => key a < key b)
    (h : ∀ a, a ∈ l ↔ a ∈ l') : l = l' := by
  have hnodup : ∀ {l : List α}, (l.Pairwise fun a b => key a < key b) → l.Nodup := by
    intro l hl
    refine hl.imp fun hlt heq => ?_
    rw [heq] at hlt
    exact lt_irrefl _ hlt
  refine ((List.perm_ext_iff_of_nodup (hnodup hl) (hnodup hl')).2 h).eq_of_pairwise ?_ hl hl'
  intro a b _ _ hlt hgt
  exact absurd hgt (lt_asymm hlt)

theorem sorted_mergeSort (l : List α) : (l.mergeSort fun a b => decide (key a ≤ key b)).Pairwise fun a b => key a ≤ key b := by
  have hsorted : (l.mergeSort fun a b => decide (key a ≤ key b)).Pairwise fun a b => decide (key a ≤ key b) = true :=
    List.pairwise_mergeSort (fun a b c hab hbc => by
      rw [decide_eq_true_eq] at hab hbc ⊢
      exact hab.trans hbc)
    (fun a b => by
      rw [Bool.or_eq_true,decide_eq_true_eq,decide_eq_true_eq]
      exact le_total _ _) l
  exact hsorted.imp fun h => of_decide_eq_true h

theorem strictly_mergeSort {l : List α} (h : (l.map key).Nodup) :
    (l.mergeSort fun a b => decide (key a ≤ key b)).Pairwise fun a b => key a < key b := by
  have hnodup : ((l.mergeSort fun a b => decide (key a ≤ key b)).map key).Nodup :=
    ((List.mergeSort_perm l _).map key).nodup_iff.2 h
  have hboth := (sorted_mergeSort key l).and (List.pairwise_map.1 hnodup)
  exact hboth.imp fun hab => lt_of_le_of_ne hab.1 hab.2

end Sorted

theorem mem_dedup (l : List String) (s : String) : s ∈ dedup l ↔ s ∈ l := by
  induction l using dedup.induct with
  | case1 => rfl
  | case2 s => rfl
  | case3 rest t ih => rw [dedup,if_pos rfl,ih]; simp
  | case4 t u rest hne ih => rw [dedup,if_neg hne,List.mem_cons,ih]; simp

theorem sorted_dedup {l : List String} (h : l.Pairwise (· ≤ ·)) : (dedup l).Pairwise (· < ·) := by
  induction l using dedup.induct with
  | case1 => exact List.Pairwise.nil
  | case2 s => exact List.pairwise_singleton _ _
  | case3 rest t ih =>
    rw [dedup,if_pos rfl]
    exact ih (List.pairwise_cons.1 h).2
  | case4 t u rest hne ih =>
    obtain ⟨hle,hrest⟩ := List.pairwise_cons.1 h
    rw [dedup,if_neg hne,List.pairwise_cons]
    refine ⟨fun v hv => ?_,ih hrest⟩
    rw [mem_dedup] at hv
    have hlt : t < u := lt_of_le_of_ne (hle u List.mem_cons_self) hne
    obtain rfl | hv := List.mem_cons.1 hv
    · exact hlt
    · exact hlt.trans_le ((List.pairwise_cons.1 hrest).1 v hv)

end Rainier.Filesystem
