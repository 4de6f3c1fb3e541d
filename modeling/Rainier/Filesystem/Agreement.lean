import Rainier.Filesystem.Confinement
import Rainier.Filesystem.Listing
import Rainier.Support.DiskEntries
import Rainier.Support.Trace

/-! # The memory disk in place of the local one

The same calls are made of both, one after the other. On the local disk a file may stand where a path
wants a directory, directories stay when their last file is deleted, and `put` takes a name of its own.
-/
namespace Rainier.Filesystem
open Disk

/-- The two disks. -/
structure Pair where
  memory : MemoryDisk
  disk : Disk

namespace Pair

variable (fs : LocalFilesystem)

def step (s : Pair) (r : Request) : Pair := ⟨(s.memory.run r).2,(fs.run s.disk r.call).disk⟩

/-- A call has the same result on both. -/
def Agrees (s : Pair) (r : Request) : Prop := (s.memory.run r).1 = (fs.run s.disk r.call).result

end Pair

/-- The segments of the temporary name of a path. -/
def StoragePath.temporarySegments (p : StoragePath) : List String := p.directory ++ [temporaryName p.name]

/-- No path that is stored is a directory of another. -/
def PrefixFree (m : MemoryDisk) : Prop :=
  ∀ front rest, front ≠ [] → rest ≠ [] → Names (front ++ rest) → m.files (Text.join '/' (front ++ rest)) ≠ none →
    m.files (Text.join '/' front) = none

section

variable (top : Location) (d : Disk)

/-- No file stands where a directory on the way is wanted. -/
def ClearAbove (segments : List String) : Prop :=
  ∀ front rest, segments = front ++ rest → rest ≠ [] → ∀ contents, d.node (top ++ front) ≠ some (.file contents)

/-- Nor where the directory itself is. -/
def ClearTo (segments : List String) : Prop := ClearAbove top d segments ∧ ∀ contents, d.node (top ++ segments) ≠ some (.file contents)

/-- Nothing on the local disk gets into the way of a call. -/
def Calm : Request → Prop
  | .get path | .exists_ path => ∀ p, normalisePath path = .ok p → ClearAbove top d p.segments
  | .delete path => ∀ p, normalisePath path = .ok p → ClearAbove top d p.segments ∧ d.node (top ++ p.segments) ≠ some .dir
  | .put path _ => ∀ p, normalisePath path = .ok p →
      d.node (top ++ p.segments) ≠ some .dir ∧ d.node (top ++ p.temporarySegments) = none
  | .list given => ∀ segments, normalisePrefix given = .ok segments → ClearTo top d segments ∧
      ∀ name, ".rainier-tmp".toList <:+ name.toList → ∀ contents, d.node (top ++ (segments ++ [name])) ≠ some (.file contents)
  | .directories given => ∀ segments, normalisePrefix given = .ok segments → ClearTo top d segments ∧
      ∀ name, d.node (top ++ (segments ++ [name])) = some .dir →
        ∃ rest contents, d.node (top ++ (segments ++ name :: rest)) = some (.file contents)

end

/-- The disks hold the same files, and there is no link beneath the root. -/
structure Mirrors (fs : LocalFilesystem) (top : Location) (m : MemoryDisk) (d : Disk) : Prop where
  closed : d.Closed
  distinct : d.Distinct
  root : d.directory fs.root = .ok top
  linkless : ∀ rel absolute target, d.node (top ++ rel) ≠ some (.link absolute target)
  names : ∀ rel, d.node (top ++ rel) ≠ none → Names rel
  keys : m.Named
  same : ∀ segments, segments ≠ [] → Names segments → ∀ contents,
    m.files (Text.join '/' segments) = some contents ↔ d.node (top ++ segments) = some (.file contents)

variable {fs : LocalFilesystem} {top : Location} {m : MemoryDisk} {d : Disk} {path : String} {p : StoragePath} {contents : List UInt8}

/-! ## Where paths lead -/

theorem Mirrors.reach (h : Mirrors fs top m d) (names : List String)
    (hclear : ∀ front, front <+: names → ∀ contents, d.node (top ++ front) ≠ some (.file contents)) :
    d.directory (join fs.root names) = .ok (top ++ names) ∨
      ∃ front n rest, names = front ++ n :: rest ∧ d.BreaksOff fs.root names (top ++ front) n rest := by
  induction names using List.reverseRecOn with
  | nil => exact .inl (by simpa [join] using h.root)
  | append_singleton names n ih =>
    obtain hdir | ⟨front,first,rest,rfl,hbreaks⟩ := ih fun front hfront => hclear front (hfront.trans (List.prefix_append _ _))
    · cases hnode : d.node (top ++ (names ++ [n])) with
      | none => exact .inr ⟨names,n,[],rfl,⟨names,rfl,hdir⟩,by rw [List.append_assoc]; exact hnode⟩
      | some node =>
        cases node with
        | dir =>
          left
          obtain ⟨left,hwalk⟩ := walk_entry h.closed hdir n
          rw [walk_name,List.append_assoc,hnode] at hwalk
          refine directory_eq_ok.2 ⟨⟨left,?_⟩,hnode⟩
          rw [join_append]
          simpa using hwalk
        | file contents => exact absurd hnode (hclear _ List.prefix_rfl contents)
        | link absolute target => exact absurd hnode (h.linkless _ absolute target)
    · obtain ⟨front',heq,hfront⟩ := hbreaks.reached
      refine .inr ⟨front,first,rest ++ [n],by simp,⟨front',?_,hfront⟩,hbreaks.missing⟩
      rw [heq]
      simp

theorem clear_shorter {segments : List String} (h : ClearAbove top d segments) {names : List String} {n : String}
    (heq : segments = names ++ [n]) : ∀ front, front <+: names → ∀ contents, d.node (top ++ front) ≠ some (.file contents) := by
  rintro front ⟨rest,rfl⟩ contents
  exact h front (rest ++ [n]) (by rw [heq,List.append_assoc]) (by simp) contents

/-- The guard lets every path through. -/
theorem Mirrors.resolve (h : Mirrors fs top m d) (hp : normalisePath path = .ok p) (hclear : ClearAbove top d p.segments) :
    fs.resolve d path = .ok p := by
  refine (resolve_eq_ok h.root).2 ⟨hp,?_⟩
  obtain hdir | ⟨front,n,rest,-,hbreaks⟩ := h.reach p.directory (clear_shorter hclear rfl)
  · exact (guarded_of_directory hdir).2 (List.prefix_append _ _)
  · exact guarded_of_breaksOff h.closed hbreaks

theorem Mirrors.canonicalize (h : Mirrors fs top m d) {segments : List String} (hclear : ClearAbove top d segments) :
    d.canonicalize (join fs.root segments) =
      if d.node (top ++ segments) = none then .error .notFound else .ok (top ++ segments) := by
  rcases List.eq_nil_or_concat segments with rfl | ⟨names,n,rfl⟩
  · have htop : d.node (top ++ []) = some .dir := by
      rw [List.append_nil]
      exact (directory_eq_ok.1 h.root).2
    rw [if_neg (by rw [htop]; exact Option.some_ne_none _)]
    simpa [join] using canonicalize_of_directory h.root
  · rw [List.concat_eq_append] at hclear ⊢
    obtain hdir | ⟨front,first,rest,rfl,hbreaks⟩ := h.reach names (clear_shorter hclear rfl)
    · obtain ⟨left,hwalk⟩ := walk_entry h.closed hdir n
      rw [Disk.canonicalize,join_append,List.map_singleton,hwalk,walk_name,List.append_assoc]
      cases hnode : d.node (top ++ (names ++ [n])) with
      | none => rfl
      | some node =>
        cases node with
        | dir => rfl
        | file contents => rfl
        | link absolute target => exact absurd hnode (h.linkless _ absolute target)
    · obtain ⟨front',heq,hfront⟩ := hbreaks.reached
      have hlonger : d.BreaksOff fs.root (front ++ first :: rest ++ [n]) (top ++ front) first (rest ++ [n]) :=
        ⟨⟨front',by rw [heq]; simp,hfront⟩,hbreaks.missing⟩
      have hnone : d.node (top ++ (front ++ first :: rest ++ [n])) = none := by
        have hbeneath := node_beneath h.closed hbreaks.missing (rest ++ [n])
        simpa using hbeneath
      rw [hlonger.canonicalize h.closed,if_pos hnone]

theorem Mirrors.files_eq (h : Mirrors fs top m d) (hp : normalisePath path = .ok p) :
    m.files p.text = match d.node (top ++ p.segments) with
      | some (.file contents) => some contents
      | _ => none := by
  have hsame := h.same p.segments (by simp [StoragePath.segments]) (names_of_normalisePath hp)
  rw [StoragePath.text]
  cases hnode : d.node (top ++ p.segments) with
  | none =>
    rw [hnode] at hsame
    exact Option.eq_none_iff_forall_ne_some.2 fun c hc => by cases (hsame c).1 hc
  | some node =>
    rw [hnode] at hsame
    cases node with
    | file contents => exact (hsame contents).2 rfl
    | dir => exact Option.eq_none_iff_forall_ne_some.2 fun c hc => by cases (hsame c).1 hc
    | link absolute target => exact absurd hnode (h.linkless _ absolute target)

/-! ## Looking -/

theorem normalised_eq (hp : normalisePath path = .ok p) : normalised path = .ok p.text := by
  rw [normalised,hp]
  rfl

theorem normalised_error {e : Error} (hp : normalisePath path = .error e) : normalised path = .error e := by
  rw [normalised,hp]
  rfl

theorem resolve_error {e : Error} (hp : normalisePath path = .error e) : fs.resolve d path = .error e := by
  rw [LocalFilesystem.resolve,hp]
  rfl

theorem readMetadata_disk (d : Disk) (path : String) (resolved : List Component) :
    (LocalFilesystem.readMetadata d path resolved).disk = d := by
  rw [LocalFilesystem.readMetadata]
  split
  · split <;> rfl
  · rfl
  · rfl

theorem metadata_disk (fs : LocalFilesystem) (d : Disk) (path : String) : (fs.metadata d path).disk = d := by
  rw [LocalFilesystem.metadata]
  split
  · rfl
  · exact readMetadata_disk d path _

theorem get_disk (fs : LocalFilesystem) (d : Disk) (path : String) : (fs.get d path).disk = d := by
  rw [LocalFilesystem.get]
  cases fs.resolve d path with
  | error e => rfl
  | ok p =>
    cases hknown : (LocalFilesystem.readMetadata d path (fs.joined p)).result with
    | error e => simp only [hknown]
    | ok found =>
      cases found with
      | none => simp only [hknown]
      | some entry =>
        simp only [hknown]
        split
        · split <;> rfl
        · rfl
        · rfl

theorem readDir_disk (fs : LocalFilesystem) (d : Disk) (action given : String) (segments : List String) :
    (fs.readDir d action given segments).disk = d := by
  rw [LocalFilesystem.readDir]
  split
  · split_ifs <;> rfl
  · rfl
  · rfl

theorem list_disk (fs : LocalFilesystem) (d : Disk) (given : String) : (fs.list d given).disk = d := by
  rw [LocalFilesystem.list]
  split
  · rfl
  · exact readDir_disk fs d _ _ _

theorem directories_disk (fs : LocalFilesystem) (d : Disk) (given : String) : (fs.directories d given).disk = d := by
  rw [LocalFilesystem.directories]
  split
  · rfl
  · exact readDir_disk fs d _ _ _

theorem Mirrors.readMetadata (h : Mirrors fs top m d) (hp : normalisePath path = .ok p) (hclear : ClearAbove top d p.segments) :
    ((LocalFilesystem.readMetadata d path (fs.joined p)).result.map fun found => found.isSome) = .ok (m.files p.text).isSome := by
  have hleads := h.canonicalize hclear
  have hfiles := h.files_eq hp
  rw [LocalFilesystem.readMetadata,LocalFilesystem.joined,hleads,hfiles]
  cases hnode : d.node (top ++ p.segments) with
  | none => rfl
  | some node =>
    rw [if_neg (Option.some_ne_none _)]
    cases node with
    | file contents =>
      simp only [hnode,hp]
      rfl
    | dir =>
      simp only [hnode]
      rfl
    | link absolute target => exact absurd hnode (h.linkless _ absolute target)

theorem Mirrors.exists_ (h : Mirrors fs top m d) (hclear : ∀ p, normalisePath path = .ok p → ClearAbove top d p.segments) :
    (fs.exists_ d path).result = (m.files.exists_ path).1 := by
  rw [LocalFilesystem.exists_,LocalFilesystem.metadata]
  cases hp : normalisePath path with
  | error e =>
    rw [resolve_error hp,MemoryFilesystem.exists_,normalised_error hp]
    rfl
  | ok p =>
    rw [h.resolve hp (hclear p hp),exists_eq (normalised_eq hp)]
    exact h.readMetadata hp (hclear p hp)

theorem Mirrors.get (h : Mirrors fs top m d) (hclear : ∀ p, normalisePath path = .ok p → ClearAbove top d p.segments) :
    (fs.get d path).result = (m.files.get path).1 := by
  rw [LocalFilesystem.get]
  cases hp : normalisePath path with
  | error e =>
    rw [resolve_error hp,MemoryFilesystem.get,normalised_error hp]
    rfl
  | ok p =>
    have hleads := h.canonicalize (hclear p hp)
    have hfiles := h.files_eq hp
    rw [h.resolve hp (hclear p hp),get_eq (normalised_eq hp),hfiles]
    simp only [LocalFilesystem.readMetadata,LocalFilesystem.joined,hleads]
    cases hnode : d.node (top ++ p.segments) with
    | none => simp only [if_true]
    | some node =>
      cases node with
      | file contents => simp [hnode,hp,Except.map]
      | dir => simp [hnode]
      | link absolute target => exact absurd hnode (h.linkless _ absolute target)

/-! ## Listing -/

/-- What a directory is read as, if it is not there either. -/
theorem Mirrors.readDir (h : Mirrors fs top m d) {segments : List String} (hclear : ClearTo top d segments) (action given : String) :
    ∃ loc names, (fs.readDir d action given segments).result = .ok (loc,names) ∧ names.Nodup ∧
      (∀ name, name ∈ names ↔ d.node (top ++ (segments ++ [name])) ≠ none) ∧ (names ≠ [] → loc = top ++ segments) := by
  have hleads := h.canonicalize hclear.1
  rw [LocalFilesystem.readDir,hleads]
  cases hnode : d.node (top ++ segments) with
  | none =>
    refine ⟨[],[],rfl,List.nodup_nil,fun name => ?_,fun hne => absurd rfl hne⟩
    have hnone := h.closed.beneath (by rw [hnode]; simp) name []
    rw [List.append_assoc] at hnone
    simp [hnone]
  | some node =>
    cases node with
    | dir =>
      refine ⟨top ++ segments,d.children (top ++ segments),?_,h.distinct.children _,fun name => ?_,fun _ => rfl⟩
      · rw [if_neg (Option.some_ne_none _)]
        simp only
        rw [if_pos hnode]
      · rw [mem_children_iff,List.append_assoc]
    | file contents => exact absurd hnode (hclear.2 contents)
    | link absolute target => exact absurd hnode (h.linkless _ absolute target)

theorem Mirrors.listed_injective (h : Mirrors fs top m d) {segments : List String} {name name' : String}
    (hnode : d.node (top ++ (segments ++ [name])) ≠ none) (hnode' : d.node (top ++ (segments ++ [name'])) ≠ none)
    (heq : LocalFilesystem.listed segments name = LocalFilesystem.listed segments name') : name = name' := by
  have hsegments := join_injective (by simp) (by simp) (h.names _ hnode) (h.names _ hnode') heq
  simpa using hsegments

theorem Mirrors.list (h : Mirrors fs top m d) {given : String} (hcalm : Calm top d (.list given)) :
    (fs.list d given).result = m.list given := by
  rw [LocalFilesystem.list,MemoryDisk.list]
  cases hgiven : normalisePrefix given with
  | error e => rfl
  | ok segments =>
    obtain ⟨hclear,hhidden⟩ := hcalm segments hgiven
    obtain ⟨loc,names,hread,hnodup,hmem,hloc⟩ := h.readDir hclear "list" given
    have hsegments := names_of_normalisePrefix hgiven
    simp only [Outcome.map,hread,Except.map]
    congr 1
    apply eq_of_sorted Metadata.path
    · apply strictly_mergeSort
      rw [List.Nodup,List.pairwise_map]
      refine List.Pairwise.filterMap _ ?_ (List.Pairwise.and_mem.1 hnodup)
      rintro name name' ⟨hname,hname',hne⟩ x hx x' hx' heq
      have hlisted : ∀ {n : String} {y : Metadata}, (match d.node (loc ++ [n]) with
          | some (.file contents) => if ".rainier-tmp".toList <:+ n.toList then none else some ⟨LocalFilesystem.listed segments n,contents.length⟩
          | _ => none) = some y → y.path = LocalFilesystem.listed segments n := by
        intro n y hy
        split at hy
        · split_ifs at hy
          cases hy
          rfl
        · cases hy
      rw [hlisted hx,hlisted hx'] at heq
      exact hne (h.listed_injective ((hmem _).1 hname) ((hmem _).1 hname') heq)
    · exact strictly_mergeSort Metadata.path (nodup_listedUnder m _)
    · intro x
      rw [List.mem_mergeSort,List.mem_mergeSort,mem_listedUnder_iff h.keys hsegments,List.mem_filterMap]
      constructor
      · rintro ⟨name,hname,hx⟩
        rw [hloc (List.ne_nil_of_mem hname),List.append_assoc] at hx
        cases hnode : d.node (top ++ (segments ++ [name])) with
        | none => simp [hnode] at hx
        | some node =>
          cases node with
          | file contents =>
            rw [hnode] at hx
            simp only at hx
            split_ifs at hx
            have hnames := h.names _ ((hmem name).1 hname)
            exact ⟨name,contents,hnames,(h.same _ (by simp) hnames contents).2 hnode,(Option.some.inj hx).symm⟩
          | dir => simp [hnode] at hx
          | link absolute target => simp [hnode] at hx
      · rintro ⟨name,contents,hnames,hfile,rfl⟩
        have hnode := (h.same _ (by simp) hnames contents).1 hfile
        have hname := (hmem name).2 (by rw [hnode]; exact Option.some_ne_none _)
        refine ⟨name,hname,?_⟩
        rw [hloc (List.ne_nil_of_mem hname),List.append_assoc,hnode]
        simp only
        rw [if_neg fun hsuffix => hhidden name hsuffix contents hnode]
        rfl

theorem Mirrors.directories (h : Mirrors fs top m d) {given : String} (hcalm : Calm top d (.directories given)) :
    (fs.directories d given).result = m.directories given := by
  rw [LocalFilesystem.directories,MemoryDisk.directories]
  cases hgiven : normalisePrefix given with
  | error e => rfl
  | ok segments =>
    obtain ⟨hclear,hfull⟩ := hcalm segments hgiven
    obtain ⟨loc,names,hread,hnodup,hmem,hloc⟩ := h.readDir hclear "list the directories under" given
    have hsegments := names_of_normalisePrefix hgiven
    simp only [Outcome.map,hread,Except.map]
    congr 1
    apply eq_of_sorted id
    · apply strictly_mergeSort id
      rw [List.map_id,List.Nodup,List.pairwise_map]
      refine (List.Pairwise.and_mem.1 (hnodup.filter _)).imp ?_
      rintro name name' ⟨hname,hname',hne⟩ heq
      exact hne (h.listed_injective ((hmem _).1 (List.mem_of_mem_filter hname)) ((hmem _).1 (List.mem_of_mem_filter hname')) heq)
    · exact sorted_dedup (sorted_mergeSort id _)
    · intro s
      rw [mem_dedup,List.mem_mergeSort,List.mem_mergeSort,mem_impliedUnder_iff h.keys hsegments,List.mem_map]
      constructor
      · rintro ⟨name,hname,rfl⟩
        obtain ⟨hname,hdir⟩ := List.mem_filter.1 hname
        rw [hloc (List.ne_nil_of_mem hname),List.append_assoc,decide_eq_true_eq] at hdir
        obtain ⟨rest,contents,hfile⟩ := hfull name hdir
        have hnames := h.names (segments ++ name :: rest) (by rw [hfile]; exact Option.some_ne_none _)
        refine ⟨name,rest,contents,?_,hnames,(h.same _ (by simp) hnames contents).2 hfile,rfl⟩
        rintro rfl
        rw [hdir] at hfile
        cases hfile
      · rintro ⟨name,rest,contents,hrest,hnames,hfile,rfl⟩
        have hnode := (h.same _ (by simp) hnames contents).1 hfile
        have hdir : d.node (top ++ (segments ++ [name])) = some .dir := by
          by_contra hnot
          obtain ⟨next,rest,rfl⟩ := List.exists_cons_of_ne_nil hrest
          have hnone := h.closed.beneath hnot next rest
          rw [show top ++ (segments ++ [name]) ++ next :: rest = top ++ (segments ++ name :: next :: rest) by simp,hnode] at hnone
          cases hnone
        have hname := (hmem name).2 (by rw [hdir]; exact Option.some_ne_none _)
        refine ⟨name,List.mem_filter.2 ⟨hname,?_⟩,rfl⟩
        rw [hloc (List.ne_nil_of_mem hname),List.append_assoc,decide_eq_true_eq]
        exact hdir

/-! ## Deleting -/

theorem segments_ne (p : StoragePath) : p.segments ≠ [] := by simp [StoragePath.segments]

theorem Mirrors.memory (h : Mirrors fs top m d) {m' : MemoryDisk} (hfiles : m'.files = m.files) : Mirrors fs top m' d := by
  refine { h with keys := ?_, same := ?_ }
  · intro p contents hp
    rw [hfiles] at hp
    exact h.keys p contents hp
  · intro segments hne hnames contents
    rw [hfiles]
    exact h.same segments hne hnames contents

theorem Mirrors.erase (h : Mirrors fs top m d) {segments : List String} (hne : segments ≠ []) (hnames : Names segments)
    (hfile : d.node (top ++ segments) = some (.file contents)) :
    Mirrors fs top (m.remove (Text.join '/' segments)) (d.erase (top ++ segments)) := by
  have hkeep : d.KeepsDirs (d.erase (top ++ segments)) := by
    refine ⟨fun loc hdir => ?_,fun loc absolute target hlink => ?_⟩
    · rw [node_erase,if_neg]
      · exact hdir
      · rintro rfl
        rw [hfile] at hdir
        cases hdir
    · rw [node_erase,if_neg]
      · exact hlink
      · rintro rfl
        rw [hfile] at hlink
        cases hlink
  refine ⟨⟨?_,?_⟩,h.distinct.erase _,directory_keepsDirs hkeep h.root,?_,?_,?_,?_⟩
  · exact hkeep.dir _ h.closed.top
  · intro loc n hnode
    rw [node_erase] at hnode
    split_ifs at hnode
    · exact absurd rfl hnode
    · exact hkeep.dir _ (h.closed.parent loc n hnode)
  · intro rel absolute target hlink
    rw [node_erase] at hlink
    split_ifs at hlink
    exact h.linkless rel absolute target hlink
  · intro rel hnode
    rw [node_erase] at hnode
    split_ifs at hnode
    · exact absurd rfl hnode
    · exact h.names rel hnode
  · intro q c hq
    rw [files_remove,Function.update_apply] at hq
    split_ifs at hq
    exact h.keys q c hq
  · intro rel hrel hrelnames c
    rw [files_remove,Function.update_apply,node_erase]
    by_cases heq : rel = segments
    · simp [heq]
    · have hjoin : Text.join '/' rel ≠ Text.join '/' segments := fun hjoin => heq (join_injective hrel hne hrelnames hnames hjoin)
      have hloc : top ++ rel ≠ top ++ segments := fun hloc => heq (List.append_cancel_left hloc)
      rw [if_neg hjoin,if_neg hloc]
      exact h.same rel hrel hrelnames c

theorem remove_absent {q : String} (h : m.files q = none) : (m.remove q).files = m.files := by
  rw [files_remove,← h,Function.update_eq_self]

theorem unlink_missing {path : List Component} {n : String} {loc : Location} (h : d.directory path = .ok loc)
    (hnode : d.node (loc ++ [n]) = none) : d.unlink path n = .error .notFound := by
  rw [unlink,h]
  simp only [bind,Except.bind,hnode]
  rfl

theorem unlink_file {path : List Component} {n : String} {loc : Location} {contents : List UInt8}
    (h : d.directory path = .ok loc) (hnode : d.node (loc ++ [n]) = some (.file contents)) :
    d.unlink path n = .ok (loc ++ [n]) := by
  rw [unlink,h]
  simp only [bind,Except.bind,hnode]
  rfl

theorem Mirrors.delete (h : Mirrors fs top m d) (hcalm : Calm top d (.delete path)) :
    (fs.delete d path).result = (m.delete path).1 ∧ Mirrors fs top (m.delete path).2 (fs.delete d path).disk := by
  rw [LocalFilesystem.delete,MemoryDisk.delete]
  cases hp : normalisePath path with
  | error e =>
    rw [resolve_error hp,normalised_error hp]
    exact ⟨rfl,h⟩
  | ok p =>
    obtain ⟨hclear,hdir⟩ := hcalm p hp
    have hfiles := h.files_eq hp
    rw [h.resolve hp hclear,normalised_eq hp]
    -- where nothing is, nothing is deleted
    have hmissing : d.node (top ++ p.segments) = none → d.unlink (fs.parent p) p.name = .error .notFound := by
      intro hnone
      obtain hparent | ⟨front,n,rest,-,hbreaks⟩ := h.reach p.directory (clear_shorter hclear rfl)
      · rw [StoragePath.segments,← List.append_assoc] at hnone
        exact unlink_missing hparent hnone
      · rw [unlink,LocalFilesystem.parent,directory,hbreaks.canonicalize h.closed]
        rfl
    cases hnode : d.node (top ++ p.segments) with
    | none =>
      rw [hnode] at hfiles
      simp only [hmissing hnode,hfiles]
      exact ⟨rfl,h.memory (remove_absent hfiles)⟩
    | some node =>
      cases node with
      | file contents =>
        rw [hnode] at hfiles
        have hunlink : d.unlink (fs.parent p) p.name = .ok (top ++ p.segments) := by
          obtain hparent | ⟨front,n,rest,hdirectory,hbreaks⟩ := h.reach p.directory (clear_shorter hclear rfl)
          · rw [StoragePath.segments,← List.append_assoc] at hnode ⊢
            exact unlink_file hparent hnode
          · have hbeneath := node_beneath h.closed hbreaks.missing (rest ++ [p.name])
            rw [StoragePath.segments,hdirectory] at hnode
            simp only [List.append_assoc,List.cons_append] at hnode hbeneath
            rw [hbeneath] at hnode
            cases hnode
        simp only [hunlink,hfiles]
        exact ⟨rfl,h.erase (segments_ne p) (names_of_normalisePath hp) hnode⟩
      | dir => exact absurd hnode hdir
      | link absolute target => exact absurd hnode (h.linkless _ absolute target)

/-! ## Putting -/

/-- The name beside a file is longer. -/
theorem temporaryName_ne (name : String) : temporaryName name ≠ name := by
  intro heq
  have hlength := congrArg (fun s => s.toList.length) heq
  have hdot : ".".toList.length = 1 := rfl
  have hending : ".rainier-tmp".toList.length = 12 := rfl
  simp only [temporaryName,String.toList_append,List.length_append,hdot,hending] at hlength
  rw [splitExtension] at hlength
  have hsplit := congrArg List.length (List.takeWhile_append_dropWhile (p := fun c => decide (c ≠ '.')) (l := name.toList.reverse))
  rw [List.length_append,List.length_reverse] at hsplit
  simp only at hlength
  split at hlength
  · simp only at hlength
    omega
  · simp only at hlength
    omega
  · next hdrop =>
    rw [hdrop,List.length_cons] at hsplit
    simp only [String.toList_ofList,List.length_reverse] at hlength
    omega

/-- The disk once the directory of a path is there. -/
structure Prepared (fs : LocalFilesystem) (top : Location) (d d' : Disk) (p : StoragePath) : Prop where
  closed : d'.Closed
  distinct : d'.Distinct
  keeps : d.Extends d'
  parent : d'.directory (fs.parent p) = .ok (top ++ p.directory)
  node : ∀ rel, d'.node (top ++ rel) = d.node (top ++ rel) ∨
    d.node (top ++ rel) = none ∧ d'.node (top ++ rel) = some .dir ∧ rel <+: p.directory

theorem Mirrors.prepared (h : Mirrors fs top m d) (hclear : ClearAbove top d p.segments) :
    ∃ d' made, d.createDirAll (fs.parent p).reverse = ⟨d',made,.ok ()⟩ ∧ Prepared fs top d d' p := by
  obtain hparent | ⟨front,n,rest,hdirectory,hbreaks⟩ := h.reach p.directory (clear_shorter hclear rfl)
  · exact ⟨d,[],createDirAll_of_dir h.closed hparent,h.closed,h.distinct,⟨fun _ h => h,fun _ _ _ h => h,fun _ contents h => ⟨contents,h⟩⟩,
      hparent,fun _ => .inl rfl⟩
  · refine ⟨_,_,createDirAll_of_breaksOff h.closed hbreaks,hbreaks.closed_withDirs h.closed,h.distinct.withDirs _,
      hbreaks.extends_withDirs h.closed,?_,fun rel => ?_⟩
    · have hlast := hbreaks.directory_withDirs h.closed
      rwa [List.append_assoc,← hdirectory] at hlast
    · rw [node_withDirs]
      split_ifs with hmem
      · obtain ⟨beneath,hne,hpre,heq⟩ := mem_dirsBeneath.1 hmem
        rw [List.append_assoc] at heq
        have hrel := List.append_cancel_left heq
        obtain ⟨first,beneath,rfl⟩ := List.exists_cons_of_ne_nil hne
        refine .inr ⟨?_,rfl,?_⟩
        · obtain ⟨rfl,-⟩ := List.cons_prefix_cons.1 hpre
          rw [hrel,← List.append_assoc]
          exact node_beneath h.closed hbreaks.missing beneath
        · rw [hrel,hdirectory]
          exact (List.prefix_append_right_inj front).2 hpre
      · exact .inl rfl

/-- A name in the directory of a path is not on the way to it. -/
theorem Prepared.node_beside {d' : Disk} (h : Prepared fs top d d' p) (name : String) :
    d'.node (top ++ (p.directory ++ [name])) = d.node (top ++ (p.directory ++ [name])) := by
  obtain hsame | ⟨-,-,hpre⟩ := h.node (p.directory ++ [name])
  · exact hsame
  · have hlength := hpre.length_le
    rw [List.length_append,List.length_singleton] at hlength
    omega

/-- The file is in its place and nothing else is there but the directories on the way. -/
theorem Mirrors.replaced (h : Mirrors fs top m d) (hp : normalisePath path = .ok p) {d' : Disk} (hprepared : Prepared fs top d d' p)
    (hdir : d.node (top ++ p.segments) ≠ some .dir) {after : Disk} (hdistinct : after.Distinct)
    (hafter : ∀ loc, after.node loc = if loc = top ++ p.segments then some (.file contents) else d'.node loc) :
    Mirrors fs top (m.insert p.text contents) after := by
  have htarget : d'.node (top ++ p.segments) ≠ some .dir := by
    rw [StoragePath.segments,hprepared.node_beside]
    exact hdir
  have hlink : ∀ absolute target, d'.node (top ++ p.segments) ≠ some (.link absolute target) := by
    intro absolute target
    rw [StoragePath.segments,hprepared.node_beside]
    exact h.linkless _ absolute target
  have hkeep : d'.KeepsDirs after := by
    refine ⟨fun loc hloc => ?_,fun loc absolute target hloc => ?_⟩
    · rw [hafter,if_neg]
      · exact hloc
      · rintro rfl
        exact htarget hloc
    · rw [hafter,if_neg]
      · exact hloc
      · rintro rfl
        exact hlink absolute target hloc
  have hparent := (directory_eq_ok.1 hprepared.parent).2
  have hnames := names_of_normalisePath hp
  refine ⟨⟨hkeep.dir _ hprepared.closed.top,?_⟩,hdistinct,directory_keepsDirs hkeep (directory_extends hprepared.keeps h.root),?_,?_,?_,?_⟩
  · intro loc n hnode
    rw [hafter] at hnode
    split_ifs at hnode with hloc
    · rw [StoragePath.segments,← List.append_assoc] at hloc
      obtain ⟨rfl,-⟩ := List.append_singleton_inj.1 hloc
      exact hkeep.dir _ hparent
    · exact hkeep.dir _ (hprepared.closed.parent loc n hnode)
  · intro rel absolute target hnode
    rw [hafter] at hnode
    split_ifs at hnode
    · cases hnode
    · obtain hsame | ⟨-,hmade,-⟩ := hprepared.node rel
      · rw [hsame] at hnode
        exact h.linkless rel absolute target hnode
      · rw [hmade] at hnode
        cases hnode
  · intro rel hnode
    rw [hafter] at hnode
    split_ifs at hnode with hloc
    · rw [List.append_cancel_left hloc]
      exact hnames
    · obtain hsame | ⟨-,-,hpre⟩ := hprepared.node rel
      · rw [hsame] at hnode
        exact h.names rel hnode
      · exact fun segment hsegment => hnames segment (List.mem_append_left _ (hpre.subset hsegment))
  · intro q c hq
    rw [files_insert,Function.update_apply] at hq
    split_ifs at hq with heq
    · exact ⟨p.segments,segments_ne p,hnames,heq⟩
    · exact h.keys q c hq
  · intro rel hrel hrelnames c
    rw [files_insert,Function.update_apply,hafter,StoragePath.text]
    by_cases heq : rel = p.segments
    · simp [heq]
    · have hjoin : Text.join '/' rel ≠ Text.join '/' p.segments := fun hjoin => heq (join_injective hrel (segments_ne p) hrelnames hnames hjoin)
      have hloc : top ++ rel ≠ top ++ p.segments := fun hloc => heq (List.append_cancel_left hloc)
      rw [if_neg hjoin,if_neg hloc,h.same rel hrel hrelnames c]
      obtain hsame | ⟨hnone,hmade,-⟩ := hprepared.node rel
      · rw [hsame]
      · rw [hnone,hmade]
        simp

theorem Mirrors.put (h : Mirrors fs top m d) (hcalm : Calm top d (.put path contents))
    (hclear : ∀ p, normalisePath path = .ok p → ClearAbove top d p.segments) :
    (fs.put d path contents).result = (m.put path contents).1 ∧
      Mirrors fs top (m.put path contents).2 (fs.put d path contents).disk := by
  rw [LocalFilesystem.put,MemoryDisk.put]
  cases hp : normalisePath path with
  | error e =>
    rw [resolve_error hp,normalised_error hp]
    exact ⟨rfl,h⟩
  | ok p =>
    obtain ⟨hdir,htemp⟩ := hcalm p hp
    obtain ⟨d',made,hmade,hprepared⟩ := h.prepared (hclear p hp)
    rw [h.resolve hp (hclear p hp),normalised_eq hp]
    simp only [hmade]
    have htemp' : d'.node (top ++ p.directory ++ [temporaryName p.name]) = none := by
      rw [List.append_assoc,hprepared.node_beside]
      exact htemp
    have hdir' : d'.node (top ++ p.directory ++ [p.name]) ≠ some .dir := by
      rw [List.append_assoc,hprepared.node_beside]
      exact hdir
    have hne : top ++ p.directory ++ [temporaryName p.name] ≠ top ++ p.directory ++ [p.name] := by
      intro heq
      exact temporaryName_ne p.name (List.singleton_inj.1 (List.append_cancel_left heq))
    have hwrite : d'.write (fs.parent p ++ [.name (temporaryName p.name)]) = .ok (top ++ p.directory ++ [temporaryName p.name]) := by
      rw [write_entry hprepared.closed hprepared.parent (by rw [htemp']; simp),if_neg (by rw [htemp']; simp)]
    set written := d'.set (top ++ p.directory ++ [temporaryName p.name]) (.file contents) with hwritten
    have hnode : ∀ loc, written.node loc = if loc = top ++ p.directory ++ [temporaryName p.name] then some (.file contents) else d'.node loc :=
      fun loc => node_set d' _ loc _
    have hparent : written.directory (fs.parent p) = .ok (top ++ p.directory) :=
      directory_extends (extends_write hprepared.closed hwrite contents) hprepared.parent
    have hsource : written.node (top ++ p.directory ++ [temporaryName p.name]) = some (.file contents) := by
      rw [hnode,if_pos rfl]
    have htarget : written.node (top ++ p.directory ++ [p.name]) ≠ some .dir := by
      rw [hnode,if_neg (Ne.symm hne)]
      exact hdir'
    have hrename : written.rename (fs.parent p) (temporaryName p.name) (fs.parent p) p.name =
        .ok (top ++ p.directory ++ [temporaryName p.name],top ++ p.directory ++ [p.name]) :=
      rename_eq_ok.2 ⟨_,_,hparent,hparent,rfl,rfl,
        (renameError_of_not_dir (by rw [hsource]; simp) (by rw [hsource]; simp)).2 htarget⟩
    have hclosed : written.Closed := by
      refine ⟨?_,fun loc n hloc => ?_⟩
      · rw [hnode,if_neg (by simp)]
        exact hprepared.closed.top
      · rw [hnode] at hloc
        have hloc' : d'.node loc = some .dir := by
          split_ifs at hloc with heq
          · obtain ⟨rfl,-⟩ := List.append_singleton_inj.1 heq
            exact (directory_eq_ok.1 hprepared.parent).2
          · exact hprepared.closed.parent loc n hloc
        rw [hnode,if_neg]
        · exact hloc'
        · rintro rfl
          rw [htemp'] at hloc'
          cases hloc'
    have hdistinct : written.Distinct := hprepared.distinct.set _ _
    have hreplace : fs.replace d' path p contents = ⟨.ok (),written.move (top ++ p.directory ++ [temporaryName p.name]) (top ++ p.directory ++ [p.name]),
        [top ++ p.directory ++ [temporaryName p.name],top ++ p.directory ++ [temporaryName p.name],top ++ p.directory ++ [p.name]]⟩ := by
      rw [LocalFilesystem.replace,hwrite]
      simp only [← hwritten,hrename]
    rw [hreplace]
    refine ⟨rfl,h.replaced hp hprepared hdir (hdistinct.move hclosed (by rw [hsource]; simp) hne) fun loc => ?_⟩
    rw [node_move hclosed hdistinct (by rw [hsource]; simp) htarget hne,hsource,StoragePath.segments,← List.append_assoc]
    split_ifs with htop hself
    · rfl
    · rw [hself,htemp']
    · rw [hnode,if_neg hself]

/-! ## Runs -/

/-- A path that is stored among paths none of which is a directory of another has no file above it. -/
theorem Mirrors.clearAbove (h : Mirrors fs top m d) (hp : normalisePath path = .ok p) (hfree : PrefixFree (m.put path contents).2) :
    ClearAbove top d p.segments := by
  intro front rest heq hrest c hfile
  rw [MemoryDisk.put,normalised_eq hp] at hfree
  have hnames := names_of_normalisePath hp
  have hfront : front ≠ [] := by
    rintro rfl
    rw [List.append_nil,(directory_eq_ok.1 h.root).2] at hfile
    cases hfile
  have hfrontnames : Names front := fun segment hsegment => hnames segment (by rw [heq]; exact List.mem_append_left _ hsegment)
  have hnone := hfree front rest hfront hrest (by rw [← heq]; exact hnames) (by
    rw [← heq]
    simp [files_insert,StoragePath.text])
  have hne : Text.join '/' front ≠ p.text := by
    intro hjoin
    have hsame := join_injective hfront (segments_ne p) hfrontnames hnames hjoin
    rw [heq] at hsame
    exact hrest (List.self_eq_append_right.1 hsame)
  simp only [files_insert,Function.update_of_ne hne] at hnone
  rw [(h.same front hfront hfrontnames c).2 hfile] at hnone
  cases hnone

/-- The steps that the claims are about: no path is a directory of another, and nothing is in the way. -/
def Permitted (top : Location) (s : Pair) (r : Request) : Prop := PrefixFree (s.memory.run r).2 ∧ Calm top s.disk r

theorem Mirrors.step {s : Pair} (h : Mirrors fs top s.memory s.disk) {r : Request} (hok : Permitted top s r) :
    s.Agrees fs r ∧ Mirrors fs top (s.step fs r).memory (s.step fs r).disk := by
  obtain ⟨hfree,hcalm⟩ := hok
  rw [Pair.Agrees,Pair.step]
  cases r with
  | get path =>
    refine ⟨?_,?_⟩
    · simp only [MemoryDisk.run,Request.call,LocalFilesystem.run,Outcome.map,h.get hcalm]
    · simp only [MemoryDisk.run,Request.call,LocalFilesystem.run,Outcome.map,get_disk]
      exact h
  | put path contents =>
    obtain ⟨hresult,hmirrors⟩ := h.put hcalm fun p hp => h.clearAbove hp hfree
    refine ⟨?_,hmirrors⟩
    simp only [MemoryDisk.run,Request.call,LocalFilesystem.run,Outcome.map,hresult]
  | exists_ path =>
    refine ⟨?_,?_⟩
    · simp only [MemoryDisk.run,Request.call,LocalFilesystem.run,Outcome.map,h.exists_ hcalm]
    · have hdisk : (fs.exists_ s.disk path).disk = s.disk := metadata_disk fs s.disk path
      simp only [MemoryDisk.run,Request.call,LocalFilesystem.run,Outcome.map,hdisk]
      exact h
  | delete path =>
    obtain ⟨hresult,hmirrors⟩ := h.delete hcalm
    refine ⟨?_,hmirrors⟩
    simp only [MemoryDisk.run,Request.call,LocalFilesystem.run,Outcome.map,hresult]
  | list given =>
    refine ⟨?_,?_⟩
    · simp only [MemoryDisk.run,Request.call,LocalFilesystem.run,Outcome.map,h.list hcalm]
    · simp only [MemoryDisk.run,Request.call,LocalFilesystem.run,Outcome.map,list_disk]
      exact h
  | directories given =>
    refine ⟨?_,?_⟩
    · simp only [MemoryDisk.run,Request.call,LocalFilesystem.run,Outcome.map,h.directories hcalm]
    · simp only [MemoryDisk.run,Request.call,LocalFilesystem.run,Outcome.map,directories_disk]
      exact h

/-- A root with nothing in it. -/
structure EmptyRoot (fs : LocalFilesystem) (top : Location) (d : Disk) : Prop where
  closed : d.Closed
  distinct : d.Distinct
  root : d.directory fs.root = .ok top
  nothing : ∀ n, d.node (top ++ [n]) = none

theorem EmptyRoot.mirrors (h : EmptyRoot fs top d) : Mirrors fs top .empty d := by
  have hbeneath : ∀ n rest, d.node (top ++ n :: rest) = none := fun n rest => node_beneath h.closed (h.nothing n) rest
  have htop := (directory_eq_ok.1 h.root).2
  refine ⟨h.closed,h.distinct,h.root,?_,?_,?_,?_⟩
  · intro rel absolute target hnode
    cases rel with
    | nil =>
      rw [List.append_nil,htop] at hnode
      cases hnode
    | cons n rest =>
      rw [hbeneath] at hnode
      cases hnode
  · intro rel hnode
    cases rel with
    | nil =>
      intro segment hsegment
      cases hsegment
    | cons n rest => exact absurd (hbeneath n rest) hnode
  · intro p contents hp
    cases hp
  · intro segments hne hnames contents
    obtain ⟨n,rest,rfl⟩ := List.exists_cons_of_ne_nil hne
    rw [hbeneath]
    exact iff_of_false (by simp [MemoryDisk.files,MemoryDisk.empty]) (by simp)

def emptyDisk : Disk := [([],.dir)]

theorem emptyRoot_emptyDisk : EmptyRoot ⟨[]⟩ [] emptyDisk where
  closed := .of_entries (by decide) (by decide)
  distinct := by simp [Distinct,emptyDisk]
  root := by decide
  nothing n := by simp [Disk.node,emptyDisk]

end Rainier.Filesystem
