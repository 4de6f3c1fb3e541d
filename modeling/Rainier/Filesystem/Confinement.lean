import Rainier.Filesystem.Local

/-! # Staying under the root

Links decide where a call ends up. The guard looks at the real parent of a path as it is before the
call: not at a link that the path ends in, not at a parent that is still to be made, and for a
listing not at all.
-/
namespace Rainier.Filesystem

open Disk

/-- A call that succeeds reports on, creates, replaces and removes what is under the top only. -/
def Confined {α : Type} (top : Location) (o : Outcome α) : Prop := o.result.isOk = true → ∀ loc ∈ o.touched, top <+: loc

instance {α : Type} (top : Location) (o : Outcome α) : Decidable (Confined top o) :=
  inferInstanceAs (Decidable (_ → _))

section

variable (fs : LocalFilesystem) (d : Disk) (top : Location)

/-- The guard lets a path through. -/
def Guarded (p : StoragePath) : Prop := ∀ loc, d.canonicalize (fs.parent p) = .ok loc → top <+: loc

/-- A path ends in a link, in a directory under the top, that leads out of it. -/
structure EndsOutside (p : StoragePath) (loc : Location) : Prop where
  link : ∃ dir absolute target, d.directory (fs.parent p) = .ok dir ∧ top <+: dir ∧
    d.node (dir ++ [p.name]) = some (.link absolute target)
  leads : d.canonicalize (fs.joined p) = .ok loc
  outside : ¬ top <+: loc

/-- The directory of a path is missing, and what is missing is to be made outside. -/
def MadeOutside (p : StoragePath) : Prop :=
  ∃ base n rest, d.BreaksOff fs.root p.directory base n rest ∧ ¬ top <+: base

/-- The temporary name beside a path is a link to a file outside, there already or not, and no
directory is in the way of the rename. -/
structure WrittenOutside (p : StoragePath) (dir loc : Location) : Prop where
  parent : d.directory (fs.parent p) = .ok dir
  inside : top <+: dir
  link : ∃ absolute target, d.node (dir ++ [temporaryName p.name]) = some (.link absolute target)
  leads : d.write (fs.parent p ++ [.name (temporaryName p.name)]) = .ok loc
  outside : ¬ top <+: loc
  replaceable : d.node (dir ++ [p.name]) ≠ some .dir

/-- The directory of the second path is missing. With it made the first path has a node, which is
not moved beneath itself, and one of the two is outside. -/
structure MovedOutside (p p' : StoragePath) (base : Location) (n : String) (rest : List String) (dir : Location) :
    Prop where
  passes : Guarded fs d top p
  missing : d.BreaksOff fs.root p'.directory base n rest
  source : (d.withDirs (dirsBeneath base (n :: rest))).directory (fs.parent p) = .ok dir
  there : (d.withDirs (dirsBeneath base (n :: rest))).node (dir ++ [p.name]) ≠ none
  apart : ¬ dir ++ [p.name] <+: base ++ n :: rest ++ [p'.name]
  outside : ¬ (top <+: base ∧ top <+: dir ++ [p.name])

/-- A link takes a call out of the top. -/
def Escapes : Call → Prop
  | .get path | .exists_ path | .metadata path => ∃ p loc, normalisePath path = .ok p ∧ EndsOutside fs d top p loc
  | .readChunks path =>
    ∃ p loc, normalisePath path = .ok p ∧ EndsOutside fs d top p loc ∧ ∃ contents, d.node loc = some (.file contents)
  | .put path _ =>
    ∃ p, normalisePath path = .ok p ∧ (MadeOutside fs d top p ∨ ∃ dir loc, WrittenOutside fs d top p dir loc)
  | .delete _ => False
  | .list given | .directories given =>
    ∃ segments loc, normalisePrefix given = .ok segments ∧ d.directory (join fs.root segments) = .ok loc ∧ ¬ top <+: loc
  | .rename path path' =>
    ∃ p p' base n rest dir, normalisePath path = .ok p ∧ normalisePath path' = .ok p' ∧
      MovedOutside fs d top p p' base n rest dir

end

variable {fs : LocalFilesystem} {d : Disk} {top : Location}

theorem confined_of_error {α : Type} {o : Outcome α} {e : Error} (h : o.result = .error e) : Confined top o := by
  intro hok
  rw [h] at hok
  cases hok

@[simp]
theorem confined_error {α : Type} (e : Error) (d : Disk) (locs : List Location) :
    Confined top (⟨.error e,d,locs⟩ : Outcome α) := confined_of_error rfl

@[simp]
theorem confined_ok {α : Type} (a : α) (d : Disk) (locs : List Location) :
    Confined top ⟨.ok a,d,locs⟩ ↔ ∀ loc ∈ locs, top <+: loc :=
  ⟨fun h => h rfl,fun h _ => h⟩

theorem confined_of_untouched {α : Type} {o : Outcome α} (h : o.touched = []) : Confined top o := by
  intro _ loc hloc
  rw [h] at hloc
  cases hloc

theorem confined_map {α β : Type} (f : α → β) (o : Outcome α) : Confined top (o.map f) ↔ Confined top o := by
  rw [Confined,Confined,Outcome.map]
  cases o.result <;> rfl

/-! ## The guard -/

theorem guarded_of_directory {p : StoragePath} {dir : Location} (h : d.directory (fs.parent p) = .ok dir) :
    Guarded fs d top p ↔ top <+: dir := by
  constructor
  · intro hguarded
    exact hguarded dir (canonicalize_of_directory h)
  · intro hinside loc hloc
    rw [canonicalize_of_directory h] at hloc
    cases hloc
    exact hinside

theorem guarded_of_breaksOff (hd : d.Closed) {p : StoragePath} {base : Location} {n : String} {rest : List String}
    (h : d.BreaksOff fs.root p.directory base n rest) : Guarded fs d top p := by
  intro loc hloc
  rw [LocalFilesystem.parent,h.canonicalize hd] at hloc
  cases hloc

theorem resolve_eq_ok (hroot : d.directory fs.root = .ok top) {path : String} {p : StoragePath} :
    fs.resolve d path = .ok p ↔ normalisePath path = .ok p ∧ Guarded fs d top p := by
  rw [LocalFilesystem.resolve]
  constructor
  · intro h
    obtain ⟨p',hpath,h⟩ := bind_eq_ok.1 h
    rw [canonicalize_of_directory hroot] at h
    cases hparent : d.canonicalize (fs.parent p') with
    | error e =>
      rw [hparent] at h
      cases h
      refine ⟨hpath,fun loc hloc => ?_⟩
      rw [hparent] at hloc
      cases hloc
    | ok loc =>
      rw [hparent] at h
      simp only at h
      split_ifs at h with hinside
      cases h
      refine ⟨hpath,fun loc' hloc => ?_⟩
      rw [hparent] at hloc
      cases hloc
      exact hinside
  · rintro ⟨hpath,hguarded⟩
    refine bind_eq_ok.2 ⟨p,hpath,?_⟩
    rw [canonicalize_of_directory hroot]
    cases hparent : d.canonicalize (fs.parent p) with
    | error e => rfl
    | ok loc => exact if_pos (hguarded loc hparent)

/-! ## Reading -/

theorem joined_eq (fs : LocalFilesystem) (p : StoragePath) : fs.joined p = fs.parent p ++ [.name p.name] := by
  simp [LocalFilesystem.joined,LocalFilesystem.parent,StoragePath.segments,join_append]

/-- Past the guard nothing but a link at the end leads out. -/
theorem endsOutside_iff (hd : d.Closed) {p : StoragePath} (hguarded : Guarded fs d top p) {loc : Location} :
    EndsOutside fs d top p loc ↔ d.canonicalize (fs.joined p) = .ok loc ∧ ¬ top <+: loc := by
  constructor
  · intro h
    exact ⟨h.leads,h.outside⟩
  · rintro ⟨hleads,houtside⟩
    obtain ⟨left,hwalk⟩ := canonicalize_eq_ok.1 hleads
    rw [joined_eq] at hwalk
    obtain ⟨dir,hdir⟩ := directory_of_walk hd hwalk
    have hinside := (guarded_of_directory hdir).1 hguarded
    obtain ⟨left',hentry⟩ := walk_entry hd hdir p.name
    rw [hentry,walk_name] at hwalk
    refine ⟨?_,hleads,houtside⟩
    cases hnode : d.node (dir ++ [p.name]) with
    | none => rw [hnode] at hwalk; cases hwalk
    | some node =>
      cases node with
      | link absolute target => exact ⟨dir,absolute,target,hdir,hinside,hnode⟩
      | dir =>
        rw [hnode] at hwalk
        cases hwalk
        exact absurd (hinside.trans (List.prefix_append _ _)) houtside
      | file contents =>
        rw [hnode] at hwalk
        cases hwalk
        exact absurd (hinside.trans (List.prefix_append _ _)) houtside

/-- A call that resolves its path and then reads what it leads to, where that is of a kind. -/
theorem confined_reading (hd : d.Closed) (hroot : d.directory fs.root = .ok top) {α : Type} {o : Outcome α} (path : String)
    (kind : Location → Prop) (hrefused : ∀ e, fs.resolve d path = .error e → o.result = .error e)
    (hlost : ∀ p e, fs.resolve d path = .ok p → d.canonicalize (fs.joined p) = .error e → o.touched = [])
    (hread : ∀ p loc, fs.resolve d path = .ok p → normalisePath path = .ok p → d.canonicalize (fs.joined p) = .ok loc →
      (Confined top o ↔ (kind loc → top <+: loc))) :
    Confined top o ↔ ¬ ∃ p loc, normalisePath path = .ok p ∧ EndsOutside fs d top p loc ∧ kind loc := by
  cases hresolve : fs.resolve d path with
  | error e =>
    refine iff_of_true (confined_of_error (hrefused e hresolve)) ?_
    rintro ⟨p,loc,hpath,hends,-⟩
    obtain ⟨dir,-,-,hdir,hinside,-⟩ := hends.link
    rw [(resolve_eq_ok hroot).2 ⟨hpath,(guarded_of_directory hdir).2 hinside⟩] at hresolve
    cases hresolve
  | ok p =>
    obtain ⟨hpath,hguarded⟩ := (resolve_eq_ok hroot).1 hresolve
    cases hleads : d.canonicalize (fs.joined p) with
    | error e =>
      refine iff_of_true (confined_of_untouched (hlost p e hresolve hleads)) ?_
      rintro ⟨p',loc,hpath',hends,-⟩
      cases hpath.symm.trans hpath'
      cases hleads.symm.trans hends.leads
    | ok loc =>
      rw [hread p loc hresolve hpath hleads]
      constructor
      · rintro hinside ⟨p',loc',hpath',hends,hkind⟩
        cases hpath.symm.trans hpath'
        cases hleads.symm.trans hends.leads
        exact hends.outside (hinside hkind)
      · intro hnone hkind
        by_contra houtside
        exact hnone ⟨p,loc,hpath,(endsOutside_iff hd hguarded).2 ⟨hleads,houtside⟩,hkind⟩

theorem readMetadata_ok {path : String} {p : StoragePath} (hpath : normalisePath path = .ok p) {resolved : List Component}
    {loc : Location} (h : d.canonicalize resolved = .ok loc) :
    ∃ m, LocalFilesystem.readMetadata d path resolved = ⟨.ok m,d,[loc]⟩ ∧
      (m.isSome = true ↔ ∃ contents, d.node loc = some (.file contents)) := by
  rw [LocalFilesystem.readMetadata,h]
  cases hnode : d.node loc with
  | none => exact ⟨none,by simp [hnode]⟩
  | some node => cases node <;> simp [hnode,hpath,Except.map]

theorem readMetadata_error (path : String) {resolved : List Component} {e : IoKind} (h : d.canonicalize resolved = .error e) :
    (LocalFilesystem.readMetadata d path resolved).touched = [] := by
  rw [LocalFilesystem.readMetadata,h]
  cases e <;> rfl

theorem confined_metadata (hd : d.Closed) (hroot : d.directory fs.root = .ok top) (path : String) :
    Confined top (fs.metadata d path) ↔ ¬ ∃ p loc, normalisePath path = .ok p ∧ EndsOutside fs d top p loc := by
  have hiff : Confined top (fs.metadata d path) ↔
      ¬ ∃ p loc, normalisePath path = .ok p ∧ EndsOutside fs d top p loc ∧ True := by
    apply confined_reading hd hroot path fun _ => True
    · intro e he
      rw [LocalFilesystem.metadata,he]
      rfl
    · intro p e hp hleads
      rw [LocalFilesystem.metadata,hp]
      exact readMetadata_error path hleads
    · intro p loc hp hpath hleads
      obtain ⟨m,hm,-⟩ := readMetadata_ok hpath hleads
      rw [LocalFilesystem.metadata,hp]
      simp only [hm,confined_ok,List.forall_mem_singleton,true_imp_iff]
  simpa only [and_true] using hiff

theorem confined_get (hd : d.Closed) (hroot : d.directory fs.root = .ok top) (path : String) :
    Confined top (fs.get d path) ↔ ¬ ∃ p loc, normalisePath path = .ok p ∧ EndsOutside fs d top p loc := by
  have hiff : Confined top (fs.get d path) ↔
      ¬ ∃ p loc, normalisePath path = .ok p ∧ EndsOutside fs d top p loc ∧ True := by
    apply confined_reading hd hroot path fun _ => True
    · intro e he
      rw [LocalFilesystem.get,he]
      rfl
    · intro p e hp hleads
      have htouched := readMetadata_error path hleads
      rw [LocalFilesystem.get,hp]
      simp only
      split
      · exact htouched
      · exact htouched
      · rw [hleads]
        cases e <;> exact htouched
    · intro p loc hp hpath hleads
      obtain ⟨m,hm,hfile⟩ := readMetadata_ok hpath hleads
      rw [LocalFilesystem.get,hp]
      cases m with
      | none => simp only [hm,confined_ok,List.forall_mem_singleton,true_imp_iff]
      | some m =>
        obtain ⟨contents,hnode⟩ := hfile.1 rfl
        simp [hm,hleads,hnode]
  simpa only [and_true] using hiff

theorem confined_readChunks (hd : d.Closed) (hroot : d.directory fs.root = .ok top) (path : String) :
    Confined top (fs.readChunks d path) ↔
      ¬ ∃ p loc, normalisePath path = .ok p ∧ EndsOutside fs d top p loc ∧ ∃ contents, d.node loc = some (.file contents) := by
  apply confined_reading hd hroot path fun loc => ∃ contents, d.node loc = some (.file contents)
  · intro e he
    rw [LocalFilesystem.readChunks,he]
    rfl
  · intro p e hp hleads
    simp only [LocalFilesystem.readChunks,hp,hleads]
    cases e <;> rfl
  · intro p loc hp hpath hleads
    simp only [LocalFilesystem.readChunks,hp,hleads]
    cases hnode : d.node loc with
    | none => simp
    | some node =>
      cases node with
      | dir => simp
      | link absolute target => simp
      | file contents => simp

/-- An entry is removed itself, so that the guard covers it. -/
theorem confined_delete (hroot : d.directory fs.root = .ok top) (path : String) : Confined top (fs.delete d path) := by
  rw [LocalFilesystem.delete]
  cases hresolve : fs.resolve d path with
  | error e => exact confined_error e d []
  | ok p =>
    obtain ⟨-,hguarded⟩ := (resolve_eq_ok hroot).1 hresolve
    cases hunlink : d.unlink (fs.parent p) p.name with
    | error e =>
      simp only [hunlink]
      cases e <;> exact confined_of_untouched rfl
    | ok loc =>
      obtain ⟨dir,hdir,rfl⟩ := unlink_eq_ok hunlink
      have hinside := (guarded_of_directory hdir).1 hguarded
      simpa [hunlink] using hinside.trans (List.prefix_append dir [p.name])

/-! ## Listing -/

theorem confined_readDir (action given : String) (segments : List String) : Confined top (fs.readDir d action given segments) ↔
    ∀ loc, d.directory (join fs.root segments) = .ok loc → top <+: loc := by
  rw [LocalFilesystem.readDir]
  cases hleads : d.canonicalize (join fs.root segments) with
  | error e =>
    have hlost : ∀ loc, d.directory (join fs.root segments) ≠ .ok loc := by
      intro loc hloc
      rw [canonicalize_of_directory hloc] at hleads
      cases hleads
    refine iff_of_true ?_ fun loc hloc => absurd hloc (hlost loc)
    cases e <;> exact confined_of_untouched rfl
  | ok loc =>
    have hdirectory : d.directory (join fs.root segments) =
        if d.node loc = some .dir then .ok loc else .error .notADirectory := by
      rw [directory,hleads]
      rfl
    rw [hdirectory]
    simp only
    split_ifs
    · constructor
      · intro h loc' hloc'
        cases hloc'
        exact (confined_ok _ _ _).1 h loc List.mem_cons_self
      · intro h
        have hinside := h loc rfl
        rw [confined_ok,List.forall_mem_cons]
        refine ⟨hinside,fun entry hentry => ?_⟩
        obtain ⟨n,-,rfl⟩ := List.mem_map.1 hentry
        exact hinside.trans (List.prefix_append loc [n])
    · refine iff_of_true (confined_error _ _ _) fun loc hloc => ?_
      cases hloc

theorem confined_listing {α : Type} {o : Outcome α} {given : String}
    (hrefused : ∀ e, normalisePrefix given = .error e → o.result = .error e)
    (hread : ∀ segments, normalisePrefix given = .ok segments →
      (Confined top o ↔ ∀ loc, d.directory (join fs.root segments) = .ok loc → top <+: loc)) :
    Confined top o ↔ ¬ ∃ segments loc, normalisePrefix given = .ok segments ∧
      d.directory (join fs.root segments) = .ok loc ∧ ¬ top <+: loc := by
  cases hgiven : normalisePrefix given with
  | error e =>
    refine iff_of_true (confined_of_error (hrefused e hgiven)) ?_
    rintro ⟨segments,loc,h,-⟩
    cases h
  | ok segments =>
    rw [hread segments hgiven]
    constructor
    · rintro hall ⟨segments',loc,heq,hloc,houtside⟩
      cases heq
      exact houtside (hall loc hloc)
    · intro hnone loc hloc
      by_contra houtside
      exact hnone ⟨segments,loc,rfl,hloc,houtside⟩

theorem confined_list (given : String) : Confined top (fs.list d given) ↔
    ¬ ∃ segments loc, normalisePrefix given = .ok segments ∧ d.directory (join fs.root segments) = .ok loc ∧ ¬ top <+: loc := by
  apply confined_listing
  · intro e he
    rw [LocalFilesystem.list,he]
    rfl
  · intro segments hsegments
    rw [LocalFilesystem.list,hsegments]
    exact (confined_map _ _).trans (confined_readDir _ _ _)

theorem confined_directories (given : String) : Confined top (fs.directories d given) ↔
    ¬ ∃ segments loc, normalisePrefix given = .ok segments ∧ d.directory (join fs.root segments) = .ok loc ∧ ¬ top <+: loc := by
  apply confined_listing
  · intro e he
    rw [LocalFilesystem.directories,he]
    rfl
  · intro segments hsegments
    rw [LocalFilesystem.directories,hsegments]
    exact (confined_map _ _).trans (confined_readDir _ _ _)

/-! ## Writing -/

section Replace

variable {p : StoragePath} {dir loc : Location} (path : String) (contents : List UInt8)

/-- What is renamed is a file or a link. -/
theorem temporary_written (hd : d.Closed) (hdir : d.directory (fs.parent p) = .ok dir)
    (hwrite : d.write (fs.parent p ++ [.name (temporaryName p.name)]) = .ok loc) :
    (d.set loc (.file contents)).node (dir ++ [temporaryName p.name]) ≠ none ∧
      (d.set loc (.file contents)).node (dir ++ [temporaryName p.name]) ≠ some .dir := by
  by_cases hlink : ∃ absolute target, d.node (dir ++ [temporaryName p.name]) = some (.link absolute target)
  · obtain ⟨absolute,target,hlink⟩ := hlink
    rw [(extends_write hd hwrite contents).link _ _ _ hlink]
    simp
  · have hentry := write_entry hd hdir fun absolute target h => hlink ⟨absolute,target,h⟩
    rw [hentry] at hwrite
    split_ifs at hwrite
    cases hwrite
    simp [node_set]

theorem renameError_written (hd : d.Closed) (hdir : d.directory (fs.parent p) = .ok dir)
    (hwrite : d.write (fs.parent p ++ [.name (temporaryName p.name)]) = .ok loc) :
    (d.set loc (.file contents)).renameError (dir ++ [temporaryName p.name]) (dir ++ [p.name]) = none ↔
      d.node (dir ++ [p.name]) ≠ some .dir := by
  obtain ⟨hthere,hnot⟩ := temporary_written contents hd hdir hwrite
  rw [renameError_of_not_dir hthere hnot]
  refine not_congr ⟨fun h => ?_,(extends_write hd hwrite contents).dir _⟩
  rw [node_set] at h
  split_ifs at h
  · cases h
  · exact h

theorem replace_of_write (hd : d.Closed) (hdir : d.directory (fs.parent p) = .ok dir)
    (hwrite : d.write (fs.parent p ++ [.name (temporaryName p.name)]) = .ok loc) (hname : d.node (dir ++ [p.name]) ≠ some .dir) :
    (fs.replace d path p contents).result = .ok () ∧
      (fs.replace d path p contents).touched = [loc,dir ++ [temporaryName p.name],dir ++ [p.name]] := by
  have hdir' := directory_extends (extends_write hd hwrite contents) hdir
  have hrename := rename_eq_ok.2 ⟨dir,dir,hdir',hdir',rfl,rfl,(renameError_written contents hd hdir hwrite).2 hname⟩
  simp only [LocalFilesystem.replace,hwrite,hrename,and_self]

theorem replace_onto_dir (hd : d.Closed) (hdir : d.directory (fs.parent p) = .ok dir) (hname : d.node (dir ++ [p.name]) = some .dir) :
    ∃ e, (fs.replace d path p contents).result = .error e := by
  rw [LocalFilesystem.replace]
  split
  · exact ⟨_,rfl⟩
  · rename_i hwrite
    simp only
    split
    · rename_i hrename
      obtain ⟨loc,loc',hloc,hloc',rfl,rfl,herror⟩ := rename_eq_ok.1 hrename
      rw [directory_extends (extends_write hd hwrite contents) hdir] at hloc hloc'
      cases hloc
      cases hloc'
      exact absurd hname ((renameError_written contents hd hdir hwrite).1 herror)
    · split <;> exact ⟨_,rfl⟩

theorem replace_of_error {e : IoKind} (hwrite : d.write (fs.parent p ++ [.name (temporaryName p.name)]) = .error e) :
    ∃ e, (fs.replace d path p contents).result = .error e := by
  simp only [LocalFilesystem.replace,hwrite]
  exact ⟨_,rfl⟩

/-- In a directory under the top. -/
theorem confined_replace (hd : d.Closed) (hdir : d.directory (fs.parent p) = .ok dir) (hinside : top <+: dir) :
    Confined top (fs.replace d path p contents) ↔ ¬ ∃ dir loc, WrittenOutside fs d top p dir loc := by
  by_cases hname : d.node (dir ++ [p.name]) = some .dir
  · obtain ⟨e,he⟩ := replace_onto_dir path contents hd hdir hname
    refine iff_of_true (confined_of_error he) ?_
    rintro ⟨dir',loc,h⟩
    cases hdir.symm.trans h.parent
    exact h.replaceable hname
  · cases hwrite : d.write (fs.parent p ++ [.name (temporaryName p.name)]) with
    | error e =>
      obtain ⟨e',he'⟩ := replace_of_error path contents hwrite
      refine iff_of_true (confined_of_error he') ?_
      rintro ⟨dir',loc,h⟩
      cases hwrite.symm.trans h.leads
    | ok loc =>
      obtain ⟨hresult,htouched⟩ := replace_of_write path contents hd hdir hwrite hname
      have hconfined : Confined top (fs.replace d path p contents) ↔ top <+: loc := by
        rw [Confined,hresult,htouched]
        simp [Except.isOk,Except.toBool,hinside.trans (List.prefix_append _ _)]
      rw [hconfined]
      constructor
      · rintro hloc ⟨dir',loc',h⟩
        cases hwrite.symm.trans h.leads
        exact h.outside hloc
      · intro hnone
        by_contra houtside
        refine hnone ⟨dir,loc,hdir,hinside,?_,hwrite,houtside,hname⟩
        by_contra hlink
        have hentry := write_entry hd hdir fun absolute target h => hlink ⟨absolute,target,h⟩
        rw [hentry] at hwrite
        split_ifs at hwrite
        cases hwrite
        exact houtside (hinside.trans (List.prefix_append _ _))

end Replace

/-- The directories that are made are under the top when the place where the path breaks off is. -/
theorem prefix_dirsBeneath {base loc : Location} {names : List String} (hbase : top <+: base) (h : loc ∈ dirsBeneath base names) :
    top <+: loc := by
  obtain ⟨front,-,-,rfl⟩ := mem_dirsBeneath.1 h
  exact hbase.trans (List.prefix_append _ _)

theorem confined_put_made (hd : d.Closed) (htop : d.node top = some .dir) {p : StoragePath} {path : String}
    {contents : List UInt8} {base : Location} {n : String} {rest : List String}
    (h : d.BreaksOff fs.root p.directory base n rest) (hresolve : fs.resolve d path = .ok p) :
    Confined top (fs.put d path contents) ↔ top <+: base := by
  have hmade := createDirAll_of_breaksOff hd h
  have hclosed := h.closed_withDirs hd
  have hdir : (d.withDirs (dirsBeneath base (n :: rest))).directory (fs.parent p) = .ok (base ++ n :: rest) :=
    h.directory_withDirs hd
  have hempty := h.node_withDirs_beneath hd
  have hwrite : (d.withDirs (dirsBeneath base (n :: rest))).write (fs.parent p ++ [.name (temporaryName p.name)]) =
      .ok (base ++ n :: rest ++ [temporaryName p.name]) := by
    rw [write_entry hclosed hdir fun _ _ => by rw [hempty]; simp,hempty]
    rfl
  have hname : (d.withDirs (dirsBeneath base (n :: rest))).node (base ++ n :: rest ++ [p.name]) ≠ some .dir := by
    rw [hempty]
    simp
  obtain ⟨hresult,htouched⟩ := replace_of_write path contents hclosed hdir hwrite hname
  have hput : fs.put d path contents = { fs.replace (d.withDirs (dirsBeneath base (n :: rest))) path p contents with
      touched := dirsBeneath base (n :: rest) ++
        (fs.replace (d.withDirs (dirsBeneath base (n :: rest))) path p contents).touched } := by
    simp only [LocalFilesystem.put,hresolve,LocalFilesystem.parent,hmade]
  rw [hput,Confined,hresult,htouched]
  constructor
  · intro hall
    have hfirst := hall rfl (base ++ [n]) (List.mem_append_left _ List.mem_cons_self)
    exact (prefix_of_beneath hd h.missing (by simp [htop])).1 hfirst
  · intro hbase _ loc hloc
    rcases List.mem_append.1 hloc with hloc | hloc
    · exact prefix_dirsBeneath hbase hloc
    · have hbeneath : ∀ m, top <+: base ++ n :: rest ++ [m] := by
        intro m
        rw [List.append_assoc]
        exact hbase.trans (List.prefix_append _ _)
      simp only [List.mem_cons,List.not_mem_nil,or_false] at hloc
      rcases hloc with rfl | rfl | rfl <;> exact hbeneath _

theorem confined_put (hd : d.Closed) (hroot : d.directory fs.root = .ok top) (path : String) (contents : List UInt8) :
    Confined top (fs.put d path contents) ↔ ¬ Escapes fs d top (.put path contents) := by
  cases hresolve : fs.resolve d path with
  | error e =>
    refine iff_of_true (confined_of_error (e := e) (by rw [LocalFilesystem.put,hresolve]; rfl)) ?_
    rintro ⟨p,hpath,hescape⟩
    have hguarded : Guarded fs d top p := by
      rcases hescape with ⟨base,n,rest,hbreaks,-⟩ | ⟨dir,loc,hwritten⟩
      · exact guarded_of_breaksOff hd hbreaks
      · exact (guarded_of_directory hwritten.parent).2 hwritten.inside
    rw [(resolve_eq_ok hroot).2 ⟨hpath,hguarded⟩] at hresolve
    cases hresolve
  | ok p =>
    obtain ⟨hpath,hguarded⟩ := (resolve_eq_ok hroot).1 hresolve
    have hescapes : Escapes fs d top (.put path contents) ↔
        MadeOutside fs d top p ∨ ∃ dir loc, WrittenOutside fs d top p dir loc := by
      constructor
      · rintro ⟨p',hpath',h⟩
        cases hpath.symm.trans hpath'
        exact h
      · intro h
        exact ⟨p,hpath,h⟩
    rw [hescapes]
    cases hmade : (d.createDirAll (fs.parent p).reverse).result with
    | error e =>
      have hput : (fs.put d path contents).result = .error (ioError "create the directory for" path e) := by
        simp only [LocalFilesystem.put,hresolve,hmade]
      refine iff_of_true (confined_of_error hput) ?_
      rintro (⟨base,n,rest,hbreaks,-⟩ | ⟨dir,loc,hwritten⟩)
      · rw [LocalFilesystem.parent,createDirAll_of_breaksOff hd hbreaks] at hmade
        cases hmade
      · rw [createDirAll_of_dir hd hwritten.parent] at hmade
        cases hmade
    | ok u =>
      rcases createDirAll_ok hroot hmade with ⟨dir,hdir⟩ | ⟨base,n,rest,hbreaks⟩
      · have hinside := (guarded_of_directory (p := p) hdir).1 hguarded
        have hput : fs.put d path contents = fs.replace d path p contents := by
          simp only [LocalFilesystem.put,hresolve,LocalFilesystem.parent,createDirAll_of_dir hd hdir]
          rfl
        rw [hput,confined_replace path contents hd hdir hinside]
        refine not_congr ⟨.inr,fun h => h.resolve_left ?_⟩
        rintro ⟨base,n,rest,hbreaks,-⟩
        cases (hbreaks.canonicalize hd).symm.trans (canonicalize_of_directory hdir)
      · rw [confined_put_made hd (directory_eq_ok.1 hroot).2 hbreaks hresolve]
        constructor
        · rintro hbase (⟨base',n',rest',hbreaks',houtside⟩ | ⟨dir,loc,hwritten⟩)
          · obtain ⟨rfl,-,-⟩ := hbreaks.unique hd hbreaks'
            exact houtside hbase
          · cases (hbreaks.canonicalize hd).symm.trans (canonicalize_of_directory hwritten.parent)
        · intro hnone
          by_contra houtside
          exact hnone (.inl ⟨base,n,rest,hbreaks,houtside⟩)

/-! ## Moving -/

/-- What a move comes to once both paths are resolved. -/
theorem rename_resolved {p p' : StoragePath} {path path' : String} (hresolve : fs.resolve d path = .ok p)
    (hresolve' : fs.resolve d path' = .ok p') {d' : Disk} {made : List Location}
    (hmade : d.createDirAll (fs.parent p').reverse = ⟨d',made,.ok ()⟩) :
    Confined top (fs.rename d path path') ↔ ∀ source target,
      d'.rename (fs.parent p) p.name (fs.parent p') p'.name = .ok (source,target) → ∀ loc ∈ made ++ [source,target], top <+: loc := by
  simp only [LocalFilesystem.rename,hresolve,hresolve',hmade]
  cases hrename : d'.rename (fs.parent p) p.name (fs.parent p') p'.name with
  | error e =>
    refine iff_of_true ?_ fun source target hmoved => ?_
    · cases e <;> exact confined_error _ _ _
    · cases hmoved
  | ok moved =>
    rw [confined_ok]
    constructor
    · intro h source target heq
      cases heq
      exact h
    · intro h
      exact h moved.1 moved.2 rfl

/-- Into a directory that is there, past both guards. -/
theorem confined_rename_dir (hd : d.Closed) {p p' : StoragePath} {path path' : String} (hresolve : fs.resolve d path = .ok p)
    (hresolve' : fs.resolve d path' = .ok p') (hguarded : Guarded fs d top p) (hguarded' : Guarded fs d top p') {dir : Location}
    (hdir : d.directory (fs.parent p') = .ok dir) : Confined top (fs.rename d path path') := by
  rw [rename_resolved hresolve hresolve' (createDirAll_of_dir hd hdir)]
  intro source target hrename loc hloc
  obtain ⟨dir₁,dir₂,hdir₁,hdir₂,rfl,rfl,-⟩ := rename_eq_ok.1 hrename
  have hsource := (guarded_of_directory hdir₁).1 hguarded
  have htarget := (guarded_of_directory hdir₂).1 hguarded'
  simp only [List.nil_append,List.mem_cons,List.not_mem_nil,or_false] at hloc
  rcases hloc with rfl | rfl
  · exact hsource.trans (List.prefix_append _ _)
  · exact htarget.trans (List.prefix_append _ _)

theorem confined_rename_made (hd : d.Closed) (htop : d.node top = some .dir) {p p' : StoragePath} {path path' : String}
    (hresolve : fs.resolve d path = .ok p) (hresolve' : fs.resolve d path' = .ok p') (hguarded : Guarded fs d top p)
    {base : Location} {n : String} {rest : List String} (h : d.BreaksOff fs.root p'.directory base n rest) :
    Confined top (fs.rename d path path') ↔ ¬ ∃ dir, MovedOutside fs d top p p' base n rest dir := by
  have hclosed := h.closed_withDirs hd
  have hdir : (d.withDirs (dirsBeneath base (n :: rest))).directory (fs.parent p') = .ok (base ++ n :: rest) :=
    h.directory_withDirs hd
  have hnode := (directory_eq_ok.1 hdir).2
  have hmissing := h.node_withDirs_beneath hd p'.name
  rw [rename_resolved hresolve hresolve' (createDirAll_of_breaksOff hd h)]
  constructor
  · rintro hall ⟨dir,hmoved⟩
    have hrename := rename_eq_ok.2 ⟨dir,_,hmoved.source,hdir,rfl,rfl,
      (renameError_of_missing hclosed hnode hmissing).2 ⟨hmoved.there,hmoved.apart⟩⟩
    have hlocs := hall _ _ hrename
    apply hmoved.outside
    constructor
    · have hfirst := hlocs (base ++ [n]) (List.mem_append_left _ List.mem_cons_self)
      exact (prefix_of_beneath hd h.missing (by simp [htop])).1 hfirst
    · exact hlocs _ (List.mem_append_right _ List.mem_cons_self)
  · intro hnone source target hrename loc hloc
    obtain ⟨dir,dir',hsource,hdir',rfl,rfl,herror⟩ := rename_eq_ok.1 hrename
    cases hdir.symm.trans hdir'
    obtain ⟨hthere,hapart⟩ := (renameError_of_missing hclosed hnode hmissing).1 herror
    obtain ⟨hbase,hinside⟩ : top <+: base ∧ top <+: dir ++ [p.name] := by
      by_contra houtside
      exact hnone ⟨dir,hguarded,h,hsource,hthere,hapart,houtside⟩
    rcases List.mem_append.1 hloc with hloc | hloc
    · exact prefix_dirsBeneath hbase hloc
    · simp only [List.mem_cons,List.not_mem_nil,or_false] at hloc
      rcases hloc with rfl | rfl
      · exact hinside
      · rw [List.append_assoc]
        exact hbase.trans (List.prefix_append _ _)

theorem confined_rename (hd : d.Closed) (hroot : d.directory fs.root = .ok top) (path path' : String) :
    Confined top (fs.rename d path path') ↔ ¬ Escapes fs d top (.rename path path') := by
  -- a path that escapes is one that both guards let through
  have hpasses : Escapes fs d top (.rename path path') → ∃ p p', fs.resolve d path = .ok p ∧ fs.resolve d path' = .ok p' ∧
      ∃ base n rest dir, MovedOutside fs d top p p' base n rest dir := by
    rintro ⟨p,p',base,n,rest,dir,hpath,hpath',hmoved⟩
    exact ⟨p,p',(resolve_eq_ok hroot).2 ⟨hpath,hmoved.passes⟩,
      (resolve_eq_ok hroot).2 ⟨hpath',guarded_of_breaksOff hd hmoved.missing⟩,base,n,rest,dir,hmoved⟩
  cases hresolve : fs.resolve d path with
  | error e =>
    refine iff_of_true (confined_of_error (e := e) (by rw [LocalFilesystem.rename,hresolve]; rfl)) fun h => ?_
    obtain ⟨p,-,hp,-⟩ := hpasses h
    cases hresolve.symm.trans hp
  | ok p =>
    cases hresolve' : fs.resolve d path' with
    | error e =>
      refine iff_of_true (confined_of_error (e := e) (by simp only [LocalFilesystem.rename,hresolve,hresolve']; rfl)) fun h => ?_
      obtain ⟨-,p',-,hp',-⟩ := hpasses h
      cases hresolve'.symm.trans hp'
    | ok p' =>
      obtain ⟨hpath,hguarded⟩ := (resolve_eq_ok hroot).1 hresolve
      obtain ⟨hpath',hguarded'⟩ := (resolve_eq_ok hroot).1 hresolve'
      have hescapes : Escapes fs d top (.rename path path') ↔ ∃ base n rest dir, MovedOutside fs d top p p' base n rest dir := by
        constructor
        · intro h
          obtain ⟨p₁,p₂,hp₁,hp₂,hmoved⟩ := hpasses h
          cases hresolve.symm.trans hp₁
          cases hresolve'.symm.trans hp₂
          exact hmoved
        · rintro ⟨base,n,rest,dir,hmoved⟩
          exact ⟨p,p',base,n,rest,dir,hpath,hpath',hmoved⟩
      rw [hescapes]
      cases hmade : (d.createDirAll (fs.parent p').reverse).result with
      | error e =>
        have hrename : (fs.rename d path path').result = .error (ioError "create the directory for" path' e) := by
          simp only [LocalFilesystem.rename,hresolve,hresolve',hmade]
        refine iff_of_true (confined_of_error hrename) ?_
        rintro ⟨base,n,rest,dir,hmoved⟩
        rw [LocalFilesystem.parent,createDirAll_of_breaksOff hd hmoved.missing] at hmade
        cases hmade
      | ok u =>
        rcases createDirAll_ok hroot hmade with ⟨dir,hdir⟩ | ⟨base,n,rest,hbreaks⟩
        · refine iff_of_true (confined_rename_dir hd hresolve hresolve' hguarded hguarded' hdir) ?_
          rintro ⟨base,n,rest,dir',hmoved⟩
          cases (hmoved.missing.canonicalize hd).symm.trans (canonicalize_of_directory hdir)
        · rw [confined_rename_made hd (directory_eq_ok.1 hroot).2 hresolve hresolve' hguarded hbreaks]
          refine not_congr ⟨fun ⟨dir,hmoved⟩ => ⟨base,n,rest,dir,hmoved⟩,?_⟩
          rintro ⟨base',n',rest',dir,hmoved⟩
          obtain ⟨rfl,rfl,rfl⟩ := hbreaks.unique hd hmoved.missing
          exact ⟨dir,hmoved⟩

/-! ## All calls -/

/-- A call stays under the real location of the root unless a link takes it out. -/
theorem confined_iff (hd : d.Closed) (hroot : d.directory fs.root = .ok top) (call : Call) :
    Confined top (fs.run d call) ↔ ¬ Escapes fs d top call := by
  cases call with
  | get path => exact (confined_map _ _).trans (confined_get hd hroot path)
  | readChunks path => exact (confined_map _ _).trans (confined_readChunks hd hroot path)
  | put path contents => exact (confined_map _ _).trans (confined_put hd hroot path contents)
  | delete path => exact iff_of_true ((confined_map _ _).2 (confined_delete hroot path)) not_false
  | exists_ path => exact (confined_map _ _).trans ((confined_map _ _).trans (confined_metadata hd hroot path))
  | metadata path => exact (confined_map _ _).trans (confined_metadata hd hroot path)
  | list given => exact (confined_map _ _).trans (confined_list given)
  | directories given => exact (confined_map _ _).trans (confined_directories given)
  | rename path path' => exact (confined_map _ _).trans (confined_rename hd hroot path path')

/-- A root with a link in it to a file that is not. -/
def linkedDisk : Disk :=
  [([],.dir),(["etc"],.dir),(["etc","passwd"],.file [114,111,111,116]),(["srv"],.dir),(["srv","a.txt"],.file [97]),
    (["srv","link"],.link true [.name "etc",.name "passwd"])]

theorem linkedDisk_closed : linkedDisk.Closed := .of_entries (by decide) (by decide)

theorem confined_iff_file : Confined ["srv"] (LocalFilesystem.run ⟨[.name "srv"]⟩ linkedDisk (.get "a.txt")) ↔
    ¬ Escapes ⟨[.name "srv"]⟩ linkedDisk ["srv"] (.get "a.txt") :=
  confined_iff linkedDisk_closed (by decide) (.get "a.txt")

theorem link_read_through : ¬ ∀ (fs : LocalFilesystem) (d : Disk) (top : Location) (call : Call),
    d.Closed → d.directory fs.root = .ok top → Confined top (fs.run d call) := by
  intro h
  have hget := h ⟨[.name "srv"]⟩ linkedDisk ["srv"] (.get "link") linkedDisk_closed (by decide)
  revert hget
  decide +kernel

end Rainier.Filesystem
