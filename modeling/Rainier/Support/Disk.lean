import Mathlib.Data.List.Basic
import Mathlib.Data.List.Infix

/-! # Disks with symbolic links

A node is stored under its real location: the names on the way to it from the top, without a link
among them. A path is walked component by component. A link on the way puts its target in front of
what is left, and so many of them and no more are followed.
-/
namespace Rainier

abbrev Location := List String

inductive Component where
  | up
  | name (n : String)
  deriving DecidableEq, Repr

inductive Node where
  | file (contents : List UInt8)
  | dir
  | link (absolute : Bool) (target : List Component)
  deriving DecidableEq, Repr

abbrev Disk := List (Location × Node)

namespace Disk

def node (d : Disk) (loc : Location) : Option Node := (d.find? (·.1 = loc)).map (·.2)

def erase (d : Disk) (loc : Location) : Disk := d.filter (·.1 ≠ loc)

def set (d : Disk) (loc : Location) (n : Node) : Disk := (loc,n) :: d.erase loc

/-- The names of the nodes in a directory. -/
def children (d : Disk) (loc : Location) : List String :=
  d.filterMap fun entry => if entry.1.dropLast = loc then entry.1.getLast? else none

/-- A node with everything beneath it, moved. What was there before is gone. -/
def move (d : Disk) (source target : Location) : Disk :=
  if source = target then d
  else (d.filter fun entry => !target.isPrefixOf entry.1).map fun entry =>
    if source.isPrefixOf entry.1 then (target ++ entry.1.drop source.length,entry.2) else entry

/-- The top is a directory, and so is what has something in it. -/
structure Closed (d : Disk) : Prop where
  top : d.node [] = some .dir
  parent : ∀ loc n, d.node (loc ++ [n]) ≠ none → d.node loc = some .dir

theorem Closed.of_entries {d : Disk} (htop : d.node [] = some .dir)
    (h : ∀ entry ∈ d, d.node entry.1.dropLast = some .dir) : d.Closed := by
  refine ⟨htop,fun loc n hnode => ?_⟩
  rw [node] at hnode
  cases hentry : d.find? (·.1 = loc ++ [n]) with
  | none => exact absurd (by rw [hentry]; rfl) hnode
  | some entry =>
    have hloc : entry.1 = loc ++ [n] := by simpa using List.find?_some hentry
    simpa [hloc] using h entry (List.mem_of_find?_eq_some hentry)

theorem node_set (d : Disk) (loc loc' : Location) (n : Node) :
    (d.set loc n).node loc' = if loc' = loc then some n else d.node loc' := by
  by_cases h : loc = loc'
  · simp [node,set,h]
  · have hfind : (d.erase loc).find? (·.1 = loc') = d.find? (·.1 = loc') := by
      rw [erase,List.find?_filter]
      congr 1
      funext entry
      by_cases hentry : entry.1 = loc' <;> simp [hentry,Ne.symm h]
    simp only [node,set,List.find?_cons,h,decide_false,hfind,if_neg (Ne.symm h)]

theorem Closed.dropLast {d : Disk} (h : d.Closed) {loc : Location} (hdir : d.node loc = some .dir) :
    d.node loc.dropLast = some .dir := by
  rcases List.eq_nil_or_concat loc with rfl | ⟨front,n,rfl⟩
  · exact h.top
  · rw [List.concat_eq_append,List.dropLast_concat]
    rw [List.concat_eq_append] at hdir
    exact h.parent front n (by rw [hdir]; exact Option.some_ne_none _)

/-! ## Walks -/

/-- Where a walk leads: to a node, with the number of links that may still be followed, or to a name
that is not in a directory, or nowhere. -/
inductive Walked where
  | found (loc : Location) (left : ℕ)
  | missing (dir : Location) (name : String)
  | noEntry | notDirectory | loop
  deriving DecidableEq, Repr

/-- A walk that hands over where it meets a link. -/
def walkWith (d : Disk) (left : ℕ) (follow : Location → List Component → Walked) : Location → List Component → Walked
  | loc,[] => .found loc left
  | loc,.up :: rest => walkWith d left follow loc.dropLast rest
  | loc,.name n :: rest =>
    match d.node (loc ++ [n]) with
    | none => if rest.isEmpty then .missing loc n else .noEntry
    | some .dir => walkWith d left follow (loc ++ [n]) rest
    | some (.file _) => if rest.isEmpty then .found (loc ++ [n]) left else .notDirectory
    | some (.link absolute target) => follow (if absolute then [] else loc) (target ++ rest)

def walk (d : Disk) : ℕ → Location → List Component → Walked
  | 0 => walkWith d 0 fun _ _ => .loop
  | left + 1 => walkWith d (left + 1) (walk d left)

/-- A walk that goes on from where another led. -/
def Walked.andThen (d : Disk) (rest : List Component) : Walked → Walked
  | .found loc left => if d.node loc = some .dir then d.walk left loc rest else .notDirectory
  | .missing _ _ => .noEntry
  | .noEntry => .noEntry
  | .notDirectory => .notDirectory
  | .loop => .loop

variable {d : Disk}

theorem walkWith_append (hd : d.Closed) (left : ℕ) {follow : Location → List Component → Walked}
    (hself : ∀ loc ds, d.walk left loc ds = walkWith d left follow loc ds)
    (hfollow : ∀ loc, d.node loc = some .dir → ∀ cs ds, ds ≠ [] → follow loc (cs ++ ds) = (follow loc cs).andThen d ds)
    (cs ds : List Component) (hds : ds ≠ []) (loc : Location) (hloc : d.node loc = some .dir) :
    walkWith d left follow loc (cs ++ ds) = (walkWith d left follow loc cs).andThen d ds := by
  induction cs generalizing loc with
  | nil => rw [List.nil_append,walkWith,Walked.andThen,if_pos hloc,hself]
  | cons c cs ih =>
    have hrest : (cs ++ ds).isEmpty = false := by simp [hds]
    cases c with
    | up => exact ih loc.dropLast (hd.dropLast hloc)
    | name n =>
      simp only [List.cons_append,walkWith]
      cases hnode : d.node (loc ++ [n]) with
      | none => cases cs <;> simp [hds,Walked.andThen]
      | some node =>
        cases node with
        | dir => exact ih (loc ++ [n]) hnode
        | file contents => cases cs <;> simp [hds,Walked.andThen,hnode]
        | link absolute target =>
          have hfrom : d.node (if absolute then [] else loc) = some .dir := by
            cases absolute
            · exact hloc
            · exact hd.top
          simp only
          rw [← List.append_assoc]
          exact hfollow _ hfrom _ ds hds

/-- A path is walked by walking its first part and then the rest. -/
theorem walk_append (hd : d.Closed) (left : ℕ) {cs ds : List Component} (hds : ds ≠ []) {loc : Location}
    (hloc : d.node loc = some .dir) : d.walk left loc (cs ++ ds) = (d.walk left loc cs).andThen d ds := by
  induction left generalizing loc cs ds with
  | zero => exact walkWith_append hd 0 (fun _ _ => rfl) (fun _ _ _ _ _ => rfl) cs ds hds loc hloc
  | succ left ih =>
    exact walkWith_append hd (left + 1) (fun _ _ => rfl) (fun _ hloc _ _ hds => ih hds hloc) cs ds hds loc hloc

/-- One name, in a directory. -/
theorem walk_name (d : Disk) (left : ℕ) (loc : Location) (n : String) : d.walk left loc [.name n] =
    match d.node (loc ++ [n]) with
    | none => .missing loc n
    | some .dir | some (.file _) => .found (loc ++ [n]) left
    | some (.link absolute target) =>
      match left with
      | 0 => .loop
      | left + 1 => d.walk left (if absolute then [] else loc) target := by
  cases left <;> rw [walk,walkWith] <;> split <;> simp_all [walkWith]

/-- What a walk leads to is there and is no link, and what it misses is not there. -/
def Walked.Sound (d : Disk) : Walked → Prop
  | .found loc _ => d.node loc = some .dir ∨ ∃ contents, d.node loc = some (.file contents)
  | .missing dir n => d.node (dir ++ [n]) = none
  | .noEntry | .notDirectory | .loop => True

theorem walkWith_sound (hd : d.Closed) {left : ℕ} {follow : Location → List Component → Walked}
    (hfollow : ∀ loc, d.node loc = some .dir → ∀ cs, (follow loc cs).Sound d)
    (cs : List Component) (loc : Location) (hloc : d.node loc = some .dir) : (walkWith d left follow loc cs).Sound d := by
  induction cs generalizing loc with
  | nil => exact .inl hloc
  | cons c cs ih =>
    cases c with
    | up => exact ih loc.dropLast (hd.dropLast hloc)
    | name n =>
      rw [walkWith]
      cases hnode : d.node (loc ++ [n]) with
      | none =>
        simp only
        split_ifs
        · exact hnode
        · trivial
      | some node =>
        cases node with
        | dir => exact ih (loc ++ [n]) hnode
        | file contents =>
          simp only
          split_ifs
          · exact .inr ⟨contents,hnode⟩
          · trivial
        | link absolute target =>
          have hfrom : d.node (if absolute then [] else loc) = some .dir := by
            cases absolute
            · exact hloc
            · exact hd.top
          exact hfollow _ hfrom _

theorem walk_sound (hd : d.Closed) (left : ℕ) (cs : List Component) {loc : Location} (hloc : d.node loc = some .dir) :
    (d.walk left loc cs).Sound d := by
  induction left generalizing loc cs with
  | zero =>
    have hstop : ∀ loc', d.node loc' = some .dir → ∀ cs', Walked.loop.Sound d := fun _ _ (_ : List Component) => trivial
    exact walkWith_sound hd hstop cs loc hloc
  | succ left ih => exact walkWith_sound hd (fun _ hloc cs => ih cs hloc) cs loc hloc

/-- Everything that is there is there still, but for what the files hold. -/
structure Extends (d d' : Disk) : Prop where
  dir : ∀ loc, d.node loc = some .dir → d'.node loc = some .dir
  link : ∀ loc absolute target, d.node loc = some (.link absolute target) → d'.node loc = some (.link absolute target)
  file : ∀ loc contents, d.node loc = some (.file contents) → ∃ contents', d'.node loc = some (.file contents')

theorem walkWith_extends {d' : Disk} (hext : d.Extends d') {left : ℕ} {follow follow' : Location → List Component → Walked}
    (hfollow : ∀ loc cs loc' left', follow loc cs = .found loc' left' → follow' loc cs = .found loc' left')
    (cs : List Component) (loc : Location) {loc' : Location} {left' : ℕ}
    (h : walkWith d left follow loc cs = .found loc' left') : walkWith d' left follow' loc cs = .found loc' left' := by
  induction cs generalizing loc with
  | nil => exact h
  | cons c cs ih =>
    cases c with
    | up => exact ih loc.dropLast h
    | name n =>
      rw [walkWith] at h ⊢
      cases hnode : d.node (loc ++ [n]) with
      | none =>
        rw [hnode] at h
        simp only at h
        split_ifs at h
      | some node =>
        rw [hnode] at h
        cases node with
        | dir =>
          rw [hext.dir _ hnode]
          exact ih (loc ++ [n]) h
        | file contents =>
          obtain ⟨contents',hnode'⟩ := hext.file _ _ hnode
          rw [hnode']
          exact h
        | link absolute target =>
          rw [hext.link _ _ _ hnode]
          exact hfollow _ _ _ _ h

theorem walk_extends {d' : Disk} (hext : d.Extends d') {left : ℕ} {cs : List Component} {loc loc' : Location} {left' : ℕ}
    (h : d.walk left loc cs = .found loc' left') : d'.walk left loc cs = .found loc' left' := by
  induction left generalizing loc cs loc' left' with
  | zero => exact walkWith_extends hext (fun _ _ _ _ h => by cases h) cs loc h
  | succ left ih => exact walkWith_extends hext (fun _ _ _ _ h => ih h) cs loc h

/-! ## System calls -/

/-- The kinds of errors that the calls below report. -/
inductive IoKind where
  | notFound | notADirectory | isADirectory | alreadyExists | filesystemLoop | invalidInput | directoryNotEmpty
  deriving DecidableEq, Repr

def IoKind.text : IoKind → String
  | .notFound => "entity not found"
  | .notADirectory => "not a directory"
  | .isADirectory => "is a directory"
  | .alreadyExists => "entity already exists"
  | .filesystemLoop => "filesystem loop or indirection limit (e.g. symlink loop)"
  | .invalidInput => "invalid input parameter"
  | .directoryNotEmpty => "directory not empty"

/-- So many links are followed on one path. -/
def maxLinks : ℕ := 40

/-- The real location of what a path names. -/
def canonicalize (d : Disk) (path : List Component) : Except IoKind Location :=
  match d.walk maxLinks [] path with
  | .found loc _ => .ok loc
  | .missing _ _ | .noEntry => .error .notFound
  | .notDirectory => .error .notADirectory
  | .loop => .error .filesystemLoop

def isDir (d : Disk) (path : List Component) : Bool :=
  match d.canonicalize path with
  | .ok loc => d.node loc = some .dir
  | .error _ => false

/-- The directory that an entry is looked up in. -/
def directory (d : Disk) (path : List Component) : Except IoKind Location := do
  let loc ← d.canonicalize path
  if d.node loc = some .dir then return loc else throw .notADirectory

/-- The location a directory is made at. The path is given from its end. -/
def mkdir (d : Disk) : List Component → Except IoKind Location
  | [] => .error .alreadyExists
  | .up :: rest => do
    let _ ← d.directory rest.reverse
    throw .alreadyExists
  | .name n :: rest => do
    let loc ← d.directory rest.reverse
    if d.node (loc ++ [n]) = none then return loc ++ [n] else throw .alreadyExists

structure Made where
  disk : Disk
  made : List Location
  result : Except IoKind Unit

/-- `create_dir_all`, of a path that is given from its end. -/
def createDirAll (d : Disk) : List Component → Made
  | [] => ⟨d,[],.ok ()⟩
  | c :: rest =>
    match d.mkdir (c :: rest) with
    | .ok loc => ⟨d.set loc .dir,[loc],.ok ()⟩
    | .error .notFound =>
      let below := createDirAll d rest
      match below.result with
      | .error _ => below
      | .ok _ =>
        match below.disk.mkdir (c :: rest) with
        | .ok loc => ⟨below.disk.set loc .dir,below.made ++ [loc],.ok ()⟩
        | .error e => if below.disk.isDir (c :: rest).reverse then below else { below with result := .error e }
    | .error e => if d.isDir (c :: rest).reverse then ⟨d,[],.ok ()⟩ else ⟨d,[],.error e⟩

/-- The location that a write to a path replaces or creates. Links are followed, also to a file that
is not there yet. -/
def write (d : Disk) (path : List Component) : Except IoKind Location :=
  match d.walk maxLinks [] path with
  | .found loc _ => if d.node loc = some .dir then .error .isADirectory else .ok loc
  | .missing dir n => .ok (dir ++ [n])
  | .noEntry => .error .notFound
  | .notDirectory => .error .notADirectory
  | .loop => .error .filesystemLoop

/-- The location that is removed. A link is removed itself. -/
def unlink (d : Disk) (path : List Component) (n : String) : Except IoKind Location := do
  let loc ← d.directory path
  match d.node (loc ++ [n]) with
  | none => throw .notFound
  | some .dir => throw .isADirectory
  | some (.file _) | some (.link _ _) => return loc ++ [n]

/-- Why one node does not take the place of another, if it does not. -/
def renameError (d : Disk) (source target : Location) : Option IoKind :=
  match d.node source,d.node target with
  | none,_ => some .notFound
  | some .dir,node =>
    if source = target then none
    else if source <+: target then some .invalidInput
    else match node with
      | none => none
      | some .dir => if (d.children target).isEmpty then none else some .directoryNotEmpty
      | some (.file _) | some (.link _ _) => some .notADirectory
  | some (.file _),some .dir | some (.link _ _),some .dir =>
    some (if target <+: source then .directoryNotEmpty else .isADirectory)
  | some (.file _),_ | some (.link _ _),_ => none

/-- The locations that a rename moves from and to. Links are moved and replaced themselves. -/
def rename (d : Disk) (path : List Component) (n : String) (path' : List Component) (n' : String) :
    Except IoKind (Location × Location) := do
  let loc ← d.directory path
  let loc' ← d.directory path'
  match d.renameError (loc ++ [n]) (loc' ++ [n']) with
  | none => return (loc ++ [n],loc' ++ [n'])
  | some e => throw e

theorem canonicalize_eq_ok {path : List Component} {loc : Location} :
    d.canonicalize path = .ok loc ↔ ∃ left, d.walk maxLinks [] path = .found loc left := by
  rw [canonicalize]
  cases d.walk maxLinks [] path <;> simp

theorem directory_eq_ok {path : List Component} {loc : Location} : d.directory path = .ok loc ↔
    (∃ left, d.walk maxLinks [] path = .found loc left) ∧ d.node loc = some .dir := by
  rw [directory,canonicalize]
  constructor
  · intro h
    cases hwalk : d.walk maxLinks [] path with
    | found loc' left =>
      simp only [hwalk] at h
      change (if d.node loc' = some .dir then Except.ok loc' else Except.error IoKind.notADirectory) = .ok loc at h
      split_ifs at h with hdir
      cases h
      exact ⟨⟨left,rfl⟩,hdir⟩
    | missing dir n => simp only [hwalk] at h; cases h
    | noEntry => simp only [hwalk] at h; cases h
    | notDirectory => simp only [hwalk] at h; cases h
    | loop => simp only [hwalk] at h; cases h
  · rintro ⟨⟨left,hwalk⟩,hdir⟩
    simp only [hwalk]
    exact if_pos hdir

/-- An entry that a walk leads through is in a directory. -/
theorem directory_of_walk (hd : d.Closed) {path : List Component} {c : Component} {loc : Location} {left : ℕ}
    (h : d.walk maxLinks [] (path ++ [c]) = .found loc left) : ∃ dir, d.directory path = .ok dir := by
  rw [walk_append hd maxLinks (List.cons_ne_nil c []) hd.top] at h
  cases hwalk : d.walk maxLinks [] path with
  | found dir left' =>
    rw [hwalk,Walked.andThen] at h
    split_ifs at h with hdir
    exact ⟨dir,directory_eq_ok.2 ⟨⟨left',hwalk⟩,hdir⟩⟩
  | missing dir n => rw [hwalk] at h; cases h
  | noEntry => rw [hwalk] at h; cases h
  | notDirectory => rw [hwalk] at h; cases h
  | loop => rw [hwalk] at h; cases h

/-- The walk to an entry, from the directory it is in. -/
theorem walk_entry (hd : d.Closed) {path : List Component} {dir : Location} (hdir : d.directory path = .ok dir) (n : String) :
    ∃ left, d.walk maxLinks [] (path ++ [.name n]) = d.walk left dir [.name n] := by
  obtain ⟨⟨left,hwalk⟩,hnode⟩ := directory_eq_ok.1 hdir
  refine ⟨left,?_⟩
  rw [walk_append hd maxLinks (List.cons_ne_nil _ []) hd.top,hwalk,Walked.andThen,if_pos hnode]

theorem directory_extends {d' : Disk} (hext : d.Extends d') {path : List Component} {loc : Location}
    (h : d.directory path = .ok loc) : d'.directory path = .ok loc := by
  obtain ⟨⟨left,hwalk⟩,hdir⟩ := directory_eq_ok.1 h
  exact directory_eq_ok.2 ⟨⟨left,walk_extends hext hwalk⟩,hext.dir loc hdir⟩

theorem canonicalize_of_directory {path : List Component} {loc : Location} (h : d.directory path = .ok loc) :
    d.canonicalize path = .ok loc := by
  obtain ⟨⟨left,hwalk⟩,-⟩ := directory_eq_ok.1 h
  rw [canonicalize,hwalk]

/-- What has a directory beneath it is one. -/
theorem Closed.dir_of_prefix (hd : d.Closed) {loc loc' : Location} (h : d.node loc = some .dir) (hpre : loc' <+: loc) :
    d.node loc' = some .dir := by
  obtain ⟨rest,rfl⟩ := hpre
  induction rest using List.reverseRecOn with
  | nil => simpa using h
  | append_singleton rest n ih =>
    apply ih
    apply hd.parent _ n
    rw [List.append_assoc,h]
    exact Option.some_ne_none _

/-- A write replaces a file, or creates one where nothing is. -/
theorem write_eq_ok (hd : d.Closed) {path : List Component} {loc : Location} (h : d.write path = .ok loc) :
    d.node loc = none ∨ ∃ contents, d.node loc = some (.file contents) := by
  have hsound := walk_sound hd maxLinks path hd.top
  rw [write] at h
  cases hwalk : d.walk maxLinks [] path with
  | found loc' left =>
    rw [hwalk] at h hsound
    simp only at h
    split_ifs at h with hdir
    cases h
    exact .inr (hsound.resolve_left hdir)
  | missing dir n =>
    rw [hwalk] at h hsound
    cases h
    exact .inl hsound
  | noEntry => rw [hwalk] at h; cases h
  | notDirectory => rw [hwalk] at h; cases h
  | loop => rw [hwalk] at h; cases h

/-- An entry that is no link is written where it stands. -/
theorem write_entry (hd : d.Closed) {path : List Component} {dir : Location} (hdir : d.directory path = .ok dir) {n : String}
    (hlink : ∀ absolute target, d.node (dir ++ [n]) ≠ some (.link absolute target)) :
    d.write (path ++ [.name n]) = if d.node (dir ++ [n]) = some .dir then .error .isADirectory else .ok (dir ++ [n]) := by
  obtain ⟨left,hwalk⟩ := walk_entry hd hdir n
  rw [write,hwalk,walk_name]
  cases hnode : d.node (dir ++ [n]) with
  | none => rfl
  | some node =>
    cases node with
    | dir => simp [hnode]
    | file contents => simp [hnode]
    | link absolute target => exact absurd hnode (hlink absolute target)

theorem extends_write (hd : d.Closed) {path : List Component} {loc : Location} (h : d.write path = .ok loc)
    (contents : List UInt8) : d.Extends (d.set loc (.file contents)) := by
  have hfile := write_eq_ok hd h
  refine ⟨fun loc' hdir => ?_,fun loc' absolute target hlink => ?_,fun loc' held hheld => ?_⟩
  · rw [node_set,if_neg]
    · exact hdir
    · rintro rfl
      rw [hdir] at hfile
      simp at hfile
  · rw [node_set,if_neg]
    · exact hlink
    · rintro rfl
      rw [hlink] at hfile
      simp at hfile
  · rw [node_set]
    split_ifs
    · exact ⟨contents,rfl⟩
    · exact ⟨held,hheld⟩

theorem unlink_eq_ok {path : List Component} {n : String} {loc : Location} (h : d.unlink path n = .ok loc) :
    ∃ dir, d.directory path = .ok dir ∧ loc = dir ++ [n] := by
  rw [unlink] at h
  cases hdir : d.directory path with
  | error e => rw [hdir] at h; cases h
  | ok dir =>
    refine ⟨dir,rfl,?_⟩
    rw [hdir] at h
    change (match d.node (dir ++ [n]) with
      | none => Except.error IoKind.notFound
      | some .dir => .error .isADirectory
      | some (.file _) | some (.link _ _) => .ok (dir ++ [n])) = _ at h
    split at h <;> cases h <;> rfl

theorem rename_eq_ok {path path' : List Component} {n n' : String} {source target : Location} :
    d.rename path n path' n' = .ok (source,target) ↔ ∃ loc loc', d.directory path = .ok loc ∧ d.directory path' = .ok loc' ∧
      source = loc ++ [n] ∧ target = loc' ++ [n'] ∧ d.renameError source target = none := by
  rw [rename]
  constructor
  · intro h
    cases hloc : d.directory path with
    | error e => rw [hloc] at h; cases h
    | ok loc =>
      cases hloc' : d.directory path' with
      | error e => rw [hloc,hloc'] at h; cases h
      | ok loc' =>
        rw [hloc,hloc'] at h
        change (match d.renameError (loc ++ [n]) (loc' ++ [n']) with
          | none => Except.ok (loc ++ [n],loc' ++ [n'])
          | some e => .error e) = _ at h
        cases herror : d.renameError (loc ++ [n]) (loc' ++ [n']) with
        | some e => rw [herror] at h; cases h
        | none =>
          rw [herror] at h
          cases h
          exact ⟨loc,loc',rfl,rfl,rfl,rfl,herror⟩
  · rintro ⟨loc,loc',hloc,hloc',rfl,rfl,herror⟩
    rw [hloc,hloc']
    change (match d.renameError (loc ++ [n]) (loc' ++ [n']) with
      | none => Except.ok (loc ++ [n],loc' ++ [n'])
      | some e => .error e) = _
    rw [herror]

/-- A file or a link replaces what is no directory. -/
theorem renameError_of_not_dir {source target : Location} (hsource : d.node source ≠ none) (hnot : d.node source ≠ some .dir) :
    d.renameError source target = none ↔ d.node target ≠ some .dir := by
  rw [renameError]
  split
  · contradiction
  · contradiction
  · simp_all
  · simp_all
  · simp_all
  · simp_all

/-- A node is moved to where nothing is, but not beneath itself. -/
theorem renameError_of_missing (hd : d.Closed) {source dir : Location} {n : String} (hdir : d.node dir = some .dir)
    (hmissing : d.node (dir ++ [n]) = none) :
    d.renameError source (dir ++ [n]) = none ↔ d.node source ≠ none ∧ ¬ source <+: dir ++ [n] := by
  have hne : ∀ node, d.node source = some node → source ≠ dir ++ [n] := by
    rintro node hnode rfl
    rw [hmissing] at hnode
    cases hnode
  -- above the missing name there are directories only
  have hbeneath : ∀ node, d.node source = some node → node ≠ .dir → ¬ source <+: dir ++ [n] := by
    intro node hnode hnot hpre
    rcases List.prefix_concat_iff.1 hpre with heq | hpre
    · exact hne node hnode heq
    · rw [hd.dir_of_prefix hdir hpre] at hnode
      exact hnot (Option.some.inj hnode).symm
  rw [renameError,hmissing]
  cases hnode : d.node source with
  | none => simp
  | some node =>
    cases node with
    | dir => simp [hne .dir hnode]
    | file contents => simpa using hbeneath _ hnode (by simp)
    | link absolute target => simpa using hbeneath _ hnode (by simp)

/-! ## Making directories -/

/-- The directories on the way down from a location. -/
def dirsBeneath (loc : Location) : List String → List Location
  | [] => []
  | n :: rest => (loc ++ [n]) :: dirsBeneath (loc ++ [n]) rest

def withDirs (d : Disk) (locs : List Location) : Disk := locs.foldl (fun d loc => d.set loc .dir) d

theorem node_withDirs (d : Disk) (locs : List Location) (loc : Location) :
    (d.withDirs locs).node loc = if loc ∈ locs then some .dir else d.node loc := by
  induction locs generalizing d with
  | nil => simp [withDirs]
  | cons first locs ih =>
    rw [withDirs,List.foldl_cons]
    refine (ih (d.set first .dir)).trans ?_
    rw [node_set]
    by_cases hmem : loc ∈ locs
    · simp [hmem]
    · by_cases hfirst : loc = first <;> simp [hmem,hfirst]

theorem dirsBeneath_concat (loc : Location) (ns : List String) (n : String) :
    dirsBeneath loc (ns ++ [n]) = dirsBeneath loc ns ++ [loc ++ ns ++ [n]] := by
  induction ns generalizing loc with
  | nil => simp [dirsBeneath]
  | cons m ns ih => simp [dirsBeneath,ih]

theorem withDirs_concat (d : Disk) (locs : List Location) (loc : Location) :
    d.withDirs (locs ++ [loc]) = (d.withDirs locs).set loc .dir := by
  rw [withDirs,List.foldl_append]
  rfl

theorem mem_dirsBeneath {loc loc' : Location} {ns : List String} :
    loc' ∈ dirsBeneath loc ns ↔ ∃ front, front ≠ [] ∧ front <+: ns ∧ loc' = loc ++ front := by
  induction ns generalizing loc with
  | nil =>
    constructor
    · intro h
      cases h
    · rintro ⟨front,hne,hpre,-⟩
      exact absurd (List.prefix_nil.1 hpre) hne
  | cons n ns ih =>
    rw [dirsBeneath,List.mem_cons,ih]
    constructor
    · rintro (rfl | ⟨front,-,hpre,rfl⟩)
      · exact ⟨[n],List.cons_ne_nil _ _,⟨ns,rfl⟩,rfl⟩
      · exact ⟨n :: front,List.cons_ne_nil _ _,List.cons_prefix_cons.2 ⟨rfl,hpre⟩,by simp⟩
    · rintro ⟨front,hne,hpre,rfl⟩
      obtain ⟨m,front,rfl⟩ := List.exists_cons_of_ne_nil hne
      obtain ⟨rfl,hrest⟩ := List.cons_prefix_cons.1 hpre
      cases front with
      | nil => exact .inl rfl
      | cons m' front => exact .inr ⟨m' :: front,List.cons_ne_nil _ _,hrest,by simp⟩

/-- Under a name that is not there nothing is. -/
theorem node_beneath (hd : d.Closed) {loc : Location} {n : String} (h : d.node (loc ++ [n]) = none) (rest : List String) :
    d.node (loc ++ n :: rest) = none := by
  induction rest using List.reverseRecOn with
  | nil => exact h
  | append_singleton rest m ih =>
    by_contra hsome
    have hparent := hd.parent (loc ++ n :: rest) m (by simpa using hsome)
    rw [ih] at hparent
    cases hparent

/-- What is there and above a missing place is above where it breaks off. -/
theorem prefix_of_beneath (hd : d.Closed) {loc top : Location} {n : String} (h : d.node (loc ++ [n]) = none)
    (htop : d.node top ≠ none) {rest : List String} : top <+: loc ++ n :: rest ↔ top <+: loc := by
  constructor
  · intro hpre
    rcases List.prefix_or_prefix_of_prefix hpre (List.prefix_append loc (n :: rest)) with habove | ⟨front,rfl⟩
    · exact habove
    · cases front with
      | nil => simp
      | cons m front =>
        obtain ⟨rfl,-⟩ := List.cons_prefix_cons.1 ((List.prefix_append_right_inj loc).1 hpre)
        exact absurd (node_beneath hd h front) htop
  · intro hpre
    exact hpre.trans (List.prefix_append _ _)

theorem walk_cons_dir {loc : Location} {n : String} (h : d.node (loc ++ [n]) = some .dir) (left : ℕ) (cs : List Component) :
    d.walk left loc (.name n :: cs) = d.walk left (loc ++ [n]) cs := by
  cases left <;> simp [walk,walkWith,h]

theorem walk_dirsBeneath {loc : Location} {ns : List String} (h : ∀ loc' ∈ dirsBeneath loc ns, d.node loc' = some .dir)
    (left : ℕ) : d.walk left loc (ns.map .name) = .found (loc ++ ns) left := by
  induction ns generalizing loc with
  | nil => cases left <;> simp [walk,walkWith]
  | cons n ns ih =>
    rw [List.map_cons,walk_cons_dir (h _ List.mem_cons_self),ih fun loc' hloc' => h loc' (List.mem_cons_of_mem _ hloc')]
    simp

/-- A path, and names beneath it. -/
def join (path : List Component) (names : List String) : List Component := path ++ names.map .name

theorem join_append (path : List Component) (names names' : List String) :
    join path (names ++ names') = join path names ++ names'.map .name := by
  simp [join]

theorem reverse_join_concat (path : List Component) (names : List String) (n : String) :
    (join path (names ++ [n])).reverse = .name n :: (join path names).reverse := by
  simp [join]

/-- The directory that some names lead to is missing, from a name in `base` on. -/
structure BreaksOff (d : Disk) (root : List Component) (names : List String) (base : Location) (n : String)
    (rest : List String) : Prop where
  reached : ∃ front, names = front ++ n :: rest ∧ d.directory (join root front) = .ok base
  missing : d.node (base ++ [n]) = none

namespace BreaksOff

variable {root : List Component} {names : List String} {base : Location} {n : String} {rest : List String}

theorem canonicalize (hd : d.Closed) (h : d.BreaksOff root names base n rest) :
    d.canonicalize (join root names) = .error .notFound := by
  obtain ⟨front,rfl,hfront⟩ := h.reached
  obtain ⟨⟨left,hwalk⟩,hdir⟩ := directory_eq_ok.1 hfront
  rw [Disk.canonicalize,join_append,walk_append hd maxLinks (by simp) hd.top,hwalk,Walked.andThen,if_pos hdir]
  cases left <;> cases rest <;> simp [walk,walkWith,h.missing]

/-- The disk with the missing directories. -/
theorem extends_withDirs (hd : d.Closed) (h : d.BreaksOff root names base n rest) :
    d.Extends (d.withDirs (dirsBeneath base (n :: rest))) := by
  have hkept : ∀ loc node, d.node loc = some node → (d.withDirs (dirsBeneath base (n :: rest))).node loc = some node := by
    intro loc node hnode
    rw [node_withDirs,if_neg]
    · exact hnode
    · intro hmem
      obtain ⟨front,hne,hpre,rfl⟩ := mem_dirsBeneath.1 hmem
      obtain ⟨m,front,rfl⟩ := List.exists_cons_of_ne_nil hne
      obtain ⟨rfl,-⟩ := List.cons_prefix_cons.1 hpre
      rw [node_beneath hd h.missing] at hnode
      cases hnode
  exact ⟨fun loc => hkept loc _,fun loc _ _ => hkept loc _,fun loc contents hfile => ⟨contents,hkept loc _ hfile⟩⟩

theorem closed_withDirs (hd : d.Closed) (h : d.BreaksOff root names base n rest) :
    (d.withDirs (dirsBeneath base (n :: rest))).Closed := by
  have hext := h.extends_withDirs hd
  refine ⟨hext.dir _ hd.top,fun loc m hnode => ?_⟩
  rw [node_withDirs] at hnode
  split_ifs at hnode with hmem
  · obtain ⟨front,hne,hpre,heq⟩ := mem_dirsBeneath.1 hmem
    obtain ⟨front,m',rfl⟩ := List.eq_nil_or_concat front |>.resolve_left hne
    rw [List.concat_eq_append] at hpre heq
    rw [← List.append_assoc] at heq
    obtain ⟨rfl,-⟩ := List.append_singleton_inj.1 heq
    by_cases hfront : front = []
    · obtain ⟨_,_,hbase⟩ := h.reached
      rw [hfront,List.append_nil]
      exact hext.dir _ (directory_eq_ok.1 hbase).2
    · rw [node_withDirs,if_pos]
      exact mem_dirsBeneath.2 ⟨front,hfront,(List.prefix_append front [m']).trans hpre,rfl⟩
  · exact hext.dir _ (hd.parent loc m hnode)

/-- Then the path leads there. -/
theorem directory_withDirs (hd : d.Closed) (h : d.BreaksOff root names base n rest) :
    (d.withDirs (dirsBeneath base (n :: rest))).directory (join root names) = .ok (base ++ n :: rest) := by
  have hdirs : ∀ loc ∈ dirsBeneath base (n :: rest), (d.withDirs (dirsBeneath base (n :: rest))).node loc = some .dir := by
    intro loc hloc
    rw [node_withDirs,if_pos hloc]
  obtain ⟨front,rfl,hfront⟩ := h.reached
  obtain ⟨⟨left,hwalk⟩,hdir⟩ := directory_eq_ok.1 hfront
  have hext := h.extends_withDirs hd
  refine directory_eq_ok.2 ⟨⟨left,?_⟩,hdirs _ (mem_dirsBeneath.2 ⟨n :: rest,List.cons_ne_nil _ _,List.prefix_rfl,rfl⟩)⟩
  rw [join_append,walk_append (h.closed_withDirs hd) maxLinks (by simp) (hext.dir _ hd.top),walk_extends hext hwalk,
    Walked.andThen,if_pos (hext.dir _ hdir),walk_dirsBeneath hdirs]

theorem node_withDirs_beneath (hd : d.Closed) (h : d.BreaksOff root names base n rest) (m : String) :
    (d.withDirs (dirsBeneath base (n :: rest))).node (base ++ n :: rest ++ [m]) = none := by
  rw [node_withDirs,if_neg]
  · rw [List.append_assoc,List.cons_append]
    exact node_beneath hd h.missing (rest ++ [m])
  · intro hmem
    obtain ⟨front,-,hpre,heq⟩ := mem_dirsBeneath.1 hmem
    have hlength := hpre.length_le
    have hlengths := congrArg List.length heq
    simp at hlength hlengths
    omega

end BreaksOff

variable {root : List Component} {names : List String} {base : Location} {n : String} {rest : List String}

/-- A directory that is there is left alone. -/
theorem createDirAll_of_dir (hd : d.Closed) {path : List Component} {loc : Location} (h : d.directory path = .ok loc) :
    d.createDirAll path.reverse = ⟨d,[],.ok ()⟩ := by
  obtain ⟨⟨left,hwalk⟩,hdir⟩ := directory_eq_ok.1 h
  rcases List.eq_nil_or_concat path with rfl | ⟨front,c,rfl⟩
  · rfl
  · rw [List.concat_eq_append] at hwalk ⊢
    obtain ⟨dir,hparent⟩ := directory_of_walk hd hwalk
    have hmkdir : d.mkdir (c :: front.reverse) = .error .alreadyExists := by
      cases c with
      | up => rw [mkdir,List.reverse_reverse,hparent]; rfl
      | name n =>
        obtain ⟨left',hentry⟩ := walk_entry hd hparent n
        rw [hentry,walk_name] at hwalk
        have hnode : d.node (dir ++ [n]) ≠ none := by
          intro hnone
          rw [hnone] at hwalk
          cases hwalk
        rw [mkdir,List.reverse_reverse,hparent]
        exact if_neg hnode
    have hisDir : d.isDir (c :: front.reverse).reverse = true := by
      rw [List.reverse_cons,List.reverse_reverse,isDir,canonicalize,hwalk]
      exact decide_eq_true hdir
    rw [List.reverse_concat,createDirAll,hmkdir]
    simp only [hisDir,if_true]

/-- The directories that are missing are made one after the other. -/
theorem createDirAll_of_breaksOff (hd : d.Closed) (h : d.BreaksOff root names base n rest) :
    d.createDirAll (join root names).reverse =
      ⟨d.withDirs (dirsBeneath base (n :: rest)),dirsBeneath base (n :: rest),.ok ()⟩ := by
  obtain ⟨front,hnames,hfront⟩ := h.reached
  induction rest using List.reverseRecOn generalizing names with
  | nil =>
    have hmkdir : d.mkdir (.name n :: (join root front).reverse) = .ok (base ++ [n]) := by
      rw [mkdir,List.reverse_reverse,hfront]
      exact if_pos h.missing
    rw [hnames,reverse_join_concat,createDirAll,hmkdir]
    rfl
  | append_singleton rest m ih =>
    have hshort : d.BreaksOff root (front ++ n :: rest) base n rest := ⟨⟨front,rfl,hfront⟩,h.missing⟩
    have hpath : (join root names).reverse = .name m :: (join root (front ++ n :: rest)).reverse := by
      rw [hnames,← List.cons_append,← List.append_assoc,reverse_join_concat]
    have hmkdir : d.mkdir (.name m :: (join root (front ++ n :: rest)).reverse) = .error .notFound := by
      rw [mkdir,List.reverse_reverse,directory,hshort.canonicalize hd]
      rfl
    have hagain : (d.withDirs (dirsBeneath base (n :: rest))).mkdir
        (.name m :: (join root (front ++ n :: rest)).reverse) = .ok (base ++ n :: rest ++ [m]) := by
      rw [mkdir,List.reverse_reverse,hshort.directory_withDirs hd]
      exact if_pos (hshort.node_withDirs_beneath hd m)
    rw [hpath,createDirAll,hmkdir,ih hshort rfl]
    simp only [hagain]
    rw [← List.cons_append,dirsBeneath_concat,withDirs_concat]

/-- A path breaks off in one place. -/
theorem BreaksOff.unique (hd : d.Closed) {base' : Location} {n' : String} {rest' : List String}
    (h : d.BreaksOff root names base n rest) (h' : d.BreaksOff root names base' n' rest') :
    base = base' ∧ n = n' ∧ rest = rest' := by
  have hmade := createDirAll_of_breaksOff hd h
  rw [createDirAll_of_breaksOff hd h'] at hmade
  have hdirs : dirsBeneath base' (n' :: rest') = dirsBeneath base (n :: rest) := congrArg Made.made hmade
  have hfirst : base' ++ [n'] = base ++ [n] := (List.cons.inj hdirs).1
  obtain ⟨rfl,hn⟩ := List.append_inj' hfirst rfl
  obtain rfl := (List.cons.inj hn).1
  have hlast := h.directory_withDirs hd
  rw [← hdirs,h'.directory_withDirs hd] at hlast
  have hnames := List.append_cancel_left (Except.ok.inj hlast)
  exact ⟨rfl,rfl,(List.cons.inj hnames).2.symm⟩

theorem isDir_iff {path : List Component} : d.isDir path = true ↔ ∃ loc, d.directory path = .ok loc := by
  constructor
  · intro h
    rw [isDir] at h
    cases hloc : d.canonicalize path with
    | error e => rw [hloc] at h; cases h
    | ok loc =>
      rw [hloc] at h
      exact ⟨loc,by rw [directory,hloc]; exact if_pos (of_decide_eq_true h)⟩
  · rintro ⟨loc,h⟩
    obtain ⟨⟨left,hwalk⟩,hdir⟩ := directory_eq_ok.1 h
    rw [isDir,canonicalize,hwalk]
    exact decide_eq_true hdir

/-- Where it succeeds the directory was there, or broke off somewhere. -/
theorem createDirAll_ok {top : Location} (hroot : d.directory root = .ok top)
    (h : (d.createDirAll (join root names).reverse).result = .ok ()) :
    (∃ loc, d.directory (join root names) = .ok loc) ∨ ∃ base n rest, d.BreaksOff root names base n rest := by
  induction names using List.reverseRecOn with
  | nil => exact .inl ⟨top,by simpa [join] using hroot⟩
  | append_singleton names m ih =>
    have hisDir : d.isDir (.name m :: (join root names).reverse).reverse = true →
        ∃ loc, d.directory (join root (names ++ [m])) = .ok loc := by
      rw [← reverse_join_concat,List.reverse_reverse]
      exact isDir_iff.1
    rw [reverse_join_concat,createDirAll] at h
    cases hdir : d.directory (join root names) with
    | ok loc =>
      by_cases hnode : d.node (loc ++ [m]) = none
      · exact .inr ⟨loc,m,[],⟨names,rfl,hdir⟩,hnode⟩
      · have hmkdir : d.mkdir (.name m :: (join root names).reverse) = .error .alreadyExists := by
          rw [mkdir,List.reverse_reverse,hdir]
          exact if_neg hnode
        rw [hmkdir] at h
        simp only at h
        split_ifs at h with hthere
        exact .inl (hisDir hthere)
    | error e =>
      have hmkdir : d.mkdir (.name m :: (join root names).reverse) = .error e := by
        rw [mkdir,List.reverse_reverse,hdir]
        rfl
      by_cases he : e = .notFound
      · rw [hmkdir,he] at h
        simp only at h
        cases hbelow : (d.createDirAll (join root names).reverse).result with
        | error e' => rw [hbelow] at h; simp only [hbelow] at h; cases h
        | ok u =>
          rcases ih hbelow with ⟨loc,hloc⟩ | ⟨base,n,rest,hbreaks⟩
          · rw [hdir] at hloc
            cases hloc
          · obtain ⟨front,rfl,hfront⟩ := hbreaks.reached
            exact .inr ⟨base,n,rest ++ [m],⟨front,by simp,hfront⟩,hbreaks.missing⟩
      · have hend : (if d.isDir (.name m :: (join root names).reverse).reverse then Made.mk d [] (.ok ())
            else ⟨d,[],.error e⟩).result = .ok () := by
          rw [hmkdir] at h
          cases e <;> first | exact absurd rfl he | exact h
        split_ifs at hend with hthere
        exact .inl (hisDir hthere)

end Disk

end Rainier
