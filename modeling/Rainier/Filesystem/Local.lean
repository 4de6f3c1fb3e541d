import Mathlib.Data.List.Sort
import Mathlib.Data.String.Basic
import Rainier.Support.Disk
import Rainier.Support.Error
import Rainier.Support.Split

/-! # Files under a root directory

Every call takes the disk as it stands and answers with the disk it leaves, together with the real
locations of what it reported on, created, replaced or removed.
-/
namespace Rainier.Filesystem

/-! ## Storage paths -/

/-- A normalised path: the names before the last one, and the last one. -/
structure StoragePath where
  directory : List String
  name : String
  deriving DecidableEq, Repr

namespace StoragePath

def segments (p : StoragePath) : List String := p.directory ++ [p.name]

def text (p : StoragePath) : String := Text.join '/' p.segments

end StoragePath

/-- The loop over the pieces of a path. -/
def keepSegments : List String → Except Error (List String)
  | [] => .ok []
  | segment :: rest =>
    if segment = "" ∨ segment = "." then keepSegments rest
    else if segment = ".." then
      .error (.badRequest ("a storage path must not contain `..`; it is either an attempt to escape " ++
        "the root or a path that was built wrong"))
    else do
      let kept ← keepSegments rest
      return segment :: kept

def normalisePath (path : String) : Except Error StoragePath := do
  let segments ← keepSegments (Text.split '/' (path.map fun c => if c = '\\' then '/' else c))
  match segments.reverse with
  | [] => throw (.badRequest "a storage path must not be empty")
  | name :: directory =>
    if '\x00' ∈ (Text.join '/' segments).toList then throw (.badRequest "a storage path must not contain a NUL byte")
    else return ⟨directory.reverse,name⟩

theorem slashes_eq_self {path : String} (h : '\\' ∉ path.toList) : path.map (fun c => if c = '\\' then '/' else c) = path := by
  apply String.toList_injective
  rw [String.toList_map]
  conv_rhs => rw [← List.map_id path.toList]
  apply List.map_congr_left
  intro c hc
  have hne : c ≠ '\\' := by
    rintro rfl
    exact h hc
  exact if_neg hne

theorem keepSegments_plain {pieces kept : List String} (h : keepSegments pieces = .ok kept) :
    ∀ segment ∈ kept, segment ∈ pieces ∧ segment ≠ "" ∧ segment ≠ "." ∧ segment ≠ ".." := by
  induction pieces generalizing kept with
  | nil =>
    cases h
    simp
  | cons piece pieces ih =>
    rw [keepSegments] at h
    split_ifs at h with hnoise hup
    · intro segment hsegment
      obtain ⟨hmem,hplain⟩ := ih h segment hsegment
      exact ⟨List.mem_cons_of_mem _ hmem,hplain⟩
    · obtain ⟨rest,hrest,h⟩ := bind_eq_ok.1 h
      cases h
      rintro segment (_ | ⟨_,hsegment⟩)
      · exact ⟨List.mem_cons_self,fun h => hnoise (.inl h),fun h => hnoise (.inr h),hup⟩
      · obtain ⟨hmem,hplain⟩ := ih hrest segment hsegment
        exact ⟨List.mem_cons_of_mem _ hmem,hplain⟩

theorem normalisePath_eq_ok {path : String} {p : StoragePath} (h : normalisePath path = .ok p) :
    keepSegments (Text.split '/' (path.map fun c => if c = '\\' then '/' else c)) = .ok p.segments := by
  obtain ⟨segments,hsegments,h⟩ := bind_eq_ok.1 h
  rw [hsegments]
  cases hreverse : segments.reverse with
  | nil => rw [hreverse] at h; cases h
  | cons name directory =>
    rw [hreverse] at h
    simp only at h
    split_ifs at h
    cases h
    rw [StoragePath.segments,← List.reverse_cons,← hreverse,List.reverse_reverse]

/-- The components of what is joined to the root: every piece of the text is one, and goes down. -/
theorem split_text {path : String} {p : StoragePath} (h : normalisePath path = .ok p) :
    Text.split '/' p.text = p.segments ∧ ∀ segment ∈ p.segments, segment ≠ "" ∧ segment ≠ "." ∧ segment ≠ ".." := by
  have hplain := keepSegments_plain (normalisePath_eq_ok h)
  constructor
  · apply Text.split_join
    · simp [StoragePath.segments]
    · intro segment hsegment
      exact Text.not_mem_of_mem_split (hplain segment hsegment).1
  · intro segment hsegment
    exact (hplain segment hsegment).2

/-- `str::trim_matches` with a slash. -/
def trimSlashes (s : String) : String :=
  String.ofList ((s.toList.dropWhile (· = '/')).reverse.dropWhile (· = '/')).reverse

/-- A listing prefix, which unlike a path may be empty. -/
def normalisePrefix (given : String) : Except Error (List String) :=
  if trimSlashes given = "" then return []
  else do
    let p ← normalisePath (trimSlashes given)
    return p.segments

/-! ## The driver -/

structure Metadata where
  path : String
  size : ℕ
  deriving DecidableEq, Repr

structure Outcome (α : Type) where
  result : Except Error α
  disk : Disk
  touched : List Location

namespace Outcome

def refused {α : Type} (e : Error) (d : Disk) : Outcome α := ⟨.error e,d,[]⟩

def map {α β : Type} (f : α → β) (o : Outcome α) : Outcome β := ⟨o.result.map f,o.disk,o.touched⟩

end Outcome

/-- The message of the operating system is not passed on, for it may name the directories of a deployment. -/
def ioError (action path : String) (e : Disk.IoKind) : Error :=
  .internal ("could not " ++ action ++ " `" ++ path ++ "`: " ++ e.text)

/-- `Path::extension`, and what stands before it: a dot at the start of a name begins no extension. -/
def splitExtension (name : String) : String × String :=
  let after := name.toList.reverse.takeWhile (· ≠ '.')
  match name.toList.reverse.dropWhile (· ≠ '.') with
  | [] | [_] => (name,"")
  | _ :: before => (String.ofList before.reverse,String.ofList after.reverse)

/-- The name that a file is written under before it is renamed. -/
def temporaryName (name : String) : String :=
  (splitExtension name).1 ++ "." ++ (splitExtension name).2 ++ ".rainier-tmp"

/-- The root is given from the top of the disk. -/
structure LocalFilesystem where
  root : List Component

namespace LocalFilesystem

variable (fs : LocalFilesystem) (d : Disk)

def parent (p : StoragePath) : List Component := Disk.join fs.root p.directory

def joined (p : StoragePath) : List Component := Disk.join fs.root p.segments

/-- The second guard. It compares the real parent, where there is one. -/
def resolve (path : String) : Except Error StoragePath := do
  let p ← normalisePath path
  match d.canonicalize fs.root,d.canonicalize (fs.parent p) with
  | .ok canonicalRoot,.ok canonicalParent =>
    if canonicalRoot <+: canonicalParent then return p
    else throw (.badRequest "that storage path resolves outside the filesystem root")
  | _,_ => return p

/-- A directory is not a file. -/
def readMetadata (path : String) (resolved : List Component) : Outcome (Option Metadata) :=
  match d.canonicalize resolved with
  | .ok loc =>
    match d.node loc with
    | some (.file contents) => ⟨(normalisePath path).map fun p => some ⟨p.text,contents.length⟩,d,[loc]⟩
    | _ => ⟨.ok none,d,[loc]⟩
  | .error .notFound => ⟨.ok none,d,[]⟩
  | .error e => .refused (ioError "read metadata for" path e) d

def metadata (path : String) : Outcome (Option Metadata) :=
  match fs.resolve d path with
  | .error e => .refused e d
  | .ok p => readMetadata d path (fs.joined p)

def exists_ (path : String) : Outcome Bool := (fs.metadata d path).map (·.isSome)

/-- The file is read after its metadata. -/
def get (path : String) : Outcome (Option (List UInt8)) :=
  match fs.resolve d path with
  | .error e => .refused e d
  | .ok p =>
    let known := readMetadata d path (fs.joined p)
    match known.result with
    | .error e => ⟨.error e,d,known.touched⟩
    | .ok none => ⟨.ok none,d,known.touched⟩
    | .ok (some _) =>
      match d.canonicalize (fs.joined p) with
      | .ok loc =>
        match d.node loc with
        | some (.file contents) => ⟨.ok (some contents),d,known.touched ++ [loc]⟩
        | _ => ⟨.error (ioError "read" path .isADirectory),d,known.touched⟩
      | .error .notFound => ⟨.ok none,d,known.touched⟩
      | .error e => ⟨.error (ioError "read" path e),d,known.touched⟩

/-- What the callback is given, put together, and nothing where there is no file. A directory is
opened, and then cannot be read. -/
def readChunks (path : String) : Outcome (Option (List UInt8)) :=
  match fs.resolve d path with
  | .error e => .refused e d
  | .ok p =>
    match d.canonicalize (fs.joined p) with
    | .ok loc =>
      match d.node loc with
      | some (.file contents) => ⟨.ok (some contents),d,[loc]⟩
      | _ => ⟨.error (ioError "read" path .isADirectory),d,[loc]⟩
    | .error .notFound => ⟨.ok none,d,[]⟩
    | .error .isADirectory => ⟨.ok none,d,[]⟩
    | .error e => .refused (ioError "open" path e) d

/-- The temporary file is renamed over the one that was there, and removed where that fails. -/
def replace (path : String) (p : StoragePath) (contents : List UInt8) : Outcome Unit :=
  match d.write (fs.parent p ++ [.name (temporaryName p.name)]) with
  | .error e => .refused (ioError "write" path e) d
  | .ok temporary =>
    let written := d.set temporary (.file contents)
    match written.rename (fs.parent p) (temporaryName p.name) (fs.parent p) p.name with
    | .ok (source,target) => ⟨.ok (),written.move source target,[temporary,source,target]⟩
    | .error e =>
      match written.unlink (fs.parent p) (temporaryName p.name) with
      | .ok loc => ⟨.error (ioError "write" path e),written.erase loc,[temporary,loc]⟩
      | .error _ => ⟨.error (ioError "write" path e),written,[temporary]⟩

def put (path : String) (contents : List UInt8) : Outcome Unit :=
  match fs.resolve d path with
  | .error e => .refused e d
  | .ok p =>
    let below := d.createDirAll (fs.parent p).reverse
    match below.result with
    | .error e => ⟨.error (ioError "create the directory for" path e),below.disk,below.made⟩
    | .ok _ =>
      let stored := fs.replace below.disk path p contents
      { stored with touched := below.made ++ stored.touched }

def delete (path : String) : Outcome Bool :=
  match fs.resolve d path with
  | .error e => .refused e d
  | .ok p =>
    match d.unlink (fs.parent p) p.name with
    | .ok loc => ⟨.ok true,d.erase loc,[loc]⟩
    | .error .notFound => ⟨.ok false,d,[]⟩
    | .error e => .refused (ioError "delete" path e) d

/-- The names in a directory, and the locations that are read for them: its own, and that of every
node in it. Links are not followed there. -/
def readDir (action given : String) (segments : List String) : Outcome (Location × List String) :=
  match d.canonicalize (Disk.join fs.root segments) with
  | .ok loc =>
    if d.node loc = some .dir then ⟨.ok (loc,d.children loc),d,loc :: (d.children loc).map (loc ++ [·])⟩
    else .refused (ioError action given .notADirectory) d
  | .error .notFound => ⟨.ok ([],[]),d,[]⟩
  | .error e => .refused (ioError action given e) d

/-- The path of a name in a listing. -/
def listed (segments : List String) (name : String) : String := Text.join '/' (segments ++ [name])

def list (given : String) : Outcome (List Metadata) :=
  match normalisePrefix given with
  | .error e => .refused e d
  | .ok segments => (fs.readDir d "list" given segments).map fun entries =>
    let files := entries.2.filterMap fun name =>
      match d.node (entries.1 ++ [name]) with
      | some (.file contents) =>
        -- the half-written files of `put` are not stored files
        if ".rainier-tmp".toList <:+ name.toList then none else some ⟨listed segments name,contents.length⟩
      | _ => none
    files.mergeSort fun a b => decide (a.path ≤ b.path)

def directories (given : String) : Outcome (List String) :=
  match normalisePrefix given with
  | .error e => .refused e d
  | .ok segments => (fs.readDir d "list the directories under" given segments).map fun entries =>
    let names := entries.2.filter fun name => d.node (entries.1 ++ [name]) = some .dir
    (names.map (listed segments)).mergeSort fun a b => decide (a ≤ b)

/-- Both paths are resolved before the directory of the second one is made. -/
def rename (path path' : String) : Outcome Unit :=
  match fs.resolve d path with
  | .error e => .refused e d
  | .ok p =>
    match fs.resolve d path' with
    | .error e => .refused e d
    | .ok p' =>
      let below := d.createDirAll (fs.parent p').reverse
      match below.result with
      | .error e => ⟨.error (ioError "create the directory for" path' e),below.disk,below.made⟩
      | .ok _ =>
        match below.disk.rename (fs.parent p) p.name (fs.parent p') p'.name with
        | .ok (source,target) => ⟨.ok (),below.disk.move source target,below.made ++ [source,target]⟩
        | .error .notFound => ⟨.error (.notFound ("`" ++ path ++ "` does not exist")),below.disk,below.made⟩
        | .error e => ⟨.error (ioError "move" path e),below.disk,below.made⟩

end LocalFilesystem

/-! ## Calls -/

inductive Call where
  | get (path : String)
  | readChunks (path : String)
  | put (path : String) (contents : List UInt8)
  | delete (path : String)
  | exists_ (path : String)
  | metadata (path : String)
  | list (given : String)
  | directories (given : String)
  | rename (path path' : String)
  deriving DecidableEq, Repr

inductive Reply where
  | contents (bytes : Option (List UInt8))
  | done
  | flag (b : Bool)
  | entry (m : Option Metadata)
  | entries (ms : List Metadata)
  | names (ns : List String)
  deriving DecidableEq, Repr

def LocalFilesystem.run (fs : LocalFilesystem) (d : Disk) : Call → Outcome Reply
  | .get path => (fs.get d path).map .contents
  | .readChunks path => (fs.readChunks d path).map .contents
  | .put path contents => (fs.put d path contents).map fun _ => .done
  | .delete path => (fs.delete d path).map .flag
  | .exists_ path => (fs.exists_ d path).map .flag
  | .metadata path => (fs.metadata d path).map .entry
  | .list given => (fs.list d given).map .entries
  | .directories given => (fs.directories d given).map .names
  | .rename path path' => (fs.rename d path path').map fun _ => .done

end Rainier.Filesystem
