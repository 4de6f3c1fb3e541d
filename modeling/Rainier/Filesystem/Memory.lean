import Rainier.Filesystem.Local
import Rainier.Support.Keyed

/-! # Files in memory

A file is kept under its normalised path. The provided `copy` and `rename` normalise each of their
paths again at every call they make.
-/
namespace Rainier.Filesystem

/-- `normalise_path`, with the text it answers. -/
def normalised (path : String) : Except Error String := (normalisePath path).map (·.text)

/-- What is stored under each path. When a file was last written is left out. -/
abbrev MemoryFilesystem : Type := String → Option (List UInt8)

namespace MemoryFilesystem

/-- What a call answers, and the files it leaves. -/
abbrev Answer (α : Type) : Type := Except Error α × MemoryFilesystem

variable (files : MemoryFilesystem)

def get (path : String) : Answer (Option (List UInt8)) := ((normalised path).map files,files)

def put (path : String) (contents : List UInt8) : Answer Unit :=
  match normalised path with
  | .error e => (.error e,files)
  | .ok path => (.ok (),Function.update files path (some contents))

def delete (path : String) : Answer Bool :=
  match normalised path with
  | .error e => (.error e,files)
  | .ok path => (.ok (files path).isSome,Function.update files path none)

def exists_ (path : String) : Answer Bool := ((normalised path).map fun path => (files path).isSome,files)

/-- The provided method, which reads and then writes. -/
def copy (path path' : String) : Answer Unit :=
  match files.get path with
  | (.error e,files) => (.error e,files)
  | (.ok none,files) => (.error (.notFound ("`" ++ path ++ "` does not exist")),files)
  | (.ok (some contents),files) => files.put path' contents

def rename (path path' : String) : Answer Unit :=
  match files.copy path path' with
  | (.error e,files) => (.error e,files)
  | (.ok _,files) =>
    match files.delete path with
    | (.error e,files) => (.error e,files)
    | (.ok _,files) => (.ok (),files)

/-- A file is moved: what is under the second path is what was under the first one, where nothing is left. -/
def move (from_ to_ : String) : MemoryFilesystem :=
  Function.update (Function.update files from_ none) to_ (files from_)

end MemoryFilesystem

open MemoryFilesystem

-- The equations are derived here, before the proofs that rewrite with them.
section
attribute [local simp] MemoryFilesystem.get put delete exists_ copy rename
end

variable {files : MemoryFilesystem} {path path' p p' q : String} {e : Error}

/-! ## One call -/

theorem get_eq (h : normalised path = .ok p) : files.get path = (.ok (files p),files) := by
  simp only [MemoryFilesystem.get,h,Except.map]

theorem put_eq (h : normalised path = .ok p) (contents : List UInt8) :
    files.put path contents = (.ok (),Function.update files p (some contents)) := by
  simp only [put,h]

theorem delete_eq (h : normalised path = .ok p) :
    files.delete path = (.ok (files p).isSome,Function.update files p none) := by
  simp only [delete,h]

theorem exists_eq (h : normalised path = .ok p) : files.exists_ path = (.ok (files p).isSome,files) := by
  simp only [exists_,h,Except.map]

/-- A call that writes concerns the one path it normalises. -/
theorem put_local (h : normalised path = .ok p) (contents : List UInt8) :
    Keyed.Local p fun files : MemoryFilesystem => files.put path contents where
  answer files files' _ := by rw [put_eq h,put_eq h]
  entry files files' _ := by simp only [put_eq h,Function.update_self]
  frame files q hne := by simp only [put_eq h,Function.update_of_ne hne]

theorem delete_local (h : normalised path = .ok p) : Keyed.Local p fun files : MemoryFilesystem => files.delete path where
  answer files files' he := by simp only [delete_eq h,he]
  entry files files' _ := by simp only [delete_eq h,Function.update_self]
  frame files q hne := by simp only [delete_eq h,Function.update_of_ne hne]

theorem put_frame (hq : normalised path ≠ .ok q) (contents : List UInt8) : (files.put path contents).2 q = files q := by
  cases h : normalised path with
  | error e => simp only [put,h]
  | ok p =>
    have hne : q ≠ p := fun he => hq (he ▸ h)
    exact (put_local h contents).frame files q hne

theorem delete_frame (hq : normalised path ≠ .ok q) : (files.delete path).2 q = files q := by
  cases h : normalised path with
  | error e => simp only [delete,h]
  | ok p =>
    have hne : q ≠ p := fun he => hq (he ▸ h)
    exact (delete_local h).frame files q hne

/-! ## Copying and renaming -/

theorem copy_error (h : normalised path = .error e) : files.copy path path' = (.error e,files) := by
  simp only [copy,MemoryFilesystem.get,h,Except.map]

theorem copy_missing (h : normalised path = .ok p) (hp : files p = none) :
    files.copy path path' = (.error (.notFound ("`" ++ path ++ "` does not exist")),files) := by
  simp only [copy,get_eq h,hp]

theorem copy_found (h : normalised path = .ok p) {contents : List UInt8} (hp : files p = some contents) :
    files.copy path path' = files.put path' contents := by
  simp only [copy,get_eq h,hp]

/-- A copy that is refused has written nothing. -/
theorem copy_refused (h : (files.copy path path').1 = .error e) : files.copy path path' = (.error e,files) := by
  cases hfrom : normalised path with
  | error e' =>
    rw [copy_error hfrom] at h ⊢
    rw [Except.error.inj h]
  | ok p =>
    cases hp : files p with
    | none =>
      rw [copy_missing hfrom hp] at h ⊢
      rw [Except.error.inj h]
    | some contents =>
      rw [copy_found hfrom hp] at h ⊢
      unfold put at h ⊢
      cases hto : normalised path' with
      | error e' =>
        rw [hto] at h
        rw [Except.error.inj h]
      | ok p' =>
        rw [hto] at h
        cases h

/-- A copy that succeeds has found a file, and both paths are good. -/
theorem copy_done (h : (files.copy path path').1 = .ok ()) :
    ∃ p p' contents, normalised path = .ok p ∧ normalised path' = .ok p' ∧ files p = some contents ∧
      files.copy path path' = (.ok (),Function.update files p' (some contents)) := by
  cases hfrom : normalised path with
  | error e' =>
    rw [copy_error hfrom] at h
    cases h
  | ok p =>
    cases hp : files p with
    | none =>
      rw [copy_missing hfrom hp] at h
      cases h
    | some contents =>
      rw [copy_found hfrom hp] at h ⊢
      cases hto : normalised path' with
      | error e' =>
        rw [put,hto] at h
        cases h
      | ok p' => exact ⟨p,p',contents,rfl,rfl,hp,put_eq hto contents⟩

theorem rename_refused (h : (files.copy path path').1 = .error e) : files.rename path path' = (.error e,files) := by
  simp only [rename,copy_refused h]

/-- What was copied is deleted under the first path, whichever path it was copied to. -/
theorem rename_done (h : (files.copy path path').1 = .ok ()) :
    ∃ p p' contents, normalised path = .ok p ∧ normalised path' = .ok p' ∧ files p = some contents ∧
      files.rename path path' = (.ok (),Function.update (Function.update files p' (some contents)) p none) := by
  obtain ⟨p,p',contents,hp,hp',hfound,hcopy⟩ := copy_done h
  exact ⟨p,p',contents,hp,hp',hfound,by simp only [rename,hcopy,delete_eq hp]⟩

/-- Between two files a rename is a move. -/
theorem rename_eq_move (hp : normalised path = .ok p) (hp' : normalised path' = .ok p') (hne : p ≠ p')
    (hfound : files p ≠ none) : files.rename path path' = (.ok (),files.move p p') := by
  obtain ⟨contents,hcontents⟩ := Option.ne_none_iff_exists'.1 hfound
  have hcopy : (files.copy path path').1 = .ok () := by rw [copy_found hp hcontents,put_eq hp']
  obtain ⟨q,q',found,hq,hq',hqfound,hrename⟩ := rename_done hcopy
  cases hp.symm.trans hq
  cases hp'.symm.trans hq'
  rw [hrename,move,Function.update_comm hne,hqfound]

/-- From a file to itself, by any two spellings of it, a rename is a deletion. -/
theorem rename_eq_delete (hp : normalised path = .ok p) (hp' : normalised path' = .ok p) (hfound : files p ≠ none) :
    files.rename path path' = (.ok (),Function.update files p none) := by
  obtain ⟨contents,hcontents⟩ := Option.ne_none_iff_exists'.1 hfound
  have hcopy : (files.copy path path').1 = .ok () := by rw [copy_found hp hcontents,put_eq hp']
  obtain ⟨q,q',found,hq,hq',hqfound,hrename⟩ := rename_done hcopy
  cases hp.symm.trans hq
  cases hp'.symm.trans hq'
  rw [hrename,Function.update_idem]

/-- Nothing is lost by a rename: what it answers is followed by the files there must be. -/
def LosesNothing (files : MemoryFilesystem) (path path' : String) : Prop :=
  match files.rename path path' with
  | (.error _,after) => after = files
  | (.ok (),after) =>
    (after.get path').1 = (files.get path).1 ∧
    (∀ q, normalised path ≠ .ok q → normalised path' ≠ .ok q → after q = files q) ∧
    (normalised path ≠ normalised path' → (after.exists_ path).1 = .ok false)

/-- A rename leaves every path but its two as it was, whatever it answers. -/
theorem rename_frame (hq : normalised path ≠ .ok q) (hq' : normalised path' ≠ .ok q) :
    (files.rename path path').2 q = files q := by
  cases hcopy : (files.copy path path').1 with
  | error e => rw [rename_refused hcopy]
  | ok _ =>
    obtain ⟨p,p',contents,hp,hp',hfound,hdone⟩ := copy_done hcopy
    have hput : (files.put path' contents).2 q = files q := put_frame hq' contents
    rw [put_eq hp'] at hput
    have hdelete := @delete_frame (Function.update files p' (some contents)) path q hq
    simp only [rename,hdone,delete_eq hp] at hdelete ⊢
    exact hdelete.trans hput

theorem losesNothing_move (hp : normalised path = .ok p) (hp' : normalised path' = .ok p') (hne : p ≠ p')
    (hfound : files p ≠ none) : LosesNothing files path path' := by
  have hmove := rename_eq_move hp hp' hne hfound
  simp only [LosesNothing,hmove]
  refine ⟨?_,?_,?_⟩
  · rw [get_eq hp,get_eq hp',move,Function.update_self]
  · intro q hq hq'
    have hframe : (files.rename path path').2 q = files q := rename_frame hq hq'
    rwa [hmove] at hframe
  · intro _
    rw [exists_eq hp,move,Function.update_of_ne hne,Function.update_self]
    rfl

/-- The deleted file is not under the second path afterwards, nor anywhere else. -/
theorem not_losesNothing (hp : normalised path = .ok p) (hp' : normalised path' = .ok p) (hfound : files p ≠ none) :
    ¬ LosesNothing files path path' := by
  intro h
  simp only [LosesNothing,rename_eq_delete hp hp' hfound] at h
  have hget := h.1
  rw [get_eq hp,get_eq hp',Function.update_self] at hget
  exact hfound (Except.ok.inj hget).symm

/-- A rename loses nothing unless both paths are the path of one file that is there: that file is deleted. -/
theorem losesNothing_iff (files : MemoryFilesystem) (path path' : String) :
    LosesNothing files path path' ↔
      ¬ ∃ p, normalised path = .ok p ∧ normalised path' = .ok p ∧ files p ≠ none := by
  constructor
  · rintro h ⟨p,hp,hp',hfound⟩
    exact not_losesNothing hp hp' hfound h
  · intro h
    cases hcopy : (files.copy path path').1 with
    | error e => simp only [LosesNothing,rename_refused hcopy]
    | ok _ =>
      obtain ⟨p,p',contents,hp,hp',hfound,-⟩ := copy_done hcopy
      have hthere : files p ≠ none := by simp [hfound]
      refine losesNothing_move hp hp' ?_ hthere
      rintro rfl
      exact h ⟨p,hp,hp',hthere⟩

/-- A file renamed to another spelling of its own path. -/
theorem renamed_to_itself :
    ¬ LosesNothing (fun p => if p = "logs/today" then some [104,105] else none) "logs/today" "logs//today" := by
  have hp : normalised "logs/today" = .ok "logs/today" := by
    rw [normalised,normalisePath,slashes_eq_self (by decide)]
    decide
  have hp' : normalised "logs//today" = .ok "logs/today" := by
    rw [normalised,normalisePath,slashes_eq_self (by decide)]
    decide
  exact not_losesNothing hp hp' (by simp)

end Rainier.Filesystem
