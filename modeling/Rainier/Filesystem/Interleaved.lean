import Mathlib.Data.List.TakeDrop
import Rainier.Filesystem.Local
import Rainier.Support.Trace

/-! # Reading while files are written

Any number of calls put and get files at the same time, one operation of the file system at a time. A
file is written under its temporary name and then renamed. That name depends on the path alone, so two
calls may have the same one, and it may itself be the path of a call.
-/
namespace Rainier.Filesystem.Interleaved
open Function

/-! ## Files -/

/-- Names, and the files behind them. -/
structure Files where
  names : StoragePath → Option ℕ
  contents : ℕ → List UInt8
  next : ℕ
  /-- Whether a file was there before or has been renamed into its place. No operation looks at it. -/
  settled : ℕ → Bool

namespace Files

/-- `File::create`: a file that is there is truncated. -/
def create (f : Files) (name : StoragePath) : Files × ℕ :=
  match f.names name with
  | some file => ({ f with contents := update f.contents file [], settled := update f.settled file false },file)
  | none =>
    (⟨update f.names name (some f.next),update f.contents f.next [],f.next + 1,update f.settled f.next false⟩,f.next)

/-- A write at an offset. What lies between the end of the file and the offset is filled with zeros. -/
def write (f : Files) (file offset : ℕ) (bytes : List UInt8) : Files :=
  let old := f.contents file
  let before := old.take offset ++ List.replicate (offset - old.length) 0
  { f with contents := update f.contents file (before ++ bytes ++ old.drop (offset + bytes.length)) }

def rename (f : Files) (source target : StoragePath) : Option Files :=
  match f.names source with
  | none => none
  | some file =>
    some { f with names := update (update f.names source none) target (some file), settled := update f.settled file true }

def remove (f : Files) (name : StoragePath) : Files := { f with names := update f.names name none }

end Files

/-! ## Calls -/

/-- The name a file is written under. -/
def temporary (p : StoragePath) : StoragePath := ⟨p.directory,temporaryName p.name⟩

/-- How far a call has come. -/
inductive Phase where
  | idle
  | opening (p : StoragePath) (contents : List UInt8)
  | writing (p : StoragePath) (contents : List UInt8) (file written : ℕ)
  | removing (p : StoragePath) (file : ℕ)
  | stored (p : StoragePath) (contents : List UInt8)
  | looking (p : StoragePath)
  | checked (p : StoragePath)
  | reading (p : StoragePath) (file : ℕ) (bytes : List UInt8)
  | found (p : StoragePath) (contents : List UInt8)
  | missing (p : StoragePath)
  | failed
  deriving DecidableEq

/-- What a call is asked for, and then how each of its operations ends: with so many bytes moved, where
it moves bytes, or in an error. -/
inductive Label where
  | put (path : String) (contents : List UInt8)
  | get (path : String)
  | go (bytes : ℕ)
  | fail

/-- The next operation of a call. -/
def advance (f : Files) : Phase → Label → Files × Phase
  | .idle, .put path contents =>
    match normalisePath path with
    | .error _ => (f,.failed)
    | .ok p => (f,.opening p contents)
  | .idle, .get path =>
    match normalisePath path with
    | .error _ => (f,.failed)
    | .ok p => (f,.looking p)
  | .opening p contents, .go _ =>
    let made := f.create (temporary p)
    (made.1,.writing p contents made.2 0)
  | .opening _ _, .fail => (f,.failed)
  | .writing p contents file written, .go bytes =>
    if written < contents.length then
      let chunk := (contents.drop written).take bytes
      (f.write file written chunk,.writing p contents file (written + chunk.length))
    else
      match f.rename (temporary p) p with
      | some f' => (f',.stored p contents)
      | none => (f,.removing p file)
  -- what a write that fails leaves behind stays where it is; a rename that fails is cleaned up after
  | .writing p contents file written, .fail => if written < contents.length then (f,.failed) else (f,.removing p file)
  | .removing p _, .go _ => (f.remove (temporary p),.failed)
  | .removing _ _, .fail => (f,.failed)
  | .looking p, .go _ =>
    match f.names p with
    | none => (f,.missing p)
    | some _ => (f,.checked p)
  | .checked p, .go _ =>
    match f.names p with
    | none => (f,.missing p)
    | some file => (f,.reading p file [])
  | .reading p file bytes, .go more =>
    if bytes.length < (f.contents file).length then (f,.reading p file (bytes ++ ((f.contents file).drop bytes.length).take more))
    else (f,.found p bytes)
  | .looking _, .fail => (f,.failed)
  | .checked _, .fail => (f,.failed)
  | .reading _ _ _, .fail => (f,.failed)
  | phase, _ => (f,phase)

structure System where
  files : Files
  calls : ℕ → Phase

def step (s : System) (a : ℕ × Label) : System :=
  let done := advance s.files (s.calls a.1) a.2
  ⟨done.1,update s.calls a.1 done.2⟩

/-- The call has a temporary file open, or is about to remove it. -/
def Phase.Holds (file : ℕ) : Phase → Prop
  | .writing _ _ file' _ => file' = file
  | .removing _ file' => file' = file
  | _ => False

/-- No step makes a temporary file of one that another call has open or that is in its place, renames
onto one that a call has open, or opens one for reading. -/
def Apart (s : System) (a : ℕ × Label) : Prop :=
  match s.calls a.1,a.2 with
  | .opening p _, .go _ => ∀ file, s.files.names (temporary p) = some file → s.files.settled file = false ∧ ∀ j, ¬(s.calls j).Holds file
  | .writing p contents _ written, .go _ =>
    written < contents.length ∨ ∀ file, s.files.names p = some file → ∀ j, ¬(s.calls j).Holds file
  | .checked p, .go _ => ∀ file, s.files.names p = some file → s.files.settled file = true
  | _, _ => True

/-- What was there under a path before any call, or what a call has put there. -/
def Whole (start : Files) (s : System) (p : StoragePath) (contents : List UInt8) : Prop :=
  (∃ file, start.names p = some file ∧ start.contents file = contents) ∨ ∃ j, s.calls j = .stored p contents

/-- Every name has a file of its own, and all files are in their places. -/
structure Settled (start : Files) : Prop where
  injective : ∀ p q file, start.names p = some file → start.names q = some file → p = q
  bounded : ∀ p file, start.names p = some file → file < start.next
  settled : ∀ p file, start.names p = some file → start.settled file = true

def begin_ (start : Files) : System := ⟨start,fun _ => .idle⟩

/-! ## The invariant -/

structure Inv (start : Files) (s : System) : Prop where
  injective : ∀ p q file, s.files.names p = some file → s.files.names q = some file → p = q
  bounded : ∀ p file, s.files.names p = some file → file < s.files.next
  writing : ∀ j p contents file written, s.calls j = .writing p contents file written →
    s.files.names (temporary p) = some file ∧ s.files.settled file = false ∧ s.files.contents file = contents.take written
  removing : ∀ j p file, s.calls j = .removing p file → s.files.names (temporary p) = some file ∧ s.files.settled file = false
  alone : ∀ i j file, (s.calls i).Holds file → (s.calls j).Holds file → i = j
  whole : ∀ p file, s.files.names p = some file → s.files.settled file = true → Whole start s p (s.files.contents file)
  reading : ∀ j p file bytes, s.calls j = .reading p file bytes → file < s.files.next ∧ s.files.settled file = true ∧
    bytes <+: s.files.contents file ∧ Whole start s p (s.files.contents file)
  found : ∀ j p contents, s.calls j = .found p contents → Whole start s p contents

theorem inv_begin {start : Files} (h : Settled start) : Inv start (begin_ start) where
  injective := h.injective
  bounded := h.bounded
  writing j p contents file written hcall := by cases hcall
  removing j p file hcall := by cases hcall
  alone i j file hi _ := hi.elim
  whole p file hname _ := .inl ⟨file,hname,rfl⟩
  reading j p file bytes hcall := by cases hcall
  found j p contents hcall := by cases hcall

variable {start : Files} {s : System} {i j file : ℕ} {p q : StoragePath} {contents : List UInt8} {x : Label} {phase : Phase}

/-- A call that is through stays so. -/
theorem step_stored (h : s.calls j = .stored p contents) (a : ℕ × Label) : (step s a).calls j = .stored p contents := by
  rw [step]
  by_cases hj : j = a.1
  · subst hj
    simp [h,advance]
  · simp [hj,h]

theorem Whole.step (h : Whole start s p contents) (a : ℕ × Label) : Whole start (step s a) p contents := by
  obtain h | ⟨j,h⟩ := h
  · exact .inl h
  · exact .inr ⟨j,step_stored h a⟩

/-! ## Steps -/

/-- A call that has no file in its hands and none to show. -/
def Phase.Plain : Phase → Prop
  | .idle | .opening _ _ | .looking _ | .checked _ | .missing _ | .failed => True
  | .writing _ _ _ _ | .removing _ _ | .stored _ _ | .reading _ _ _ | .found _ _ => False

/-- The call goes on to another phase. -/
def System.move (s : System) (i : ℕ) (files : Files) (phase : Phase) : System := ⟨files,update s.calls i phase⟩

theorem calls_move (s : System) (i : ℕ) (files : Files) (phase : Phase) (j : ℕ) :
    (s.move i files phase).calls j = if j = i then phase else s.calls j := by
  simp only [System.move,update_apply]

theorem Whole.move (h : Whole start s p contents) (hnot : ∀ p contents, s.calls i ≠ .stored p contents) (files : Files)
    (phase : Phase) : Whole start (s.move i files phase) p contents := by
  obtain h | ⟨j,h⟩ := h
  · exact .inl h
  · refine .inr ⟨j,?_⟩
    rw [calls_move,if_neg]
    · exact h
    · rintro rfl
      exact hnot _ _ h

/-- The files stay as they are, and the call holds at most what it held. -/
theorem Inv.keep (h : Inv start s) (hnot : ∀ p contents, s.calls i ≠ .stored p contents)
    (hwriting : ∀ p contents file written, phase = .writing p contents file written → False)
    (hremoving : ∀ p file, phase = .removing p file →
      s.files.names (temporary p) = some file ∧ s.files.settled file = false ∧ (s.calls i).Holds file)
    (hreading : ∀ p file bytes, phase = .reading p file bytes → file < s.files.next ∧ s.files.settled file = true ∧
      bytes <+: s.files.contents file ∧ Whole start s p (s.files.contents file))
    (hfound : ∀ p contents, phase = .found p contents → Whole start s p contents) :
    Inv start (s.move i s.files phase) where
  injective := h.injective
  bounded := h.bounded
  writing j p contents file written hcall := by
    rw [calls_move] at hcall
    split_ifs at hcall
    · exact (hwriting _ _ _ _ hcall).elim
    · exact h.writing j p contents file written hcall
  removing j p file hcall := by
    rw [calls_move] at hcall
    split_ifs at hcall
    · exact ⟨(hremoving _ _ hcall).1,(hremoving _ _ hcall).2.1⟩
    · exact h.removing j p file hcall
  alone := by
    have hholds : ∀ j file, ((s.move i s.files phase).calls j).Holds file → (s.calls j).Holds file := by
      intro j file hj
      rw [calls_move] at hj
      split_ifs at hj with hji
      · subst hji
        cases phase with
        | writing p contents file' written => exact (hwriting _ _ _ _ rfl).elim
        | removing p file' =>
          obtain rfl : file' = file := hj
          exact (hremoving _ _ rfl).2.2
        | idle => exact hj.elim
        | opening p contents => exact hj.elim
        | stored p contents => exact hj.elim
        | looking p => exact hj.elim
        | checked p => exact hj.elim
        | reading p file' bytes => exact hj.elim
        | found p contents => exact hj.elim
        | missing p => exact hj.elim
        | failed => exact hj.elim
      · exact hj
    exact fun j k file hj hk => h.alone j k file (hholds j file hj) (hholds k file hk)
  whole p file hname hsettled := (h.whole p file hname hsettled).move hnot _ _
  reading j p file bytes hcall := by
    rw [calls_move] at hcall
    split_ifs at hcall
    · obtain ⟨hlt,hsettled,hshown,hwhole⟩ := hreading _ _ _ hcall
      exact ⟨hlt,hsettled,hshown,hwhole.move hnot _ _⟩
    · obtain ⟨hlt,hsettled,hshown,hwhole⟩ := h.reading j p file bytes hcall
      exact ⟨hlt,hsettled,hshown,hwhole.move hnot _ _⟩
  found j p contents hcall := by
    rw [calls_move] at hcall
    split_ifs at hcall
    · exact (hfound _ _ hcall).move hnot _ _
    · exact (h.found j p contents hcall).move hnot _ _

theorem Inv.keep_plain (h : Inv start s) (hnot : ∀ p contents, s.calls i ≠ .stored p contents) (hplain : phase.Plain) :
    Inv start (s.move i s.files phase) := by
  apply h.keep hnot
  · rintro p contents file written rfl
    exact hplain
  · rintro p file rfl
    exact hplain.elim
  · rintro p file bytes rfl
    exact hplain.elim
  · rintro p contents rfl
    exact hplain.elim

/-- The name that a holder's file has. -/
theorem Inv.held (h : Inv start s) (hj : (s.calls j).Holds file) :
    ∃ q, s.files.names (temporary q) = some file ∧ s.files.settled file = false := by
  cases hcall : s.calls j with
  | writing p contents file' written =>
    rw [hcall] at hj
    obtain rfl : file' = file := hj
    obtain ⟨hname,hsettled,-⟩ := h.writing j p contents file' written hcall
    exact ⟨p,hname,hsettled⟩
  | removing p file' =>
    rw [hcall] at hj
    obtain rfl : file' = file := hj
    exact ⟨p,h.removing j p file' hcall⟩
  | idle => rw [hcall] at hj; exact hj.elim
  | opening p contents => rw [hcall] at hj; exact hj.elim
  | stored p contents => rw [hcall] at hj; exact hj.elim
  | looking p => rw [hcall] at hj; exact hj.elim
  | checked p => rw [hcall] at hj; exact hj.elim
  | reading p file' bytes => rw [hcall] at hj; exact hj.elim
  | found p contents => rw [hcall] at hj; exact hj.elim
  | missing p => rw [hcall] at hj; exact hj.elim
  | failed => rw [hcall] at hj; exact hj.elim

/-- A file is made, or one that no call has in its hands is truncated. -/
structure Created (f f' : Files) (name : StoragePath) (file : ℕ) : Prop where
  named : f'.names name = some file
  names : ∀ q, q ≠ name → f'.names q = f.names q
  empty : f'.contents file = []
  contents : ∀ other, other ≠ file → f'.contents other = f.contents other
  unsettled : f'.settled file = false
  settled : ∀ other, other ≠ file → f'.settled other = f.settled other
  next : f.next ≤ f'.next
  bounded : file < f'.next
  old : f.names name = some file ∨ f.names name = none ∧ file = f.next

theorem created_create (f : Files) (name : StoragePath) (hbounded : ∀ p file, f.names p = some file → file < f.next) :
    Created f (f.create name).1 name (f.create name).2 := by
  rw [Files.create]
  cases hname : f.names name with
  | some file =>
    exact ⟨hname,fun _ _ => rfl,update_self _ _ _,fun _ hne => update_of_ne hne _ _,update_self _ _ _,
      fun _ hne => update_of_ne hne _ _,le_refl _,hbounded _ _ hname,.inl hname⟩
  | none =>
    exact ⟨update_self _ _ _,fun _ hne => update_of_ne hne _ _,update_self _ _ _,fun _ hne => update_of_ne hne _ _,update_self _ _ _,
      fun _ hne => update_of_ne hne _ _,Nat.le_succ _,Nat.lt_succ_self _,.inr ⟨hname,rfl⟩⟩

theorem Inv.create (h : Inv start s) {files : Files} (hcall : s.calls i = .opening p contents)
    (hmade : Created s.files files (temporary p) file)
    (hfree : ∀ file, s.files.names (temporary p) = some file → s.files.settled file = false ∧ ∀ j, ¬(s.calls j).Holds file) :
    Inv start (s.move i files (.writing p contents file 0)) := by
  have hnot : ∀ p contents, s.calls i ≠ .stored p contents := by simp [hcall]
  -- no other name and no other call has the file
  have hother : ∀ q g, q ≠ temporary p → s.files.names q = some g → g ≠ file := by
    rintro q g hne hq rfl
    obtain hold | ⟨-,hnew⟩ := hmade.old
    · exact hne (h.injective _ _ _ hq hold)
    · exact absurd (h.bounded _ _ hq) (by omega)
  have hheld : ∀ j g, (s.calls j).Holds g → g ≠ file ∧ ∀ q, s.files.names (temporary q) = some g → temporary q ≠ temporary p := by
    intro j g hj
    have hne : g ≠ file := by
      rintro rfl
      obtain hold | ⟨-,hnew⟩ := hmade.old
      · exact (hfree _ hold).2 j hj
      · obtain ⟨q,hq,-⟩ := h.held hj
        exact absurd (h.bounded _ _ hq) (by omega)
    refine ⟨hne,fun q hq heq => ?_⟩
    rw [heq] at hq
    exact (hfree _ hq).2 j hj
  have hsettled : ∀ g, g < s.files.next → s.files.settled g = true → g ≠ file := by
    rintro g hlt hg rfl
    obtain hold | ⟨-,hnew⟩ := hmade.old
    · rw [(hfree _ hold).1] at hg
      cases hg
    · omega
  refine ⟨?_,?_,?_,?_,?_,?_,?_,?_⟩
  · intro a b g ha hb
    by_cases haname : a = temporary p
    · by_cases hbname : b = temporary p
      · rw [haname,hbname]
      · change files.names b = some g at hb
        change files.names a = some g at ha
        rw [haname,hmade.named] at ha
        rw [hmade.names b hbname] at hb
        exact absurd (Option.some.inj ha).symm (hother b g hbname hb)
    · change files.names a = some g at ha
      change files.names b = some g at hb
      rw [hmade.names a haname] at ha
      by_cases hbname : b = temporary p
      · rw [hbname,hmade.named] at hb
        exact absurd (Option.some.inj hb).symm (hother a g haname ha)
      · rw [hmade.names b hbname] at hb
        exact h.injective a b g ha hb
  · intro a g ha
    change files.names a = some g at ha
    by_cases haname : a = temporary p
    · rw [haname,hmade.named] at ha
      obtain rfl := Option.some.inj ha
      exact hmade.bounded
    · rw [hmade.names a haname] at ha
      exact (h.bounded a g ha).trans_le hmade.next
  · intro j q c g written hj
    rw [calls_move] at hj
    split_ifs at hj with hji
    · cases hj
      exact ⟨hmade.named,hmade.unsettled,hmade.empty⟩
    · obtain ⟨hname,hunsettled,hcontents⟩ := h.writing j q c g written hj
      have hholds : (s.calls j).Holds g := by
        rw [hj]
        rfl
      obtain ⟨hne,hnames⟩ := hheld j g hholds
      exact ⟨(hmade.names _ (hnames q hname)).trans hname,(hmade.settled g hne).trans hunsettled,(hmade.contents g hne).trans hcontents⟩
  · intro j q g hj
    rw [calls_move] at hj
    split_ifs at hj with hji
    obtain ⟨hname,hunsettled⟩ := h.removing j q g hj
    have hholds : (s.calls j).Holds g := by
      rw [hj]
      rfl
    obtain ⟨hne,hnames⟩ := hheld j g hholds
    exact ⟨(hmade.names _ (hnames q hname)).trans hname,(hmade.settled g hne).trans hunsettled⟩
  · intro j k g hj hk
    rw [calls_move] at hj hk
    split_ifs at hj hk with hji hki hki
    · rw [hji,hki]
    · obtain rfl : file = g := hj
      exact absurd rfl (hheld k _ hk).1
    · obtain rfl : file = g := hk
      exact absurd rfl (hheld j _ hj).1
    · exact h.alone j k g hj hk
  · intro a g ha hg
    change files.names a = some g at ha
    change files.settled g = true at hg
    have hne : g ≠ file := by
      rintro rfl
      rw [hmade.unsettled] at hg
      cases hg
    have haname : a ≠ temporary p := by
      rintro rfl
      rw [hmade.named] at ha
      exact hne (Option.some.inj ha).symm
    rw [hmade.names a haname] at ha
    rw [hmade.settled g hne] at hg
    change Whole start _ a (files.contents g)
    rw [hmade.contents g hne]
    exact (h.whole a g ha hg).move hnot _ _
  · intro j q g bytes hj
    rw [calls_move] at hj
    split_ifs at hj
    obtain ⟨hlt,hg,hshown,hwhole⟩ := h.reading j q g bytes hj
    have hne := hsettled g hlt hg
    change g < files.next ∧ files.settled g = true ∧ bytes <+: files.contents g ∧ Whole start _ q (files.contents g)
    rw [hmade.settled g hne,hmade.contents g hne]
    exact ⟨hlt.trans_le hmade.next,hg,hshown,hwhole.move hnot _ _⟩
  · intro j q c hj
    rw [calls_move] at hj
    split_ifs at hj
    exact (h.found j q c hj).move hnot _ _

/-- The bytes behind those that have been written are appended. -/
theorem write_contents (f : Files) {bytes : List UInt8} {written : ℕ} (hlt : written < bytes.length)
    (hold : f.contents file = bytes.take written) (n : ℕ) :
    (f.write file written ((bytes.drop written).take n)).contents file =
      bytes.take (written + ((bytes.drop written).take n).length) := by
  have hlength : (bytes.take written).length = written := by
    rw [List.length_take]
    omega
  have hchunk : (bytes.drop written).take n = (bytes.drop written).take ((bytes.drop written).take n).length :=
    List.prefix_iff_eq_take.1 (List.take_prefix n _)
  have hdrop : (bytes.take written).drop (written + ((bytes.drop written).take n).length) = [] :=
    List.drop_eq_nil_of_le (by omega)
  rw [List.take_add,← hchunk]
  simp only [Files.write,update_self,hold,hlength,Nat.sub_self,List.replicate_zero,List.append_nil]
  rw [hdrop,List.append_nil,List.take_of_length_le hlength.le]

theorem Inv.write (h : Inv start s) {written : ℕ} (hcall : s.calls i = .writing p contents file written)
    (hlt : written < contents.length) (n : ℕ) :
    Inv start (s.move i (s.files.write file written ((contents.drop written).take n))
      (.writing p contents file (written + ((contents.drop written).take n).length))) := by
  have hnot : ∀ p contents, s.calls i ≠ .stored p contents := by simp [hcall]
  obtain ⟨hname,hunsettled,hcontents⟩ := h.writing i p contents file written hcall
  have hown : (s.calls i).Holds file := by
    rw [hcall]
    rfl
  have hframe : ∀ g, g ≠ file → (s.files.write file written ((contents.drop written).take n)).contents g = s.files.contents g :=
    fun g hne => update_of_ne hne _ _
  have hsettled : ∀ g, s.files.settled g = true → g ≠ file := by
    rintro g hg rfl
    rw [hunsettled] at hg
    cases hg
  refine ⟨h.injective,h.bounded,?_,?_,?_,?_,?_,?_⟩
  · intro j q c g written' hj
    rw [calls_move] at hj
    split_ifs at hj with hji
    · cases hj
      exact ⟨hname,hunsettled,write_contents s.files hlt hcontents n⟩
    · obtain ⟨hname',hunsettled',hcontents'⟩ := h.writing j q c g written' hj
      have hne : g ≠ file := by
        rintro rfl
        exact hji (h.alone j i g (by rw [hj]; rfl) hown)
      exact ⟨hname',hunsettled',(hframe g hne).trans hcontents'⟩
  · intro j q g hj
    rw [calls_move] at hj
    split_ifs at hj
    exact h.removing j q g hj
  · intro j k g hj hk
    have hholds : ∀ j, ((s.move i (s.files.write file written ((contents.drop written).take n))
        (.writing p contents file (written + ((contents.drop written).take n).length))).calls j).Holds g → (s.calls j).Holds g := by
      intro j hj
      rw [calls_move] at hj
      split_ifs at hj with hji
      · obtain rfl : file = g := hj
        rw [hji]
        exact hown
      · exact hj
    exact h.alone j k g (hholds j hj) (hholds k hk)
  · intro a g ha hg
    rw [show (s.move i (s.files.write file written ((contents.drop written).take n)) _).files.contents g = s.files.contents g from
      hframe g (hsettled g hg)]
    exact (h.whole a g ha hg).move hnot _ _
  · intro j q g bytes hj
    rw [calls_move] at hj
    split_ifs at hj
    obtain ⟨hbound,hg,hshown,hwhole⟩ := h.reading j q g bytes hj
    rw [show (s.move i (s.files.write file written ((contents.drop written).take n)) _).files.contents g = s.files.contents g from
      hframe g (hsettled g hg)]
    exact ⟨hbound,hg,hshown,hwhole.move hnot _ _⟩
  · intro j q c hj
    rw [calls_move] at hj
    split_ifs at hj
    exact (h.found j q c hj).move hnot _ _

/-- The temporary file takes the place of whatever had the name. -/
theorem Inv.rename (h : Inv start s) {written : ℕ} (hcall : s.calls i = .writing p contents file written)
    (hdone : contents.length ≤ written) (hfree : ∀ file, s.files.names p = some file → ∀ j, ¬(s.calls j).Holds file)
    {files : Files} (hrename : s.files.rename (temporary p) p = some files) : Inv start (s.move i files (.stored p contents)) := by
  have hnot : ∀ p contents, s.calls i ≠ .stored p contents := by simp [hcall]
  obtain ⟨hname,hunsettled,hcontents⟩ := h.writing i p contents file written hcall
  rw [List.take_of_length_le hdone] at hcontents
  have hown : (s.calls i).Holds file := by
    rw [hcall]
    rfl
  rw [Files.rename,hname] at hrename
  obtain rfl := Option.some.inj hrename
  have hheld : ∀ j g, j ≠ i → (s.calls j).Holds g → g ≠ file ∧ ∀ q, s.files.names (temporary q) = some g →
      temporary q ≠ temporary p ∧ temporary q ≠ p := by
    intro j g hji hj
    have hne : g ≠ file := by
      rintro rfl
      exact hji (h.alone j i g hj hown)
    refine ⟨hne,fun q hq => ⟨fun heq => ?_,fun heq => ?_⟩⟩
    · rw [heq,hname] at hq
      exact hne (Option.some.inj hq).symm
    · rw [heq] at hq
      exact hfree g hq j hj
  -- the names after the renaming
  have hnames : ∀ a g, update (update s.files.names (temporary p) none) p (some file) a = some g →
      a = p ∧ g = file ∨ a ≠ p ∧ a ≠ temporary p ∧ s.files.names a = some g := by
    intro a g ha
    by_cases hap : a = p
    · subst hap
      rw [update_self] at ha
      exact .inl ⟨rfl,(Option.some.inj ha).symm⟩
    · rw [update_of_ne hap] at ha
      by_cases hat : a = temporary p
      · rw [hat,update_self] at ha
        cases ha
      · rw [update_of_ne hat] at ha
        exact .inr ⟨hap,hat,ha⟩
  have hdistinct : ∀ a, a ≠ temporary p → s.files.names a ≠ some file := fun a hat ha => hat (h.injective _ _ _ ha hname)
  refine ⟨?_,?_,?_,?_,?_,?_,?_,?_⟩
  · intro a b g ha hb
    obtain ⟨rfl,rfl⟩ | ⟨-,hat,ha'⟩ := hnames a g ha
    · obtain ⟨rfl,-⟩ | ⟨-,hbt,hb'⟩ := hnames b _ hb
      · rfl
      · exact absurd hb' (hdistinct b hbt)
    · obtain ⟨rfl,rfl⟩ | ⟨-,-,hb'⟩ := hnames b g hb
      · exact absurd ha' (hdistinct a hat)
      · exact h.injective a b g ha' hb'
  · intro a g ha
    obtain ⟨-,rfl⟩ | ⟨-,-,ha⟩ := hnames a g ha
    · exact h.bounded _ _ hname
    · exact h.bounded a g ha
  · intro j q c g written' hj
    rw [calls_move] at hj
    split_ifs at hj with hji
    obtain ⟨hname',hunsettled',hcontents'⟩ := h.writing j q c g written' hj
    obtain ⟨hne,hkeep⟩ := hheld j g hji (by rw [hj]; rfl)
    obtain ⟨hnt,hnp⟩ := hkeep q hname'
    refine ⟨?_,?_,hcontents'⟩
    · exact (update_of_ne hnp _ _).trans ((update_of_ne hnt _ _).trans hname')
    · exact (update_of_ne hne _ _).trans hunsettled'
  · intro j q g hj
    rw [calls_move] at hj
    split_ifs at hj with hji
    obtain ⟨hname',hunsettled'⟩ := h.removing j q g hj
    obtain ⟨hne,hkeep⟩ := hheld j g hji (by rw [hj]; rfl)
    obtain ⟨hnt,hnp⟩ := hkeep q hname'
    refine ⟨?_,?_⟩
    · exact (update_of_ne hnp _ _).trans ((update_of_ne hnt _ _).trans hname')
    · exact (update_of_ne hne _ _).trans hunsettled'
  · intro j k g hj hk
    rw [calls_move] at hj hk
    split_ifs at hj hk with hji hki hki
    · exact hj.elim
    · exact hj.elim
    · exact hk.elim
    · exact h.alone j k g hj hk
  · intro a g ha hg
    obtain ⟨rfl,rfl⟩ | ⟨-,hat,ha'⟩ := hnames a g ha
    · refine .inr ⟨i,?_⟩
      rw [calls_move,if_pos rfl]
      exact congrArg (Phase.stored a) hcontents.symm
    · have hne : g ≠ file := by
        rintro rfl
        exact hdistinct a hat ha'
      have hg' : s.files.settled g = true := (update_of_ne hne _ _).symm.trans hg
      exact (h.whole a g ha' hg').move hnot _ _
  · intro j q g bytes hj
    rw [calls_move] at hj
    split_ifs at hj
    obtain ⟨hbound,hg,hshown,hwhole⟩ := h.reading j q g bytes hj
    have hne : g ≠ file := by
      rintro rfl
      rw [hunsettled] at hg
      cases hg
    exact ⟨hbound,(update_of_ne hne _ _).trans hg,hshown,hwhole.move hnot _ _⟩
  · intro j q c hj
    rw [calls_move] at hj
    split_ifs at hj
    exact (h.found j q c hj).move hnot _ _

theorem Inv.remove (h : Inv start s) (hcall : s.calls i = .removing p file) :
    Inv start (s.move i (s.files.remove (temporary p)) .failed) := by
  have hnot : ∀ p contents, s.calls i ≠ .stored p contents := by simp [hcall]
  obtain ⟨hname,hunsettled⟩ := h.removing i p file hcall
  have hown : (s.calls i).Holds file := by
    rw [hcall]
    rfl
  have hnames : ∀ a g, update s.files.names (temporary p) none a = some g → s.files.names a = some g := by
    intro a g ha
    by_cases hat : a = temporary p
    · rw [hat,update_self] at ha
      cases ha
    · rwa [update_of_ne hat] at ha
  have hkeep : ∀ j g q, j ≠ i → (s.calls j).Holds g → s.files.names (temporary q) = some g →
      update s.files.names (temporary p) none (temporary q) = some g := by
    intro j g q hji hj hq
    refine (update_of_ne ?_ _ _).trans hq
    intro heq
    rw [heq,hname] at hq
    obtain rfl := Option.some.inj hq
    exact hji (h.alone j i _ hj hown)
  refine ⟨?_,?_,?_,?_,?_,?_,?_,?_⟩
  · exact fun a b g ha hb => h.injective a b g (hnames a g ha) (hnames b g hb)
  · exact fun a g ha => h.bounded a g (hnames a g ha)
  · intro j q c g written hj
    rw [calls_move] at hj
    split_ifs at hj with hji
    obtain ⟨hname',hunsettled',hcontents'⟩ := h.writing j q c g written hj
    exact ⟨hkeep j g q hji (by rw [hj]; rfl) hname',hunsettled',hcontents'⟩
  · intro j q g hj
    rw [calls_move] at hj
    split_ifs at hj with hji
    obtain ⟨hname',hunsettled'⟩ := h.removing j q g hj
    exact ⟨hkeep j g q hji (by rw [hj]; rfl) hname',hunsettled'⟩
  · intro j k g hj hk
    rw [calls_move] at hj hk
    split_ifs at hj hk with hji hki hki
    · exact hj.elim
    · exact hj.elim
    · exact hk.elim
    · exact h.alone j k g hj hk
  · intro a g ha hg
    exact (h.whole a g (hnames a g ha) hg).move hnot _ _
  · intro j q g bytes hj
    rw [calls_move] at hj
    split_ifs at hj
    obtain ⟨hbound,hg,hshown,hwhole⟩ := h.reading j q g bytes hj
    exact ⟨hbound,hg,hshown,hwhole.move hnot _ _⟩
  · intro j q c hj
    rw [calls_move] at hj
    split_ifs at hj
    exact (h.found j q c hj).move hnot _ _

/-- What a step can do. -/
inductive Taken (s : System) (i : ℕ) : Label → System → Prop where
  | stay (x : Label) : Taken s i x s
  | plain (x : Label) (phase : Phase) (hnot : ∀ p contents, s.calls i ≠ .stored p contents) (hplain : phase.Plain)
      (hidle : phase ≠ .idle) (hopening : ∀ p contents, phase = .opening p contents → ∃ path, x = .put path contents ∧ normalisePath path = .ok p)
      (hmissing : ∀ p, phase = .missing p → s.files.names p = none) : Taken s i x (s.move i s.files phase)
  | create (p : StoragePath) (contents : List UInt8) (n : ℕ) (hcall : s.calls i = .opening p contents) :
      Taken s i (.go n) (s.move i (s.files.create (temporary p)).1 (.writing p contents (s.files.create (temporary p)).2 0))
  | write (p : StoragePath) (contents : List UInt8) (file written n : ℕ) (hcall : s.calls i = .writing p contents file written)
      (hlt : written < contents.length) : Taken s i (.go n)
        (s.move i (s.files.write file written ((contents.drop written).take n))
          (.writing p contents file (written + ((contents.drop written).take n).length)))
  | rename (p : StoragePath) (contents : List UInt8) (file written n : ℕ) (files : Files)
      (hcall : s.calls i = .writing p contents file written) (hdone : contents.length ≤ written)
      (hrename : s.files.rename (temporary p) p = some files) : Taken s i (.go n) (s.move i files (.stored p contents))
  | refused (x : Label) (p : StoragePath) (contents : List UInt8) (file written : ℕ) (hcall : s.calls i = .writing p contents file written) :
      Taken s i x (s.move i s.files (.removing p file))
  | remove (p : StoragePath) (file n : ℕ) (hcall : s.calls i = .removing p file) :
      Taken s i (.go n) (s.move i (s.files.remove (temporary p)) .failed)
  | open_ (p : StoragePath) (file n : ℕ) (hcall : s.calls i = .checked p) (hname : s.files.names p = some file) :
      Taken s i (.go n) (s.move i s.files (.reading p file []))
  | read (p : StoragePath) (file : ℕ) (bytes : List UInt8) (n : ℕ) (hcall : s.calls i = .reading p file bytes) :
      Taken s i (.go n) (s.move i s.files (.reading p file (bytes ++ ((s.files.contents file).drop bytes.length).take n)))
  | end_ (p : StoragePath) (file : ℕ) (bytes : List UInt8) (n : ℕ) (hcall : s.calls i = .reading p file bytes)
      (hdone : (s.files.contents file).length ≤ bytes.length) : Taken s i (.go n) (s.move i s.files (.found p bytes))

theorem stay_of_eq {a : ℕ × Label} (h : advance s.files (s.calls a.1) a.2 = (s.files,s.calls a.1)) : Taken s a.1 a.2 (step s a) := by
  have hsame : step s a = s := by
    rw [step,h,update_eq_self]
  rw [hsame]
  exact .stay _

theorem taken_step (s : System) (a : ℕ × Label) : Taken s a.1 a.2 (step s a) := by
  obtain ⟨i,x⟩ := a
  have hstep : ∀ files phase, advance s.files (s.calls i) x = (files,phase) → step s (i,x) = s.move i files phase := by
    intro files phase h
    rw [step,h]
    rfl
  have hfail : (∀ p contents, s.calls i ≠ .stored p contents) → advance s.files (s.calls i) x = (s.files,.failed) → Taken s i x (step s (i,x)) := by
    intro hnot h
    rw [hstep _ _ h]
    exact .plain x .failed hnot trivial (by simp) (by simp) (by simp)
  cases hcall : s.calls i with
  | idle =>
    have hnot : ∀ p contents, s.calls i ≠ .stored p contents := by simp [hcall]
    cases x with
    | put path contents =>
      cases hpath : normalisePath path with
      | error e => exact hfail hnot (by rw [hcall]; simp [advance,hpath])
      | ok p =>
        rw [hstep s.files (.opening p contents) (by rw [hcall]; simp [advance,hpath])]
        refine .plain _ _ hnot trivial (by simp) ?_ (by simp)
        rintro q c hq
        cases hq
        exact ⟨path,rfl,hpath⟩
    | get path =>
      cases hpath : normalisePath path with
      | error e => exact hfail hnot (by rw [hcall]; simp [advance,hpath])
      | ok p =>
        rw [hstep s.files (.looking p) (by rw [hcall]; simp [advance,hpath])]
        exact .plain _ _ hnot trivial (by simp) (by simp) (by simp)
    | go n => exact stay_of_eq (by rw [hcall]; rfl)
    | fail => exact stay_of_eq (by rw [hcall]; rfl)
  | opening p contents =>
    have hnot : ∀ p contents, s.calls i ≠ .stored p contents := by simp [hcall]
    cases x with
    | go n =>
      rw [hstep (s.files.create (temporary p)).1 (.writing p contents (s.files.create (temporary p)).2 0) (by rw [hcall]; rfl)]
      exact .create p contents n hcall
    | fail => exact hfail hnot (by rw [hcall]; rfl)
    | put path contents => exact stay_of_eq (by rw [hcall]; rfl)
    | get path => exact stay_of_eq (by rw [hcall]; rfl)
  | writing p contents file written =>
    have hnot : ∀ p contents, s.calls i ≠ .stored p contents := by simp [hcall]
    cases x with
    | go n =>
      by_cases hlt : written < contents.length
      · rw [hstep (s.files.write file written ((contents.drop written).take n))
          (.writing p contents file (written + ((contents.drop written).take n).length)) (by rw [hcall,advance,if_pos hlt])]
        exact .write p contents file written n hcall hlt
      · cases hrename : s.files.rename (temporary p) p with
        | none =>
          rw [hstep s.files (.removing p file) (by rw [hcall]; simp [advance,hlt,hrename])]
          exact .refused _ p contents file written hcall
        | some files =>
          rw [hstep files (.stored p contents) (by rw [hcall]; simp [advance,hlt,hrename])]
          exact .rename p contents file written n files hcall (not_lt.1 hlt) hrename
    | fail =>
      by_cases hlt : written < contents.length
      · exact hfail hnot (by rw [hcall]; simp [advance,hlt])
      · rw [hstep s.files (.removing p file) (by rw [hcall]; simp [advance,hlt])]
        exact .refused _ p contents file written hcall
    | put path contents => exact stay_of_eq (by rw [hcall]; rfl)
    | get path => exact stay_of_eq (by rw [hcall]; rfl)
  | removing p file =>
    have hnot : ∀ p contents, s.calls i ≠ .stored p contents := by simp [hcall]
    cases x with
    | go n =>
      rw [hstep (s.files.remove (temporary p)) .failed (by rw [hcall]; rfl)]
      exact .remove p file n hcall
    | fail => exact hfail hnot (by rw [hcall]; rfl)
    | put path contents => exact stay_of_eq (by rw [hcall]; rfl)
    | get path => exact stay_of_eq (by rw [hcall]; rfl)
  | looking p =>
    have hnot : ∀ p contents, s.calls i ≠ .stored p contents := by simp [hcall]
    cases x with
    | go n =>
      cases hname : s.files.names p with
      | none =>
        rw [hstep s.files (.missing p) (by rw [hcall]; simp [advance,hname])]
        refine .plain _ _ hnot trivial (by simp) (by simp) ?_
        rintro q hq
        cases hq
        exact hname
      | some file =>
        rw [hstep s.files (.checked p) (by rw [hcall]; simp [advance,hname])]
        exact .plain _ _ hnot trivial (by simp) (by simp) (by simp)
    | fail => exact hfail hnot (by rw [hcall]; rfl)
    | put path contents => exact stay_of_eq (by rw [hcall]; rfl)
    | get path => exact stay_of_eq (by rw [hcall]; rfl)
  | checked p =>
    have hnot : ∀ p contents, s.calls i ≠ .stored p contents := by simp [hcall]
    cases x with
    | go n =>
      cases hname : s.files.names p with
      | none =>
        rw [hstep s.files (.missing p) (by rw [hcall]; simp [advance,hname])]
        refine .plain _ _ hnot trivial (by simp) (by simp) ?_
        rintro q hq
        cases hq
        exact hname
      | some file =>
        rw [hstep s.files (.reading p file []) (by rw [hcall]; simp [advance,hname])]
        exact .open_ p file n hcall hname
    | fail => exact hfail hnot (by rw [hcall]; rfl)
    | put path contents => exact stay_of_eq (by rw [hcall]; rfl)
    | get path => exact stay_of_eq (by rw [hcall]; rfl)
  | reading p file bytes =>
    have hnot : ∀ p contents, s.calls i ≠ .stored p contents := by simp [hcall]
    cases x with
    | go n =>
      by_cases hlt : bytes.length < (s.files.contents file).length
      · rw [hstep s.files (.reading p file (bytes ++ ((s.files.contents file).drop bytes.length).take n))
          (by rw [hcall]; simp [advance,hlt])]
        exact .read p file bytes n hcall
      · rw [hstep s.files (.found p bytes) (by rw [hcall]; simp [advance,hlt])]
        exact .end_ p file bytes n hcall (not_lt.1 hlt)
    | fail => exact hfail hnot (by rw [hcall]; rfl)
    | put path contents => exact stay_of_eq (by rw [hcall]; rfl)
    | get path => exact stay_of_eq (by rw [hcall]; rfl)
  | stored p contents => exact stay_of_eq (by rw [hcall]; cases x <;> rfl)
  | found p contents => exact stay_of_eq (by rw [hcall]; cases x <;> rfl)
  | missing p => exact stay_of_eq (by rw [hcall]; cases x <;> rfl)
  | failed => exact stay_of_eq (by rw [hcall]; cases x <;> rfl)

theorem Inv.step (h : Inv start s) {a : ℕ × Label} (hapart : Apart s a) : Inv start (step s a) := by
  obtain ⟨i,x⟩ := a
  have htaken := taken_step s (i,x)
  dsimp only at htaken
  rw [Apart] at hapart
  dsimp only at hapart
  generalize Interleaved.step s (i,x) = s' at htaken ⊢
  cases htaken with
  | stay => exact h
  | plain _ phase hnot hplain => exact h.keep_plain hnot hplain
  | create p contents n hcall =>
    rw [hcall] at hapart
    exact h.create hcall (created_create _ _ h.bounded) hapart
  | write p contents file written n hcall hlt => exact h.write hcall hlt n
  | rename p contents file written n files hcall hdone hrename =>
    rw [hcall] at hapart
    exact h.rename hcall hdone (hapart.resolve_left (not_lt.2 hdone)) hrename
  | refused _ p contents file written hcall =>
    obtain ⟨hname,hunsettled,-⟩ := h.writing i p contents file written hcall
    refine h.keep (by simp [hcall]) (by simp) ?_ (by simp) (by simp)
    intro q g hq
    cases hq
    exact ⟨hname,hunsettled,by rw [hcall]; rfl⟩
  | remove p file n hcall => exact h.remove hcall
  | open_ p file n hcall hname =>
    rw [hcall] at hapart
    have hsettled := hapart file hname
    refine h.keep (by simp [hcall]) (by simp) (by simp) ?_ (by simp)
    intro q g bytes hq
    cases hq
    exact ⟨h.bounded _ _ hname,hsettled,List.nil_prefix,h.whole _ _ hname hsettled⟩
  | read p file bytes n hcall =>
    obtain ⟨hbound,hsettled,hshown,hwhole⟩ := h.reading i p file bytes hcall
    refine h.keep (by simp [hcall]) (by simp) (by simp) ?_ (by simp)
    intro q g more hq
    cases hq
    refine ⟨hbound,hsettled,?_,hwhole⟩
    have hbytes := List.prefix_iff_eq_take.1 hshown
    conv_lhs => rw [hbytes]
    rw [List.length_take,Nat.min_eq_left hshown.length_le,← List.take_add]
    exact List.take_prefix _ _
  | end_ p file bytes n hcall hdone =>
    obtain ⟨hbound,hsettled,hshown,hwhole⟩ := h.reading i p file bytes hcall
    have hbytes : bytes = s.files.contents file := hshown.eq_of_length (le_antisymm hshown.length_le hdone)
    refine h.keep (by simp [hcall]) (by simp) (by simp) (by simp) ?_
    intro q c hq
    cases hq
    rw [hbytes]
    exact hwhole

/-! ## What stays in place -/

/-- A put of the path that may still rename onto it. -/
def Phase.Puts (p : StoragePath) : Phase → Prop
  | .opening q _ => q = p
  | .writing q _ _ _ => q = p
  | _ => False

/-- A file is in its place, no call is about to replace it, and the readers find it. -/
structure Served (p : StoragePath) (contents : List UInt8) (file : ℕ) (readers : ℕ → Prop) (s : System) : Prop where
  name : s.files.names p = some file
  settled : s.files.settled file = true
  holds : s.files.contents file = contents
  quiet : ∀ j, ¬(s.calls j).Puts p
  reading : ∀ j, readers j → ∀ g bytes, s.calls j = .reading p g bytes → g = file
  found : ∀ j, readers j → ∀ bytes, s.calls j = .found p bytes → bytes = contents
  missing : ∀ j, readers j → s.calls j ≠ .missing p

variable {readers : ℕ → Prop}

theorem Served.move (h : Served p contents file readers s) {files : Files} (hname : files.names p = some file)
    (hsettled : files.settled file = true) (hcontents : files.contents file = contents) (hputs : ¬phase.Puts p)
    (hreading : ∀ g bytes, phase = .reading p g bytes → readers i → g = file)
    (hfound : ∀ bytes, phase = .found p bytes → readers i → bytes = contents) (hmissing : phase ≠ .missing p) :
    Served p contents file readers (s.move i files phase) where
  name := hname
  settled := hsettled
  holds := hcontents
  quiet j := by
    rw [calls_move]
    split_ifs
    · exact hputs
    · exact h.quiet j
  reading j hj g bytes hcall := by
    rw [calls_move] at hcall
    split_ifs at hcall with hji
    · exact hreading g bytes hcall (hji ▸ hj)
    · exact h.reading j hj g bytes hcall
  found j hj bytes hcall := by
    rw [calls_move] at hcall
    split_ifs at hcall with hji
    · exact hfound bytes hcall (hji ▸ hj)
    · exact h.found j hj bytes hcall
  missing j hj hcall := by
    rw [calls_move] at hcall
    split_ifs at hcall
    · exact hmissing hcall
    · exact h.missing j hj hcall

/-- No step takes it away, unless it begins another put of the path. -/
theorem Served.step (h : Served p contents file readers s) (hinv : Inv start s) {a : ℕ × Label} (hapart : Apart s a)
    (hother : ∀ path bytes, a.2 = .put path bytes → normalisePath path ≠ .ok p) : Served p contents file readers (step s a) := by
  obtain ⟨i,x⟩ := a
  have htaken := taken_step s (i,x)
  dsimp only at htaken hother
  rw [Apart] at hapart
  dsimp only at hapart
  generalize Interleaved.step s (i,x) = s' at htaken ⊢
  -- an unsettled file is not the one, nor is its name
  have hname : ∀ q g, s.files.names q = some g → s.files.settled g = false → p ≠ q ∧ file ≠ g := by
    intro q g hq hg
    refine ⟨?_,?_⟩
    · rintro rfl
      rw [h.name] at hq
      obtain rfl := Option.some.inj hq
      rw [h.settled] at hg
      cases hg
    · rintro rfl
      rw [h.settled] at hg
      cases hg
  cases htaken with
  | stay => exact h
  | plain _ phase hnot hplain hidle hopening hmissing =>
    refine h.move h.name h.settled h.holds ?_ ?_ ?_ ?_
    · intro hputs
      cases phase with
      | opening q bytes =>
        obtain rfl : q = p := hputs
        obtain ⟨path,hx,hpath⟩ := hopening _ _ rfl
        exact hother path bytes hx hpath
      | writing q bytes g written => exact hplain
      | idle => exact hputs
      | removing q g => exact hputs
      | stored q bytes => exact hputs
      | looking q => exact hputs
      | checked q => exact hputs
      | reading q g bytes => exact hputs
      | found q bytes => exact hputs
      | missing q => exact hputs
      | failed => exact hputs
    · rintro g bytes rfl
      exact hplain.elim
    · rintro bytes rfl
      exact hplain.elim
    · rintro rfl
      have hgone := hmissing p rfl
      rw [h.name] at hgone
      cases hgone
  | create q bytes n hcall =>
    rw [hcall] at hapart
    have hmade := created_create s.files (temporary q) hinv.bounded
    have hne : p ≠ temporary q := by
      rintro rfl
      have hunsettled := (hapart file h.name).1
      rw [h.settled] at hunsettled
      cases hunsettled
    have hfile : file ≠ (s.files.create (temporary q)).2 := by
      obtain hold | ⟨-,hnew⟩ := hmade.old
      · exact (hname _ _ hold (hapart _ hold).1).2
      · have hbound := hinv.bounded _ _ h.name
        omega
    refine h.move ((hmade.names _ hne).trans h.name) ((hmade.settled _ hfile).trans h.settled)
      ((hmade.contents _ hfile).trans h.holds) ?_ (by simp) (by simp) (by simp)
    intro hputs
    obtain rfl : q = p := hputs
    exact h.quiet i (by rw [hcall]; rfl)
  | write q bytes g written n hcall hlt =>
    obtain ⟨htemp,hunsettled,-⟩ := hinv.writing i q bytes g written hcall
    refine h.move h.name h.settled ((update_of_ne (hname _ _ htemp hunsettled).2 _ _).trans h.holds) ?_ (by simp) (by simp) (by simp)
    intro hputs
    obtain rfl : q = p := hputs
    exact h.quiet i (by rw [hcall]; rfl)
  | rename q bytes g written n files hcall hdone hrename =>
    obtain ⟨htemp,hunsettled,-⟩ := hinv.writing i q bytes g written hcall
    obtain ⟨hne,hfile⟩ := hname _ _ htemp hunsettled
    have hpq : p ≠ q := by
      rintro rfl
      exact h.quiet i (by rw [hcall]; rfl)
    rw [Files.rename,htemp] at hrename
    obtain rfl := Option.some.inj hrename
    refine h.move ?_ ?_ h.holds (by simp [Phase.Puts]) (by simp) (by simp) (by simp)
    · exact (update_of_ne hpq _ _).trans ((update_of_ne hne _ _).trans h.name)
    · exact (update_of_ne hfile _ _).trans h.settled
  | refused _ q bytes g written hcall =>
    exact h.move h.name h.settled h.holds (by simp [Phase.Puts]) (by simp) (by simp) (by simp)
  | remove q g n hcall =>
    obtain ⟨htemp,hunsettled⟩ := hinv.removing i q g hcall
    have hkept : (s.files.remove (temporary q)).names p = some file :=
      (update_of_ne (hname _ _ htemp hunsettled).1 _ _).trans h.name
    exact h.move hkept h.settled h.holds (by simp [Phase.Puts]) (by simp) (by simp) (by simp)
  | open_ q g n hcall hq =>
    refine h.move h.name h.settled h.holds (by simp [Phase.Puts]) ?_ (by simp) (by simp)
    rintro g' bytes heq -
    cases heq
    rw [h.name] at hq
    exact (Option.some.inj hq).symm
  | read q g bytes n hcall =>
    refine h.move h.name h.settled h.holds (by simp [Phase.Puts]) ?_ (by simp) (by simp)
    rintro g' more heq hreader
    cases heq
    exact h.reading i hreader _ _ hcall
  | end_ q g bytes n hcall hdone =>
    refine h.move h.name h.settled h.holds (by simp [Phase.Puts]) (by simp) ?_ (by simp)
    rintro more heq hreader
    cases heq
    obtain ⟨-,-,hshown,-⟩ := hinv.reading i _ g bytes hcall
    have hbytes : bytes = s.files.contents g := hshown.eq_of_length (le_antisymm hshown.length_le hdone)
    rw [hbytes,h.reading i hreader _ _ hcall,h.holds]

/-- A put returns: from then on its file is in its place. -/
theorem served_of_stored (hinv : Inv start s) {a : ℕ × Label} (hapart : Apart s a)
    (hbefore : s.calls a.1 ≠ .stored p contents) (hstored : (step s a).calls a.1 = .stored p contents)
    (hquiet : ∀ j, ¬((step s a).calls j).Puts p) :
    ∃ file, Served p contents file (fun j => (step s a).calls j = .idle) (step s a) := by
  obtain ⟨i,x⟩ := a
  have htaken := taken_step s (i,x)
  have hinv' := hinv.step hapart
  dsimp only at htaken hbefore hstored
  generalize Interleaved.step s (i,x) = s' at htaken hstored hquiet hinv' ⊢
  have hnew : ∀ {files : Files} {phase : Phase}, s' = s.move i files phase → phase = .stored p contents := by
    rintro files phase rfl
    rwa [calls_move,if_pos rfl] at hstored
  cases htaken with
  | stay => exact absurd hstored hbefore
  | plain _ phase hnot hplain =>
    have hphase := hnew rfl
    rw [hphase] at hplain
    exact hplain.elim
  | rename q bytes g written n files hcall hdone hrename =>
    have hphase := hnew rfl
    cases hphase
    obtain ⟨htemp,hunsettled,hcontents⟩ := hinv.writing i _ _ g written hcall
    rw [List.take_of_length_le hdone] at hcontents
    rw [Files.rename,htemp] at hrename
    obtain rfl := Option.some.inj hrename
    refine ⟨g,update_self _ _ _,update_self _ _ _,hcontents,hquiet,?_,?_,?_⟩
    · intro j hj g' bytes' hcall'
      rw [hj] at hcall'
      cases hcall'
    · intro j hj bytes' hcall'
      rw [hj] at hcall'
      cases hcall'
    · intro j hj hcall'
      rw [hj] at hcall'
      cases hcall'
  | create q bytes n hcall => cases hnew rfl
  | write q bytes g written n hcall hlt => cases hnew rfl
  | refused _ q bytes g written hcall => cases hnew rfl
  | remove q g n hcall => cases hnew rfl
  | open_ q g n hcall hq => cases hnew rfl
  | read q g bytes n hcall => cases hnew rfl
  | end_ q g bytes n hcall hdone => cases hnew rfl

/-! ## Runs -/

/-- A get that finds a file shows the whole of one. -/
def ShowsWhole (start : Files) (s : System) : Prop := ∀ j p contents, s.calls j = .found p contents → Whole start s p contents

/-- A put has returned, with no other put of its path under way: as long as none begins, whatever get
begins shows what was put. -/
def Lasts (start : Files) (steps : List (ℕ × Label)) : Prop :=
  ∀ before a after, steps = before ++ a :: after → ∀ p contents,
    (Trace.run step (begin_ start) before).calls a.1 ≠ .stored p contents →
    (step (Trace.run step (begin_ start) before) a).calls a.1 = .stored p contents →
    (∀ j, ¬((step (Trace.run step (begin_ start) before) a).calls j).Puts p) →
    (∀ b ∈ after, ∀ path bytes, b.2 = .put path bytes → normalisePath path ≠ .ok p) →
    ∀ k, (step (Trace.run step (begin_ start) before) a).calls k = .idle →
      (Trace.run step (begin_ start) steps).calls k ≠ .missing p ∧
        ∀ bytes, (Trace.run step (begin_ start) steps).calls k = .found p bytes → bytes = contents

theorem lasts_of_apart {start : Files} (hstart : Settled start) {steps : List (ℕ × Label)} (h : Trace.Along step Apart (begin_ start) steps) :
    Lasts start steps := by
  rintro before a after rfl p contents hbefore hstored hquiet hothers k hk
  obtain ⟨hfirst,ha,hafter⟩ := Trace.along_append.1 h
  have hinv : Inv start (Trace.run step (begin_ start) before) :=
    (Trace.always_of_along (fun _ _ hs hok => hs.step hok) (inv_begin hstart) hfirst).last
  obtain ⟨file,hserved⟩ := served_of_stored hinv ha hbefore hstored hquiet
  have hlast := (Trace.always_of_along (P := fun s => Inv start s ∧ Served p contents file _ s)
    (fun s b hs hok => ⟨hs.1.step hok.1,hs.2.step hs.1 hok.1 hok.2⟩) ⟨hinv.step ha,hserved⟩
    (hafter.and (Trace.along_of_forall hothers))).last
  rw [Trace.run_append,Trace.run_cons]
  exact ⟨hlast.2.missing k hk,hlast.2.found k hk⟩

def empty : Files := ⟨fun _ => none,fun _ => [],0,fun _ => false⟩

theorem settled_empty : Settled empty where
  injective p q file hp := by cases hp
  bounded p file hp := by cases hp
  settled p file hp := by cases hp

/-- Two puts of one path: the first renames the file that the second has just truncated. -/
def race : List (ℕ × Label) := [(0,.put "a" [1,2]),(1,.put "a" [3,4]),(0,.go 0),(0,.go 2),(1,.go 0),(0,.go 0),(2,.get "a"),(2,.go 0),
  (2,.go 0),(2,.go 0)]

end Rainier.Filesystem.Interleaved
