import Mathlib.Data.List.Infix
import Mathlib.Logic.Function.Basic
import Rainier.Support.Split
import Rainier.Support.Text

/-! # The environment file

A line assigns a variable. Its value is stripped of quotes or of a comment first, and references to
other variables are replaced in what is left, whatever it stood in.
-/
namespace Rainier.Config

/-- The variables of the file, and in `process` those of the process. -/
abbrev Vars : Type := String → Option String

namespace Env

/-- `str::trim_start` -/
def trimStart (s : String) : String := String.ofList (s.toList.dropWhile Text.isWhitespace)

/-- `str::trim_end` -/
def trimEnd (cs : List Char) : List Char := (cs.reverse.dropWhile Text.isWhitespace).reverse

/-- `split_once` at a text: what is before its first occurrence, and what is after. -/
def splitAtText (pattern : List Char) : List Char → Option (List Char × List Char)
  | [] => if pattern.isEmpty then some ([],[]) else none
  | c :: cs =>
    if pattern <+: c :: cs then some ([],(c :: cs).drop pattern.length)
    else (splitAtText pattern cs).map fun parts => (c :: parts.1,parts.2)

/-- What a backslash and a character stand for. -/
def escaped (c : Char) : Char :=
  if c = 'n' then '\n' else if c = 'r' then '\r' else if c = 't' then '\t' else c

/-- The inside of double quotes. -/
def unescape : List Char → List Char
  | [] => []
  | '\\' :: c :: cs => escaped c :: unescape cs
  | c :: cs => c :: unescape cs

/-- The given character stands at both ends. -/
def Enclosed (quote : Char) (raw : List Char) : Prop := 2 ≤ raw.length ∧ raw.head? = some quote ∧ raw.getLast? = some quote

instance (quote : Char) (raw : List Char) : Decidable (Enclosed quote raw) := inferInstanceAs (Decidable (_ ∧ _ ∧ _))

def unquote (raw : List Char) : List Char :=
  if Enclosed '\'' raw then raw.tail.dropLast
  else if Enclosed '"' raw then unescape raw.tail.dropLast
  else
    -- unquoted: a hash behind a blank starts a comment
    match splitAtText [' ','#'] raw with
    | some (value,_) => trimEnd value
    | none => trimEnd raw

theorem length_of_splitAtText {pattern cs before after : List Char} (h : splitAtText pattern cs = some (before,after)) :
    after.length ≤ cs.length := by
  induction cs generalizing before with
  | nil =>
    rw [splitAtText] at h
    split_ifs at h
    cases h
    exact Nat.le_refl 0
  | cons c cs ih =>
    rw [splitAtText] at h
    split_ifs at h
    · cases h
      rw [List.length_drop]
      omega
    · obtain ⟨parts,hparts,heq⟩ := Option.map_eq_some_iff.1 h
      cases heq
      exact Nat.le_succ_of_le (ih hparts)

/-- A closed reference is replaced by the variable, and by nothing where there is none. One that is
not closed stays as it is. -/
def expand (resolve : String → String) : List Char → List Char
  | [] => []
  | '$' :: '{' :: cs =>
    match h : splitAtText ['}'] cs with
    | some (name,after) => (resolve (String.ofList name)).toList ++ expand resolve after
    | none => '$' :: '{' :: expand resolve cs
  | c :: cs => c :: expand resolve cs
termination_by cs => cs.length
decreasing_by
  all_goals simp only [List.length_cons]
  · have hle := length_of_splitAtText h
    omega
  · omega
  · omega

/-- From what is known of the file so far, else from the process. -/
def resolve (process known : Vars) (name : String) : String := ((known name).or (process name)).getD ""

def interpolate (process known : Vars) (value : List Char) : String := String.ofList (expand (resolve process known) value)

/-- A line may begin like a command of the shell. -/
def withoutExport (line : String) : String := match Text.stripPrefix "export " line with
  | some rest => trimStart rest
  | none => line

def keyAndRaw (line : String) : Option (String × String) := match Text.splitOnce '=' line with
  | none => none
  | some (key,raw) => if Text.trim key = "" then none else some (Text.trim key,Text.trim raw)

/-- The key and the raw value of a line that assigns one. -/
def assignment (line : String) : Option (String × String) :=
  if Text.trim line = "" ∨ (Text.trim line).toList.head? = some '#' then none else keyAndRaw (withoutExport (Text.trim line))

def parseLine (process known : Vars) (line : String) : Vars :=
  match assignment line with
  | none => known
  | some (key,raw) => Function.update known key (some (interpolate process known (unquote raw.toList)))

/-- `str::lines`: a carriage return before a line break belongs to it, and an empty last line is none. -/
def lines (contents : String) : List String :=
  let pieces := Text.split '\n' contents
  let pieces := if pieces.getLast? = some "" then pieces.dropLast else pieces
  pieces.map fun line => if line.toList.getLast? = some '\r' then String.ofList line.toList.dropLast else line

def parse (process : Vars) (contents : String) : Vars := (lines contents).foldl (parseLine process) fun _ => none

/-- The process goes before the file, unless it is not looked at. -/
def get (process : Vars) (vars : Vars) (isolated : Bool) (key : String) : Option String :=
  if isolated then vars key else (process key).or (vars key)

/-! ## The lines of a file -/

section Lines

variable {process known : Vars} {line : String} {ls : List String} {key : String}

theorem trimEnd_append {front : List Char} {c : Char} (hc : front.getLast? = some c) (hblank : Text.isWhitespace c = false)
    (rest : List Char) : trimEnd (front ++ rest) = front ++ trimEnd rest := by
  obtain ⟨before,rfl⟩ := List.getLast?_eq_some_iff.1 hc
  have hstop : (before ++ [c]).reverse.dropWhile Text.isWhitespace = (before ++ [c]).reverse := by simp [hblank]
  rw [trimEnd,trimEnd,List.reverse_append,List.dropWhile_append]
  split
  · next hempty =>
    rw [List.isEmpty_iff.1 hempty,hstop]
    simp
  · simp

/-- Nothing is trimmed off a text that begins and ends with something. -/
theorem trimEnd_eq_self {cs : List Char} {c : Char} (hc : cs.getLast? = some c) (hblank : Text.isWhitespace c = false) :
    trimEnd cs = cs := by
  have h := trimEnd_append hc hblank []
  simpa [trimEnd] using h

theorem trim_ofList {cs : List Char} (h : ∀ c ∈ cs.head?, Text.isWhitespace c = false) :
    Text.trim (String.ofList cs) = String.ofList (trimEnd cs) := by
  rw [Text.trim,String.toList_ofList,Text.dropWhile_eq_self h,trimEnd]

/-- A carriage return before the line break changes nothing. -/
theorem assignment_strip (line : String) :
    assignment (if line.toList.getLast? = some '\r' then String.ofList line.toList.dropLast else line) = assignment line := by
  split
  · next hlast =>
    obtain ⟨front,hfront⟩ := List.getLast?_eq_some_iff.1 hlast
    have htrim : Text.trim (String.ofList line.toList.dropLast) = Text.trim line := by
      rw [hfront,List.dropLast_concat,← String.ofList_toList (s := line),hfront]
      exact (Text.trim_concat (by decide) front).symm
    rw [assignment,assignment,htrim]
  · rfl

theorem parseLine_congr {line' : String} (h : assignment line = assignment line') :
    parseLine process known line = parseLine process known line' := by
  rw [parseLine,parseLine,h]

theorem foldl_strip (known : Vars) :
    (ls.map fun line => if line.toList.getLast? = some '\r' then String.ofList line.toList.dropLast else line).foldl
      (parseLine process) known = ls.foldl (parseLine process) known := by
  induction ls generalizing known with
  | nil => rfl
  | cons line ls ih => rw [List.map_cons,List.foldl_cons,List.foldl_cons,ih,parseLine_congr (assignment_strip line)]

theorem assignment_empty : assignment "" = none := by decide

/-- A file is read line by line, also when it ends with a line break. -/
theorem parse_join (hne : ls ≠ []) (h : ∀ l ∈ ls, '\n' ∉ l.toList) :
    parse process (Text.join '\n' ls) = ls.foldl (parseLine process) fun _ => none := by
  rw [parse,lines,Text.split_join hne h,foldl_strip]
  split
  · next hlast =>
    obtain ⟨front,rfl⟩ := List.getLast?_eq_some_iff.1 hlast
    rw [List.dropLast_concat,List.foldl_append,List.foldl_cons,List.foldl_nil,parseLine,assignment_empty]
  · rfl

/-- Lines that do not assign a variable leave it alone. -/
theorem foldl_of_unassigned (h : ∀ l ∈ ls, ∀ raw, assignment l ≠ some (key,raw)) (known : Vars) :
    ls.foldl (parseLine process) known key = known key := by
  induction ls generalizing known with
  | nil => rfl
  | cons line ls ih =>
    rw [List.foldl_cons,ih fun l hl => h l (List.mem_cons_of_mem _ hl),parseLine]
    cases hassign : assignment line with
    | none => rfl
    | some pair =>
      have hne : key ≠ pair.1 := by
        rintro rfl
        exact h line List.mem_cons_self pair.2 hassign
      exact Function.update_of_ne hne _ _

/-- A line assigns a key that it holds. -/
theorem subset_of_assignment {raw : String} (h : assignment line = some (key,raw)) : key.toList ⊆ line.toList := by
  have htrim : ∀ s : String, (Text.trim s).toList ⊆ s.toList := by
    intro s
    obtain ⟨before,after,heq,-,-⟩ := Text.exists_trim s
    intro c hc
    rw [heq]
    exact List.mem_append_left _ (List.mem_append_right _ hc)
  have hexport : ∀ s : String, (withoutExport s).toList ⊆ s.toList := by
    intro s
    rw [withoutExport]
    split
    · next rest hrest =>
      rw [Text.stripPrefix_eq_some.1 hrest,String.toList_append,trimStart,String.toList_ofList]
      exact List.Subset.trans (List.dropWhile_sublist _).subset (List.subset_append_right _ _)
    · exact List.Subset.refl _
  rw [assignment] at h
  split at h
  · cases h
  · rw [keyAndRaw] at h
    split at h
    · cases h
    · next k r hsome =>
      split at h
      · cases h
      · cases h
        have hk : k.toList ⊆ (withoutExport (Text.trim line)).toList := by
          rw [(Text.splitOnce_eq_some hsome).2]
          simp
        exact List.Subset.trans (htrim k) (List.Subset.trans hk (List.Subset.trans (hexport _) (htrim line)))

end Lines

end Env

end Rainier.Config
