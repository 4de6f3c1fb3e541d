import Rainier.Support.Glob
import Rainier.Routing.Route

/-! # Paths that need no CSRF token

`VerifyCsrfToken` reads the path of a request as a text, with no slash at its start, and holds it
against patterns. The router reads the same path as its segments.
-/
namespace Rainier.Session.VerifyCsrfToken

/-- `trim_start_matches('/')`. -/
def trimStart (s : String) : String := String.ofList (s.toList.dropWhile (· = '/'))

def wildcard (pattern text : String) : Bool := Glob.wildcard 42 (Text.asBytes pattern) (Text.asBytes text)

def isExcepted (except : List String) (path : String) : Bool :=
  let path := trimStart path
  except.any fun pattern =>
    let pattern := if pattern = "/" then pattern else trimStart pattern
    if pattern = "/" then path = ""
    else wildcard pattern path

/-! ## What is left of a path -/

variable {p p' q q' : String}

theorem head_trimStart (p : String) : '/' ∉ (trimStart p).toList.head? := by
  rw [trimStart,String.toList_ofList]
  intro h
  have hhead := List.head?_dropWhile_not (· = '/') p.toList
  rw [h] at hhead
  simp at hhead

theorem trimStart_eq_self (h : '/' ∉ p.toList.head?) : trimStart p = p := by
  have hkept : p.toList.dropWhile (· = '/') = p.toList := by
    apply Text.dropWhile_eq_self
    intro c hc
    apply decide_eq_false
    rintro rfl
    exact h hc
  rw [trimStart,hkept,String.ofList_toList]

/-- An exception that is a path of its own, without slashes at its start, is held against the text as it is. -/
theorem isExcepted_singleton (hq : '/' ∉ q.toList.head?) (p : String) : isExcepted [q] p = wildcard q (trimStart p) := by
  have hne : q ≠ "/" := by
    rintro rfl
    exact hq rfl
  simp [isExcepted,trimStart_eq_self hq,hne]

theorem splitPath_trimStart (p : String) : Routing.splitPath (trimStart p) = Routing.splitPath p := by
  rw [trimStart,← String.ofList_toList (s := p),String.toList_ofList]
  induction p.toList with
  | nil => rfl
  | cons c cs ih =>
    by_cases hc : c = '/'
    · subst hc
      rw [List.dropWhile_cons_of_pos (by simp),ih]
      simp [Routing.splitPath,Text.split,List.splitOn_cons_eq_if_modifyHead]
    · rw [List.dropWhile_cons_of_neg (by simpa using hc)]

/-! ## Which spellings the exceptions tell apart -/

theorem segments_bytes (q : String) :
    ((Text.asBytes q).splitOn 47).filter (· ≠ []) = (Routing.splitPath q).map Text.asBytes := by
  have hempty : ∀ s : String, Text.asBytes s = [] ↔ s = "" := fun s => Text.asBytes_injective.eq_iff' rfl
  have hslash : '/'.toNat < 128 := by decide
  have hsplit : (Text.asBytes q).splitOn 47 = (Text.split '/' q).map Text.asBytes := Text.splitOn_asBytes hslash q
  rw [hsplit,List.filter_map,Routing.splitPath]
  congr 1
  apply List.filter_congr
  intro s hs
  simp [hempty]

/-- A path with as many slashes as another one of the same segments, read as a pattern, takes no other spelling. -/
theorem eq_of_wildcard (hsegments : Routing.splitPath q = Routing.splitPath q')
    (hcount : (Text.asBytes q').count 47 ≤ (Text.asBytes q).count 47) (h : wildcard q q' = true) : q = q' := by
  have hmatch := Glob.wildcard_iff.1 h
  have hslash : (47 : UInt8) ≠ 42 := by decide
  have hle := Glob.count_le_of_matches hslash hmatch
  have hfills := Glob.fills_of_matches hslash hmatch (Nat.le_antisymm hle hcount)
  have hfields := hfills.eq (by rw [segments_bytes,segments_bytes,hsegments])
  apply Text.asBytes_injective
  have hjoined := congrArg (List.intercalate [47]) hfields
  rw [List.intercalate_splitOn,List.intercalate_splitOn] at hjoined
  exact hjoined

theorem wildcard_self (q : String) : wildcard q q = true := Glob.wildcard_iff.2 (Glob.matches_self _ _)

theorem trimStart_eq_of_agree (hsegments : Routing.splitPath p = Routing.splitPath p')
    (hcount : (Text.asBytes (trimStart p')).count 47 ≤ (Text.asBytes (trimStart p)).count 47)
    (h : ∀ except, isExcepted except p = isExcepted except p') : trimStart p = trimStart p' := by
  apply eq_of_wildcard _ hcount
  · rw [← isExcepted_singleton (head_trimStart p),← h,isExcepted_singleton (head_trimStart p)]
    exact wildcard_self _
  · rw [splitPath_trimStart,splitPath_trimStart,hsegments]

end Rainier.Session.VerifyCsrfToken
