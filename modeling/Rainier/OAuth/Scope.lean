import Rainier.OAuth.Model

/-! # Scopes

`validate` reads a space-delimited list and falls back to the default where the list
is empty; `finalize` keeps what the grant and the client allow. A list that is sealed
in a code is written with spaces and read by `validate` again: it comes back as it
was unless it was empty, or a name in it is not one word.
-/
namespace Rainier.OAuth
open Rainier

/-- The scopes a server knows; their descriptions are for the consent screen only. -/
structure Scopes where
  known : List String
  default : List String
  deriving DecidableEq, Repr

/-- `[String]::join(" ")`. -/
def joinSpaces (scopes : List String) : String :=
  String.ofList (List.intercalate [' '] (scopes.map String.toList))

namespace Scopes

def exists' (s : Scopes) (scope : String) : Bool := scope = everything || s.known.contains scope

/-- The words of a list: split at spaces, empty ones dropped. -/
def words (list : String) : List String :=
  ((list.toList.splitOn ' ').filter (· ≠ [])).map String.ofList

def requested (s : Scopes) (list : Option String) : List String :=
  match (list.map Text.trim).filter (· ≠ "") with
  | some list => words list
  | none => s.default

def validate (s : Scopes) (list : Option String) : Except OAuthError (List String) :=
  match (s.requested list).find? (!s.exists' ·) with
  | some scope => .error (.invalidScope scope)
  | none => .ok (s.requested list)

def keepsEverything : Grant → Bool
  | .password | .personalAccess | .clientCredentials => true
  | .authorizationCode | .refreshToken => false

def finalizeStep (s : Scopes) (grant : Grant) (client : Client) (out : List String) (scope : String) : List String :=
  if scope = everything && !keepsEverything grant then out
  else if s.exists' scope && client.allowsScope scope && !out.contains scope then out ++ [scope]
  else out

def finalize (s : Scopes) (scopes : List String) (grant : Grant) (client : Client) : List String :=
  scopes.foldl (s.finalizeStep grant client) []

/-! What comes out of them. -/

theorem mem_finalizeStep {s : Scopes} {grant : Grant} {client : Client} {out : List String} {scope x : String}
    (h : x ∈ s.finalizeStep grant client out scope) :
    x ∈ out ∨ x = scope ∧ client.allowsScope x = true ∧ (x = everything → keepsEverything grant = true) := by
  unfold finalizeStep at h
  split at h
  · exact .inl h
  · rename_i heverything
    split at h
    · rename_i hallowed
      rcases List.mem_append.mp h with h | h
      · exact .inl h
      · obtain rfl := List.mem_singleton.mp h
        simp only [Bool.and_eq_true] at hallowed
        exact .inr ⟨rfl,hallowed.1.2,fun hx => by simpa [hx] using heverything⟩
    · exact .inl h

/-- A token's scopes are among those asked for, and the client may have them. -/
theorem mem_finalize {s : Scopes} {scopes : List String} {grant : Grant} {client : Client} {x : String}
    (hx : x ∈ s.finalize scopes grant client) :
    x ∈ scopes ∧ client.allowsScope x = true ∧ (x = everything → keepsEverything grant = true) := by
  -- whatever the list so far, a scope in the result was in it or is still to come
  have hfold : ∀ (rest out : List String), x ∈ rest.foldl (s.finalizeStep grant client) out →
      x ∈ out ∨ x ∈ rest ∧ client.allowsScope x = true ∧ (x = everything → keepsEverything grant = true) := by
    intro rest
    induction rest with
    | nil => exact fun out hx => .inl hx
    | cons scope rest ih =>
      intro out hx
      rcases ih _ hx with hx | ⟨hx,hkept⟩
      · rcases mem_finalizeStep hx with hx | ⟨rfl,hkept⟩
        · exact .inl hx
        · exact .inr ⟨List.mem_cons_self,hkept⟩
      · exact .inr ⟨List.mem_cons_of_mem scope hx,hkept⟩
  exact (hfold scopes [] hx).resolve_left List.not_mem_nil

theorem finalize_subset (s : Scopes) (scopes : List String) (grant : Grant) (client : Client) :
    ∀ x ∈ s.finalize scopes grant client, x ∈ scopes := fun _ hx => (mem_finalize hx).1

theorem validate_eq_ok {s : Scopes} {list : Option String} {scopes : List String} (h : s.validate list = .ok scopes) :
    scopes = s.requested list ∧ ∀ x ∈ scopes, s.exists' x = true := by
  unfold validate at h
  split at h
  · cases h
  · rename_i hnone
    cases h
    exact ⟨rfl,fun x hx => by simpa using List.find?_eq_none.mp hnone x hx⟩

end Scopes

/-- A name that survives in a list written with spaces: not empty, no space in it, and no
whitespace at either end. -/
structure IsWord (scope : String) : Prop where
  ne : scope ≠ ""
  space : ' ' ∉ scope.toList
  head : ∀ c ∈ scope.toList.head?, Text.isWhitespace c = false
  last : ∀ c ∈ scope.toList.getLast?, Text.isWhitespace c = false

instance (scope : String) : Decidable (IsWord scope) :=
  decidable_of_iff (scope ≠ "" ∧ ' ' ∉ scope.toList ∧ scope.toList.head?.all (!Text.isWhitespace ·) = true ∧
      scope.toList.getLast?.all (!Text.isWhitespace ·) = true)
    ⟨fun ⟨hne,hspace,hhead,hlast⟩ => ⟨hne,hspace,by simpa [Option.all_eq_true] using hhead,
      by simpa [Option.all_eq_true] using hlast⟩,
      fun h => ⟨h.ne,h.space,by simpa [Option.all_eq_true] using h.head,
        by simpa [Option.all_eq_true] using h.last⟩⟩

theorem head?_intercalate {w : List Char} (hw : w ≠ []) (ws : List (List Char)) :
    (List.intercalate [' '] (w :: ws)).head? = w.head? := by
  cases ws with
  | nil => simp [List.intercalate]
  | cons w' ws =>
    rw [List.intercalate_cons_cons,List.append_assoc,List.head?_append_of_ne_nil w hw]

theorem getLast?_intercalate {w : List Char} {l : List (List Char)} (hne : ∀ v ∈ w :: l, v ≠ []) :
    ∃ v ∈ w :: l, (List.intercalate [' '] (w :: l)).getLast? = v.getLast? := by
  induction l generalizing w with
  | nil => exact ⟨w,by simp,by simp [List.intercalate]⟩
  | cons w' l ih =>
    obtain ⟨v,hv,hlast⟩ := ih fun v hv => hne v (List.mem_cons_of_mem w hv)
    refine ⟨v,List.mem_cons_of_mem w hv,?_⟩
    have hv' : v.getLast? ≠ none := by simpa using hne v (List.mem_cons_of_mem w hv)
    rw [List.intercalate_cons_cons,List.getLast?_append,hlast]
    cases hl : v.getLast? with
    | none => exact absurd hl hv'
    | some c => rfl

/-- A list of words comes back from its own text. -/
theorem words_joinSpaces {scopes : List String} (hne : scopes ≠ []) (hw : ∀ x ∈ scopes, IsWord x) :
    Scopes.words (joinSpaces scopes) = scopes := by
  have hspace : ∀ l ∈ scopes.map String.toList, ' ' ∉ l := by
    intro l hl
    obtain ⟨x,hx,rfl⟩ := List.mem_map.mp hl
    exact (hw x hx).space
  have hkeep : ∀ l ∈ scopes.map String.toList, decide (l ≠ []) = true := by
    intro l hl
    obtain ⟨x,hx,rfl⟩ := List.mem_map.mp hl
    exact decide_eq_true fun h => (hw x hx).ne (String.toList_eq_nil_iff.mp h)
  rw [Scopes.words,joinSpaces,String.toList_ofList,List.splitOn_intercalate ' ' hspace (by simpa using hne),
    List.filter_eq_self.mpr hkeep,List.map_map]
  simp [Function.comp_def]

theorem joinSpaces_text {scopes : List String} (hne : scopes ≠ []) (hw : ∀ x ∈ scopes, IsWord x) :
    joinSpaces scopes ≠ "" ∧ Text.trim (joinSpaces scopes) = joinSpaces scopes := by
  obtain ⟨x,rest,rfl⟩ := List.exists_cons_of_ne_nil hne
  have hx := hw x List.mem_cons_self
  have hnil : x.toList ≠ [] := fun h => hx.ne (String.toList_eq_nil_iff.mp h)
  have hhead : (joinSpaces (x :: rest)).toList.head? = x.toList.head? := by
    rw [joinSpaces,String.toList_ofList,List.map_cons,head?_intercalate hnil]
  constructor
  · intro h
    rw [h] at hhead
    exact hnil (List.head?_eq_none_iff.mp hhead.symm)
  · refine Text.trim_eq_self (by rw [hhead]; exact hx.head) ?_
    obtain ⟨v,hv,hlast⟩ := getLast?_intercalate (w := x.toList) (l := rest.map String.toList) (by
      intro v hv
      obtain ⟨y,hy,rfl⟩ := List.mem_map.mp (show v ∈ (x :: rest).map String.toList from hv)
      exact fun h => (hw y hy).ne (String.toList_eq_nil_iff.mp h))
    obtain ⟨y,hy,rfl⟩ := List.mem_map.mp (show v ∈ (x :: rest).map String.toList from hv)
    rw [joinSpaces,String.toList_ofList,List.map_cons,hlast]
    exact (hw y hy).last

theorem Scopes.requested_joinSpaces (s : Scopes) {scopes : List String} (hne : scopes ≠ [])
    (hw : ∀ x ∈ scopes, IsWord x) : s.requested (some (joinSpaces scopes)) = scopes := by
  obtain ⟨htext,htrim⟩ := joinSpaces_text hne hw
  rw [Scopes.requested,Option.map_some,htrim,Option.filter_some,if_pos (decide_eq_true htext)]
  exact words_joinSpaces hne hw

end Rainier.OAuth
