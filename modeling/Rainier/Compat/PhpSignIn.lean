import Mathlib.Data.List.Induction
import Rainier.Compat.PhpSession

/-! # Who is signed in after a migration

The entries of a payload are mapped in order into one map of values, in which the signed-in user has a
key like any other. Whoever writes it last is signed in.
-/
namespace Rainier.Compat.Php.SessionMapping

variable {F : Type} (bits : F → BitVec 64) (m : SessionMapping)

/-- The id in an entry of the guard's. -/
def guardId (entry : Key × Value F) : Option String :=
  match entry.1.toText with
  | some name => if m.isGuardKey name then userId entry.2 else none
  | none => none

/-- The last of the ids: whom the guard has signed in. -/
def signedIn (entries : List (Key × Value F)) : Option String := entries.reverse.findSome? m.guardId

/-- What any other entry leaves under the key of the user. -/
def foreignAuth (entry : Key × Value F) : Option Json :=
  match entry.1.toText with
  | some name => if m.isGuardKey name ∨ name = "_flash" ∨ name ≠ m.authKey then none else entry.2.toJson bits
  | none => none

def mapEntries (entries : List (Key × Value F)) : Mapped := entries.foldl (m.mapEntry bits) ⟨.default,none,[]⟩

/-- The value under the key of the user. -/
def auth (entries : List (Key × Value F)) : Option Json := Json.field (m.mapEntries bits entries).data.values m.authKey

/-- Only the user of the guard is signed in. -/
structure SignsInGuard (entries : List (Key × Value F)) : Prop where
  set_iff : (m.auth bits entries).isSome ↔ ∃ entry ∈ entries, (m.guardId entry).isSome
  value : ∀ value, m.auth bits entries = some value →
    ∃ id, value = .string id ∧ (m.mapEntries bits entries).userId = some id ∧ ∃ entry ∈ entries, m.guardId entry = some id
  /-- Without the other entries the value is the same. -/
  only : m.auth bits entries = m.auth bits (entries.filter fun entry => (m.guardId entry).isSome)

/-! ## The last writer -/

section LastWriter

variable {bits m} {entries : List (Key × Value F)} {entry : Key × Value F}

/-- What an entry writes under the key of the user. -/
def written (bits : F → BitVec 64) (m : SessionMapping) (entry : Key × Value F) : Option Json :=
  ((m.guardId entry).map Json.string).or (m.foreignAuth bits entry)

theorem written_guard {id : String} (h : m.guardId entry = some id) : m.written bits entry = some (.string id) := by
  rw [written,h]
  rfl

theorem foreignAuth_guard {id : String} (h : m.guardId entry = some id) : m.foreignAuth bits entry = none := by
  rw [guardId] at h
  rw [foreignAuth]
  cases hname : entry.1.toText with
  | none => rfl
  | some name =>
    rw [hname] at h
    have hguard : m.isGuardKey name = true := by
      by_contra hguard
      simp [hguard] at h
    simp [hguard]

theorem written_foreign {json : Json} (h : m.foreignAuth bits entry = some json) : m.written bits entry = some json := by
  cases hid : m.guardId entry with
  | some id =>
    rw [foreignAuth_guard hid] at h
    cases h
  | none =>
    rw [written,hid,h]
    rfl

theorem field_mapEntry (mapped : Mapped) : Json.field (m.mapEntry bits mapped entry).data.values m.authKey =
    (m.written bits entry).or (Json.field mapped.data.values m.authKey) := by
  rw [mapEntry,written,guardId,foreignAuth]
  cases hname : entry.1.toText with
  | none => rfl
  | some name =>
    by_cases hguard : m.isGuardKey name
    · cases hid : userId entry.2 with
      | none => simp [hguard]
      | some id => simp [hguard,Json.field_insert]
    · simp only [if_neg hguard]
      by_cases hflash : name = "_flash"
      · simp [hflash]
      · cases hjson : entry.2.toJson bits with
        | none => simp [hflash]
        | some json =>
          by_cases hauth : name = m.authKey
          · simp only [if_neg hflash,Json.field_insert]
            simp [← hauth,hguard,hflash]
          · simp [hguard,hflash,hauth,Ne.symm hauth,Json.field_insert]

theorem userId_mapEntry (mapped : Mapped) : (m.mapEntry bits mapped entry).userId = (m.guardId entry).or mapped.userId := by
  rw [mapEntry,guardId]
  cases hname : entry.1.toText with
  | none => rfl
  | some name =>
    by_cases hguard : m.isGuardKey name
    · cases hid : userId entry.2 with
      | none => simp [hguard]
      | some id => simp [hguard]
    · simp only [if_neg hguard]
      by_cases hflash : name = "_flash"
      · simp [hflash]
      · cases hjson : entry.2.toJson bits with
        | none => simp [hflash]
        | some json => simp [hflash]

theorem signedIn_concat : m.signedIn (entries ++ [entry]) = (m.guardId entry).or (m.signedIn entries) := by
  rw [signedIn,List.reverse_concat,List.findSome?_cons,signedIn]
  cases m.guardId entry <;> rfl

theorem auth_concat : m.auth bits (entries ++ [entry]) = (m.written bits entry).or (m.auth bits entries) := by
  rw [auth,mapEntries,List.foldl_append,List.foldl_cons,List.foldl_nil,field_mapEntry,auth,mapEntries]

theorem userId_mapEntries : (m.mapEntries bits entries).userId = m.signedIn entries := by
  induction entries using List.reverseRecOn with
  | nil => rfl
  | append_singleton entries entry ih =>
    rw [mapEntries,List.foldl_append,List.foldl_cons,List.foldl_nil,userId_mapEntry,signedIn_concat,← ih,mapEntries]

theorem exists_of_signedIn {id : String} (h : m.signedIn entries = some id) : ∃ entry ∈ entries, m.guardId entry = some id := by
  obtain ⟨entry,hmem,hid⟩ := List.exists_of_findSome?_eq_some h
  exact ⟨entry,List.mem_reverse.1 hmem,hid⟩

theorem signedIn_isSome_iff : (m.signedIn entries).isSome ↔ ∃ entry ∈ entries, (m.guardId entry).isSome := by
  rw [signedIn,List.findSome?_isSome_iff]
  simp

/-- On its own the guard signs in its user. -/
theorem auth_filter : m.auth bits (entries.filter fun entry => (m.guardId entry).isSome) = (m.signedIn entries).map .string := by
  induction entries using List.reverseRecOn with
  | nil => rfl
  | append_singleton entries entry ih =>
    rw [List.filter_append,signedIn_concat]
    cases hid : m.guardId entry with
    | none =>
      rw [List.filter_cons_of_neg (by simp [hid]),List.filter_nil,List.append_nil,ih]
      rfl
    | some id =>
      rw [List.filter_cons_of_pos (by simp [hid]),List.filter_nil,auth_concat,written_guard hid]
      rfl

theorem signsInGuard_iff_auth : m.SignsInGuard bits entries ↔ m.auth bits entries = (m.signedIn entries).map .string := by
  constructor
  · intro h
    rw [h.only,auth_filter]
  · intro h
    constructor
    · rw [h,Option.isSome_map,signedIn_isSome_iff]
    · intro value hvalue
      rw [h] at hvalue
      obtain ⟨id,hid,rfl⟩ := Option.map_eq_some_iff.1 hvalue
      exact ⟨id,rfl,userId_mapEntries.trans hid,exists_of_signedIn hid⟩
    · rw [h,auth_filter]

end LastWriter

/-! ## The entries that do no harm -/

/-- The key of the user is written again behind an entry that writes it, or the entry repeats the id. -/
def Harmless (entries : List (Key × Value F)) : Prop := ∀ before entry after json,
  entries = before ++ entry :: after → m.foreignAuth bits entry = some json →
    (∃ later ∈ after, (m.guardId later).isSome ∨ (m.foreignAuth bits later).isSome) ∨
      ∃ id, m.signedIn before = some id ∧ json = .string id

section Harmless

variable {bits m} {entries : List (Key × Value F)} {entry : Key × Value F}

/-- An entry of a list with one more is that one, or has it behind it. -/
theorem concat_eq_append_cons {α : Type} {l before after : List α} {last a : α} (h : l ++ [last] = before ++ a :: after) :
    before = l ∧ a = last ∧ after = [] ∨ ∃ rest, after = rest ++ [last] ∧ l = before ++ a :: rest := by
  obtain rfl | ⟨rest,b,rfl⟩ := List.eq_nil_or_concat' after
  · obtain ⟨hl,hlast⟩ := List.append_inj' h rfl
    exact .inl ⟨hl.symm,(List.cons.inj hlast).1.symm,rfl⟩
  · have hassoc : before ++ a :: (rest ++ [b]) = (before ++ a :: rest) ++ [b] := by simp
    rw [hassoc] at h
    obtain ⟨hl,hlast⟩ := List.append_inj' h rfl
    exact .inr ⟨rest,by rw [(List.cons.inj hlast).1],hl⟩

theorem harmless_concat_guard {id : String} (hid : m.guardId entry = some id) : m.Harmless bits (entries ++ [entry]) := by
  intro before other after json heq hjson
  obtain ⟨-,rfl,-⟩ | ⟨rest,rfl,-⟩ := concat_eq_append_cons heq
  · rw [foreignAuth_guard hid] at hjson
    cases hjson
  · exact .inl ⟨entry,by simp,.inl (by rw [hid]; rfl)⟩

theorem harmless_concat_foreign {json : Json} (hjson : m.foreignAuth bits entry = some json) :
    m.Harmless bits (entries ++ [entry]) ↔ ∃ id, m.signedIn entries = some id ∧ json = .string id := by
  constructor
  · intro h
    obtain ⟨later,hlater,-⟩ | hid := h entries entry [] json rfl hjson
    · cases hlater
    · exact hid
  · intro hid before other after json' heq hjson'
    obtain ⟨rfl,rfl,-⟩ | ⟨rest,rfl,-⟩ := concat_eq_append_cons heq
    · rw [hjson] at hjson'
      cases hjson'
      exact .inr hid
    · exact .inl ⟨entry,by simp,.inr (by rw [hjson]; rfl)⟩

theorem harmless_concat_other (hid : m.guardId entry = none) (hjson : m.foreignAuth bits entry = none) :
    m.Harmless bits (entries ++ [entry]) ↔ m.Harmless bits entries := by
  constructor
  · intro h before other after json heq hother
    obtain ⟨later,hlater,hwrites⟩ | hsame := h before other (after ++ [entry]) json (by rw [heq]; simp) hother
    · obtain hlater | hlater := List.mem_append.1 hlater
      · exact .inl ⟨later,hlater,hwrites⟩
      · rw [List.mem_singleton.1 hlater,hid,hjson] at hwrites
        simp at hwrites
    · exact .inr hsame
  · intro h before other after json heq hother
    obtain ⟨-,rfl,-⟩ | ⟨rest,rfl,hentries⟩ := concat_eq_append_cons heq
    · rw [hjson] at hother
      cases hother
    · obtain ⟨later,hlater,hwrites⟩ | hsame := h before other rest json hentries hother
      · exact .inl ⟨later,List.mem_append_left _ hlater,hwrites⟩
      · exact .inr hsame

theorem signsInGuard_iff : m.SignsInGuard bits entries ↔ m.Harmless bits entries := by
  rw [signsInGuard_iff_auth]
  induction entries using List.reverseRecOn with
  | nil => simp [Harmless,auth,mapEntries,signedIn,SessionData.default]
  | append_singleton entries entry ih =>
    rw [auth_concat,signedIn_concat]
    cases hid : m.guardId entry with
    | some id =>
      rw [written_guard hid]
      exact iff_of_true rfl (harmless_concat_guard hid)
    | none =>
      cases hjson : m.foreignAuth bits entry with
      | some json =>
        rw [written_foreign hjson,harmless_concat_foreign hjson]
        cases m.signedIn entries with
        | none => simp
        | some id => simp
      | none =>
        rw [written,hid,hjson,harmless_concat_other hid hjson]
        exact ih

end Harmless

/-- An application that keeps a value of its own under the key of the user signs somebody in. -/
theorem foreign_signs_in :
    ¬ SignsInGuard (fun _ => 0) ⟨"web","_auth_id"⟩
      ([(.str (Text.asBytes "_auth_id"),.string (Text.asBytes "1"))] : List (Key × Value Unit)) := by
  have hguard : isGuardKey ⟨"web","_auth_id"⟩ "_auth_id" = false := by decide
  intro h
  have hauth := signsInGuard_iff_auth.1 h
  rw [← List.nil_append [_],auth_concat,signedIn_concat] at hauth
  simp [written,guardId,foreignAuth,Key.toText,Text.fromUtf8_asBytes,hguard,Value.toJson,signedIn] at hauth

end Rainier.Compat.Php.SessionMapping
