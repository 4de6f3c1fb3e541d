import Mathlib.Data.List.ReduceOption
import Rainier.Session.Csrf
import Rainier.Session.Session
import Rainier.Support.GlobText
import Rainier.Support.JsonPath
import Rainier.Support.Split

/-! # Which requests pass without showing more

A request that changes something passes by its path, by what the browser says of its origin, or by
the token of its session. The token may come from three places, and only the first of them that has
anything is read.
-/
namespace Rainier.Session

/-! ## The request -/

/-- A request, as the check reads it. -/
structure Incoming where
  method : String
  path : String
  /-- The first value under a name, where it is visible text. -/
  header : String → Option String
  inputOverride : Option Json
  bodyInput : Json
  query : Json
  session : Option Session
  expectsJson : Bool

section

variable (numberText : BitVec 64 → String)

/-- `scalar_to_string`: a container does not read as a string. -/
def scalarToString : Json → Option String
  | .string s => some s
  | .number n => some (Json.writeNumber numberText n)
  | .bool b => some (toString b)
  | .null | .array _ | .object _ => none

/-- `input::lookup`. -/
def lookup (root : Json) (path : String) : Option Json := root.walk (Text.split '.' path)

def Incoming.input (request : Incoming) (key : String) : Option String :=
  match request.inputOverride with
  | some overridden => (lookup overridden key).bind (scalarToString numberText)
  | none => ((lookup request.bodyInput key).or (lookup request.query key)).bind (scalarToString numberText)

end

/-! ## The check -/

def tokenKey : String := "_token"

/-- How the cookie's value relates to the token. -/
structure XsrfCodec where
  open_ : String → Option String

/-- The cookie is the token. -/
def plainXsrf : XsrfCodec := ⟨some⟩

structure VerifyCsrfToken where
  except : List String
  codec : XsrfCodec
  fetchMetadata : Bool
  allowSameSite : Bool

/-- With the cookie as the token. -/
def VerifyCsrfToken.plain (v : VerifyCsrfToken) : VerifyCsrfToken := { v with codec := plainXsrf }

/-- The answer to a request that does not pass. -/
structure Mismatch where
  status : ℕ
  json : Bool
  message : String
  deriving DecidableEq, Repr

def mismatch (request : Incoming) : Mismatch := ⟨419,request.expectsJson,"CSRF token mismatch."⟩

/-- Equal, without returning early on the first difference. -/
def constantTimeEq (a b : List UInt8) : Bool :=
  if a.length ≠ b.length then false
  else (a.zip b).foldl (fun acc pair => acc ||| (pair.1 ^^^ pair.2)) 0 = 0

namespace VerifyCsrfToken

def isReading (request : Incoming) : Bool := request.method = "GET" || request.method = "HEAD" || request.method = "OPTIONS"

variable (numberText : BitVec 64 → String) (v : VerifyCsrfToken)

def fetchMetadataPasses (request : Incoming) : Bool :=
  if v.fetchMetadata = false then false
  else
    match request.header "sec-fetch-site" with
    | some "same-origin" => true
    | some "same-site" => v.allowSameSite
    | _ => false

/-- The token the request presents, wherever it put it. -/
def presented (request : Incoming) : Option String :=
  match (request.input numberText "_token").filter (· ≠ "") with
  | some token => some token
  | none =>
    match (request.header "x-csrf-token").filter (· ≠ "") with
    | some token => some token
    | none => ((request.header "x-xsrf-token").filter (· ≠ "")).bind v.codec.open_

/-- The token presented is held against one that the session already has. -/
def tokensMatch (request : Incoming) : Bool :=
  match request.session with
  | none => false
  | some session =>
    match v.presented numberText request with
    | none => false
    | some presented =>
      match session.string numberText tokenKey with
      | some token => constantTimeEq (Text.asBytes token) (Text.asBytes presented)
      | none => false

def passes (request : Incoming) : Bool :=
  isReading request || isExcepted v.except request.path || v.fetchMetadataPasses request || v.tokensMatch numberText request

/-- The handler runs, or the request is refused before it. What cookie a response gets is left out. -/
def handle {α : Type} (next : Incoming → α) (request : Incoming) : Except Mismatch α :=
  if v.passes numberText request then .ok (next request) else .error (mismatch request)

end VerifyCsrfToken

/-! ## What decides -/

section

variable (numberText : BitVec 64 → String) (v : VerifyCsrfToken) (request : Incoming)

/-- A path is what becomes of the pattern with some string for each star, both without slashes at their start. -/
def Covers (pattern path : String) : Prop :=
  ∃ strings, Glob.replaceStars '*' (VerifyCsrfToken.trimStart pattern).toList strings = (VerifyCsrfToken.trimStart path).toList

/-- What a request may pass by before its token is asked for. -/
inductive Waved : Prop where
  | reading (h : request.method ∈ ["GET","HEAD","OPTIONS"])
  | excepted (pattern : String) (hmem : pattern ∈ v.except) (h : Covers pattern request.path)
  | sameOrigin (htrust : v.fetchMetadata = true) (h : request.header "sec-fetch-site" = some "same-origin")
  | sameSite (htrust : v.fetchMetadata = true) (hallow : v.allowSameSite = true)
      (h : request.header "sec-fetch-site" = some "same-site")

/-- The tokens a request carries, in the order of their places. -/
def tokens : List String :=
  ([request.input numberText "_token",request.header "x-csrf-token",request.header "x-xsrf-token"].reduceOption).filter (· ≠ "")

/-- The token that the session of the request holds. -/
def heldToken : Option String := request.session.bind fun session => session.string numberText tokenKey

/-- A request should pass that is waved through, or carries the token of its session anywhere. -/
def ShouldPass : Prop :=
  Waved v request ∨ ∃ token, heldToken numberText request = some token ∧ token ∈ tokens numberText request

/-- The handler runs for a request that should pass, and for no other. -/
def DecidesRightly : Prop :=
  ∀ (α : Type) (next : Incoming → α), (v.handle numberText next request).isOk = true ↔ ShouldPass numberText v request

/-- The token of the session stands behind another one. -/
def Shadowed : Prop :=
  ¬ Waved v request ∧ ∃ token first rest, heldToken numberText request = some token ∧
    tokens numberText request = first :: rest ∧ token ≠ first ∧ token ∈ rest

end

variable {numberText : BitVec 64 → String} {v : VerifyCsrfToken} {request : Incoming}

/-! ## The parts of the decision -/

/-- Bytes that were different stay so. -/
theorem foldl_or_eq_zero (pairs : List (UInt8 × UInt8)) (acc : UInt8) :
    pairs.foldl (fun acc pair => acc ||| (pair.1 ^^^ pair.2)) acc = 0 ↔ acc = 0 ∧ ∀ pair ∈ pairs, pair.1 = pair.2 := by
  induction pairs generalizing acc with
  | nil => simp
  | cons pair pairs ih =>
    rw [List.foldl_cons,ih,List.forall_mem_cons,UInt8.or_eq_zero_iff,UInt8.xor_eq_zero_iff,and_assoc]

theorem zip_eq_iff {a b : List UInt8} (hlength : a.length = b.length) : (∀ pair ∈ a.zip b, pair.1 = pair.2) ↔ a = b := by
  induction a generalizing b with
  | nil =>
    have hb : b = [] := List.length_eq_zero_iff.1 hlength.symm
    simp [hb]
  | cons x a ih =>
    cases b with
    | nil => cases hlength
    | cons y b =>
      rw [List.zip_cons_cons,List.forall_mem_cons,ih (Nat.succ.inj hlength),List.cons.injEq]

theorem constantTimeEq_iff (a b : List UInt8) : constantTimeEq a b = true ↔ a = b := by
  rw [constantTimeEq]
  split_ifs with hlength
  · constructor
    · intro h
      cases h
    · rintro rfl
      exact absurd rfl hlength
  · rw [decide_eq_true_eq,foldl_or_eq_zero,zip_eq_iff (not_not.1 hlength)]
    simp

theorem trimStart_root : VerifyCsrfToken.trimStart "/" = "" := by decide

/-- Taken off its slashes no pattern is the root. -/
theorem trimStart_ne_root (pattern : String) : VerifyCsrfToken.trimStart pattern ≠ "/" := by
  intro h
  have hhead := VerifyCsrfToken.head_trimStart pattern
  rw [h] at hhead
  exact hhead (by decide)

theorem isExcepted_iff (except : List String) (path : String) :
    VerifyCsrfToken.isExcepted except path = true ↔ ∃ pattern ∈ except, Covers pattern path := by
  rw [VerifyCsrfToken.isExcepted,List.any_eq_true]
  apply exists_congr
  intro pattern
  apply and_congr_right
  intro _
  rw [Covers,← Glob.matches_iff_replaceStars]
  by_cases hroot : pattern = "/"
  · -- the root is the pattern of no characters
    rw [if_pos hroot,if_pos hroot,hroot,trimStart_root,decide_eq_true_eq]
    constructor
    · intro h
      rw [h]
      exact Glob.Matches.nil
    · intro h
      cases hlist : (VerifyCsrfToken.trimStart path).toList with
      | nil => exact String.toList_eq_nil_iff.1 hlist
      | cons c cs =>
        rw [hlist] at h
        cases h
  · rw [if_neg hroot,if_neg (trimStart_ne_root pattern),VerifyCsrfToken.wildcard,Glob.wildcard_iff,Glob.matches_asBytes]

theorem fetchMetadataPasses_iff : v.fetchMetadataPasses request = true ↔ v.fetchMetadata = true ∧
    (request.header "sec-fetch-site" = some "same-origin" ∨
      v.allowSameSite = true ∧ request.header "sec-fetch-site" = some "same-site") := by
  rw [VerifyCsrfToken.fetchMetadataPasses]
  cases v.fetchMetadata with
  | false => simp
  | true =>
    simp only [Bool.true_eq_false,if_false,true_and]
    split
    · next h => simp [h]
    · next h => simp [h]
    · next hother hother' =>
      simp only [Bool.false_eq_true,false_iff,not_or,not_and]
      exact ⟨hother,fun _ => hother'⟩

theorem head?_tokens (o : Option String) (os : List (Option String)) :
    ((o :: os).reduceOption.filter (· ≠ "")).head? = (o.filter (· ≠ "")).or (os.reduceOption.filter (· ≠ "")).head? := by
  cases o with
  | none => simp
  | some token => by_cases htoken : token = "" <;> simp [htoken,Option.filter]

/-- Only the first token is presented. -/
theorem presented_plain : v.plain.presented numberText request =
    (tokens numberText request).head? := by
  rw [VerifyCsrfToken.presented,tokens,head?_tokens,head?_tokens,head?_tokens]
  cases (request.input numberText "_token").filter (· ≠ "") with
  | some token => rfl
  | none =>
    cases (request.header "x-csrf-token").filter (· ≠ "") with
    | some token => rfl
    | none => cases (request.header "x-xsrf-token").filter (· ≠ "") <;> rfl

theorem tokensMatch_iff : v.plain.tokensMatch numberText request = true ↔
    ∃ token, heldToken numberText request = some token ∧ (tokens numberText request).head? = some token := by
  rw [VerifyCsrfToken.tokensMatch,presented_plain,heldToken]
  cases request.session with
  | none => simp
  | some session =>
    rw [Option.bind_some]
    cases (tokens numberText request).head? with
    | none => simp
    | some presented =>
      cases hheld : session.string numberText tokenKey with
      | none => simp [hheld]
      | some token =>
        simp only [hheld,constantTimeEq_iff,Text.asBytes_injective.eq_iff,Option.some.injEq,exists_eq_left']
        exact eq_comm

/-! ## The whole decision -/

theorem waved_iff : Waved v request ↔ (VerifyCsrfToken.isReading request || VerifyCsrfToken.isExcepted v.except request.path ||
    v.fetchMetadataPasses request) = true := by
  rw [Bool.or_eq_true,Bool.or_eq_true,isExcepted_iff,fetchMetadataPasses_iff,VerifyCsrfToken.isReading]
  constructor
  · intro h
    cases h with
    | reading h => exact .inl (.inl (by simpa [or_assoc] using h))
    | excepted pattern hmem h => exact .inl (.inr ⟨pattern,hmem,h⟩)
    | sameOrigin htrust h => exact .inr ⟨htrust,.inl h⟩
    | sameSite htrust hallow h => exact .inr ⟨htrust,.inr ⟨hallow,h⟩⟩
  · rintro ((h | ⟨pattern,hmem,h⟩) | ⟨htrust,h | ⟨hallow,h⟩⟩)
    · exact .reading (by simpa [or_assoc] using h)
    · exact .excepted pattern hmem h
    · exact .sameOrigin htrust h
    · exact .sameSite htrust hallow h

theorem passes_iff : v.plain.passes numberText request = true ↔ Waved v.plain request ∨
    ∃ token, heldToken numberText request = some token ∧ (tokens numberText request).head? = some token := by
  rw [VerifyCsrfToken.passes,Bool.or_eq_true,tokensMatch_iff,waved_iff]

theorem handle_isOk {α : Type} (next : Incoming → α) :
    (v.handle numberText next request).isOk = v.passes numberText request := by
  rw [VerifyCsrfToken.handle]
  cases v.passes numberText request <;> rfl

/-- What the check waves through, or reads the token of, should pass, and the rest should as well where a token is shadowed. -/
theorem shouldPass_iff : ShouldPass numberText v request ↔ (Waved v request ∨
    ∃ token, heldToken numberText request = some token ∧ (tokens numberText request).head? = some token) ∨
      Shadowed numberText v request := by
  rw [ShouldPass,Shadowed]
  by_cases hwaved : Waved v request
  · simp [hwaved]
  cases htokens : tokens numberText request with
  | nil => simp [hwaved]
  | cons first rest =>
    simp only [hwaved,false_or,not_false_eq_true,true_and,List.head?_cons,Option.some.injEq,List.mem_cons,List.cons.injEq]
    constructor
    · rintro ⟨token,hheld,hmem⟩
      by_cases hfirst : token = first
      · exact .inl ⟨token,hheld,hfirst.symm⟩
      · exact .inr ⟨token,first,rest,hheld,⟨rfl,rfl⟩,hfirst,hmem.resolve_left hfirst⟩
    · rintro (⟨token,hheld,hfirst⟩ | ⟨token,first',rest',hheld,⟨rfl,rfl⟩,-,hmem⟩)
      · exact ⟨token,hheld,.inl hfirst.symm⟩
      · exact ⟨token,hheld,.inr hmem⟩

/-- A shadowed token is not the one that is read. -/
theorem not_passes_of_shadowed (h : Shadowed numberText v.plain request) :
    v.plain.passes numberText request = false := by
  obtain ⟨hwaved,token,first,rest,hheld,htokens,hne,-⟩ := h
  rw [← Bool.not_eq_true,passes_iff,hheld,htokens]
  rintro (h | ⟨token',htoken',hfirst⟩)
  · exact hwaved h
  · cases htoken'
    exact hne (Option.some.inj hfirst).symm

theorem not_decidesRightly (h : Shadowed numberText v.plain request) :
    ¬ DecidesRightly numberText v.plain request := by
  intro hright
  have hruns := (hright Unit fun _ => ()).2 (shouldPass_iff.2 (.inr h))
  rw [handle_isOk,not_passes_of_shadowed h] at hruns
  cases hruns

/-- The handler runs for the requests that should pass, unless the token of the session stands behind
another one. The matcher of the exceptions comes to an end for every pattern and text, and answers
whether the text is the pattern with some string for each star. -/
theorem decidesRightly_iff (numberText : BitVec 64 → String) (v : VerifyCsrfToken) (request : Incoming) :
    (DecidesRightly numberText v.plain request ↔ ¬ Shadowed numberText v.plain request) ∧
    ∀ pattern text : String,
      (∃ n answer, Glob.Cursor.run 42 (Text.asBytes pattern) (Text.asBytes text) n .start = some answer) ∧
      ∀ n answer, Glob.Cursor.run 42 (Text.asBytes pattern) (Text.asBytes text) n .start = some answer →
        answer = VerifyCsrfToken.wildcard pattern text ∧
        (answer = true ↔ ∃ strings, Glob.replaceStars '*' pattern.toList strings = text.toList) := by
  constructor
  · constructor
    · intro hright h
      exact not_decidesRightly h hright
    · intro h α next
      rw [handle_isOk,passes_iff,shouldPass_iff]
      exact ⟨.inl,fun hpass => hpass.resolve_right h⟩
  · intro pattern text
    obtain ⟨hends,hanswer⟩ := Glob.run_start 42 (Text.asBytes pattern) (Text.asBytes text)
    refine ⟨hends,fun n answer hrun => ?_⟩
    have hwildcard := hanswer n answer hrun
    refine ⟨hwildcard,?_⟩
    rw [hwildcard,Glob.wildcard_iff,Glob.matches_asBytes,Glob.matches_iff_replaceStars]

/-- A form that still holds an old token, sent with the token of the session in a header. -/
def staleForm : Incoming where
  method := "POST"
  path := "/posts"
  header name := if name = "x-csrf-token" then some "new" else none
  inputOverride := none
  bodyInput := .object [("_token",.string "old")]
  query := .object []
  session := some ((Session.new "s").put tokenKey (.string "new"))
  expectsJson := false

theorem stale_form_refused : ¬ DecidesRightly (fun _ => "") (VerifyCsrfToken.mk [] plainXsrf true false).plain staleForm := by
  apply not_decidesRightly
  have htokens : tokens (fun _ => "") staleForm = ["old","new"] := by decide
  refine ⟨?_,"new","old",["new"],rfl,htokens,by decide,List.mem_singleton_self _⟩
  rw [waved_iff]
  decide

end Rainier.Session
