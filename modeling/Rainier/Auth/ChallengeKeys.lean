import Rainier.Auth.Challenges
import Rainier.Cache.MemoryCache
import Rainier.Support.Text

/-! # Challenges of different holders

A challenge is stored under its purpose, a colon and its subject, all in one cache. A
purpose may hold a colon of its own, and then two holders can share a key.
-/
namespace Rainier.Auth.Challenges
open Rainier Cache

/-- The JSON text of a challenge, and its reader. -/
structure PendingJson where
  toText : Pending → String
  fromText : String → Option Pending
  fromText_toText : ∀ p, fromText (toText p) = some p

/-- `Challenges`, over a cache. -/
structure Issuer where
  json : PendingJson
  keyPrefix : String
  ttl : ℕ
  maxAttempts : ℕ

structure Holder where
  subject : String
  purpose : String
  deriving DecidableEq

namespace Issuer
variable (c : Issuer) (now : ℕ) (h : Holder)

/-- The purpose is part of the key. -/
def key : String := c.keyPrefix ++ h.purpose ++ ":" ++ h.subject

/-- What cannot be read is a miss. -/
def getJson (key : String) (cache : MemoryCache) : Option Pending × MemoryCache :=
  let found := cache.get now key
  (found.1.bind c.json.fromText,found.2)

def putJson (key : String) (pending : Pending) (cache : MemoryCache) : Unit × MemoryCache :=
  ((),cache.put now key (c.json.toText pending) (some c.ttl))

def issueCode (code : String) (cache : MemoryCache) : Unit × MemoryCache :=
  c.putJson now (c.key h) (Challenges.issueCode c.maxAttempts code) cache

/-- What is done about the challenge found. -/
def settle (answer : String) : Option Pending → MemoryCache → Except Error Unit × MemoryCache
  | none, cache => (.error notValid,cache)
  | some pending, cache =>
    match pending.judge answer with
    | .accept => (.ok (),(cache.forget (c.key h)).2)
    | .destroy => (.error tooMany,(cache.forget (c.key h)).2)
    | .writeBack counted =>
      (.error (remaining (counted.maxAttempts - counted.attempts)),(c.putJson now (c.key h) counted cache).2)

def consume (answer : String) (cache : MemoryCache) : Except Error Unit × MemoryCache :=
  let found := c.getJson now (c.key h) cache
  c.settle now h answer found.1 found.2

def isPending (cache : MemoryCache) : Bool × MemoryCache :=
  let found := c.getJson now (c.key h) cache
  (found.1.isSome,found.2)

def attemptsRemaining (cache : MemoryCache) : Option ℕ × MemoryCache :=
  let found := c.getJson now (c.key h) cache
  (found.1.map fun pending => pending.maxAttempts - pending.attempts,found.2)

def cancel (cache : MemoryCache) : Unit × MemoryCache := ((),(cache.forget (c.key h)).2)

end Issuer

inductive Request where
  | issueCode (code : String)
  | consume (answer : String)
  | isPending
  | attemptsRemaining
  | cancel

inductive Answer where
  | done
  | consumed (result : Except Error Unit)
  | pending (outstanding : Bool)
  | attempts (left : Option ℕ)

namespace Issuer
variable (c : Issuer) (h : Holder)

def perform (now : ℕ) (cache : MemoryCache) : Request → Answer × MemoryCache
  | .issueCode code => (.done,(c.issueCode now h code cache).2)
  | .consume answer => ((Answer.consumed (c.consume now h answer cache).1),(c.consume now h answer cache).2)
  | .isPending => (.pending (c.isPending now h cache).1,(c.isPending now h cache).2)
  | .attemptsRemaining => (.attempts (c.attemptsRemaining now h cache).1,(c.attemptsRemaining now h cache).2)
  | .cancel => (.done,(c.cancel h cache).2)

/-- Requests of one holder, each at its time. -/
def run (requests : List (ℕ × Request)) (cache : MemoryCache) : MemoryCache :=
  requests.foldl (fun cache r => (c.perform h r.1 cache r.2).2) cache

/-- The challenge a holder could answer now. -/
def outstanding (now : ℕ) (cache : MemoryCache) : Option Pending :=
  (cache.live now (c.key h)).bind fun e => c.json.fromText e.value

/-- What `holder` does makes no difference to `other`, and no code of the one is accepted for the other
unless it is the code of the other. -/
structure Bound (holder other : Holder) : Prop where
  undisturbed : ∀ cache requests now request,
    (c.perform other now (c.run holder requests cache) request).1 = (c.perform other now cache request).1
  ownCode : ∀ cache requests now code, (c.consume now other code (c.run holder requests cache)).1 = .ok () →
    ∃ pending, c.outstanding other now cache = some pending ∧ pending.code = code

/-! ## Every request concerns one key -/

variable {c h}

theorem getJson_local (now : ℕ) (key : String) : Keyed.Local key (c.getJson now key) :=
  (MemoryCache.get_local now key).map fun found => found.bind c.json.fromText

theorem settle_local (now : ℕ) (answer : String) (found : Option Pending) :
    Keyed.Local (c.key h) (c.settle now h answer found) := by
  cases found with
  | none => exact .pure _ _
  | some pending =>
    cases hjudge : pending.judge answer with
    | accept =>
      have hsettle : c.settle now h answer (some pending) = fun cache => (.ok (),(cache.forget (c.key h)).2) := by
        funext cache
        simp only [settle,hjudge]
      rw [hsettle]
      exact (MemoryCache.forget_local (c.key h)).map fun _ => Except.ok ()
    | destroy =>
      have hsettle : c.settle now h answer (some pending) = fun cache => (.error tooMany,(cache.forget (c.key h)).2) := by
        funext cache
        simp only [settle,hjudge]
      rw [hsettle]
      exact (MemoryCache.forget_local (c.key h)).map fun _ => Except.error tooMany
    | writeBack counted =>
      have hsettle : c.settle now h answer (some pending) = fun cache =>
          (.error (remaining (counted.maxAttempts - counted.attempts)),(c.putJson now (c.key h) counted cache).2) := by
        funext cache
        simp only [settle,hjudge]
      rw [hsettle]
      exact (MemoryCache.put_local now (c.key h) (c.json.toText counted) (some c.ttl)).map fun _ =>
        Except.error (remaining (counted.maxAttempts - counted.attempts))

theorem consume_local (now : ℕ) (answer : String) : Keyed.Local (c.key h) (c.consume now h answer) :=
  (getJson_local now (c.key h)).bind fun found => settle_local now answer found

theorem perform_local (now : ℕ) (request : Request) :
    Keyed.Local (c.key h) (fun cache : MemoryCache => c.perform h now cache request) := by
  cases request with
  | issueCode code =>
    exact (MemoryCache.put_local now (c.key h) (c.json.toText (Challenges.issueCode c.maxAttempts code)) (some c.ttl)).map
      fun _ => Answer.done
  | consume answer => exact (consume_local now answer).map Answer.consumed
  | isPending => exact (getJson_local now (c.key h)).map fun found => Answer.pending found.isSome
  | attemptsRemaining =>
    exact (getJson_local now (c.key h)).map fun found =>
      Answer.attempts (found.map fun pending => pending.maxAttempts - pending.attempts)
  | cancel => exact (MemoryCache.forget_local (c.key h)).map fun _ => Answer.done

/-- A run leaves every other key as it was. -/
theorem run_frame (requests : List (ℕ × Request)) (cache : MemoryCache) {key : String} (hkey : key ≠ c.key h) :
    c.run h requests cache key = cache key := by
  induction requests generalizing cache with
  | nil => rfl
  | cons r requests ih => exact (ih _).trans ((perform_local r.1 r.2).frame cache key hkey)

/-! ## What is accepted -/

theorem outstanding_eq (now : ℕ) (cache : MemoryCache) : (c.getJson now (c.key h) cache).1 = c.outstanding h now cache := by
  rw [getJson,outstanding]
  dsimp only
  rw [MemoryCache.get_answer]
  cases cache.live now (c.key h) <;> rfl

theorem code_of_judge {pending : Pending} {answer : String} (hjudge : pending.judge answer = .accept) : pending.code = answer := by
  rw [Pending.judge] at hjudge
  split at hjudge
  · next hcode => exact hcode
  · dsimp only at hjudge
    split at hjudge <;> cases hjudge

/-- Only the code of the challenge that is outstanding is accepted. -/
theorem code_of_consume {now : ℕ} {code : String} {cache : MemoryCache} (hok : (c.consume now h code cache).1 = .ok ()) :
    ∃ pending, c.outstanding h now cache = some pending ∧ pending.code = code := by
  rw [consume] at hok
  simp only [outstanding_eq] at hok
  cases hfound : c.outstanding h now cache with
  | none =>
    rw [hfound] at hok
    cases hok
  | some pending =>
    refine ⟨pending,rfl,?_⟩
    rw [hfound,settle] at hok
    split at hok
    · next hjudge => exact code_of_judge hjudge
    · cases hok
    · cases hok

theorem key_inj {h h' : Holder} : c.key h = c.key h' ↔ h.purpose ++ ":" ++ h.subject = h'.purpose ++ ":" ++ h'.subject := by
  simp only [key,String.append_assoc,String.append_right_inj]

/-- Two holders are bound to their own challenges exactly when their purposes and subjects do not
run together to one text. -/
theorem bound_iff (c : Issuer) (holder other : Holder) :
    c.Bound holder other ↔ holder.purpose ++ ":" ++ holder.subject ≠ other.purpose ++ ":" ++ other.subject := by
  rw [ne_eq,← key_inj (c := c)]
  constructor
  · intro hbound hkey
    -- A challenge of the other holder is thrown away.
    obtain ⟨text,htext⟩ : ∃ text, text = c.json.toText ⟨"",0,0⟩ := ⟨_,rfl⟩
    have hread : c.json.fromText text = some ⟨"",0,0⟩ := by rw [htext,c.json.fromText_toText]
    have hsame := hbound.undisturbed (MemoryCache.empty.insert (c.key other) ⟨text,none⟩) [(0,.cancel)] 0 .isPending
    simp [run,perform,isPending,cancel,getJson,MemoryCache.get,MemoryCache.forget,hkey,Entry.isLive,hread] at hsame
  · intro hkey
    have hkey : c.key other ≠ c.key holder := Ne.symm hkey
    have hentry (cache : MemoryCache) (requests : List (ℕ × Request)) :
        c.run holder requests cache (c.key other) = cache (c.key other) := run_frame requests cache hkey
    refine ⟨fun cache requests now request => ?_,fun cache requests now code hok => ?_⟩
    · exact (perform_local now request).answer _ _ (hentry cache requests)
    · rw [(consume_local now code).answer _ _ (hentry cache requests)] at hok
      exact code_of_consume hok

end Issuer

/-! ## JSON of one shape -/

namespace PendingJson

/-- A quote and a backslash are escaped, and a quote ends the text. -/
def writeQuoted : List Char → List Char
  | [] => ['"']
  | c :: cs => if c = '"' ∨ c = '\\' then '\\' :: c :: writeQuoted cs else c :: writeQuoted cs

def readQuoted : List Char → Option (List Char × List Char)
  | [] => none
  | c :: cs =>
    if c = '"' then some ([],cs)
    else if c = '\\' then
      match cs with
      | [] => none
      | d :: cs => (readQuoted cs).map fun found => (d :: found.1,found.2)
    else (readQuoted cs).map fun found => (c :: found.1,found.2)

theorem readQuoted_writeQuoted (cs rest : List Char) : readQuoted (writeQuoted cs ++ rest) = some (cs,rest) := by
  induction cs with
  | nil =>
    rw [writeQuoted,List.singleton_append,readQuoted.eq_def]
    simp
  | cons c cs ih =>
    by_cases hc : c = '"' ∨ c = '\\'
    · rw [writeQuoted,if_pos hc,List.cons_append,List.cons_append,readQuoted.eq_def]
      simp [ih]
    · rw [writeQuoted,if_neg hc,List.cons_append,readQuoted.eq_def]
      rw [not_or] at hc
      simp [hc,ih]

def readNumber (cs : List Char) : Option (ℕ × List Char) :=
  (Text.digits (cs.takeWhile Text.isDigit)).map fun n => (n,cs.dropWhile Text.isDigit)

theorem readNumber_toDigits (n : ℕ) {c : Char} (hc : Text.isDigit c = false) (rest : List Char) :
    readNumber (Nat.toDigits 10 n ++ c :: rest) = some (n,c :: rest) := by
  have hdigits : ∀ d ∈ Nat.toDigits 10 n, Text.isDigit d = true := fun d hd => Text.isDigit_of_mem_toDigits hd
  rw [readNumber,List.takeWhile_append_of_pos hdigits,List.dropWhile_append_of_pos hdigits]
  simp [hc,Text.digits_toDigits]

def expect (start cs : List Char) : Option (List Char) := if start <+: cs then some (cs.drop start.length) else none

theorem expect_append (start rest : List Char) : expect start (start ++ rest) = some rest := by
  simp [expect]

def first : List Char := "\x7b\"code\":\"".toList

def second : List Char := ",\"attempts\":".toList

def third : List Char := ",\"max_attempts\":".toList

def last : List Char := "\x7d".toList

def read (cs : List Char) : Option Pending :=
  (expect first cs).bind fun cs =>
  (readQuoted cs).bind fun code =>
  (expect second code.2).bind fun cs =>
  (readNumber cs).bind fun attempts =>
  (expect third attempts.2).bind fun cs =>
  (readNumber cs).bind fun maxAttempts =>
  if maxAttempts.2 = last then some ⟨String.ofList code.1,attempts.1,maxAttempts.1⟩ else none

/-- The fields in order, with nothing between them. -/
def compact : PendingJson where
  toText p := String.ofList (first ++ (writeQuoted p.code.toList ++ (second ++ (Nat.toDigits 10 p.attempts ++
    (third ++ (Nat.toDigits 10 p.maxAttempts ++ last))))))
  fromText text := read text.toList
  fromText_toText p := by
    have hcomma (rest : List Char) : readNumber (Nat.toDigits 10 p.attempts ++ (third ++ rest)) = some (p.attempts,third ++ rest) :=
      readNumber_toDigits _ (by decide) _
    have hbrace : readNumber (Nat.toDigits 10 p.maxAttempts ++ last) = some (p.maxAttempts,last) :=
      readNumber_toDigits _ (by decide) _
    rw [String.toList_ofList,read]
    simp only [expect_append,readQuoted_writeQuoted,hcomma,hbrace,Option.bind_some,if_true,String.ofList_toList]

end PendingJson

/-- The defaults of `Challenges::new`. -/
def defaults : Issuer := ⟨PendingJson.compact,"challenge:",900 * 10 ^ 9,5⟩

/-- A code issued for one purpose is accepted for a shorter one, whose subject begins with the rest of it. -/
theorem colon_moved :
    (defaults.consume 1 ⟨"email:42","change"⟩ "123456"
      (defaults.issueCode 0 ⟨"42","change:email"⟩ "123456" MemoryCache.empty).2).1 = .ok () ∧
    (defaults.consume 1 ⟨"email:42","change"⟩ "123456" MemoryCache.empty).1 = .error notValid := by
  decide +kernel

end Rainier.Auth.Challenges
