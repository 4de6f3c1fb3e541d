import Rainier.Support.Text

/-! # Where an authorization code may be sent

A redirect URI is registered literally, except that an `http` URI of the loopback
host matches on any port. The code finds host and path by hand and compares those;
what stands between them is thrown away, whether it is a port or not.
-/
namespace Rainier.OAuth
open Rainier

def scheme : String := "http://"

/-- What ends an authority. -/
def startsPath (c : Char) : Bool := c = '/' || c = '?' || c = '#'

/-- The host of an authority: up to the closing bracket, or up to the colon. -/
def hostOf (authority : List Char) : Option (List Char) :=
  match authority with
  | '[' :: _ =>
    if ']' ∈ authority then some (authority.takeWhile (· ≠ ']') ++ [']']) else none
  | _ => some (authority.takeWhile (· ≠ ':'))

def loopbackHosts : List String := ["127.0.0.1","[::1]"]

/-- A URI of a loopback host, taken apart. -/
structure Loopback where
  host : String
  between : String
  path : String
  deriving DecidableEq, Repr

def loopback (uri : String) : Option Loopback := do
  let rest ← Text.stripPrefix scheme uri
  let authority := rest.toList.takeWhile (!startsPath ·)
  let path := rest.toList.dropWhile (!startsPath ·)
  let host ← hostOf authority
  if String.ofList host ∈ loopbackHosts then
    some ⟨String.ofList host,String.ofList (authority.drop host.length),String.ofList path⟩
  else none

def stripLoopbackPort (uri : String) : Option String :=
  (loopback uri).map fun l => scheme ++ l.host ++ l.path

def redirectUriAllowed (uri : String) (allowed : List String) : Bool :=
  match stripLoopbackPort uri with
  | some stripped => allowed.any fun a => stripLoopbackPort a = some stripped
  | none => allowed.any fun a => a = uri

/-- A port with its colon, or nothing. -/
def IsPort (s : String) : Prop :=
  s = "" ∨ ∃ digits : String, digits ≠ "" ∧ (∀ c ∈ digits.toList, Text.isDigit c = true) ∧ s = ":" ++ digits

/-- The end of a URI, from its path, query or fragment on. -/
def IsRest (s : String) : Prop := ∀ c ∈ s.toList.head?, startsPath c = true

/-- `http://` host, a port or none, and the rest. -/
def HasForm (uri host rest : String) : Prop := ∃ port, IsPort port ∧ uri = scheme ++ host ++ port ++ rest

/-- A registered URI, or a loopback one that is registered but for its port. -/
def StaysHome (uri : String) (registered : List String) : Prop :=
  uri ∈ registered ∨ ∃ host ∈ loopbackHosts, ∃ rest, IsRest rest ∧ HasForm uri host rest ∧
    ∃ r ∈ registered, HasForm r host rest

/-- Read as loopback, with nothing but a port thrown away. -/
def OnlyPortDropped (uri : String) : Prop := ∃ l, loopback uri = some l ∧ IsPort l.between

/-! Taking a URI apart. -/

theorem takeWhile_authority {a r : List Char} (ha : ∀ c ∈ a, startsPath c = false)
    (hr : ∀ c ∈ r.head?, startsPath c = true) :
    (a ++ r).takeWhile (!startsPath ·) = a ∧ (a ++ r).dropWhile (!startsPath ·) = r := by
  have hpos : ∀ c ∈ a, (!startsPath c) = true := fun c hc => by simp [ha c hc]
  rw [List.takeWhile_append_of_pos hpos,List.dropWhile_append_of_pos hpos]
  cases r with
  | nil => simp
  | cons c r =>
    have hc : startsPath c = true := hr c rfl
    simp [hc]

theorem IsPort.chars {port : String} (h : IsPort port) : ∀ c ∈ port.toList, startsPath c = false := by
  rcases h with rfl | ⟨digits,_,hdigits,rfl⟩
  · simp
  · intro c hc
    rw [String.toList_append] at hc
    rcases List.mem_append.mp hc with hc | hc
    · have hcolon : c = ':' := by simpa using hc
      subst hcolon
      decide
    · obtain ⟨hlo,hhi⟩ := Text.toNat_of_isDigit (hdigits c hc)
      unfold startsPath
      simp only [Bool.or_eq_false_iff,decide_eq_false_iff_not]
      refine ⟨⟨?_,?_⟩,?_⟩ <;> (rintro rfl; revert hlo hhi; decide)

theorem IsPort.head {port : String} (h : IsPort port) : ∀ c ∈ port.toList.head?, c = ':' := by
  rcases h with rfl | ⟨digits,_,_,rfl⟩
  · simp
  · intro c hc
    simpa using hc.symm

theorem hostOf_append {host port : String} (hh : host ∈ loopbackHosts) (hp : IsPort port) :
    hostOf (host.toList ++ port.toList) = some host.toList := by
  simp only [loopbackHosts,List.mem_cons,List.not_mem_nil,or_false] at hh
  rcases hh with rfl | rfl
  · have hstop : port.toList.takeWhile (· ≠ ':') = [] := by
      cases hport : port.toList with
      | nil => rfl
      | cons c cs =>
        have hc : c = ':' := hp.head c (by simp [hport])
        simp [hc]
    simpa [hostOf] using hstop
  · simp [hostOf]

theorem loopback_of_form {host port rest : String} (hh : host ∈ loopbackHosts) (hp : IsPort port) (hr : IsRest rest) :
    loopback (scheme ++ host ++ port ++ rest) = some ⟨host,port,rest⟩ := by
  have hhost : ∀ c ∈ host.toList, startsPath c = false := by
    simp only [loopbackHosts,List.mem_cons,List.not_mem_nil,or_false] at hh
    have hall : host.toList.all (!startsPath ·) = true := by rcases hh with rfl | rfl <;> decide
    simpa using hall
  have hstrip : Text.stripPrefix scheme (scheme ++ host ++ port ++ rest) = some (host ++ port ++ rest) :=
    Text.stripPrefix_eq_some.mpr (by simp [String.append_assoc])
  obtain ⟨htake,hdrop⟩ := takeWhile_authority (a := host.toList ++ port.toList) (r := rest.toList)
    (fun c hc => (List.mem_append.mp hc).elim (hhost c) (hp.chars c)) hr
  rw [loopback,hstrip]
  simp only [Option.bind_eq_bind,Option.bind_some,String.toList_append,htake,hdrop,hostOf_append hh hp,
    String.ofList_toList,hh,if_true,List.drop_left]

/-- A character of a list splits it where it first stands. -/
theorem takeWhile_ne_append {x : Char} {l : List Char} (hx : x ∈ l) :
    ∃ after, l = l.takeWhile (· ≠ x) ++ [x] ++ after := by
  induction l with
  | nil => simp at hx
  | cons c l ih =>
    by_cases hc : c = x
    · exact ⟨l,by simp [hc]⟩
    · obtain ⟨after,hafter⟩ := ih ((List.mem_cons.mp hx).resolve_left (Ne.symm hc))
      refine ⟨after,?_⟩
      rw [List.takeWhile_cons_of_pos (by simp [hc])]
      exact congrArg (c :: ·) hafter

theorem hostOf_prefix {authority host : List Char} (h : hostOf authority = some host) :
    authority = host ++ authority.drop host.length := by
  have hdrop : ∀ {a b : List Char}, authority = a ++ b → authority = a ++ authority.drop a.length := by
    rintro a b rfl
    rw [List.drop_left]
  unfold hostOf at h
  split at h
  · split at h
    · rename_i hclose
      cases h
      obtain ⟨after,hafter⟩ := takeWhile_ne_append hclose
      exact hdrop hafter
    · cases h
  · cases h
    exact hdrop (List.takeWhile_append_dropWhile).symm

theorem loopback_eq_some {uri : String} {l : Loopback} (h : loopback uri = some l) :
    l.host ∈ loopbackHosts ∧ uri = scheme ++ l.host ++ l.between ++ l.path ∧ IsRest l.path := by
  rw [loopback] at h
  simp only [Option.bind_eq_bind,Option.bind_eq_some_iff] at h
  obtain ⟨rest,hrest,host,hhost,h⟩ := h
  split at h
  · rename_i hmem
    cases h
    refine ⟨hmem,?_,?_⟩
    · have hauthority := hostOf_prefix hhost
      have hsplit := List.takeWhile_append_dropWhile (p := (!startsPath ·)) (l := rest.toList)
      rw [Text.stripPrefix_eq_some.mp hrest,← String.toList_inj]
      simp only [String.toList_append,String.toList_ofList,List.append_assoc]
      rw [← List.append_assoc host,← hauthority,hsplit]
    · intro c hc
      rw [String.toList_ofList] at hc
      have hfirst := List.head?_dropWhile_not (!startsPath ·) rest.toList
      rw [Option.mem_def.mp hc] at hfirst
      simpa using hfirst
  · cases h

/-! What the comparison accepts. -/

/-- Host and path can be read off the text that is compared. -/
theorem stripped_inj {host host' path path' : String} (hh : host ∈ loopbackHosts) (hh' : host' ∈ loopbackHosts)
    (h : scheme ++ host ++ path = scheme ++ host' ++ path') : host = host' ∧ path = path' := by
  rw [← String.toList_inj] at h
  simp only [String.toList_append,List.append_assoc,List.append_cancel_left_eq] at h
  simp only [loopbackHosts,List.mem_cons,List.not_mem_nil,or_false] at hh hh'
  rcases hh with rfl | rfl <;> rcases hh' with rfl | rfl
  · exact ⟨rfl,String.toList_inj.mp (List.append_cancel_left h)⟩
  · simp at h
  · simp at h
  · exact ⟨rfl,String.toList_inj.mp (List.append_cancel_left h)⟩

theorem redirectUriAllowed_iff (uri : String) (registered : List String) :
    redirectUriAllowed uri registered = true ↔
      (stripLoopbackPort uri = none ∧ uri ∈ registered) ∨
        ∃ r ∈ registered, stripLoopbackPort uri ≠ none ∧ stripLoopbackPort r = stripLoopbackPort uri := by
  unfold redirectUriAllowed
  split
  · rename_i stripped hs
    simp [hs,List.any_eq_true]
  · rename_i hs
    simp [hs,List.any_eq_true]

/-- A URI in the registered form is one whose registered partner is compared equal, with
nothing but ports thrown away. -/
theorem form_iff {uri r : String} : (∃ host ∈ loopbackHosts, ∃ rest, IsRest rest ∧ HasForm uri host rest ∧
    HasForm r host rest) ↔ OnlyPortDropped uri ∧ OnlyPortDropped r ∧ stripLoopbackPort r = stripLoopbackPort uri := by
  constructor
  · rintro ⟨host,hh,rest,hr,⟨port,hp,rfl⟩,⟨port',hp',rfl⟩⟩
    have hu := loopback_of_form hh hp hr
    have hr' := loopback_of_form hh hp' hr
    exact ⟨⟨_,hu,hp⟩,⟨_,hr',hp'⟩,by simp [stripLoopbackPort,hu,hr']⟩
  · rintro ⟨⟨l,hl,hp⟩,⟨l',hl',hp'⟩,hsame⟩
    obtain ⟨hh,huri,hrest⟩ := loopback_eq_some hl
    obtain ⟨hh',hr,_⟩ := loopback_eq_some hl'
    simp only [stripLoopbackPort,hl,hl',Option.map_some,Option.some.injEq] at hsame
    obtain ⟨hhost,hpath⟩ := stripped_inj hh' hh hsame
    exact ⟨l.host,hh,l.path,hrest,⟨l.between,hp,huri⟩,l'.between,hp',by rw [← hhost,← hpath]; exact hr⟩

/-- A redirect URI that is let through is a registered one or one that differs from it in
the port alone, exactly when: it is itself registered; or it is not read as a loopback
URI; or none that is registered reads as the same loopback URI; or nothing but a port is
thrown away, of it and of one registered URI that reads as the same. -/
theorem redirect_stays_home_iff (uri : String) (registered : List String) :
    (redirectUriAllowed uri registered = true → StaysHome uri registered) ↔
      uri ∈ registered ∨ stripLoopbackPort uri = none ∨
        (∀ r ∈ registered, stripLoopbackPort r ≠ stripLoopbackPort uri) ∨
          (OnlyPortDropped uri ∧
            ∃ r ∈ registered, stripLoopbackPort r = stripLoopbackPort uri ∧ OnlyPortDropped r) := by
  rw [redirectUriAllowed_iff]
  constructor
  · intro h
    by_cases hnone : stripLoopbackPort uri = none
    · exact .inr (.inl hnone)
    by_cases hsame : ∃ r ∈ registered, stripLoopbackPort r = stripLoopbackPort uri
    · obtain ⟨r,hr,heq⟩ := hsame
      rcases h (.inr ⟨r,hr,hnone,heq⟩) with hmem | ⟨host,hh,rest,hrest,hform,r',hr',hform'⟩
      · exact .inl hmem
      · obtain ⟨hu,hd,hs⟩ := form_iff.mp ⟨host,hh,rest,hrest,hform,hform'⟩
        exact .inr (.inr (.inr ⟨hu,r',hr',hs,hd⟩))
    · exact .inr (.inr (.inl fun r hr heq => hsame ⟨r,hr,heq⟩))
  · intro hcond hallowed
    rcases hallowed with ⟨_,hmem⟩ | ⟨r,hr,hsome,heq⟩
    · exact .inl hmem
    rcases hcond with hmem | hnone | hdiff | ⟨hu,r',hr',hs,hd⟩
    · exact .inl hmem
    · exact absurd hnone hsome
    · exact absurd heq (hdiff r hr)
    · obtain ⟨host,hh,rest,hrest,hform,hform'⟩ := form_iff.mpr ⟨hu,hd,hs⟩
      exact .inr ⟨host,hh,rest,hrest,hform,r',hr',hform'⟩

/-- User information before another host: the code would go to `evil.test`. -/
theorem userinfo_leaves_home :
    redirectUriAllowed "http://127.0.0.1:80@evil.test/callback" ["http://127.0.0.1/callback"] = true ∧
      ¬ StaysHome "http://127.0.0.1:80@evil.test/callback" ["http://127.0.0.1/callback"] := by
  have hval : loopback "http://127.0.0.1:80@evil.test/callback" = some ⟨"127.0.0.1",":80@evil.test","/callback"⟩ := by
    decide
  have hregistered : loopback "http://127.0.0.1/callback" = some ⟨"127.0.0.1","","/callback"⟩ := by decide
  refine ⟨by simp [redirectUriAllowed,stripLoopbackPort,hval,hregistered],?_⟩
  rintro (hmem | ⟨host,hh,rest,hrest,hform,r,hr,hform'⟩)
  · revert hmem
    decide
  · obtain ⟨⟨l,hl,hport⟩,_⟩ := form_iff.mp ⟨host,hh,rest,hrest,hform,hform'⟩
    rw [hval] at hl
    cases hl
    rcases hport with h | ⟨digits,_,hdigits,h⟩
    · revert h
      decide
    · have hmem : 'e' ∈ digits.toList := by
        rw [← String.toList_inj,String.toList_append] at h
        have htail : [':'] ++ "80@evil.test".toList = [':'] ++ digits.toList := h
        rw [← List.append_cancel_left htail]
        decide
      exact absurd (hdigits 'e' hmem) (by decide)

end Rainier.OAuth
