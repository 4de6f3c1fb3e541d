import Rainier.Session.Flash
import Rainier.Support.Calls

/-! # The session middleware

`StartSession` loads the session a cookie names, runs the handler on it and saves it: every
superseded id is destroyed and the whole session is written under its own id. Any number
of requests are interleaved below, one store operation at a time; the handler works on its
own copy and is one step.
-/
namespace Rainier.Session
open Calls Trace Function

/-- What a handler does to its session. -/
inductive Action where
  | call (c : Call)
  | regenerate (fresh : String)
  | invalidate (fresh : String)
  deriving DecidableEq, Repr

def act (s : Session) : Action → Session
  | .call c => s.perform c
  | .regenerate fresh => s.regenerate fresh
  | .invalidate fresh => s.invalidate fresh

def isHexdigit (c : Char) : Bool := ('0' ≤ c && c ≤ '9') || ('a' ≤ c && c ≤ 'f') || ('A' ≤ c && c ≤ 'F')

/-- The shape of an id: 64 hexadecimal characters. -/
def isWellFormed (id : String) : Bool := id.toList.length = 64 && id.toList.all isHexdigit

structure Loaded where
  session : Session
  detached : Bool
  deriving DecidableEq, Repr

/-- What an operation takes from outside: an id just minted, whether the store answers, and
what the handler does. -/
structure Input where
  fresh : String
  ok : Bool
  actions : List Action

abbrev Store := String → Option SessionData

inductive Event where
  | found (id : String)
  | missing
  | unread
  | unsaved
  | destroyed (id : String)
  | saved (superseded : List String)
  deriving DecidableEq, Repr

/-- The session the cookie names, or a fresh one. -/
def load (x : Input) (store : Store) : Option String → Loaded × Event
  | none => (⟨new x.fresh,false⟩,.missing)
  | some value =>
    if !isWellFormed value then (⟨new x.fresh,false⟩,.missing)
    -- the store cannot be read: the id of the cookie, no data, and nothing will be saved
    else if !x.ok then (⟨restore value .default,true⟩,.unread)
    else
      match store value with
      | some data => (⟨restore value data,false⟩,.found value)
      | none => (⟨new x.fresh,false⟩,.missing)

/-- Where a request is. -/
inductive Request where
  | arriving (cookie : Option String)
  | handling (loaded : Loaded)
  | saving (session : Session) (superseded : List String)
  | answered

/-- The next operation of a request. -/
def advance (x : Input) (store : Store) : Request → Store × Request × List Event
  | .arriving cookie =>
    let (loaded,event) := load x store cookie
    (store,.handling loaded,[event])
  | .handling loaded =>
    let session := x.actions.foldl act loaded.session
    if loaded.detached || (loaded.session.isEmpty && !session.dirty) then (store,.answered,[.unsaved])
    else (store,.saving session session.superseded,[])
  | .saving session (id :: superseded) =>
    if x.ok then (update store id none,.saving session superseded,[.destroyed id]) else (store,.answered,[.unsaved])
  | .saving session [] =>
    if x.ok then (update store session.id (some session.ageAndTake.1),.answered,[.saved session.superseded])
    else (store,.answered,[.unsaved])
  | .answered => (store,.answered,[])

abbrev Run := State Store Request Event

/-- Requests about to come in, with their cookies. -/
def start (store : Store) (cookies : ℕ → Option String) : Run := ⟨store,fun i => .arriving (cookies i),[]⟩

/-- Nobody who comes after a save is given a session under an id that it superseded. -/
def StaysDead (s : Run) : Prop :=
  s.log.Pairwise fun e e' => ∀ ids, e.2 = .saved ids → ∀ id ∈ ids, e'.2 ≠ .found id

/-- A request that writes its session back does not write it under an id that has been
destroyed. -/
def Undisturbed (s : Run) (a : ℕ × Input) : Prop :=
  ∀ session, s.calls a.1 = .saving session [] → ∀ i, (i,.destroyed session.id) ∉ s.log

/-! ## One operation -/

/-- Destroyed ids hold nothing, and what a request supersedes is destroyed before it is done. -/
structure Inv (s : Run) : Prop where
  gone : ∀ i id, (i,.destroyed id) ∈ s.log → s.cell id = none
  saving : ∀ i session left, s.calls i = .saving session left → ∀ id ∈ session.superseded,
    id ∈ left ∨ ∃ j, (j,.destroyed id) ∈ s.log
  saved : ∀ i ids, (i,.saved ids) ∈ s.log → ∀ id ∈ ids, ∃ j, (j,.destroyed id) ∈ s.log
  dead : StaysDead s

variable {s : Run} {i : ℕ} {x : Input}

theorem staysDead_append {e : ℕ × Event} {cell : Store} {calls : ℕ → Request} (h : StaysDead s)
    (hnew : ∀ j ids, (j,.saved ids) ∈ s.log → ∀ id ∈ ids, e.2 ≠ .found id) : StaysDead ⟨cell,calls,s.log ++ [e]⟩ := by
  refine List.pairwise_append.mpr ⟨h,List.pairwise_singleton _ _,?_⟩
  rintro ⟨j,e'⟩ he' last hlast ids rfl id hid
  rw [List.mem_singleton.mp hlast]
  exact hnew j ids he' id hid

/-- An operation that leaves the store alone and adds one event which is no destroying and no saving. -/
theorem Inv.quiet (h : Inv s) {request : Request} {e : Event} (hd : ∀ id, e ≠ .destroyed id) (hs : ∀ ids, e ≠ .saved ids)
    (hfound : ∀ id, e = .found id → s.cell id ≠ none)
    (hrequest : ∀ session left, request = .saving session left → left = session.superseded) :
    Inv ⟨s.cell,update s.calls i request,s.log ++ [(i,e)]⟩ := by
  have hmem : ∀ j id, (j,Event.destroyed id) ∈ s.log ++ [(i,e)] → (j,Event.destroyed id) ∈ s.log := by
    intro j id hj
    rcases List.mem_append.mp hj with hj | hj
    · exact hj
    · cases List.mem_singleton.mp hj
      exact absurd rfl (hd id)
  refine ⟨fun j id hj => h.gone j id (hmem j id hj),?_,?_,?_⟩
  · intro j session left hj id hid
    dsimp only at hj
    by_cases hji : j = i
    · subst hji
      rw [update_self] at hj
      rw [hrequest session left hj]
      exact .inl hid
    · rw [update_of_ne hji] at hj
      rcases h.saving j session left hj id hid with hleft | ⟨k,hk⟩
      · exact .inl hleft
      · exact .inr ⟨k,List.mem_append_left _ hk⟩
  · intro j ids hj id hid
    rcases List.mem_append.mp hj with hj | hj
    · obtain ⟨k,hk⟩ := h.saved j ids hj id hid
      exact ⟨k,List.mem_append_left _ hk⟩
    · cases List.mem_singleton.mp hj
      exact absurd rfl (hs ids)
  · apply staysDead_append h.dead
    intro j ids hj id hid hfind
    obtain ⟨k,hk⟩ := h.saved j ids hj id hid
    exact hfound id hfind (h.gone k id hk)

/-- The handler has run and there is something to save. -/
theorem Inv.handled (h : Inv s) (session : Session) : Inv ⟨s.cell,update s.calls i (.saving session session.superseded),s.log⟩ := by
  refine ⟨h.gone,?_,h.saved,h.dead⟩
  intro j session' left hj id hid
  dsimp only at hj
  by_cases hji : j = i
  · subst hji
    rw [update_self] at hj
    cases hj
    exact .inl hid
  · rw [update_of_ne hji] at hj
    exact h.saving j session' left hj id hid

theorem Inv.destroy {session : Session} {id : String} {left : List String} (h : Inv s)
    (hi : s.calls i = .saving session (id :: left)) :
    Inv ⟨update s.cell id none,update s.calls i (.saving session left),s.log ++ [(i,.destroyed id)]⟩ := by
  have hlast : (i,Event.destroyed id) ∈ s.log ++ [(i,.destroyed id)] := List.mem_append_right _ List.mem_cons_self
  refine ⟨?_,?_,?_,?_⟩
  · intro j id' hj
    dsimp only
    by_cases hid : id' = id
    · rw [hid,update_self]
    · rw [update_of_ne hid]
      rcases List.mem_append.mp hj with hj | hj
      · exact h.gone j id' hj
      · cases List.mem_singleton.mp hj
        exact absurd rfl hid
  · intro j session' left' hj id' hid
    dsimp only at hj
    by_cases hji : j = i
    · subst hji
      rw [update_self] at hj
      cases hj
      rcases h.saving j session _ hi id' hid with hmem | ⟨k,hk⟩
      · rcases List.mem_cons.mp hmem with rfl | hmem
        · exact .inr ⟨j,hlast⟩
        · exact .inl hmem
      · exact .inr ⟨k,List.mem_append_left _ hk⟩
    · rw [update_of_ne hji] at hj
      rcases h.saving j session' left' hj id' hid with hmem | ⟨k,hk⟩
      · exact .inl hmem
      · exact .inr ⟨k,List.mem_append_left _ hk⟩
  · intro j ids hj id' hid
    rcases List.mem_append.mp hj with hj | hj
    · obtain ⟨k,hk⟩ := h.saved j ids hj id' hid
      exact ⟨k,List.mem_append_left _ hk⟩
    · cases List.mem_singleton.mp hj
  · apply staysDead_append h.dead
    intro j ids _ id' _ hfind
    cases hfind

/-- The write at the end of a save. What the session superseded has been destroyed by now. -/
theorem Inv.write {session : Session} (h : Inv s) (hi : s.calls i = .saving session [])
    (hid : ∀ j, (j,.destroyed session.id) ∉ s.log) (data : SessionData) :
    Inv ⟨update s.cell session.id (some data),update s.calls i .answered,s.log ++ [(i,.saved session.superseded)]⟩ := by
  have hmem : ∀ j id, (j,Event.destroyed id) ∈ s.log ++ [(i,.saved session.superseded)] → (j,Event.destroyed id) ∈ s.log := by
    intro j id hj
    rcases List.mem_append.mp hj with hj | hj
    · exact hj
    · cases List.mem_singleton.mp hj
  refine ⟨?_,?_,?_,?_⟩
  · intro j id hj
    dsimp only
    have hne : id ≠ session.id := by
      rintro rfl
      exact hid j (hmem j _ hj)
    rw [update_of_ne hne]
    exact h.gone j id (hmem j id hj)
  · intro j session' left hj id hid'
    obtain ⟨_,hj⟩ := eq_of_update hj (by simp)
    rcases h.saving j session' left hj id hid' with hleft | ⟨k,hk⟩
    · exact .inl hleft
    · exact .inr ⟨k,List.mem_append_left _ hk⟩
  · intro j ids hj id hid'
    rcases List.mem_append.mp hj with hj | hj
    · obtain ⟨k,hk⟩ := h.saved j ids hj id hid'
      exact ⟨k,List.mem_append_left _ hk⟩
    · cases List.mem_singleton.mp hj
      rcases h.saving i session [] hi id hid' with hleft | ⟨k,hk⟩
      · cases hleft
      · exact ⟨k,List.mem_append_left _ hk⟩
  · apply staysDead_append h.dead
    intro j ids _ id _ hfind
    cases hfind

/-- What a load may be seen as. -/
theorem load_event (x : Input) (store : Store) (cookie : Option String) :
    (load x store cookie).2 = .missing ∨ (load x store cookie).2 = .unread ∨
      ∃ id, (load x store cookie).2 = .found id ∧ store id ≠ none := by
  cases cookie with
  | none => exact .inl rfl
  | some value =>
    unfold load
    dsimp only
    split
    · exact .inl rfl
    · split
      · exact .inr (.inl rfl)
      · split
        · next data h => exact .inr (.inr ⟨value,rfl,by simp [h]⟩)
        · exact .inl rfl

theorem Inv.unsaved (h : Inv s) : Inv ⟨s.cell,update s.calls i .answered,s.log ++ [(i,.unsaved)]⟩ :=
  h.quiet (by simp) (by simp) (by simp) (by simp)

theorem Inv.step (h : Inv s) (hok : Undisturbed s (i,x)) : Inv (step advance s (i,x)) := by
  cases hi : s.calls i with
  | arriving cookie =>
    have hload : advance x s.cell (s.calls i) = (s.cell,.handling (load x s.cell cookie).1,[(load x s.cell cookie).2]) := by
      rw [hi]
      rfl
    rw [step_event hload]
    rcases load_event x s.cell cookie with he | he | ⟨id,he,hfound⟩
    · rw [he]
      exact h.quiet (by simp) (by simp) (by simp) (by simp)
    · rw [he]
      exact h.quiet (by simp) (by simp) (by simp) (by simp)
    · rw [he]
      refine h.quiet (by simp) (by simp) ?_ (by simp)
      rintro id' hid
      cases hid
      exact hfound
  | handling loaded =>
    by_cases hsave : (loaded.detached || (loaded.session.isEmpty && !(x.actions.foldl act loaded.session).dirty)) = true
    · rw [step_event (by rw [hi,advance,if_pos hsave])]
      exact h.unsaved
    · rw [step_eq (a := (i,x)) (by rw [hi,advance,if_neg hsave]),List.map_nil,List.append_nil]
      exact h.handled _
  | saving session left =>
    cases left with
    | cons id left =>
      by_cases hx : x.ok = true
      · rw [step_event (by rw [hi,advance,if_pos hx])]
        exact h.destroy hi
      · rw [step_event (by rw [hi,advance,if_neg hx])]
        exact h.unsaved
    | nil =>
      by_cases hx : x.ok = true
      · rw [step_event (by rw [hi,advance,if_pos hx])]
        exact h.write hi (hok session hi) _
      · rw [step_event (by rw [hi,advance,if_neg hx])]
        exact h.unsaved
  | answered =>
    rw [step_quiet (by rw [hi]; rfl)]
    exact h

/-! ## Every interleaving -/

/-- As long as no request writes its session back under an id that has been destroyed,
nobody is given what a superseded id held. -/
theorem staysDead_of_undisturbed (store : Store) (cookies : ℕ → Option String) (steps : List (ℕ × Input))
    (h : Along (Calls.step advance) Undisturbed (start store cookies) steps) :
    Always (Calls.step advance) StaysDead (start store cookies) steps := by
  have hinv : Inv (start store cookies) := by
    refine ⟨?_,?_,?_,List.Pairwise.nil⟩
    · intro j id hj
      cases hj
    · intro j session left hj
      cases hj
    · intro j ids hj
      cases hj
  exact (always_of_along (fun s a hs ha => hs.step ha) hinv h).mono fun _ h => h.dead

/-- The id of a visitor who is about to log in. -/
def visitor : String := String.ofList (List.replicate 64 'a')

def renewed : String := String.ofList (List.replicate 64 'b')

/-- A store that holds the visitor's session and nothing else. -/
def visited : Store := update (fun _ => none) visitor (some ⟨[("cart",.bool true)],[]⟩)

/-- A login moves the session to a new id, and the old one is presented again. -/
theorem staysDead_of_undisturbed_login :
    Along (Calls.step advance) Undisturbed (start visited fun _ => some visitor)
        [(0,⟨"",true,[]⟩),(0,⟨"",true,[.regenerate renewed]⟩),(0,⟨"",true,[]⟩),(0,⟨"",true,[]⟩),(1,⟨"",true,[]⟩)] ∧
      Always (Calls.step advance) StaysDead (start visited fun _ => some visitor)
        [(0,⟨"",true,[]⟩),(0,⟨"",true,[.regenerate renewed]⟩),(0,⟨"",true,[]⟩),(0,⟨"",true,[]⟩),(1,⟨"",true,[]⟩)] := by
  have h : Along (Calls.step advance) Undisturbed (start visited fun _ => some visitor)
      [(0,⟨"",true,[]⟩),(0,⟨"",true,[.regenerate renewed]⟩),(0,⟨"",true,[]⟩),(0,⟨"",true,[]⟩),(1,⟨"",true,[]⟩)] := by
    refine ⟨?_,?_,?_,?_,?_,trivial⟩
    · intro session hi
      cases hi
    · intro session hi
      cases hi
    · intro session hi
      cases hi
    · intro session hi
      cases hi
      have hlog : ∀ e ∈ (run (Calls.step advance) (start visited fun _ => some visitor)
          [(0,⟨"",true,[]⟩),(0,⟨"",true,[.regenerate renewed]⟩),(0,⟨"",true,[]⟩)]).log, e.2 ≠ .destroyed renewed := by
        decide
      intro j hj
      exact hlog _ hj rfl
    · intro session hi
      cases hi
  exact ⟨h,staysDead_of_undisturbed _ _ _ h⟩

/-- A page that was loaded under the old id and is saved after the login puts the old
session back, and the id is good again. -/
theorem staysDead_broken :
    ¬ StaysDead (run (Calls.step advance) (start visited fun _ => some visitor)
      [(1,⟨"",true,[]⟩),(1,⟨"",true,[]⟩),(0,⟨"",true,[]⟩),(0,⟨"",true,[.regenerate renewed]⟩),(0,⟨"",true,[]⟩),(0,⟨"",true,[]⟩),
        (1,⟨"",true,[]⟩),(2,⟨"",true,[]⟩)]) := by
  intro h
  have hlog : (run (Calls.step advance) (start visited fun _ => some visitor)
      [(1,⟨"",true,[]⟩),(1,⟨"",true,[]⟩),(0,⟨"",true,[]⟩),(0,⟨"",true,[.regenerate renewed]⟩),(0,⟨"",true,[]⟩),(0,⟨"",true,[]⟩),
        (1,⟨"",true,[]⟩),(2,⟨"",true,[]⟩)]).log =
      [(1,.found visitor),(0,.found visitor),(0,.destroyed visitor),(0,.saved [visitor]),(1,.saved []),(2,.found visitor)] := by
    decide
  rw [StaysDead,hlog] at h
  simp at h

end Rainier.Session
