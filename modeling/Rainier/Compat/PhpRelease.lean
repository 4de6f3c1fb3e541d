import Rainier.Compat.PhpSession

/-! # The release of a PHP session

Requests come one after the other. Each loads the session its cookie names, runs its handler and saves,
which destroys every id that the handler gave up. A request that carries the PHP cookie gives up the
foreign id, a request that carries Rainier's cookie gives up the derived one.
-/
namespace Rainier.Compat.Php
open Rainier Trace Function

variable {F : Type}

/-- `AdoptForeignSession`: the PHP cookie stands in where Rainier's own is missing. -/
def adopt (rainierCookie foreignCookie : Option String) : Option String := rainierCookie <|> foreignCookie

/-- The two cookies, the id that a new session would get, and what the handler does. -/
structure Request where
  rainierCookie : Option String
  foreignCookie : Option String
  fresh : String
  actions : List Session.Action

/-- The stores, every id that was destroyed and every cookie value that was set. -/
structure Run where
  sessions : Sessions
  destroyed : List String
  cookies : List String

namespace ForeignSessionStore

variable (f : ForeignSessionStore F)

/-- `StartSession::load`. -/
def load (s : Sessions) (r : Request) : Session.Loaded :=
  match adopt r.rainierCookie r.foreignCookie with
  | none => ⟨Session.new r.fresh,false⟩
  | some value =>
    match f.decode value with
    | .error _ => ⟨Session.new r.fresh,false⟩
    | .ok id =>
      match f.read s id with
      | .ok (some data) => ⟨Session.restore id data,false⟩
      | .ok none => ⟨Session.new r.fresh,false⟩
      | .error _ => ⟨Session.restore id .default,true⟩

/-- `StartSession::save`. -/
def save (s : Run) (session : Session) : Run :=
  let sessions := session.superseded.foldl f.destroy s.sessions
  { sessions := f.write sessions session.id session.ageAndTake.1
    destroyed := s.destroyed ++ session.superseded
    cookies := s.cookies ++ [f.encode session.id] }

/-- `StartSession::handle`. -/
def handle (s : Run) (r : Request) : Run :=
  let loaded := f.load s.sessions r
  let session := r.actions.foldl Session.act loaded.session
  if loaded.detached || (loaded.session.isEmpty && !session.dirty) then s
  else f.save s session

def start (s : Sessions) : Run := ⟨s,[],[]⟩

/-! ## What is to hold -/

/-- Rainier's copy of a PHP session was destroyed, under one of its names. -/
def Released (s : Run) (phpId : String) : Prop := foreignMark ++ phpId ∈ s.destroyed ∨ f.derivedId phpId ∈ s.destroyed

/-- The PHP cookie of a released session reads nothing. -/
def StaysReleased (s : Run) : Prop :=
  ∀ phpId, isSessionId phpId = true → f.Released s phpId → ∀ data, f.read s.sessions (foreignMark ++ phpId) ≠ .ok (some data)

/-- The id that an action of the handler takes. -/
def newId : Session.Action → Option String
  | .call _ => none
  | .regenerate fresh => some fresh
  | .invalidate fresh => some fresh

/-- The handler takes a new id. -/
def GivesUp (r : Request) : Prop := r.actions.filterMap newId ≠ []

/-- What the PHP side still holds of a session can be read. -/
def Lingers (s : Sessions) (phpId : String) : Prop :=
  ∃ payload mapped, s.source phpId = some payload ∧ f.mapping.mapBytes f.floats f.bits payload = .ok mapped

/-- A session is not given up under its derived name while the PHP side still holds it. -/
def ByForeignName (s : Run) (r : Request) : Prop :=
  ∀ phpId, isSessionId phpId = true → (f.load s.sessions r).session.id = f.derivedId phpId → GivesUp r →
    ¬ f.Lingers s.sessions phpId

/-- The ids that a request mints. -/
def minted (r : Request) : List String :=
  r.fresh :: r.actions.filterMap newId

/-- What the store takes from outside: PHP ids have different derived ids, which are no foreign ids, and a
minted id has the form of an id and is not a derived one. -/
structure Apart (requests : List Request) : Prop where
  inj : ∀ a b, isSessionId a = true → isSessionId b = true → f.derivedId a = f.derivedId b → a = b
  plain : ∀ a, isSessionId a = true → foreign (f.derivedId a) = none
  formed : ∀ r ∈ requests, ∀ id ∈ minted r, foreign id = none
  fresh : ∀ r ∈ requests, ∀ id ∈ minted r, ∀ a, isSessionId a = true → id ≠ f.derivedId a

/-! ## What a handler gives up -/

/-- The names of a session stay as they are, and it does not become clean. -/
structure Named (s t : Session) : Prop where
  id : t.id = s.id
  superseded : t.superseded = s.superseded
  dirty : s.dirty = true → t.dirty = true

theorem Named.refl (s : Session) : Named s s := ⟨rfl,rfl,fun h => h⟩

theorem Named.trans {s t u : Session} (h : Named s t) (h' : Named t u) : Named s u :=
  ⟨h'.id.trans h.id,h'.superseded.trans h.superseded,fun hs => h'.dirty (h.dirty hs)⟩

theorem named_keep (s : Session) (keys : List String) : Named s (s.keep keys) := by
  rw [Session.keep]
  induction keys generalizing s with
  | nil => exact .refl s
  | cons key keys ih =>
    apply Named.trans _ (ih _)
    rw [Session.keepOne]
    split_ifs
    · exact ⟨rfl,rfl,fun _ => rfl⟩
    · exact .refl s

theorem named_perform (s : Session) (c : Session.Call) : Named s (s.perform c) := by
  cases c with
  | put key value => exact ⟨rfl,rfl,fun _ => rfl⟩
  | flash key value => exact ⟨rfl,rfl,fun _ => rfl⟩
  | keep keys => exact named_keep s keys
  | reflash =>
    rw [Session.perform,Session.reflash]
    split_ifs
    · exact .refl s
    · exact ⟨rfl,rfl,fun _ => rfl⟩
  | forget key =>
    rw [Session.perform,Session.forget]
    split
    · exact .refl s
    · exact ⟨rfl,rfl,fun _ => rfl⟩
  | pull key =>
    rw [Session.perform,Session.pull]
    split
    · exact .refl s
    · exact ⟨rfl,rfl,fun _ => rfl⟩
  | flush => exact ⟨rfl,rfl,fun _ => rfl⟩

theorem acted_kept (session : Session) {actions : List Session.Action} (h : actions.filterMap newId = []) :
    Named session (actions.foldl Session.act session) := by
  induction actions generalizing session with
  | nil => exact .refl session
  | cons a actions ih =>
    cases a with
    | call c => exact (named_perform session c).trans (ih _ h)
    | regenerate fresh => cases h
    | invalidate fresh => cases h

/-- A handler that takes new ids gives up the one it was given first, and all that it took but the last. -/
structure GaveUp (s : Session) (ids : List String) (t : Session) : Prop where
  id : t.id ∈ ids
  superseded : ∃ rest, t.superseded = s.superseded ++ s.id :: rest ∧ ∀ id ∈ rest, id ∈ ids
  dirty : t.dirty = true

theorem GaveUp.of_named {s t u : Session} {ids : List String} (h : Named s t) (h' : GaveUp t ids u) : GaveUp s ids u := by
  obtain ⟨rest,hrest,hmem⟩ := h'.superseded
  rw [h.id,h.superseded] at hrest
  exact ⟨h'.id,⟨rest,hrest,hmem⟩,h'.dirty⟩

theorem gaveUp_renamed {session taken : Session} {fresh : String} {actions : List Session.Action}
    (hid : taken.id = fresh) (hsuperseded : taken.superseded = session.superseded ++ [session.id]) (hdirty : taken.dirty = true)
    (ih : actions.filterMap newId ≠ [] → GaveUp taken (actions.filterMap newId) (actions.foldl Session.act taken)) :
    GaveUp session (fresh :: actions.filterMap newId) (actions.foldl Session.act taken) := by
  by_cases hmore : actions.filterMap newId = []
  · have hnamed := acted_kept taken hmore
    constructor
    · rw [hnamed.id,hid]
      exact List.mem_cons_self
    · refine ⟨[],hnamed.superseded.trans hsuperseded,?_⟩
      intro id hmem
      cases hmem
    · exact hnamed.dirty hdirty
  · obtain ⟨hlast,⟨rest,hrest,hmem⟩,hdirty⟩ := ih hmore
    rw [hid,hsuperseded,List.append_assoc,List.singleton_append] at hrest
    refine ⟨List.mem_cons_of_mem fresh hlast,⟨fresh :: rest,hrest,?_⟩,hdirty⟩
    intro id hid
    rcases List.mem_cons.1 hid with rfl | hid
    · exact List.mem_cons_self
    · exact List.mem_cons_of_mem fresh (hmem id hid)

theorem acted_gaveUp (session : Session) {actions : List Session.Action} (h : actions.filterMap newId ≠ []) :
    GaveUp session (actions.filterMap newId) (actions.foldl Session.act session) := by
  induction actions generalizing session with
  | nil => exact absurd rfl h
  | cons a actions ih =>
    cases a with
    | call c => exact .of_named (named_perform session c) (ih _ h)
    | regenerate fresh => exact gaveUp_renamed rfl rfl rfl fun hmore => ih _ hmore
    | invalidate fresh => exact gaveUp_renamed rfl rfl rfl fun hmore => ih _ hmore

/-! ## What the store keeps -/

variable {f : ForeignSessionStore F} {s : Sessions} {id k phpId : String}

theorem foreign_mark (phpId : String) : foreign (foreignMark ++ phpId) = some phpId := Text.stripPrefix_eq_some.2 rfl

theorem foreign_of_wellFormed (h : Session.isWellFormed id = true) : foreign id = none := by
  cases hforeign : foreign id with
  | none => rfl
  | some phpId =>
    rw [Text.stripPrefix_eq_some.1 hforeign,Session.isWellFormed,Bool.and_eq_true,List.all_eq_true,String.toList_append] at h
    exact absurd (h.2 'p' (by simp [foreignMark])) (by decide)

theorem inner_destroy : (f.destroy s id).inner k = if k = f.home id then none else s.inner k := by
  rw [destroy,home]
  cases foreign id with
  | none => exact update_apply _ _ _ _
  | some phpId => exact update_apply _ _ _ _

theorem source_destroy (hrelease : f.release = .destroy) :
    (f.destroy s id).source k = if foreign id = some k then none else s.source k := by
  rw [destroy]
  cases hforeign : foreign id with
  | none => rfl
  | some phpId =>
    simp only [hrelease,if_true,update_apply,Option.some.injEq]
    simp only [eq_comm]

theorem inner_destroyed (ids : List String) :
    (ids.foldl f.destroy s).inner k = if k ∈ ids.map f.home then none else s.inner k := by
  induction ids generalizing s with
  | nil => rfl
  | cons id ids ih =>
    rw [List.foldl_cons,ih,inner_destroy,List.map_cons]
    by_cases hk : k ∈ ids.map f.home
    · rw [if_pos hk,if_pos (List.mem_cons_of_mem _ hk)]
    · rw [if_neg hk]
      simp only [List.mem_cons,hk,or_false]

theorem source_destroyed (hrelease : f.release = .destroy) (ids : List String) :
    (ids.foldl f.destroy s).source k = if some k ∈ ids.map foreign then none else s.source k := by
  induction ids generalizing s with
  | nil => rfl
  | cons id ids ih =>
    rw [List.foldl_cons,ih,source_destroy hrelease,List.map_cons]
    by_cases hk : some k ∈ ids.map foreign
    · rw [if_pos hk,if_pos (List.mem_cons_of_mem _ hk)]
    · rw [if_neg hk]
      simp only [List.mem_cons,hk,or_false,eq_comm]

theorem read_mark : f.read s (foreignMark ++ phpId) = f.readForeign s phpId := by
  rw [read,foreign_mark]

/-- A PHP session reads as nothing when neither side holds it. -/
theorem unread_iff : (∀ data, f.read s (foreignMark ++ phpId) ≠ .ok (some data)) ↔
    s.inner (f.derivedId phpId) = none ∧ ¬ f.Lingers s phpId := by
  rw [read_mark]
  cases hinner : s.inner (f.derivedId phpId) with
  | some data =>
    have hread : f.readForeign s phpId = .ok (some data) := by simp [readForeign,hinner]
    exact iff_of_false (fun h => h data hread) fun h => by cases h.1
  | none =>
    simp only [readForeign,hinner,true_and]
    cases hsource : s.source phpId with
    | none => exact iff_of_true (by simp) (by simp [Lingers,hsource])
    | some payload =>
      cases hmap : f.mapping.mapBytes f.floats f.bits payload with
      | error e =>
        apply iff_of_true
        · simp [hmap,bind,Except.bind]
        · simp [Lingers,hsource,hmap]
      | ok mapped =>
        apply iff_of_false
        · simp [hmap,bind,Except.bind,pure,Except.pure]
        · exact fun h => h ⟨payload,mapped,hsource,hmap⟩

theorem lingers_of_source {s' : Sessions} (hsource : ∀ payload, s'.source phpId = some payload → s.source phpId = some payload)
    (h : f.Lingers s' phpId) : f.Lingers s phpId := by
  obtain ⟨payload,mapped,hpayload,hmapped⟩ := h
  exact ⟨payload,mapped,hsource payload hpayload,hmapped⟩

/-! ## What a request starts from -/

/-- A request starts with a new session, with what it read, or with a stand-in for what it could not read. -/
inductive Loads (f : ForeignSessionStore F) (s : Sessions) (r : Request) : Session.Loaded → Prop where
  | new : Loads f s r ⟨Session.new r.fresh,false⟩
  | foreign {phpId : String} {data : SessionData} (hid : isSessionId phpId = true)
      (hread : f.read s (foreignMark ++ phpId) = .ok (some data)) : Loads f s r ⟨Session.restore (foreignMark ++ phpId) data,false⟩
  | own {id : String} {data : SessionData} (hid : Php.foreign id = none) (hread : s.inner id = some data) :
      Loads f s r ⟨Session.restore id data,false⟩
  | detached {phpId : String} : Loads f s r ⟨Session.restore (foreignMark ++ phpId) .default,true⟩

theorem decode_cases {value : String} (h : f.decode value = .ok id) :
    Php.foreign id = none ∨ ∃ phpId, isSessionId phpId = true ∧ id = foreignMark ++ phpId := by
  rw [decode] at h
  split_ifs at h with hformed
  · cases h
    exact .inl (foreign_of_wellFormed hformed)
  · obtain ⟨phpId,-,h⟩ := bind_eq_ok.1 h
    split_ifs at h with hid
    · cases h
    · have heq : foreignMark ++ phpId = id := Except.ok.inj h
      exact .inr ⟨phpId,by simpa using hid,heq.symm⟩

theorem loads_load (f : ForeignSessionStore F) (s : Sessions) (r : Request) : Loads f s r (f.load s r) := by
  rw [load]
  cases adopt r.rainierCookie r.foreignCookie with
  | none => exact .new
  | some value =>
    cases hdecode : f.decode value with
    | error e =>
      simp only [hdecode]
      exact .new
    | ok id =>
      simp only [hdecode]
      rcases decode_cases hdecode with hown | ⟨phpId,hid,rfl⟩
      · have hread : f.read s id = .ok (s.inner id) := by rw [read,hown]
        rw [hread]
        cases hinner : s.inner id with
        | none => exact .new
        | some data => exact .own hown hinner
      · cases hread : f.read s (foreignMark ++ phpId) with
        | error e => exact .detached
        | ok found =>
          cases found with
          | none => exact .new
          | some data => exact .foreign hid hread

/-! ## One request -/

variable {run : Run} {r : Request} {requests : List Request}

theorem home_mark (phpId : String) : f.home (foreignMark ++ phpId) = f.derivedId phpId := by
  rw [home,foreign_mark]

theorem home_own (h : Php.foreign id = none) : f.home id = id := by
  rw [home,h]

/-- No request writes where the copy of a PHP session was that reads as nothing. -/
theorem home_ne (h : f.Apart requests) (hr : r ∈ requests) (hid : isSessionId phpId = true)
    (hunread : ∀ data, f.read s (foreignMark ++ phpId) ≠ .ok (some data)) (hattached : (f.load s r).detached = false) :
    f.derivedId phpId ≠ f.home (f.load s r).session.id := by
  have hloads := loads_load f s r
  generalize f.load s r = loaded at hloads hattached ⊢
  intro heq
  cases hloads with
  | new =>
    have hfresh : r.fresh ∈ minted r := List.mem_cons_self
    have hnew := heq.trans (home_own (h.formed r hr _ hfresh))
    exact h.fresh r hr _ hfresh phpId hid hnew.symm
  | foreign hid' hread =>
    cases h.inj _ _ hid hid' (heq.trans (home_mark _))
    exact hunread _ hread
  | own hown hread =>
    have hnone := (unread_iff.1 hunread).1
    rw [heq.trans (home_own hown)] at hnone
    exact absurd (hnone.symm.trans hread) (by simp)
  | detached => cases hattached

theorem inner_save (session : Session) : (f.save run session).sessions.inner k =
    if k = f.home session.id then some session.ageAndTake.1
    else if k ∈ session.superseded.map f.home then none else run.sessions.inner k := by
  simp only [save,write,update_apply,inner_destroyed]

theorem source_save (hrelease : f.release = .destroy) (session : Session) : (f.save run session).sessions.source k =
    if some k ∈ session.superseded.map Php.foreign then none else run.sessions.source k := source_destroyed hrelease _

theorem superseded_start (s : Sessions) (r : Request) : (f.load s r).session.superseded = [] := by
  have hloads := loads_load f s r
  generalize f.load s r = loaded at hloads ⊢
  cases hloads with
  | new => rfl
  | foreign hid hread => rfl
  | own hid hread => rfl
  | detached => rfl

/-- A request that keeps its id. -/
theorem staysReleased_kept (hrelease : f.release = .destroy) (h : f.Apart requests) (hr : r ∈ requests) (hs : f.StaysReleased run)
    (hattached : (f.load run.sessions r).detached = false) (hkept : r.actions.filterMap newId = []) :
    f.StaysReleased (f.save run (r.actions.foldl Session.act (f.load run.sessions r).session)) := by
  have hnamed := acted_kept (f.load run.sessions r).session hkept
  have hnone := hnamed.superseded.trans (superseded_start run.sessions r)
  generalize r.actions.foldl Session.act (f.load run.sessions r).session = session at hnamed hnone
  intro phpId hid hreleased
  have hold : f.Released run phpId := by
    simpa [Released,save,hnone] using hreleased
  have hunread := hs phpId hid hold
  obtain ⟨hinner,hlingers⟩ := unread_iff.1 hunread
  apply unread_iff.2
  constructor
  · rw [inner_save,hnamed.id,if_neg (home_ne h hr hid hunread hattached),hnone]
    simpa using hinner
  · intro hlinger
    apply hlingers
    apply lingers_of_source _ hlinger
    intro payload hpayload
    simpa [source_save hrelease,hnone] using hpayload

/-- What a request leaves behind that gives its id up and goes on under minted ones. -/
structure Moved (f : ForeignSessionStore F) (run after : Run) (id : String) : Prop where
  released : ∀ phpId, isSessionId phpId = true →
    (f.Released after phpId ↔ f.Released run phpId ∨ id = foreignMark ++ phpId ∨ id = f.derivedId phpId)
  inner : ∀ phpId, isSessionId phpId = true → after.sessions.inner (f.derivedId phpId) =
    if f.derivedId phpId = f.home id then none else run.sessions.inner (f.derivedId phpId)
  source : ∀ phpId, after.sessions.source phpId = if Php.foreign id = some phpId then none else run.sessions.source phpId

theorem moved_save (hrelease : f.release = .destroy) (h : f.Apart requests) (hr : r ∈ requests) {session : Session}
    {rest : List String} (hlast : session.id ∈ minted r) (hsuperseded : session.superseded = id :: rest)
    (hrest : ∀ id ∈ rest, id ∈ minted r) : Moved f run (f.save run session) id := by
  have hplain : ∀ id ∈ rest, f.home id = id := fun id hid => home_own (h.formed r hr id (hrest id hid))
  have hhome : ∀ phpId, isSessionId phpId = true → f.derivedId phpId ∉ rest.map f.home := by
    intro phpId hid hmem
    obtain ⟨id,hmem,heq⟩ := List.mem_map.1 hmem
    rw [hplain id hmem] at heq
    exact h.fresh r hr id (hrest id hmem) phpId hid heq
  constructor
  · intro phpId hid
    have hmark : foreignMark ++ phpId ∉ rest := by
      intro hmem
      have hforeign := h.formed r hr _ (hrest _ hmem)
      rw [foreign_mark] at hforeign
      cases hforeign
    have hderived : f.derivedId phpId ∉ rest := by
      intro hmem
      exact h.fresh r hr _ (hrest _ hmem) phpId hid rfl
    simp only [Released,save,hsuperseded,List.mem_append,List.mem_cons,hmark,hderived,or_false]
    simp only [eq_comm (b := id)]
    tauto
  · intro phpId hid
    have hnew : f.derivedId phpId ≠ f.home session.id := by
      rw [home_own (h.formed r hr _ hlast)]
      exact (h.fresh r hr _ hlast phpId hid).symm
    rw [inner_save,if_neg hnew,hsuperseded,List.map_cons]
    simp only [List.mem_cons,hhome phpId hid,or_false]
  · intro phpId
    have hforeign : some phpId ∉ rest.map Php.foreign := by
      intro hmem
      obtain ⟨id,hmem,heq⟩ := List.mem_map.1 hmem
      rw [h.formed r hr id (hrest id hmem)] at heq
      cases heq
    rw [source_save hrelease,hsuperseded,List.map_cons]
    simp only [List.mem_cons,hforeign,or_false,eq_comm]

/-- The promise outlives the move of a session unless it had its derived name. -/
theorem Moved.stays_iff {after : Run} (hmoved : Moved f run after id) (h : f.Apart requests) (hs : f.StaysReleased run) :
    f.StaysReleased after ↔ ∀ phpId, isSessionId phpId = true → id = f.derivedId phpId → ¬ f.Lingers run.sessions phpId := by
  constructor
  · intro hafter phpId hid heq hlingers
    have hreleased := (hmoved.released phpId hid).2 (.inr (.inr heq))
    apply (unread_iff.1 (hafter phpId hid hreleased)).2
    apply lingers_of_source _ hlingers
    intro payload hpayload
    rw [hmoved.source,heq,h.plain phpId hid]
    exact hpayload
  · intro hname phpId hid hreleased
    have hsource : f.Lingers after.sessions phpId → f.Lingers run.sessions phpId := by
      apply lingers_of_source
      intro payload hpayload
      rw [hmoved.source] at hpayload
      split_ifs at hpayload
      exact hpayload
    apply unread_iff.2
    rw [hmoved.inner phpId hid]
    rcases (hmoved.released phpId hid).1 hreleased with hold | heq | heq
    · obtain ⟨hinner,hlingers⟩ := unread_iff.1 (hs phpId hid hold)
      refine ⟨?_,fun hlinger => hlingers (hsource hlinger)⟩
      rw [hinner,ite_self]
    · rw [heq,home_mark,if_pos rfl]
      refine ⟨rfl,?_⟩
      rintro ⟨payload,mapped,hpayload,-⟩
      rw [hmoved.source,heq,foreign_mark,if_pos rfl] at hpayload
      cases hpayload
    · have hhome : f.home id = f.derivedId phpId := by rw [heq,home_own (h.plain phpId hid)]
      rw [hhome,if_pos rfl]
      exact ⟨rfl,fun hlinger => hname phpId hid heq (hsource hlinger)⟩

/-- A request that gives its id up. -/
theorem staysReleased_gaveUp_iff (hrelease : f.release = .destroy) (h : f.Apart requests) (hr : r ∈ requests)
    (hs : f.StaysReleased run) (hgives : GivesUp r) :
    f.StaysReleased (f.save run (r.actions.foldl Session.act (f.load run.sessions r).session)) ↔ f.ByForeignName run r := by
  obtain ⟨hlast,⟨rest,hrest,hmem⟩,-⟩ := acted_gaveUp (f.load run.sessions r).session hgives
  rw [superseded_start,List.nil_append] at hrest
  have hminted : ∀ id ∈ r.actions.filterMap newId, id ∈ minted r := fun id hid => List.mem_cons_of_mem _ hid
  have hmoved : Moved f run (f.save run (r.actions.foldl Session.act (f.load run.sessions r).session)) _ :=
    moved_save hrelease h hr (hminted _ hlast) hrest fun id hid => hminted id (hmem id hid)
  rw [hmoved.stays_iff h hs]
  constructor
  · exact fun hname phpId hid heq _ => hname phpId hid heq
  · exact fun hname phpId hid heq => hname phpId hid heq hgives

theorem ne_derivedId_of_detached (h : f.Apart requests) (hid : isSessionId phpId = true)
    (hdetached : (f.load s r).detached = true) : (f.load s r).session.id ≠ f.derivedId phpId := by
  have hloads := loads_load f s r
  generalize f.load s r = loaded at hloads hdetached ⊢
  intro heq
  cases hloads with
  | new => cases hdetached
  | foreign hid' hread => cases hdetached
  | own hown hread => cases hdetached
  | @detached held =>
    have hplain := h.plain phpId hid
    rw [← heq] at hplain
    exact absurd ((foreign_mark held).symm.trans hplain) (by simp)

theorem staysReleased_handle_iff (hrelease : f.release = .destroy) (h : f.Apart requests) (hr : r ∈ requests)
    (hs : f.StaysReleased run) : f.StaysReleased (f.handle run r) ↔ f.ByForeignName run r := by
  rw [handle]
  split_ifs with hunsaved
  · apply iff_of_true hs
    intro phpId hid heq hgives
    -- a handler that takes a new id has something to save, unless the session could not be read
    have hdirty := (acted_gaveUp (f.load run.sessions r).session hgives).dirty
    have hdetached : (f.load run.sessions r).detached = true := by simpa [hdirty] using hunsaved
    exact absurd heq (ne_derivedId_of_detached h hid hdetached)
  · have hattached : (f.load run.sessions r).detached = false := by
      cases hdetached : (f.load run.sessions r).detached with
      | false => rfl
      | true => simp [hdetached] at hunsaved
    by_cases hgives : GivesUp r
    · exact staysReleased_gaveUp_iff hrelease h hr hs hgives
    · have hkept : r.actions.filterMap newId = [] := not_not.1 hgives
      exact iff_of_true (staysReleased_kept hrelease h hr hs hattached hkept) fun phpId hid heq hgave => absurd hgave hgives

theorem staysReleased_start (s : Sessions) : f.StaysReleased (start s) := by
  rintro phpId - (h | h)
  · cases h
  · cases h

/-- Where a released session is never given up under its derived name, and only there, the PHP cookie of a
released session reads nothing from then on. -/
theorem staysReleased_iff (f : ForeignSessionStore F) (hrelease : f.release = .destroy) (s : Sessions) (requests : List Request)
    (h : f.Apart requests) :
    Always f.handle f.StaysReleased (start s) requests ↔ Along f.handle f.ByForeignName (start s) requests :=
  always_iff_along_of_kind (Q := fun _ => True) (fun _ hr => hr) (fun _ _ _ _ _ _ => trivial)
    (fun _ _ hr _ hs => staysReleased_handle_iff hrelease h hr hs) trivial (staysReleased_start s)

/-- A store without floats, with a MAC that is known for one id. -/
def shop (phpId derived : String) : ForeignSessionStore Empty where
  derivedId id := if id = phpId then derived else "d" ++ id
  decrypt value := if value = "sealed" then .ok phpId else .error (.badRequest "the payload is invalid")
  floats := ⟨Empty.elim,fun _ => none,fun x => x.elim,fun x => x.elim,fun x => x.elim⟩
  bits := Empty.elim
  mapping := ⟨"web","_auth_id"⟩
  release := .destroy

def visitor : String := String.ofList (List.replicate 40 'a')

def migrated : String := String.ofList (List.replicate 64 '0')

def renewed : String := String.ofList (List.replicate 64 'b')

/-- The PHP side holds the visitor's session, with a cart. -/
def visited : Sessions where
  inner _ := none
  source id :=
    if id = visitor then some (serialize (shop visitor migrated).floats (.array [(.str (Text.asBytes "cart"),.bool true)]))
    else none

/-- A visit with the PHP cookie. -/
def visit (actions : List Session.Action) : Request := ⟨none,some "sealed",renewed,actions⟩

theorem foreign_d (id : String) : Php.foreign ("d" ++ id) = none := by
  cases hforeign : Php.foreign ("d" ++ id) with
  | none => rfl
  | some phpId =>
    have hlist := congrArg String.toList (Text.stripPrefix_eq_some.1 hforeign)
    rw [String.toList_append,String.toList_append] at hlist
    exact absurd (List.cons.inj hlist).1 (by decide)

theorem ne_d (id : String) (h : id.toList.head? ≠ some 'd') (id' : String) : id ≠ "d" ++ id' := by
  rintro rfl
  exact h (by simp)

theorem apart_shop {requests : List Request} (hminted : ∀ r ∈ requests, ∀ id ∈ minted r, id = renewed) :
    (shop visitor migrated).Apart requests := by
  have hmigrated := ne_d migrated (by decide)
  have hrenewed := ne_d renewed (by decide)
  constructor
  · intro a b _ _ h
    simp only [shop] at h
    split_ifs at h with ha hb hb
    · rw [ha,hb]
    · exact absurd h (hmigrated b)
    · exact absurd h.symm (hmigrated a)
    · have hlist := congrArg String.toList h
      rw [String.toList_append,String.toList_append] at hlist
      exact String.toList_injective (List.append_cancel_left hlist)
  · intro a _
    simp only [shop]
    split_ifs
    · decide
    · exact foreign_d a
  · intro r hr id hid
    rw [hminted r hr id hid]
    decide
  · intro r hr id hid a _
    rw [hminted r hr id hid]
    simp only [shop]
    split_ifs
    · decide
    · exact hrenewed a

/-- A visitor who logs out with the PHP cookie. -/
theorem staysReleased_visitor :
    Along (shop visitor migrated).handle (shop visitor migrated).ByForeignName (start visited)
        [visit [],visit [.invalidate renewed],visit []] ∧
      Always (shop visitor migrated).handle (shop visitor migrated).StaysReleased (start visited)
        [visit [],visit [.invalidate renewed],visit []] := by
  have hminted : ∀ r ∈ [visit [],visit [.invalidate renewed],visit []], ∀ id ∈ minted r, id = renewed := by decide
  have hapart := apart_shop hminted
  have hnamed : Along (shop visitor migrated).handle (shop visitor migrated).ByForeignName (start visited)
      [visit [],visit [.invalidate renewed],visit []] := by
    refine ⟨?_,?_,?_,trivial⟩
    · exact fun phpId hid heq hgives => absurd rfl hgives
    · intro phpId hid heq
      have hload : ((shop visitor migrated).load ((shop visitor migrated).handle (start visited) (visit [])).sessions
          (visit [.invalidate renewed])).session.id = foreignMark ++ visitor := by decide
      have hplain := hapart.plain phpId hid
      rw [← heq,hload,foreign_mark] at hplain
      cases hplain
    · exact fun phpId hid heq hgives => absurd rfl hgives
  exact ⟨hnamed,(staysReleased_iff (shop visitor migrated) rfl visited _ hapart).2 hnamed⟩

/-- A request carries the PHP cookie, or a value that a response has set. -/
def Presented (run : Run) (r : Request) : Prop := ∀ value, r.rainierCookie = some value → value ∈ run.cookies

/-- A visitor who logs out with the cookie that the first response set is back with the PHP cookie. -/
theorem released_and_read : ¬ ∀ (f : ForeignSessionStore Empty) (s : Sessions) (requests : List Request), f.release = .destroy →
    f.Apart requests → Along f.handle Presented (start s) requests → Always f.handle f.StaysReleased (start s) requests := by
  intro h
  have hminted : ∀ r ∈ [visit [],⟨some migrated,none,renewed,[.invalidate renewed]⟩], ∀ id ∈ minted r, id = renewed := by
    decide
  have hpresented : Along (shop visitor migrated).handle Presented (start visited)
      [visit [],⟨some migrated,none,renewed,[.invalidate renewed]⟩] := by
    refine ⟨?_,?_,trivial⟩
    · intro value hvalue
      cases hvalue
    · intro value hvalue
      cases hvalue
      decide
  have hstays := (h (shop visitor migrated) visited _ rfl (apart_shop hminted) hpresented).last
  apply hstays visitor (by decide) (.inr (by decide)) ⟨[("cart",.bool true)],[]⟩
  decide

end ForeignSessionStore

end Rainier.Compat.Php
