import Mathlib.Data.List.Basic
import Mathlib.Data.List.Perm.Basic
import Mathlib.Data.List.Sort

/-! # Redis streams and sorted sets

The keys one queue owns, and each command as a step on them: a stream with one
consumer group, a sorted set and a list. Entry ids only grow, so they are
numbers here. Times are the server's milliseconds.
-/
namespace Rainier.Drivers

structure StreamEntry (β : Type*) where
  id : ℕ
  body : β
  deriving DecidableEq, Repr

/-- An entry handed out and not acknowledged, and when it was last handed out. -/
structure Pending where
  id : ℕ
  since : ℕ
  deriving DecidableEq, Repr

/-- `group` is the last entry handed out, once the group exists. -/
structure Streams (β φ : Type*) where
  entries : List (StreamEntry β)
  lastId : ℕ
  group : Option ℕ
  pending : List Pending
  delayed : List (ℕ × β)
  failed : List φ

namespace Streams
variable {β φ : Type*} [DecidableEq β]

def empty : Streams β φ := ⟨[],0,none,[],[],[]⟩

def xadd (s : Streams β φ) (body : β) : Streams β φ :=
  { s with entries := s.entries ++ [⟨s.lastId + 1,body⟩], lastId := s.lastId + 1 }

/-- From the first entry on, and harmless where the group exists. -/
def xgroupCreate (s : Streams β φ) : Streams β φ := { s with group := some (s.group.getD 0) }

/-- Everything up to here has been handed out. -/
def delivered (s : Streams β φ) : ℕ := s.group.getD 0

def undelivered (s : Streams β φ) : List (StreamEntry β) := s.entries.filter (fun e => s.delivered < e.id)

/-- `XREADGROUP … COUNT 1 STREAMS stream >`; without a group the command is
refused, and nothing is read. -/
def xreadgroupOne (s : Streams β φ) (now : ℕ) : Option (StreamEntry β) × Streams β φ :=
  match s.group, s.undelivered.head? with
  | some _, some e => (some e,{ s with group := some e.id, pending := s.pending ++ [⟨e.id,now⟩] })
  | _, _ => (none,s)

/-- `XAUTOCLAIM` over the pending list, looking at no more than `attempts` of it.
A pending entry that is no longer in the stream is forgotten on the way. -/
def autoclaim (entries : List (StreamEntry β)) (now minIdle : ℕ) :
    ℕ → List Pending → Option (StreamEntry β) × List Pending
  | 0, pending => (none,pending)
  | _, [] => (none,[])
  | attempts + 1, p :: rest =>
    if minIdle ≤ now - p.since then match entries.find? (fun e => e.id == p.id) with
      | some e => (some e,⟨p.id,now⟩ :: rest)
      | none => autoclaim entries now minIdle attempts rest
    else
      let (found,rest') := autoclaim entries now minIdle attempts rest
      (found,p :: rest')

/-- `XAUTOCLAIM … 0-0 COUNT 1`: the server looks at ten entries for each one asked. -/
def xautoclaimOne (s : Streams β φ) (now minIdle : ℕ) : Option (StreamEntry β) × Streams β φ :=
  let (found,pending) := autoclaim s.entries now minIdle 10 s.pending
  (found,{ s with pending := pending })

def xack (s : Streams β φ) (id : ℕ) : Streams β φ := { s with pending := s.pending.filter (fun p => p.id != id) }

def xdel (s : Streams β φ) (id : ℕ) : Streams β φ := { s with entries := s.entries.filter (fun e => e.id != id) }

/-- A member is in the set once; adding it again changes its score. -/
def zadd (s : Streams β φ) (score : ℕ) (body : β) : Streams β φ :=
  { s with delayed := s.delayed.filter (fun m => m.2 != body) ++ [(score,body)] }

def due (s : Streams β φ) (now : ℕ) : List (ℕ × β) := s.delayed.filter (fun m => m.1 ≤ now)

/-- The script takes the due members by score; `order` is how members of one score come. -/
def promoteDue (s : Streams β φ) (now : ℕ) (order : List (ℕ × β)) : Option (Streams β φ) :=
  if order.isPerm (s.due now) && decide (order.Pairwise (fun a b => a.1 ≤ b.1)) then
    some (order.foldl (fun s m => s.xadd m.2) { s with delayed := s.delayed.filter (fun m => now < m.1) })
  else none

def lpush (s : Streams β φ) (value : φ) : Streams β φ := { s with failed := value :: s.failed }

/-! ## What the commands keep -/

omit [DecidableEq β]

/-- Ids grow along the stream, and the pending entries are entries handed out before. -/
structure Ordered (s : Streams β φ) : Prop where
  sorted : s.entries.Pairwise (fun a b => a.id < b.id)
  bounded : ∀ e ∈ s.entries, e.id ≤ s.lastId
  delivered : s.delivered ≤ s.lastId
  handed : ∀ p ∈ s.pending, p.id ≤ s.delivered ∧ ∃ e ∈ s.entries, e.id = p.id

/-- The entry can still be handed out, for the first time or again. -/
def Deliverable (s : Streams β φ) (e : StreamEntry β) : Prop :=
  s.delivered < e.id ∨ ∃ p ∈ s.pending, p.id = e.id

variable {s : Streams β φ}

theorem ordered_empty : Ordered (empty : Streams β φ) where
  sorted := List.Pairwise.nil
  bounded _ h := by cases h
  delivered := Nat.le_refl _
  handed _ h := by cases h

theorem Ordered.eq_of_id (h : Ordered s) {a b : StreamEntry β} (ha : a ∈ s.entries) (hb : b ∈ s.entries)
    (hid : a.id = b.id) : a = b := by
  have hnodup : (s.entries.map StreamEntry.id).Nodup :=
    (List.pairwise_map.mpr (h.sorted.imp (fun hlt => Nat.ne_of_lt hlt)))
  exact List.inj_on_of_nodup_map hnodup ha hb hid

theorem Ordered.xadd (h : Ordered s) (body : β) : Ordered (s.xadd body) where
  sorted := by
    refine List.pairwise_append.mpr ⟨h.sorted,List.pairwise_singleton _ _,?_⟩
    intro a ha b hb
    rw [List.mem_singleton.mp hb]
    exact Nat.lt_succ_of_le (h.bounded a ha)
  bounded e he := by
    rcases List.mem_append.mp he with he | he
    · exact Nat.le_succ_of_le (h.bounded e he)
    · rw [List.mem_singleton.mp he]
      exact Nat.le_refl _
  delivered := Nat.le_succ_of_le h.delivered
  handed p hp := by
    obtain ⟨hle,e,he,hid⟩ := h.handed p hp
    exact ⟨hle,e,List.mem_append_left _ he,hid⟩

theorem Ordered.xgroupCreate (h : Ordered s) : Ordered s.xgroupCreate := ⟨h.sorted,h.bounded,h.delivered,h.handed⟩

theorem Ordered.lpush (h : Ordered s) (value : φ) : Ordered (s.lpush value) :=
  ⟨h.sorted,h.bounded,h.delivered,h.handed⟩

theorem Ordered.zadd [DecidableEq β] (h : Ordered s) (score : ℕ) (body : β) : Ordered (s.zadd score body) :=
  ⟨h.sorted,h.bounded,h.delivered,h.handed⟩

theorem Ordered.xack (h : Ordered s) (id : ℕ) : Ordered (s.xack id) :=
  ⟨h.sorted,h.bounded,h.delivered,fun p hp => h.handed p (List.mem_filter.mp hp).1⟩

/-- Deleting an entry that is not pending. -/
theorem Ordered.xdel (h : Ordered s) {id : ℕ} (hid : ∀ p ∈ s.pending, p.id ≠ id) : Ordered (s.xdel id) where
  sorted := h.sorted.sublist List.filter_sublist
  bounded e he := h.bounded e (List.mem_filter.mp he).1
  delivered := h.delivered
  handed p hp := by
    obtain ⟨hle,e,he,hp'⟩ := h.handed p hp
    refine ⟨hle,e,List.mem_filter.mpr ⟨he,?_⟩,hp'⟩
    rw [hp']
    simpa using hid p hp

/-- What a read does, if there is anything to read: it hands out the first entry not handed out. -/
theorem xreadgroupOne_cases (s : Streams β φ) (now : ℕ) :
    (s.xreadgroupOne now = (none,s) ∧ (s.group = none ∨ s.undelivered = [])) ∨
    ∃ e rest, s.undelivered = e :: rest ∧ s.xreadgroupOne now =
      (some e,{ s with group := some e.id, pending := s.pending ++ [⟨e.id,now⟩] }) := by
  unfold xreadgroupOne
  cases hg : s.group with
  | none => exact .inl ⟨rfl,.inl rfl⟩
  | some g => cases hu : s.undelivered with
    | nil => exact .inl ⟨rfl,.inr rfl⟩
    | cons e rest => exact .inr ⟨e,rest,rfl,rfl⟩

theorem mem_undelivered {e : StreamEntry β} : e ∈ s.undelivered ↔ e ∈ s.entries ∧ s.delivered < e.id := by
  simp [undelivered]

/-- The first entry not handed out is before every other. -/
theorem Ordered.head_undelivered (h : Ordered s) {e : StreamEntry β} {rest : List (StreamEntry β)}
    (hu : s.undelivered = e :: rest) {e' : StreamEntry β} (he' : e' ∈ s.entries) (hlt : s.delivered < e'.id) :
    e' = e ∨ e.id < e'.id := by
  have hmem : e' ∈ e :: rest := hu ▸ mem_undelivered.mpr ⟨he',hlt⟩
  have hsorted : (e :: rest).Pairwise (fun a b => a.id < b.id) := hu ▸ h.sorted.sublist List.filter_sublist
  rcases List.mem_cons.mp hmem with he | he
  · exact .inl he
  · exact .inr ((List.pairwise_cons.mp hsorted).1 e' he)

theorem Ordered.read (h : Ordered s) {e : StreamEntry β} {rest : List (StreamEntry β)} (hu : s.undelivered = e :: rest)
    (now : ℕ) : Ordered { s with group := some e.id, pending := s.pending ++ [⟨e.id,now⟩] } := by
  obtain ⟨he,hlt⟩ := mem_undelivered.mp (hu ▸ List.mem_cons_self : e ∈ s.undelivered)
  refine ⟨h.sorted,h.bounded,h.bounded e he,?_⟩
  intro p hp
  rcases List.mem_append.mp hp with hp | hp
  · obtain ⟨hle,hex⟩ := h.handed p hp
    exact ⟨Nat.le_of_lt (Nat.lt_of_le_of_lt hle hlt),hex⟩
  · rw [List.mem_singleton.mp hp]
    exact ⟨Nat.le_refl _,e,he,rfl⟩

/-- Where every pending entry is in the stream, claiming changes no more than the
times, and what it hands out is one of them. -/
theorem autoclaim_spec {entries : List (StreamEntry β)} (now minIdle attempts : ℕ) {pending : List Pending}
    (h : ∀ p ∈ pending, ∃ e ∈ entries, e.id = p.id) :
    (autoclaim entries now minIdle attempts pending).2.map Pending.id = pending.map Pending.id ∧
    ∀ e, (autoclaim entries now minIdle attempts pending).1 = some e →
      e ∈ entries ∧ ∃ p ∈ pending, p.id = e.id := by
  induction pending generalizing attempts with
  | nil => cases attempts <;> exact ⟨rfl,fun _ he => by cases he⟩
  | cons p rest ih =>
    cases attempts with
    | zero => exact ⟨rfl,fun _ he => by cases he⟩
    | succ attempts =>
      have hrest := ih attempts (fun p' hp' => h p' (List.mem_cons_of_mem p hp'))
      unfold autoclaim
      split
      · cases hf : entries.find? (fun e => e.id == p.id) with
        | none =>
          obtain ⟨e,he,hid⟩ := h p List.mem_cons_self
          exact absurd (by simpa using hid) (List.find?_eq_none.mp hf e he)
        | some e =>
          refine ⟨rfl,?_⟩
          rintro e' ⟨⟩
          have hid : e.id = p.id := by simpa using List.find?_some hf
          exact ⟨List.mem_of_find?_eq_some hf,p,List.mem_cons_self,hid.symm⟩
      · refine ⟨by simp [hrest.1],?_⟩
        intro e he
        obtain ⟨hmem,p',hp',hid⟩ := hrest.2 e he
        exact ⟨hmem,p',List.mem_cons_of_mem p hp',hid⟩

theorem Ordered.xautoclaimOne (h : Ordered s) (now minIdle : ℕ) :
    ∃ found pending, s.xautoclaimOne now minIdle = (found,{ s with pending := pending }) ∧
      pending.map Pending.id = s.pending.map Pending.id ∧ Ordered { s with pending := pending } ∧
      ∀ e, found = some e → e ∈ s.entries ∧ ∃ p ∈ s.pending, p.id = e.id := by
  obtain ⟨hids,hfound⟩ := autoclaim_spec now minIdle 10 (fun p hp => (h.handed p hp).2)
  refine ⟨_,_,rfl,hids,⟨h.sorted,h.bounded,h.delivered,?_⟩,hfound⟩
  intro p hp
  have hmem : p.id ∈ s.pending.map Pending.id := hids ▸ List.mem_map_of_mem hp
  obtain ⟨p',hp',hid⟩ := List.mem_map.mp hmem
  exact hid ▸ h.handed p' hp'

/-! ## What has not been handed out -/

theorem Ordered.undelivered_xadd (h : Ordered s) (body : β) :
    (s.xadd body).undelivered = s.undelivered ++ [⟨s.lastId + 1,body⟩] := by
  have hlt : s.delivered < s.lastId + 1 := Nat.lt_succ_of_le h.delivered
  have hnew : [(⟨s.lastId + 1,body⟩ : StreamEntry β)].filter (fun e => decide (s.delivered < e.id)) =
      [⟨s.lastId + 1,body⟩] := by
    simp [hlt]
  rw [undelivered,undelivered,← hnew,← List.filter_append]
  rfl

theorem Ordered.undelivered_read (h : Ordered s) {e : StreamEntry β} {rest : List (StreamEntry β)}
    (hu : s.undelivered = e :: rest) (pending : List Pending) :
    { s with group := some e.id, pending := pending }.undelivered = rest := by
  have hlt : s.delivered < e.id := (mem_undelivered.mp (hu ▸ List.mem_cons_self : e ∈ s.undelivered)).2
  have hsorted : (e :: rest).Pairwise (fun a b => a.id < b.id) := hu ▸ h.sorted.sublist List.filter_sublist
  have hafter : s.entries.filter (fun x => decide (e.id < x.id)) =
      s.undelivered.filter (fun x => decide (e.id < x.id)) := by
    rw [undelivered,List.filter_filter]
    refine List.filter_congr ?_
    intro x _
    by_cases hx : e.id < x.id
    · have : s.delivered < x.id := by omega
      simp [hx,this]
    · simp [hx]
  have hrest : rest.filter (fun x => decide (e.id < x.id)) = rest :=
    List.filter_eq_self.mpr (fun x hx => by simpa using (List.pairwise_cons.mp hsorted).1 x hx)
  calc { s with group := some e.id, pending := pending }.undelivered
      = s.undelivered.filter (fun x => decide (e.id < x.id)) := hafter
    _ = rest := by simp [hu,hrest]

theorem undelivered_xdel {id : ℕ} (hid : id ≤ s.delivered) : (s.xdel id).undelivered = s.undelivered := by
  have hsame : (s.entries.filter (fun e => e.id != id)).filter (fun e => decide (s.delivered < e.id)) =
      s.entries.filter (fun e => decide (s.delivered < e.id)) := by
    rw [List.filter_filter]
    refine List.filter_congr ?_
    intro x _
    by_cases hx : s.delivered < x.id
    · have : x.id ≠ id := by omega
      simp [hx,this]
    · simp [hx]
  exact hsame

/-- The first pending entry is claimed if it has been idle long enough. -/
theorem Ordered.xautoclaimOne_head (h : Ordered s) {now minIdle : ℕ} {p : Pending} {rest : List Pending}
    (hp : s.pending = p :: rest) (hidle : minIdle ≤ now - p.since) :
    ∃ e ∈ s.entries, e.id = p.id ∧
      s.xautoclaimOne now minIdle = (some e,{ s with pending := ⟨p.id,now⟩ :: rest }) := by
  obtain ⟨_,e,he,hid⟩ := h.handed p (hp ▸ List.mem_cons_self)
  cases hf : s.entries.find? (fun e => e.id == p.id) with
  | none => exact absurd (by simpa using hid) (List.find?_eq_none.mp hf e he)
  | some e' =>
    refine ⟨e',List.mem_of_find?_eq_some hf,by simpa using List.find?_some hf,?_⟩
    simp [Streams.xautoclaimOne,hp,autoclaim,hidle,hf]

theorem xautoclaimOne_nil (hp : s.pending = []) (now minIdle : ℕ) : s.xautoclaimOne now minIdle = (none,s) := by
  rcases s with ⟨entries,lastId,group,pending,delayed,failed⟩
  cases hp
  rfl

/-- Adding a list of bodies, one command after another. -/
theorem foldl_xadd_spec (members : List (ℕ × β)) (s : Streams β φ) :
    ∃ added : List (StreamEntry β), added.map StreamEntry.body = members.map Prod.snd ∧
      (∀ e ∈ added, s.lastId < e.id) ∧
      (members.foldl (fun s m => s.xadd m.2) s).entries = s.entries ++ added ∧
      (members.foldl (fun s m => s.xadd m.2) s).group = s.group ∧
      (members.foldl (fun s m => s.xadd m.2) s).pending = s.pending ∧
      (members.foldl (fun s m => s.xadd m.2) s).delayed = s.delayed ∧
      (members.foldl (fun s m => s.xadd m.2) s).failed = s.failed ∧
      (Ordered s → Ordered (members.foldl (fun s m => s.xadd m.2) s)) := by
  induction members generalizing s with
  | nil => exact ⟨[],rfl,fun _ he => (by cases he),by simp,rfl,rfl,rfl,rfl,fun h => h⟩
  | cons m rest ih =>
    obtain ⟨added,hbody,hid,hent,hg,hp,hd,hf,ho⟩ := ih (s.xadd m.2)
    refine ⟨⟨s.lastId + 1,m.2⟩ :: added,by simp [hbody],?_,?_,hg,hp,hd,hf,fun h => ho (h.xadd m.2)⟩
    · intro e he
      rcases List.mem_cons.mp he with rfl | he
      · exact Nat.lt_succ_self _
      · exact Nat.lt_of_succ_lt (hid e he)
    · rw [List.foldl_cons,hent]
      simp [Streams.xadd]

/-- What a promotion does: the due members become entries that have not been handed out. -/
theorem promoteDue_spec [DecidableEq β] {now : ℕ} {order : List (ℕ × β)} {s' : Streams β φ}
    (h : s.promoteDue now order = some s') :
    ∃ added : List (StreamEntry β), (added.map StreamEntry.body).Perm ((s.due now).map Prod.snd) ∧
      (∀ e ∈ added, s.lastId < e.id) ∧ s'.entries = s.entries ++ added ∧ s'.group = s.group ∧
      s'.pending = s.pending ∧ s'.delayed = s.delayed.filter (fun m => now < m.1) ∧ s'.failed = s.failed ∧
      (Ordered s → Ordered s' ∧ s'.undelivered = s.undelivered ++ added) := by
  unfold promoteDue at h
  split at h
  next hc =>
    cases h
    have hperm : order.Perm (s.due now) := List.isPerm_iff.mp (Bool.and_eq_true_iff.mp hc).1
    obtain ⟨added,hbody,hid,hent,hg,hp,hd,hf,ho⟩ :=
      foldl_xadd_spec order { s with delayed := s.delayed.filter (fun m => now < m.1) }
    refine ⟨added,hbody ▸ hperm.map _,hid,hent,hg,hp,hd,hf,fun h => ⟨ho ?_,?_⟩⟩
    · exact ⟨h.sorted,h.bounded,h.delivered,h.handed⟩
    · have hnew : added.filter (fun e => decide (s.delivered < e.id)) = added := by
        refine List.filter_eq_self.mpr ?_
        intro e he
        have hlt : s.lastId < e.id := hid e he
        rw [decide_eq_true_eq]
        exact Nat.lt_of_le_of_lt h.delivered hlt
      have hsame : Streams.delivered _ = s.delivered := congrArg (fun g => Option.getD g 0) hg
      rw [undelivered,hsame,hent,List.filter_append,hnew]
      rfl
  · cases h

/-- The due members can be put in order, so a promotion can always run. -/
theorem exists_promoteDue [DecidableEq β] (s : Streams β φ) (now : ℕ) :
    ∃ order s', s.promoteDue now order = some s' := by
  have hperm := List.mergeSort_perm (s.due now) (fun a b => decide (a.1 ≤ b.1))
  have hsorted : ((s.due now).mergeSort (fun a b => decide (a.1 ≤ b.1))).Pairwise (fun a b => a.1 ≤ b.1) := by
    have hle : ((s.due now).mergeSort (fun a b => decide (a.1 ≤ b.1))).Pairwise (fun a b => decide (a.1 ≤ b.1)) :=
      List.pairwise_mergeSort (fun a b c => by simpa using Nat.le_trans)
        (fun a b => by simpa using Nat.le_total a.1 b.1) (s.due now)
    exact hle.imp (fun hle => by simpa using hle)
  refine ⟨(s.due now).mergeSort (fun a b => decide (a.1 ≤ b.1)),_,if_pos ?_⟩
  rw [Bool.and_eq_true,List.isPerm_iff,decide_eq_true_eq]
  exact ⟨hperm,hsorted⟩

end Streams
end Rainier.Drivers
