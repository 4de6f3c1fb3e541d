import Rainier.Broadcast.Pusher
import Rainier.Support.Trace

/-! # Sockets in the rooms of protected channels

The MAC is taken of the socket, the channel and the channel data, joined by colons. The data is what the
client says it is, so that a colon in the name of a channel can be read as the colon before the data, and
the one before the data as a part of the name.
-/
namespace Rainier.Broadcast
open Trace Function Json

variable {U : Type}

/-- The endpoint granted a channel to a socket id, with what it wrote for the member. -/
structure Grant where
  socketId : String
  wire : String
  member : Option String
  deriving DecidableEq, Repr

/-- The server, the id each socket was ever issued, and what was ever granted. -/
structure Run where
  server : Server
  connected : List (ℕ × String)
  grants : List Grant

/-- A run has any number of users, sockets and publishers. -/
inductive Label (U : Type) where
  | connect (socket : ℕ)
  | authorise (user : U) (socketId channelName : String)
  | message (socket : ℕ) (frame : Option Json)
  | close (socket : ℕ)
  | publish (gone : ℕ → Bool) (channel : String) (body : Option Json)

/-- The application and the server share the secret. -/
structure App (U : Type) where
  registry : ChannelRegistry U
  auth : PusherAuth
  float : BitVec 64 → String
  processNumber : ℕ
  namePrefix : String

namespace App

variable (a : App U)

def pusherServer : PusherServer := ⟨some a.auth,a.processNumber,a.namePrefix⟩

/-- `POST /broadcasting/auth`: what is answered to a request that is not refused. -/
def answer (user : U) (socketId channelName : String) : Except Error (Option Json) := do
  let channel := Channel.fromWireName channelName
  let access ← a.registry.authorize user channel
  if access.isAllowed then return some (← a.auth.authResponse a.float socketId channel access.member)
  else return none

/-- The grant that an answer is. -/
def granted (user : U) (socketId channelName : String) : Option Grant :=
  match a.answer user socketId channelName with
  | .ok (some body) => some ⟨socketId,(Channel.fromWireName channelName).wireName,stringField body "channel_data"⟩
  | _ => none

def step (s : Run) : Label U → Run
  | .connect socket =>
    { s with
      server := s.server.connect a.pusherServer socket
      connected := (socket,s.server.nextSocketId a.pusherServer) :: s.connected }
  | .authorise user socketId channelName => { s with grants := (a.granted user socketId channelName).toList ++ s.grants }
  | .message socket frame => { s with server := (s.server.onMessage a.pusherServer socket frame).1 }
  | .close socket => { s with server := s.server.close socket }
  | .publish gone channel body => { s with server := (s.server.deliverPublished a.pusherServer gone channel body).1 }

def start : Run := ⟨⟨fun _ => [],[],1⟩,[],[]⟩

/-! ## What is to hold -/

/-- Exactly this channel was granted to an id of this socket. -/
def Granted (s : Run) (socket : ℕ) (wire : String) : Prop :=
  ∃ socketId member, (socket,socketId) ∈ s.connected ∧ ⟨socketId,wire,member⟩ ∈ s.grants

/-- Sockets are in the rooms of protected channels by a grant, and what is published is sent to the room
of its channel only. -/
structure Heard (s : Run) : Prop where
  granted : ∀ wire socket, (Channel.fromWireName wire).needsAuthorisation = true → socket ∈ s.server.rooms wire →
    Granted s socket wire
  delivered : ∀ gone channel body, ∀ socket ∈ (s.server.deliverPublished a.pusherServer gone (prefixed a.namePrefix channel) body).2.1,
    socket ∈ s.server.rooms channel.wireName

/-- The subscription that a frame asks for: the channel, the presented MAC and the data. -/
def Subscribes (frame : Json) (wire presented : String) (member : Option String) : Prop :=
  stringField frame "event" = some "pusher:subscribe" ∧ channelOf (valueField frame "data") = some wire ∧
    (valueField frame "data").bind (stringField · "auth") = some presented ∧
      (valueField frame "data").bind (stringField · "channel_data") = member

/-- Nobody presents a MAC that the endpoint did not give out. -/
def Unforged (s : Run) (l : Label U) : Prop :=
  ∀ socket frame wire presented member, l = .message socket (some frame) → Subscribes frame wire presented member →
    ∀ text, presented = a.auth.signed text →
      ∃ g ∈ s.grants, presented = a.auth.signed (PusherAuth.message g.socketId g.wire g.member)

/-- One channel is the other one, continued by a colon and by what the other one has for data. -/
def Confusable (wire : String) (member : Option String) (wire' : String) (member' : Option String) : Prop :=
  ∃ rest, wire' = wire ++ ":" ++ rest ∧ member = some (joined rest member')

/-- No MAC that was given to the socket is presented for a channel that can be taken for the granted one. -/
def Calm (s : Run) (l : Label U) : Prop :=
  ∀ socket frame wire presented member, l = .message socket (some frame) → Subscribes frame wire presented member →
    ∀ g ∈ s.grants, (socket,g.socketId) ∈ s.connected →
      presented = a.auth.signed (PusherAuth.message g.socketId g.wire g.member) →
        ¬ Confusable wire member g.wire g.member ∧ ¬ Confusable g.wire g.member wire member

/-! ## What a signed text tells -/

variable {a : App U} {s : Run}

theorem wireName_fromWireName (wire : String) : (Channel.fromWireName wire).wireName = wire := by
  rw [Channel.fromWireName]
  cases hprivate : Text.stripPrefix "private-" wire with
  | some name => exact (Text.stripPrefix_eq_some.1 hprivate).symm
  | none =>
    cases hpresence : Text.stripPrefix "presence-" wire with
    | some name => exact (Text.stripPrefix_eq_some.1 hpresence).symm
    | none => rfl

theorem signed_inj (hmac : Injective a.auth.mac) {text text' : String} (h : a.auth.signed text = a.auth.signed text') :
    text = text' := by
  have hlist := congrArg String.toList h
  simp only [PusherAuth.signed,String.toList_append] at hlist
  have hhex := String.toList_injective (List.append_cancel_left hlist)
  exact Text.asBytes_injective (hmac (Bytes.hex_injective hhex))

/-- The socket ends where the first colon is. -/
theorem message_inj {id id' wire wire' : String} {member member' : Option String} (hid : ':' ∉ id.toList) (hid' : ':' ∉ id'.toList)
    (h : PusherAuth.message id wire member = PusherAuth.message id' wire' member') :
    id = id' ∧ joined wire member = joined wire' member' := by
  have hsplit : Text.splitOnce ':' (PusherAuth.message id wire member) = some (id,joined wire member) :=
    Text.splitOnce_append hid _
  have hsplit' : Text.splitOnce ':' (PusherAuth.message id' wire' member') = some (id',joined wire' member') :=
    Text.splitOnce_append hid' _
  rw [h,hsplit'] at hsplit
  have heq := Option.some.inj hsplit
  exact ⟨(congrArg Prod.fst heq).symm,(congrArg Prod.snd heq).symm⟩

theorem colon_split {xs ys xs' ys' : List Char} (h : xs ++ ':' :: ys = xs' ++ ':' :: ys') :
    xs = xs' ∨ (∃ rest, xs' = xs ++ ':' :: rest ∧ ys = rest ++ ':' :: ys') ∨ ∃ rest, xs = xs' ++ ':' :: rest ∧ ys' = rest ++ ':' :: ys := by
  rcases List.append_eq_append_iff.1 h with ⟨between,hxs,hys⟩ | ⟨between,hxs,hys⟩
  · cases between with
    | nil => exact .inl (by simpa using hxs.symm)
    | cons c rest =>
      obtain ⟨rfl,hrest⟩ := List.cons.inj hys
      exact .inr (.inl ⟨rest,hxs,hrest⟩)
  · cases between with
    | nil => exact .inl (by simpa using hxs)
    | cons c rest =>
      obtain ⟨rfl,hrest⟩ := List.cons.inj hys
      exact .inr (.inr ⟨rest,hxs,hrest⟩)

/-- Two channels that are joined with their data to one text are one channel, or one of them goes on with the
data of the other. -/
theorem confusable_of_joined {wire wire' : String} {member member' : Option String}
    (h : joined wire member = joined wire' member') :
    wire = wire' ∨ Confusable wire member wire' member' ∨ Confusable wire' member' wire member := by
  cases member with
  | none =>
    cases member' with
    | none => exact .inl h
    | some data' => exact .inr (.inr ⟨data',h,rfl⟩)
  | some data =>
    cases member' with
    | none => exact .inr (.inl ⟨data,h.symm,rfl⟩)
    | some data' =>
      have hlist := congrArg String.toList h
      simp only [joined,String.toList_append] at hlist
      have hcolon : ∀ x y : String, x.toList ++ ":".toList ++ y.toList = x.toList ++ ':' :: y.toList := by simp
      rw [hcolon,hcolon] at hlist
      rcases colon_split hlist with heq | ⟨rest,hwire,hdata⟩ | ⟨rest,hwire,hdata⟩
      · exact .inl (String.toList_injective heq)
      · refine .inr (.inl ⟨String.ofList rest,?_,?_⟩)
        · apply String.toList_injective
          simpa using hwire
        · congr 1
          apply String.toList_injective
          simpa [joined] using hdata
      · refine .inr (.inr ⟨String.ofList rest,?_,?_⟩)
        · apply String.toList_injective
          simpa using hwire
        · congr 1
          apply String.toList_injective
          simpa [joined] using hdata

/-! ## Socket ids -/

theorem colon_not_mem_digits {text : String} (h : isDigits text = true) : ':' ∉ text.toList := by
  intro hmem
  exact absurd (List.all_eq_true.1 h ':' hmem) (by decide)

theorem isDigits_repr (n : ℕ) : isDigits n.repr = true := by
  rw [isDigits,List.all_eq_true,Nat.toList_repr]
  intro c hc
  exact Text.isDigit_of_mem_toDigits hc

theorem colon_not_mem_dotted {x y : String} (hx : isDigits x = true) (hy : isDigits y = true) : ':' ∉ (x ++ "." ++ y).toList := by
  rw [String.toList_append,String.toList_append,List.mem_append,List.mem_append]
  rintro ((h | h) | h)
  · exact colon_not_mem_digits hx h
  · exact absurd h (by decide)
  · exact colon_not_mem_digits hy h

theorem colon_not_mem_valid {socketId : String} (h : validSocketId socketId = true) : ':' ∉ socketId.toList ∧ socketId ≠ "" := by
  rw [validSocketId] at h
  split at h
  · next x y hsplit =>
    obtain ⟨-,heq⟩ := Text.splitOnce_eq_some hsplit
    simp only [Bool.and_eq_true,decide_eq_true_eq] at h
    constructor
    · rw [heq]
      exact colon_not_mem_dotted h.1.2 h.2
    · rintro rfl
      have hlist := congrArg String.toList heq
      simp at hlist
  · cases h

/-! ## Rooms -/

/-- The ids of sockets are issued ones without a colon, granted ids have none and are no empty texts. -/
structure Inv (s : Run) : Prop where
  issued : ∀ socketId socket, (socketId,socket) ∈ s.server.issued → (socket,socketId) ∈ s.connected
  plain : ∀ socket socketId, (socket,socketId) ∈ s.connected → ':' ∉ socketId.toList
  valid : ∀ g ∈ s.grants, ':' ∉ g.socketId.toList ∧ g.socketId ≠ ""
  granted : ∀ wire socket, (Channel.fromWireName wire).needsAuthorisation = true → socket ∈ s.server.rooms wire →
    Granted s socket wire

theorem socketIdOf_cases (socket : ℕ) : s.server.socketIdOf socket = "" ∨ (s.server.socketIdOf socket,socket) ∈ s.server.issued := by
  rw [Server.socketIdOf]
  cases hfind : s.server.issued.find? fun entry => entry.2 = socket with
  | none => exact .inl rfl
  | some entry =>
    have hsocket : entry.2 = socket := by simpa using List.find?_some hfind
    refine .inr ?_
    rw [← hsocket]
    exact List.mem_of_find?_eq_some hfind

/-- What a protected room lets in on a presented MAC has been granted. -/
theorem Inv.accepts (h : Inv s) (hmac : Injective a.auth.mac) {socket : ℕ} {frame : Json} {wire presented : String}
    {member : Option String} (hunforged : a.Unforged s (.message socket (some frame)))
    (hcalm : a.Calm s (.message socket (some frame))) (hsubscribes : Subscribes frame wire presented member)
    (haccepted : presented = a.auth.sign (s.server.socketIdOf socket) (Channel.fromWireName wire) member) :
    Granted s socket wire := by
  rw [PusherAuth.sign,wireName_fromWireName] at haccepted
  obtain ⟨g,hg,hpresented⟩ := hunforged socket frame wire presented member rfl hsubscribes _ haccepted
  obtain ⟨hplain,hne⟩ := h.valid g hg
  have htext := signed_inj hmac (haccepted.symm.trans hpresented)
  rcases socketIdOf_cases (s := s) socket with hnone | hissued
  · rw [hnone] at htext
    obtain ⟨hid,-⟩ := message_inj (by simp) hplain htext
    exact absurd hid.symm hne
  · have hconnected := h.issued _ _ hissued
    obtain ⟨hid,hjoined⟩ := message_inj (h.plain _ _ hconnected) hplain htext
    rw [hid] at hconnected
    obtain ⟨hright,hleft⟩ := hcalm socket frame wire presented member rfl hsubscribes g hg hconnected hpresented
    rcases confusable_of_joined hjoined with heq | hconfusable | hconfusable
    · rw [heq]
      exact ⟨g.socketId,g.member,hconnected,hg⟩
    · exact absurd hconfusable hright
    · exact absurd hconfusable hleft

theorem mem_join {server : Server} {room wire : String} {socket socket' : ℕ} (h : socket' ∈ (server.join room socket).rooms wire) :
    (wire = room ∧ socket' = socket) ∨ socket' ∈ server.rooms wire := by
  rw [Server.join] at h
  by_cases hroom : wire = room
  · subst hroom
    dsimp only at h
    rw [update_self] at h
    split_ifs at h
    · exact .inr h
    · rcases List.mem_append.1 h with h | h
      · exact .inr h
      · exact .inl ⟨rfl,List.mem_singleton.1 h⟩
  · dsimp only at h
    rw [update_of_ne hroom] at h
    exact .inr h

/-- The rooms grow by nobody. -/
def Shrinks (server server' : Server) : Prop :=
  server'.issued = server.issued ∧ ∀ wire socket, socket ∈ server'.rooms wire → socket ∈ server.rooms wire

theorem shrinks_filter (server : Server) (room : String) (p : ℕ → Bool) :
    Shrinks server { server with rooms := update server.rooms room ((server.rooms room).filter p) } := by
  refine ⟨rfl,fun wire socket h => ?_⟩
  by_cases hroom : wire = room
  · subst hroom
    dsimp only at h
    rw [update_self] at h
    exact (List.mem_filter.1 h).1
  · dsimp only at h
    rw [update_of_ne hroom] at h
    exact h

theorem shrinks_deliverPublished (p : PusherServer) (server : Server) (gone : ℕ → Bool) (channel : String) (body : Option Json) :
    Shrinks server (server.deliverPublished p gone channel body).1 := by
  have hrefl : Shrinks server server := ⟨rfl,fun _ _ h => h⟩
  simp only [Server.deliverPublished]
  split_ifs
  · exact hrefl
  · cases body with
    | none => exact hrefl
    | some published =>
      cases hevent : stringField published "event" with
      | none =>
        simp only [hevent]
        exact hrefl
      | some event =>
        simp only [hevent]
        exact shrinks_filter server _ _

/-- What a subscription needs to be let into a room. -/
def LetIn (p : PusherServer) (server : Server) (socket : ℕ) (data : Option Json) (wire : String) : Prop :=
  channelOf data = some wire ∧ ((Channel.fromWireName wire).needsAuthorisation = true →
    Server.authorised p (server.socketIdOf socket) (Channel.fromWireName wire) (data.bind (stringField · "auth"))
      (data.bind (stringField · "channel_data")) = true)

theorem mem_subscribe {p : PusherServer} {server : Server} {socket socket' : ℕ} {data : Option Json} {wire : String}
    (h : socket' ∈ (server.subscribe p socket data).1.rooms wire) :
    socket' ∈ server.rooms wire ∨ (socket' = socket ∧ LetIn p server socket data wire) := by
  cases hchannel : channelOf data with
  | none =>
    simp only [Server.subscribe,hchannel] at h
    exact .inl h
  | some name =>
    simp only [Server.subscribe,hchannel] at h
    split_ifs at h with hrefused
    · exact .inl h
    · rcases mem_join h with ⟨rfl,hsocket⟩ | hold
      · refine .inr ⟨hsocket,hchannel,fun hneeds => ?_⟩
        simpa [hneeds] using hrefused
      · exact .inl hold

/-- A frame lets its own socket into a room, and nobody else. -/
theorem mem_onMessage {p : PusherServer} {server : Server} {socket socket' : ℕ} {frame : Option Json} {wire : String}
    (h : socket' ∈ (server.onMessage p socket frame).1.rooms wire) :
    socket' ∈ server.rooms wire ∨ (socket' = socket ∧ ∃ json, frame = some json ∧
      stringField json "event" = some "pusher:subscribe" ∧ LetIn p server socket (valueField json "data") wire) := by
  cases frame with
  | none => exact .inl h
  | some json =>
    simp only [Server.onMessage,Server.handle] at h
    split_ifs at h with hping hsubscribe hunsubscribe hclient
    · exact .inl h
    · rcases mem_subscribe h with hold | ⟨hsocket,hletIn⟩
      · exact .inl hold
      · refine .inr ⟨hsocket,json,rfl,?_,hletIn⟩
        cases hevent : stringField json "event" with
        | none =>
          rw [hevent] at hsubscribe
          exact absurd hsubscribe (by decide)
        | some event =>
          rw [hevent] at hsubscribe
          exact congrArg some hsubscribe
    · cases hchannel : channelOf (valueField json "data") with
      | none =>
        rw [hchannel] at h
        exact .inl h
      | some channel =>
        rw [hchannel] at h
        exact .inl ((shrinks_filter server channel _).2 wire socket' h)
    · exact .inl h
    · exact .inl h

theorem issued_onMessage (p : PusherServer) (server : Server) (socket : ℕ) (frame : Option Json) :
    (server.onMessage p socket frame).1.issued = server.issued := by
  cases frame with
  | none => rfl
  | some json =>
    simp only [Server.onMessage,Server.handle]
    split_ifs
    · rfl
    · cases hchannel : channelOf (valueField json "data") with
      | none => simp only [Server.subscribe,hchannel]
      | some name =>
        simp only [Server.subscribe,hchannel]
        split_ifs
        · rfl
        · rfl
    · cases channelOf (valueField json "data") with
      | none => rfl
      | some channel => rfl
    · rfl
    · rfl

/-! ## One step -/

/-- A step that lets nobody in and forgets no grant. -/
theorem Inv.shrunk {s' : Run} (h : Inv s) (hissued : ∀ entry ∈ s'.server.issued, entry ∈ s.server.issued)
    (hrooms : ∀ wire socket, socket ∈ s'.server.rooms wire → socket ∈ s.server.rooms wire)
    (hconnected : s'.connected = s.connected) (hgrants : s'.grants = s.grants) : Inv s' := by
  constructor
  · intro socketId socket hmem
    rw [hconnected]
    exact h.issued socketId socket (hissued _ hmem)
  · rw [hconnected]
    exact h.plain
  · rw [hgrants]
    exact h.valid
  · intro wire socket hneeds hmem
    rw [Granted,hconnected,hgrants]
    exact h.granted wire socket hneeds (hrooms wire socket hmem)

theorem Inv.connect (h : Inv s) (socket : ℕ) : Inv (a.step s (.connect socket)) := by
  constructor
  · intro socketId socket' hmem
    rcases List.mem_cons.1 hmem with heq | hold
    · cases heq
      exact List.mem_cons_self
    · exact List.mem_cons_of_mem _ (h.issued socketId socket' (List.mem_filter.1 hold).1)
  · intro socket' socketId hmem
    rcases List.mem_cons.1 hmem with heq | hold
    · cases heq
      exact colon_not_mem_dotted (isDigits_repr _) (isDigits_repr _)
    · exact h.plain socket' socketId hold
  · exact h.valid
  · intro wire socket' hneeds hmem
    obtain ⟨socketId,member,hconnected,hgrant⟩ := h.granted wire socket' hneeds hmem
    exact ⟨socketId,member,List.mem_cons_of_mem _ hconnected,hgrant⟩

theorem valid_of_answer {user : U} {socketId channelName : String} {body : Json}
    (h : a.answer user socketId channelName = .ok (some body)) : validSocketId socketId = true := by
  rw [App.answer] at h
  obtain ⟨access,-,hrest⟩ := bind_eq_ok.1 h
  split_ifs at hrest
  · obtain ⟨answered,hanswered,-⟩ := bind_eq_ok.1 hrest
    cases hvalid : validSocketId socketId with
    | true => rfl
    | false => simp [PusherAuth.authResponse,hvalid] at hanswered
  · cases hrest

theorem valid_of_granted {user : U} {socketId channelName : String} {g : Grant} (h : a.granted user socketId channelName = some g) :
    ':' ∉ g.socketId.toList ∧ g.socketId ≠ "" := by
  rw [App.granted] at h
  split at h
  · next body hanswer =>
    cases h
    exact colon_not_mem_valid (valid_of_answer hanswer)
  · cases h

theorem Inv.authorise (h : Inv s) (user : U) (socketId channelName : String) :
    Inv (a.step s (.authorise user socketId channelName)) := by
  constructor
  · exact h.issued
  · exact h.plain
  · intro g hg
    rcases List.mem_append.1 hg with hnew | hold
    · exact valid_of_granted (Option.mem_toList.1 hnew)
    · exact h.valid g hold
  · intro wire socket hneeds hmem
    obtain ⟨socketId,member,hconnected,hgrant⟩ := h.granted wire socket hneeds hmem
    exact ⟨socketId,member,hconnected,List.mem_append_right _ hgrant⟩

theorem Inv.message (h : Inv s) (hmac : Injective a.auth.mac) {socket : ℕ} {frame : Option Json}
    (hunforged : a.Unforged s (.message socket frame)) (hcalm : a.Calm s (.message socket frame)) :
    Inv (a.step s (.message socket frame)) := by
  constructor
  · intro socketId socket' hmem
    apply h.issued
    rw [← issued_onMessage a.pusherServer s.server socket frame]
    exact hmem
  · exact h.plain
  · exact h.valid
  · intro wire socket' hneeds hmem
    rcases mem_onMessage hmem with hold | ⟨rfl,json,rfl,hevent,hchannel,hauthorised⟩
    · exact h.granted wire socket' hneeds hold
    · have haccepted := hauthorised hneeds
      rw [Server.authorised] at haccepted
      cases hpresented : (valueField json "data").bind (stringField · "auth") with
      | none => simp [hpresented,pusherServer] at haccepted
      | some presented =>
        simp only [hpresented,pusherServer,decide_eq_true_eq] at haccepted
        exact h.accepts hmac hunforged hcalm ⟨hevent,hchannel,hpresented,rfl⟩ haccepted

theorem Inv.close (h : Inv s) (socket : ℕ) : Inv (a.step s (.close socket)) := by
  apply h.shrunk
  · intro entry hentry
    exact (List.mem_filter.1 hentry).1
  · intro wire socket' hmem
    exact (List.mem_filter.1 hmem).1
  · rfl
  · rfl

theorem Inv.publish (h : Inv s) (gone : ℕ → Bool) (channel : String) (body : Option Json) :
    Inv (a.step s (.publish gone channel body)) := by
  obtain ⟨hissued,hrooms⟩ := shrinks_deliverPublished a.pusherServer s.server gone channel body
  apply h.shrunk
  · intro entry hentry
    rw [← hissued]
    exact hentry
  · exact hrooms
  · rfl
  · rfl

theorem Inv.step (h : Inv s) (hmac : Injective a.auth.mac) {l : Label U} (hunforged : a.Unforged s l) (hcalm : a.Calm s l) :
    Inv (a.step s l) := by
  cases l with
  | connect socket => exact h.connect socket
  | authorise user socketId channelName => exact h.authorise user socketId channelName
  | message socket frame => exact h.message hmac hunforged hcalm
  | close socket => exact h.close socket
  | publish gone channel body => exact h.publish gone channel body

theorem inv_start : Inv start := by
  constructor
  · intro socketId socket hmem
    cases hmem
  · intro socket socketId hmem
    cases hmem
  · intro g hg
    cases hg
  · intro wire socket hneeds hmem
    cases hmem

/-! ## Whole runs -/

theorem mem_deliverPublished {p : PusherServer} {server : Server} {gone : ℕ → Bool} {channel : String} {body : Option Json}
    {socket : ℕ} (h : socket ∈ (server.deliverPublished p gone channel body).2.1) :
    socket ∈ server.rooms ((Text.stripPrefix p.namePrefix channel).getD channel) := by
  simp only [Server.deliverPublished] at h
  split_ifs at h
  · cases h
  · cases body with
    | none => cases h
    | some published =>
      cases hevent : stringField published "event" with
      | none =>
        simp only [hevent] at h
        cases h
      | some event =>
        simp only [hevent] at h
        exact (List.mem_filter.1 h).1

/-- What is published under the server's prefix is for the room of the channel. -/
theorem delivered_in_room (s : Run) (gone : ℕ → Bool) (channel : Channel) (body : Option Json) {socket : ℕ}
    (h : socket ∈ (s.server.deliverPublished a.pusherServer gone (prefixed a.namePrefix channel) body).2.1) :
    socket ∈ s.server.rooms channel.wireName := by
  have hname : Text.stripPrefix a.namePrefix (prefixed a.namePrefix channel) = some channel.wireName :=
    Text.stripPrefix_eq_some.2 rfl
  have hmem := mem_deliverPublished h
  rw [pusherServer,hname] at hmem
  exact hmem

/-- While no MAC is presented for another channel than its own, sockets hear what was granted to them. -/
theorem hears_only_granted (hmac : Injective a.auth.mac) {steps : List (Label U)} (hunforged : Along a.step a.Unforged start steps)
    (hcalm : Along a.step a.Calm start steps) : Always a.step a.Heard start steps := by
  have hinv : Always a.step Inv start steps := by
    apply always_of_along (fun s l h hok => ?_) inv_start (hunforged.and hcalm)
    exact h.step hmac hok.1 hok.2
  apply hinv.mono
  intro s h
  exact ⟨h.granted,fun gone channel body socket hmem => delivered_in_room s gone channel body hmem⟩

/-! ## Runs on fixed frames -/

/-- A browser's frame. -/
def subscribing (wire presented : String) (member : Option String) : Json :=
  .object [("event",.string "pusher:subscribe"),("data",.object ([("channel",.string wire),("auth",.string presented)] ++
    (member.map fun data => ("channel_data",Json.string data)).toList))]

theorem subscribes_subscribing {wire presented wire' presented' : String} {member member' : Option String}
    (h : Subscribes (subscribing wire presented member) wire' presented' member') : presented' = presented ∧ member' = member := by
  obtain ⟨-,-,hpresented,hmember⟩ := h
  cases member with
  | none => exact ⟨(Option.some.inj hpresented).symm,hmember.symm⟩
  | some data => exact ⟨(Option.some.inj hpresented).symm,hmember.symm⟩

/-- Everybody may hear the rooms but the first one. -/
def rooms : App Unit where
  registry := ⟨[⟨"room.\x7broom\x7d",fun _ params => .ok (if params.lookup "room" = some "1" then .denied else .allowed)⟩]⟩
  auth := ⟨"key",id⟩
  float := fun _ => ""
  processNumber := 7
  namePrefix := "app."

/-- A browser that asks for a channel and subscribes with the answer. -/
def asking (channelName wire : String) (member : Option String) : List (Label Unit) :=
  [.connect 0,.authorise () "7.1" channelName,
    .message 0 (some (subscribing wire (rooms.auth.signed (PusherAuth.message "7.1" channelName none)) member))]

theorem unforged_asking {channelName wire : String} {member : Option String}
    (hgranted : rooms.granted () "7.1" channelName = some ⟨"7.1",channelName,none⟩) :
    Along rooms.step rooms.Unforged start (asking channelName wire member) := by
  refine ⟨?_,?_,?_,trivial⟩
  · intro socket frame wire presented member hlabel
    cases hlabel
  · intro socket frame wire presented member hlabel
    cases hlabel
  · intro socket frame wire' presented member' hlabel hsubscribes text hpresented
    cases hlabel
    refine ⟨⟨"7.1",channelName,none⟩,?_,(subscribes_subscribing hsubscribes).1⟩
    simp [App.step,hgranted]

theorem calm_asking {channelName wire : String} (hgranted : rooms.granted () "7.1" channelName = some ⟨"7.1",channelName,none⟩) :
    Along rooms.step rooms.Calm start (asking channelName wire none) := by
  refine ⟨?_,?_,?_,trivial⟩
  · intro socket frame wire presented member hlabel
    cases hlabel
  · intro socket frame wire presented member hlabel
    cases hlabel
  · intro socket frame wire' presented member hlabel hsubscribes g hg hconnected hpresented
    cases hlabel
    obtain rfl := (subscribes_subscribing hsubscribes).2
    have hmember : g.member = none := by
      simp only [App.step,hgranted] at hg
      obtain rfl := List.mem_singleton.1 hg
      rfl
    constructor
    · rintro ⟨rest,-,hdata⟩
      cases hdata
    · rintro ⟨rest,-,hdata⟩
      rw [hmember] at hdata
      cases hdata

theorem hears_the_second_room :
    Always rooms.step rooms.Heard start (asking "private-room.2" "private-room.2" none) ∧
      0 ∈ (run rooms.step start (asking "private-room.2" "private-room.2" none)).server.rooms "private-room.2" := by
  have hgranted : rooms.granted () "7.1" "private-room.2" = some ⟨"7.1","private-room.2",none⟩ := by decide
  exact ⟨hears_only_granted (fun _ _ h => h) (unforged_asking hgranted) (calm_asking hgranted),by decide⟩

theorem hears_a_denied_room :
    ¬ (∀ (a : App Unit) (steps : List (Label Unit)), Injective a.auth.mac → Along a.step a.Unforged start steps →
      Always a.step a.Heard start steps) := by
  intro h
  have hgranted : rooms.granted () "7.1" "private-room.1:x" = some ⟨"7.1","private-room.1:x",none⟩ := by decide
  have hheard := (h rooms (asking "private-room.1:x" "private-room.1" (some "x")) (fun _ _ h => h) (unforged_asking hgranted)).last
  obtain ⟨socketId,member,-,hgrant⟩ := hheard.granted "private-room.1" 0 (by decide) (by decide)
  have hgrants : (run rooms.step start (asking "private-room.1:x" "private-room.1" (some "x"))).grants = [⟨"7.1","private-room.1:x",none⟩] := by
    decide
  rw [hgrants] at hgrant
  simp at hgrant

end App

end Rainier.Broadcast
