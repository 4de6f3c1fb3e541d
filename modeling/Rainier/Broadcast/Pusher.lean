import Mathlib.Logic.Function.Basic
import Rainier.Support.Bytes
import Rainier.Support.Error
import Rainier.Support.JsonPath
import Rainier.Support.Split

/-! # Channels of the Pusher protocol

A browser that wants to hear a private channel asks the application, which answers with a MAC of the
socket and the channel. The server has the same secret and lets the socket in on that answer.
-/
namespace Rainier.Broadcast
open Function Json

/-! ## Channels -/

inductive Channel where
  | public_ (name : String)
  | private_ (name : String)
  | presence (name : String)
  deriving DecidableEq, Repr

namespace Channel

/-- The bare name, which patterns are matched against. -/
def name : Channel → String
  | .public_ name => name
  | .private_ name => name
  | .presence name => name

def wireName : Channel → String
  | .public_ name => name
  | .private_ name => "private-" ++ name
  | .presence name => "presence-" ++ name

def needsAuthorisation : Channel → Bool
  | .public_ _ => false
  | .private_ _ => true
  | .presence _ => true

def fromWireName (wire : String) : Channel :=
  match Text.stripPrefix "private-" wire with
  | some name => .private_ name
  | none =>
    match Text.stripPrefix "presence-" wire with
    | some name => .presence name
    | none => .public_ wire

end Channel

/-! ## The application's side -/

inductive ChannelAccess where
  | denied
  | allowed
  | allowedAs (member : Json)
  deriving DecidableEq, Repr

namespace ChannelAccess

def isAllowed : ChannelAccess → Bool
  | .denied => false
  | _ => true

/-- What the other members of a presence channel are shown. -/
def member : ChannelAccess → Option Json
  | .allowedAs member => some member
  | _ => none

end ChannelAccess

abbrev ChannelParams := List (String × String)

inductive Segment where
  | literal (text : String)
  | capture (name : String)
  deriving DecidableEq, Repr

def parseSegment (segment : String) : Segment :=
  match Text.stripPrefix "\x7b" segment with
  | none => .literal segment
  | some rest => if rest.toList.getLast? = some '\x7d' then .capture (String.ofList rest.toList.dropLast) else .literal segment

def parsePattern (pattern : String) : List Segment := (Text.split '.' pattern).map parseSegment

/-- The pieces of a name against the segments of a pattern, one by one. -/
def matchParts : List Segment → List String → Option ChannelParams
  | [],[] => some []
  | .literal text :: segments,part :: parts => if text = part then matchParts segments parts else none
  | .capture name :: segments,part :: parts =>
    if part = "" then none else (matchParts segments parts).map ((name,part) :: ·)
  | _,_ => none

def matchSegments (segments : List Segment) (name : String) : Option ChannelParams :=
  matchParts segments (Text.split '.' name)

structure ChannelRoute (U : Type) where
  pattern : String
  authorizer : U → ChannelParams → Except Error ChannelAccess

structure ChannelRegistry (U : Type) where
  routes : List (ChannelRoute U)

namespace ChannelRegistry

variable {U : Type}

/-- The first route that matches. -/
def matching (registry : ChannelRegistry U) (name : String) : Option (ChannelRoute U × ChannelParams) :=
  registry.routes.findSome? fun route => (matchSegments (parsePattern route.pattern) name).map fun params => (route,params)

def authorize (registry : ChannelRegistry U) (user : U) (channel : Channel) : Except Error ChannelAccess :=
  if !channel.needsAuthorisation then .ok .allowed
  else
    match registry.matching channel.name with
    | none => .ok .denied
    | some (route,params) => route.authorizer user params

end ChannelRegistry

/-- The app key, and the HMAC under the secret. -/
structure PusherAuth where
  key : String
  mac : List UInt8 → List UInt8

/-- A channel and, where there is one, what the subscriber is shown as. -/
def joined (wire : String) : Option String → String
  | some member => wire ++ ":" ++ member
  | none => wire

namespace PusherAuth

def message (socketId wire : String) (member : Option String) : String := socketId ++ ":" ++ joined wire member

def signed (auth : PusherAuth) (text : String) : String := auth.key ++ ":" ++ Bytes.hex (auth.mac (Text.asBytes text))

def sign (auth : PusherAuth) (socketId : String) (channel : Channel) (member : Option String) : String :=
  auth.signed (message socketId channel.wireName member)

end PusherAuth

def isDigits (text : String) : Bool := text.toList.all Text.isDigit

/-- A socket id is `<digits>.<digits>`. -/
def validSocketId (socketId : String) : Bool :=
  match Text.splitOnce '.' socketId with
  | some (a,b) => a ≠ "" && b ≠ "" && isDigits a && isDigits b
  | none => false

/-- The body of the endpoint's answer, with the member written once. -/
def PusherAuth.authResponse (float : BitVec 64 → String) (auth : PusherAuth) (socketId : String) (channel : Channel)
    (member : Option Json) : Except Error Json :=
  if !validSocketId socketId then .error (.badRequest "that is not a socket id.")
  else
    match member with
    | some member =>
      let encoded := Json.write float member
      .ok (.object [("auth",.string (auth.sign socketId channel (some encoded))),("channel_data",.string encoded)])
    | none => .ok (.object [("auth",.string (auth.sign socketId channel none))])

/-! ## The server's side -/

/-- `rooms` has the sockets of each room, `issued` the socket that each id was given to. -/
structure Server where
  rooms : String → List ℕ
  issued : List (String × ℕ)
  sequence : ℕ

/-- The instance is the number of the process. -/
structure PusherServer where
  auth : Option PusherAuth
  processNumber : ℕ
  namePrefix : String

/-- A frame that is sent to a socket. -/
structure Frame where
  event : String
  channel : Option String
  data : Json
  deriving DecidableEq, Repr

/-- The channel that a client's frame names. -/
def channelOf (data : Option Json) : Option String := do
  let name := Text.trim (← stringField (← data) "channel")
  if name = "" then none else some name

def refusal (code : ℕ) (message : String) : Frame :=
  ⟨"pusher:error",none,.object [("code",.number (.posInt code)),("message",.string message)]⟩

namespace Server

variable (p : PusherServer) (s : Server)

def join (room : String) (socket : ℕ) : Server :=
  { s with rooms := update s.rooms room (if socket ∈ s.rooms room then s.rooms room else s.rooms room ++ [socket]) }

def leave (room : String) (socket : ℕ) : Server := { s with rooms := update s.rooms room ((s.rooms room).filter (· ≠ socket)) }

def leaveAll (socket : ℕ) : Server := { s with rooms := fun room => (s.rooms room).filter (· ≠ socket) }

/-- The id that was issued to a socket, and no id for one that has none. -/
def socketIdOf (socket : ℕ) : String := ((s.issued.find? fun entry => entry.2 = socket).map (·.1)).getD ""

def nextSocketId : String := p.processNumber.repr ++ "." ++ s.sequence.repr

/-- `on_connect`. The counter is 64 bits wide. -/
def connect (socket : ℕ) : Server :=
  { s with
    issued := (s.nextSocketId p,socket) :: s.issued.filter fun entry => entry.1 ≠ s.nextSocketId p
    sequence := (s.sequence + 1) % 2 ^ 64 }

/-- `on_close`. -/
def close (socket : ℕ) : Server := { s.leaveAll socket with issued := s.issued.filter fun entry => entry.2 ≠ socket }

def authorised (socketId : String) (channel : Channel) (presented member : Option String) : Bool :=
  match p.auth with
  | none => true
  | some auth =>
    match presented with
    | none => false
    | some presented => presented = auth.sign socketId channel member

def subscribe (socket : ℕ) (data : Option Json) : Server × List Frame :=
  match channelOf data with
  | none => (s,[refusal 4009 "no channel named"])
  | some name =>
    let channel := Channel.fromWireName name
    let presented := data.bind (stringField · "auth")
    let member := data.bind (stringField · "channel_data")
    if channel.needsAuthorisation && !authorised p (s.socketIdOf socket) channel presented member then
      (s,[refusal 4009 "subscription is not authorised"])
    else (s.join name socket,[⟨"pusher_internal:subscription_succeeded",some name,.object []⟩])

/-- A frame of a client, decoded. -/
def handle (socket : ℕ) (frame : Json) : Server × List Frame :=
  let event := (stringField frame "event").getD ""
  if event = "pusher:ping" then (s,[⟨"pusher:pong",none,.object []⟩])
  else if event = "pusher:subscribe" then s.subscribe p socket (valueField frame "data")
  else if event = "pusher:unsubscribe" then
    match channelOf (valueField frame "data") with
    | some channel => (s.leave channel socket,[])
    | none => (s,[])
  else if "client-".toList <+: event.toList then (s,[refusal 4301 "client events are not enabled for this app"])
  else (s,[])

/-- A text of a client, which may be no frame. -/
def onMessage (socket : ℕ) : Option Json → Server × List Frame
  | some frame => s.handle p socket frame
  | none => (s,[refusal 4200 "that is not a protocol frame"])

/-- The sockets of a room that a published event is sent to. A socket that is gone is dropped from the room. -/
def deliver (gone : ℕ → Bool) (room : String) (except : Option ℕ) : Server × List ℕ :=
  ({ s with rooms := update s.rooms room ((s.rooms room).filter fun socket => some socket = except || !gone socket) },
    (s.rooms room).filter fun socket => some socket ≠ except && !gone socket)

/-- What is published is read from its text, which may be unreadable. -/
def deliverPublished (gone : ℕ → Bool) (channel : String) (body : Option Json) : Server × List ℕ × Option Frame :=
  let name := (Text.stripPrefix p.namePrefix channel).getD channel
  if (s.rooms name).length = 0 then (s,[],none)
  else
    match body with
    | none => (s,[],none)
    | some published =>
      match stringField published "event" with
      | none => (s,[],none)
      | some event =>
        let data := (valueField published "data").getD .null
        let except := (stringField published "socket").bind fun name => s.issued.lookup name
        let sent := s.deliver gone name except
        (sent.1,sent.2,some ⟨event,some name,data⟩)

end Server

/-- The name that `RedisBroadcaster` publishes under. -/
def prefixed (namePrefix : String) (channel : Channel) : String := namePrefix ++ channel.wireName

end Rainier.Broadcast
