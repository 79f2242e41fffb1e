/-
LiteKV.Net.Server — sessions and subscriptions, `src/net/server.cpp` and the
pub/sub handlers of `src/net/commands.cpp`.

A subscription is kept in three places: the set `subscribed_channels` and
the mode bit of the session, and the list `subscription_sessions_[channel]`
of the server. The list holds shared pointers, so it can keep a session
alive that `sessions_` has dropped. Of the session such a pointer leads to
only `name` and `fd` are ever read, which do not change; `SessionPtr` says
which session it is.

The model has the events that touch these tables: a connection is accepted,
a session subscribes or unsubscribes, `ReadProc` sees the end of a
connection, and `WriteProc` closes one. A session acts only while it is in
`sessions_`: an event of any other name changes nothing. The socket calls
are outside, and so are the buffers of a session.
-/
import LiteKV.Net.Commands

namespace LiteKV

open Lib.AssocList

/-- `Ipv4Addr`. -/
structure Ipv4Addr where
  a : UInt8
  b : UInt8
  c : UInt8
  d : UInt8
  port : UInt16
  deriving DecidableEq

/-- `ToString()`. -/
def Ipv4Addr.toBytes (addr : Ipv4Addr) : Bytes :=
  natToString addr.a.toNat ++ ascii "." ++ natToString addr.b.toNat ++ ascii "." ++
    natToString addr.c.toNat ++ ascii "." ++ natToString addr.d.toNat ++ ascii ":" ++
    natToString addr.port.toNat

/-- A session: where it comes from, and how many were accepted before it. -/
structure SessionPtr where
  addr : Ipv4Addr
  id : Nat
  deriving DecidableEq

/-- Its name, `"*%s#%d"`. The counter is an `int`. -/
def SessionPtr.name (p : SessionPtr) : Bytes :=
  ascii "*" ++ p.addr.toBytes ++ ascii "#" ++ intToString (DList.toInt32 p.id)

/-- What a `Session` keeps about its subscriptions. -/
structure Session where
  ptr : SessionPtr
  /-- `modes & SESSION_MODE_PUBSUB` -/
  pubSub : Bool
  subscribedChannels : List Bytes
  deriving DecidableEq

namespace Session

/-- `subscribed_channels.insert(chan)` and `SetPubSubMode()`. -/
def addChannel (chan : Bytes) (sess : Session) : Session :=
  { sess with pubSub := true, subscribedChannels := sess.subscribedChannels.insert chan }

/-- `subscribed_channels.erase(chan)` and `UnsetPubSubMode()`. -/
def dropChannel (chan : Bytes) (sess : Session) : Session :=
  { sess with
    pubSub := false
    subscribedChannels := sess.subscribedChannels.filter fun c => c ≠ chan }

end Session

/-- `Server`. -/
structure Server where
  sessions : List (Bytes × Session)
  subscriptionSessions : List (Bytes × List SessionPtr)
  nextSessionId : Nat

/-! ## Replies -/

/-- `PackPublishMessage`. -/
def packPublishMessage (chan message : Bytes) : Bytes :=
  ascii "*3\r\n$7\r\nmessage\r\n" ++ packStringValueReply chan ++ packStringValueReply message

/-- `PackSubscriptionResArrayIntoStream`; no channel is written as `$-1`. -/
def packSubscriptionRes (cmdName : Bytes) (chan : Option Bytes) (num : Nat) : Bytes :=
  ascii "*3\r\n" ++ packStringValueReply cmdName ++
    (match chan with
    | some chan => packStringValueReply chan
    | none => ascii "$-1" ++ crlf) ++
    ascii ":" ++ natToString num ++ crlf

namespace Server

/-- A server before the first connection. -/
def new : Server := ⟨[], [], 1⟩

/-- `GetSubscriptionSessions`. -/
def getSubscriptionSessions (sv : Server) (chan : Bytes) : List SessionPtr :=
  (find? chan sv.subscriptionSessions).getD []

/-- `HasSubscriptionChannel`. -/
def hasSubscriptionChannel (sv : Server) (chan : Bytes) : Bool :=
  (find? chan sv.subscriptionSessions).isSome

/-- `AddSessionToSubscription`. -/
def addSessionToSubscription (sv : Server) (chan name : Bytes) : Server × Bool :=
  match find? name sv.sessions with
  | none => (sv, false)
  | some sess =>
      ({ sv with
          subscriptionSessions :=
            put chan (sv.getSubscriptionSessions chan ++ [sess.ptr]) sv.subscriptionSessions },
        true)

/-- `RemoveSessionFromSubscription`. -/
def removeSessionFromSubscription (sv : Server) (chan name : Bytes) : Server :=
  { sv with
    subscriptionSessions :=
      put chan ((sv.getSubscriptionSessions chan).filter fun p => p.name ≠ name)
        sv.subscriptionSessions }

/-- A change of the session of a name. -/
def modifySession (sv : Server) (name : Bytes) (f : Session → Session) : Server :=
  match find? name sv.sessions with
  | none => sv
  | some sess => { sv with sessions := reset name (f sess) sv.sessions }

/-! ## Connections -/

/-- `AcceptProc`, for a connection that the epoller takes or not. -/
def acceptProc (sv : Server) (addr : Ipv4Addr) (attached : Bool) : Server :=
  let ptr : SessionPtr := ⟨addr, sv.nextSessionId⟩
  let sv := { sv with nextSessionId := sv.nextSessionId + 1 }
  if attached then { sv with sessions := put ptr.name ⟨ptr, false, []⟩ sv.sessions } else sv

/-- `ReadProc` at the end of a connection. -/
def readClose (sv : Server) (name : Bytes) : Server :=
  match find? name sv.sessions with
  | none => sv
  | some sess =>
      let sv := sess.subscribedChannels.foldl (·.removeSessionFromSubscription · name) sv
      { sv with sessions := erase name sv.sessions }

/-- `WriteProc`, when nothing could be written. -/
def writeClose (sv : Server) (name : Bytes) : Server :=
  { sv with sessions := erase name sv.sessions }

/-! ## Commands -/

/-- `sess->subscribed_channels.size()`. -/
def channelCount (sv : Server) (name : Bytes) : Nat :=
  match find? name sv.sessions with
  | none => 0
  | some sess => sess.subscribedChannels.length

/-- A loop over channels that replies behind each of them. -/
def eachChannel (cmdName name : Bytes) (f : Server → Bytes → Server) :
    List Bytes → Server → Server × Bytes
  | [], sv => (sv, [])
  | chan :: chans, sv =>
      let sv := f sv chan
      let rest := eachChannel cmdName name f chans sv
      (rest.1, packSubscriptionRes cmdName (some chan) (sv.channelCount name) ++ rest.2)

/-- One channel of `PubSubSubscribeCommand`. -/
def subscribeTo (name : Bytes) (sv : Server) (chan : Bytes) : Server :=
  ((sv.modifySession name (Session.addChannel chan)).addSessionToSubscription chan name).1

/-- One channel of `PubSubUnsubscribeCommand`. -/
def unsubscribeFrom (name : Bytes) (sv : Server) (chan : Bytes) : Server :=
  (sv.modifySession name (Session.dropChannel chan)).removeSessionFromSubscription chan name

/-- `PubSubSubscribeCommand`. -/
def pubSubSubscribeCommand (sv : Server) (name : Bytes) (argv : List Bytes) : Server × Bytes :=
  if checkSyntax argv (-1) (-1) false then
    eachChannel (ascii "subscribe") name (subscribeTo name) (argv.drop 1) sv
  else (sv, syntaxErrMsg "subscribe")

/-- The channels that `unsubscribe` is about. Without arguments these are all
channels of the session, in the order in which the set is gone through. -/
def channelsOf (sv : Server) (name : Bytes) (argv order : List Bytes) : List Bytes :=
  if argv.length ≥ 2 then argv.drop 1
  else
    match find? name sv.sessions with
    | none => []
    | some sess => if order.isPerm sess.subscribedChannels then order else sess.subscribedChannels

/-- `PubSubUnsubscribeCommand`. -/
def pubSubUnsubscribeCommand (sv : Server) (name : Bytes) (argv order : List Bytes) :
    Server × Bytes :=
  if checkSyntax argv (-2) (-1) false then
    let channels := sv.channelsOf name argv order
    if channels.isEmpty then (sv, packSubscriptionRes (ascii "unsubscribe") none 0)
    else eachChannel (ascii "unsubscribe") name (unsubscribeFrom name) channels sv
  else (sv, syntaxErrMsg "unsubscribe")

/-- `PubSubPublishCommand`: what is written to which session, and the reply.
`wrote` says whether all bytes could be written to it. -/
def pubSubPublishCommand (sv : Server) (wrote : SessionPtr → Bool) (argv : List Bytes) :
    List (SessionPtr × Bytes) × Bytes :=
  if checkSyntax argv 1 1 false then
    let channel := arg argv 1
    if sv.hasSubscriptionChannel channel then
      let receivers := sv.getSubscriptionSessions channel
      (receivers.map fun p => (p, packPublishMessage channel (arg argv 2)),
        packIntReply (receivers.countP wrote))
    else ([], kInt0Msg)
  else ([], syntaxErrMsg "publish")

/-! ## Runs -/

/-- What happens to the tables. A session is given by its name. -/
inductive Event where
  | accept (addr : Ipv4Addr) (attached : Bool)
  | subscribe (name : Bytes) (argv : List Bytes)
  | unsubscribe (name : Bytes) (argv order : List Bytes)
  | readClose (name : Bytes)
  | writeClose (name : Bytes)

/-- One event. -/
def step (sv : Server) : Event → Server
  | .accept addr attached => sv.acceptProc addr attached
  | .subscribe name argv =>
      if (find? name sv.sessions).isSome then (sv.pubSubSubscribeCommand name argv).1 else sv
  | .unsubscribe name argv order =>
      if (find? name sv.sessions).isSome then (sv.pubSubUnsubscribeCommand name argv order).1
      else sv
  | .readClose name => sv.readClose name
  | .writeClose name => sv.writeClose name

/-- A run of events. -/
def run (sv : Server) (events : List Event) : Server := events.foldl step sv

end Server

end LiteKV
