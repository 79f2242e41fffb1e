/-
LiteKV.Net.PubSub — what the pub/sub commands are for, said of the effects of a
run alone.

How often a session has subscribed to each channel can be read off the effects
so far; the tables of the server do not occur here. `Broadcasts` is the purpose
of the service: messages are written to sessions by PUBLISH and by nothing
else, each by one command, to the sessions that have subscribed to its channel
when the command is handled. A session gets a message as often as it has
subscribed to the channel, for `subscribe` pushes it into the list of a channel
it already has. A session that is closed has no subscriptions any more.
-/
import LiteKV.Net.EventLoopTheorems
import LiteKV.Net.CommandsTheorems

namespace LiteKV

open Lib.Run

/-! ## Subscriptions -/

/-- How often a session has subscribed to a channel when it has sent a command,
from how often before. -/
def subscribing (argv : List Bytes) (subs : Bytes → Nat) (chan : Bytes) : Nat :=
  if opcodeOf argv = some .subscribe then subs chan + (argv.drop 1).count chan
  else if opcodeOf argv = some .unsubscribe then
    if argv.drop 1 = [] ∨ chan ∈ argv.drop 1 then 0 else subs chan
  else subs chan

namespace Effect

/-- The subscriptions of a session behind an effect. -/
def subscriptions (q : SessionPtr) (subs : Bytes → Nat) : Effect → Bytes → Nat
  | .command p _ argv _ => if p = q then subscribing argv subs else subs
  | .closed p => if p = q then fun _ => 0 else subs
  | _ => subs

/-- The channel and the message of a PUBLISH. -/
def published? : Effect → Option (Bytes × Bytes)
  | .command _ _ argv _ =>
      if opcodeOf argv = some .publish ∧ argv.length = 3 then some (arg argv 1, arg argv 2)
      else none
  | _ => none

/-- What PUBLISH has written to a session. -/
def relayed? (q : SessionPtr) : Effect → Option Bytes
  | .relayed p bytes => if p = q then some bytes else none
  | _ => none

/-- An effect that has nothing to do with a message. -/
def plain : Effect → Bool
  | .relayed _ _ => false
  | e => e.published?.isNone

/-- The messages for a session, as often as it has subscribed to their channel. -/
def news (subs : Bytes → Nat) (e : Effect) : List Bytes :=
  match e.published? with
  | none => []
  | some (chan, message) => List.replicate (subs chan) (packPublishMessage chan message)

end Effect

/-- How often a session has subscribed to each channel. -/
def subscriptions (q : SessionPtr) (es : List Effect) : Bytes → Nat :=
  es.foldl (Effect.subscriptions q) fun _ => 0

/-- What PUBLISH has written to a session, message by message. -/
def relayedTo (q : SessionPtr) (es : List Effect) : List Bytes := es.filterMap (Effect.relayed? q)

/-- The messages that are meant for a session, in order. -/
def newsFor (q : SessionPtr) (es : List Effect) : List Bytes :=
  (trace (fun subs e => (e.subscriptions q subs, e.news subs)) (fun _ => 0) es).2.flatten

/-! ## The service -/

/-- What a PUBLISH writes, and its reply, behind the effects `es`: each session gets
the message as often as it has subscribed to the channel; what is written is the
message or, where the socket takes no more, its beginning; and the reply says
how often all of it was written. -/
structure Delivers (es : List Effect) (chan message : Bytes) (block : List (SessionPtr × Bytes))
    (reply : Bytes) : Prop where
  subscribers : ∀ q, (block.map Prod.fst).count q = subscriptions q es chan
  bytes : ∀ w ∈ block, w.2 <+: packPublishMessage chan message
  reply : reply = packIntReply (block.countP fun w => w.2 = packPublishMessage chan message)

/-- What is written to the sessions, as effects. -/
def relays (block : List (SessionPtr × Bytes)) : List Effect :=
  block.map fun w => .relayed w.1 w.2

/-- Effects in which messages are written as the service is meant to. -/
inductive Broadcasts : List Effect → Prop where
  | nil : Broadcasts []
  | publish {es : List Effect} {p : SessionPtr} {ctx : Ctx} {argv : List Bytes} {reply : Bytes}
      {chan message : Bytes} {block : List (SessionPtr × Bytes)} (before : Broadcasts es)
      (command : (Effect.command p ctx argv reply).published? = some (chan, message))
      (delivers : Delivers es chan message block reply) :
      Broadcasts (es ++ (relays block ++ [.command p ctx argv reply]))
  | plain {es : List Effect} {e : Effect} (before : Broadcasts es) (isPlain : e.plain = true) :
      Broadcasts (es ++ [e])

end LiteKV
