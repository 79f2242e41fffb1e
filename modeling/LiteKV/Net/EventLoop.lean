/-
LiteKV.Net.EventLoop — `EventLoop::Loop` of `src/net/net.cpp` and the handlers
it calls, `ReadProc`, `WriteProc` and `AcceptProc` of `src/net/server.cpp`.

A `Process` is what the loop works on: the engine, the tables of the server,
the fields of the sessions the handlers use, the descriptor table, and the
interest masks that epoll has. A session pointer may be dead when the loop
follows it; a session that `sessions_` no longer leads to counts as dead, and
using one is the fault `dead`. A request without words is the fault
`noOpcode`, for `HandleCommand` reads `argv[0]`.

The kernel is outside: what `epoll_wait` reports, what `accept` gives, the
results of `read` and `send`, and which sockets the children of `bgsave` close
are the input of a turn. Beside the new state a handler gives the `Effect`s it
had, in order.

A descriptor is a number that leads to a connection. `close` frees the number,
which the next connection may get, while a session that `WriteProc` has closed
stays in the lists of its channels: PUBLISH then writes to whomever the number
leads to. A child of `bgsave` has copies of all descriptors. epoll forgets a
connection with the last one, not with the server's, since no handler uses
`EPOLL_CTL_DEL`.

`~Session` closes the number a second time. It runs in `sessions_.erase`, right
behind the first time, and the number leads nowhere then. A session that is
still in a list lives on, and leaves the list only for a session of the same
name, 2^32 connections later; its second `close` is left out.

The parsing loop of `ReadProc` hands each request to `HandleCommand` before it
parses the next one. Parsing uses the read buffer and the cache alone, and
`HandleCommand` neither of them, so all requests of a read are parsed first
here. A session that is listed twice for a channel meets the same results of
`send` both times.
-/
import LiteKV.Net.Server
import LiteKV.Net.Protocol
import LiteKV.Net.Utils
import LiteKV.Lib.Run
import Mathlib.Logic.Function.Basic

namespace LiteKV

open Lib.AssocList Lib.Run

/-- `EPOLLIN`. -/
def epollIn : UInt32 := 0x001

/-- `EPOLLOUT`. -/
def epollOut : UInt32 := 0x004

/-- `NET_READ_BUF_SIZE`. -/
def netReadBufSize : Nat := 1024 * 64

/-- The fields of a `Session` that its handlers read and write. -/
structure SessionIo where
  fd : Nat
  /-- `read_buf` and `cache` -/
  readState : ReadState
  writeBuf : Buffer
  mask : UInt32

namespace SessionIo

/-- The session of a new connection. -/
def new (fd : Nat) : SessionIo := ⟨fd, .new, .new, epollIn⟩

/-- `SetRead()`. -/
def setRead (io : SessionIo) : SessionIo := { io with mask := epollIn }

/-- `SetWrite()`. -/
def setWrite (io : SessionIo) : SessionIo := { io with mask := io.mask ||| epollOut }

/-- `write_buf.Append(reply)`. -/
def append (io : SessionIo) (reply : Bytes) : SessionIo :=
  { io with writeBuf := io.writeBuf.append reply }

end SessionIo

/-! ## Writing to a socket -/

/-- The bytes of a string, by the distance from its first one. -/
def bytesMemory (bytes : Bytes) : Memory := fun p => if 0 ≤ p then bytes.getD p.toNat 0 else 0

/-- The storage of a buffer, by the distance from `BeginRead()`. -/
def Buffer.memory (b : Buffer) : Memory :=
  fun p => if 0 ≤ b.pReader + p then b.data.getD (b.pReader + p).toNat 0 else 0

/-- A call of `WriteFromBuf` with a `size_t` for the length, which is an `int`
there. -/
def writeOut (mem : Memory) (len : Nat) (results : List IoResult) : WriteRun :=
  if DList.toInt32 len < 0 then ⟨0, 0, []⟩
  else writeFromBuf mem (DList.toInt32 len).toNat results

/-- `FillErrorMsg(buffer, ErrType::WRONGREQ, "unidentified request\r\n")`. -/
def wrongReqMsg : Bytes := ascii "-WRONGREQ unidentified request\r\n" ++ crlf

/-! ## The state -/

/-- What ends the process. -/
inductive LoopFault where
  /-- A session that is gone is used. -/
  | dead (p : SessionPtr)
  /-- `argv[0]` of a request without words. -/
  | noOpcode
  /-- The fault of a list traversal. -/
  | traversal (e : DListError)
  deriving DecidableEq

/-- What the handlers do, for the outside and to the store. -/
inductive Effect where
  | accepted (p : SessionPtr)
  | received (p : SessionPtr) (chunk : Bytes)
  /-- A request was handled; its reply is in the write buffer. -/
  | command (p : SessionPtr) (ctx : Ctx) (argv : List Bytes) (reply : Bytes)
  /-- The error message is in the write buffer. -/
  | malformed (p : SessionPtr)
  /-- PUBLISH wrote to the socket of a session. -/
  | relayed (p : SessionPtr) (bytes : Bytes)
  /-- `WriteProc` wrote to it. -/
  | sent (p : SessionPtr) (bytes : Bytes)
  | closed (p : SessionPtr)
  | timers (now : Nat) (stale : Bytes)

/-- What the loop works on. A connection is given by the session it was accepted
for. -/
structure Process where
  engine : Engine
  server : Server
  io : SessionPtr → SessionIo
  /-- The connection a descriptor leads to. -/
  fds : Nat → Option SessionPtr
  /-- How many children of `bgsave` have a descriptor of a connection. -/
  copies : SessionPtr → Nat
  /-- The interest mask epoll has for a connection. -/
  epoll : SessionPtr → Option UInt32

/-- What a command meets, beside what the engine is told. -/
structure CommandEnv where
  /-- `sync` says whether there is an AOF; `server` is set here. -/
  ctx : Ctx
  /-- The order in which `subscribed_channels` is gone through. -/
  order : List Bytes
  /-- The results of `send` when PUBLISH writes to a connection. -/
  sends : SessionPtr → List IoResult
  /-- The result of `LiteKVBackgroundSave`: whether it has forked. -/
  saving : Bool

/-- What the handlers of a session meet in one turn. -/
structure ReadyIo where
  /-- The bytes of the peer that are still to be read. -/
  stream : Nat → UInt8
  reads : List IoResult
  /-- What the requests of the read meet, one after the other. -/
  envs : Nat → CommandEnv
  sends : List IoResult

/-- What `accept` gives, and whether the epoller takes it. -/
structure Connection where
  addr : Ipv4Addr
  fd : Nat
  attached : Bool

/-- An entry of `ep_events_`. -/
inductive Ready where
  /-- The listening socket; `none` is an `accept` that fails. -/
  | listen (fired : UInt32) (connection : Option Connection)
  | session (p : SessionPtr) (fired : UInt32) (io : ReadyIo)

/-- A turn of the loop: the connections that children of `bgsave` have closed, what
`epoll_wait` reports, and the time at which the time events are handled. -/
structure Turn where
  released : List SessionPtr
  batch : List Ready
  now : Nat
  stale : Bytes

/-! ## What the server answers -/

/-- The answer to a command that does not touch the store. -/
structure ServerAnswer where
  server : Server
  /-- What PUBLISH writes, and to whose descriptor. -/
  written : List (SessionPtr × Bytes)
  /-- A child was forked. -/
  forked : Bool
  reply : Bytes

namespace Server

/-- The message of PUBLISH, sent to the descriptor of one session. -/
def relay (env : CommandEnv) (argv : List Bytes) (p : SessionPtr) : WriteRun :=
  let relayStr := packPublishMessage (arg argv 1) (arg argv 2)
  writeOut (bytesMemory relayStr) relayStr.length (env.sends p)

/-- The handlers of `publish`, `subscribe`, `unsubscribe` and `bgsave`. -/
def answer (sv : Server) (name : Bytes) (env : CommandEnv) (argv : List Bytes) : ServerAnswer :=
  match Opcode.ofBytes (arg argv 0) with
  | some .publish =>
      let wrote := fun p =>
        (relay env argv p).total = (packPublishMessage (arg argv 1) (arg argv 2)).length
      let r := sv.pubSubPublishCommand (fun p => decide (wrote p)) argv
      ⟨sv, r.1.map fun w => (w.1, (relay env argv w.1).sent), false, r.2⟩
  | some .subscribe =>
      let r := sv.pubSubSubscribeCommand name argv
      ⟨r.1, [], false, r.2⟩
  | some .unsubscribe =>
      let r := sv.pubSubUnsubscribeCommand name argv env.order
      ⟨r.1, [], false, r.2⟩
  | some .bgsave =>
      ⟨sv, [], checkSyntax argv 0 0 false && env.saving,
        if checkSyntax argv 0 0 false then
          packStringMsgReply (if env.saving then "Background saving started"
            else "Background saving failed starting")
        else syntaxErrMsg "bgsave"⟩
  | _ => ⟨sv, [], false, []⟩

end Server

namespace Process

/-- A process before the first connection. -/
def new (engine : Engine) : Process where
  engine := engine
  server := .new
  io _ := .new 0
  fds _ := none
  copies _ := 0
  epoll _ := none

/-- A session that `sessions_` leads to. -/
def alive (ps : Process) (p : SessionPtr) : Bool :=
  match find? p.name ps.server.sessions with
  | none => false
  | some sess => sess.ptr = p

/-- A change of the fields of a session. -/
def modifyIo (ps : Process) (p : SessionPtr) (f : SessionIo → SessionIo) : Process :=
  { ps with io := Function.update ps.io p (f (ps.io p)) }

@[simp] theorem modifyIo_engine (ps : Process) (p : SessionPtr) (f : SessionIo → SessionIo) :
    (ps.modifyIo p f).engine = ps.engine := rfl

@[simp] theorem modifyIo_server (ps : Process) (p : SessionPtr) (f : SessionIo → SessionIo) :
    (ps.modifyIo p f).server = ps.server := rfl

@[simp] theorem modifyIo_epoll (ps : Process) (p : SessionPtr) (f : SessionIo → SessionIo) :
    (ps.modifyIo p f).epoll = ps.epoll := rfl

@[simp] theorem modifyIo_io (ps : Process) (p : SessionPtr) (f : SessionIo → SessionIo) :
    (ps.modifyIo p f).io p = f (ps.io p) := Function.update_self p _ _

theorem modifyIo_io_of_ne (ps : Process) {p q : SessionPtr} (h : q ≠ p)
    (f : SessionIo → SessionIo) : (ps.modifyIo p f).io q = ps.io q := Function.update_of_ne h _ _

/-- The connection that the descriptor of a session leads to. -/
def peer (ps : Process) (p : SessionPtr) : Option SessionPtr := ps.fds (ps.io p).fd

/-- `ModifySession`. -/
def modifySession (ps : Process) (p : SessionPtr) : Process :=
  { ps with epoll := Function.update ps.epoll p (some (ps.io p).mask) }

/-- `close(fd)`, with the session gone from the tables. -/
def close (ps : Process) (p : SessionPtr) (server : Server) : Process :=
  { ps with
    server := server
    fds := Function.update ps.fds (ps.io p).fd none
    epoll := if ps.copies p = 0 then Function.update ps.epoll p none else ps.epoll }

/-- The copies of descriptors behind the `fork()` of `LiteKVBackgroundSave`. -/
def forkedCopies (ps : Process) (p : SessionPtr) : Nat :=
  if ps.peer p = some p then ps.copies p + 1 else ps.copies p

/-- A child closes its descriptor of a connection, in `StopServeSockets` or at its
end. -/
def release (ps : Process) (p : SessionPtr) : Process :=
  let left := ps.copies p - 1
  { ps with
    copies := Function.update ps.copies p left
    epoll := if left = 0 ∧ ps.peer p ≠ some p then Function.update ps.epoll p none
      else ps.epoll }

/-! ## `ReadProc` -/

/-- What a command meets, with the results of `send` for the descriptor of a
session; one that leads nowhere takes nothing. -/
def reaches (ps : Process) (env : CommandEnv) : CommandEnv :=
  { env with sends := fun p => ((ps.peer p).map env.sends).getD [] }

/-- What PUBLISH writes, where it arrives. -/
def relayed (ps : Process) (written : List (SessionPtr × Bytes)) : List Effect :=
  written.filterMap fun w => (ps.peer w.1).map fun q => .relayed q w.2

/-- One turn of the loop over the requests: `HandleCommand`, and its reply into
the write buffer. -/
def handleCommand (ps : Process) (p : SessionPtr) (env : CommandEnv) (argv : List Bytes) :
    Except LoopFault (Process × List Effect) :=
  if argv.isEmpty then .error .noOpcode
  else
    let answer :=
      ps.server.answer p.name (ps.reaches env) ((arg argv 0).map toLower :: argv.drop 1)
    let ctx : Ctx := { env.ctx with server := fun _ => answer.reply }
    let r := ps.engine.handleCommand ctx argv
    match r.2 with
    | .error e => .error (.traversal e)
    | .ok reply =>
        let ps' := { ps with
          engine := r.1
          server := answer.server
          copies := if answer.forked then ps.forkedCopies else ps.copies }
        .ok (ps'.modifyIo p (·.append reply),
          ps.relayed answer.written ++ [.command p ctx argv reply])

/-- The loop over the requests of a read. -/
def handleAll (p : SessionPtr) (envs : Nat → CommandEnv) :
    (i : Nat) → List CommandCache → Process → Except LoopFault (Process × List Effect)
  | _, [], ps => .ok (ps, [])
  | i, c :: cs, ps => do
      let r ← ps.handleCommand p (envs i) c.argv
      let rest ← handleAll p envs (i + 1) cs r.1
      return (rest.1, r.2 ++ rest.2)

/-- `SetWrite()` and `ModifySession`. -/
def setWrite (ps : Process) (p : SessionPtr) : Process :=
  (ps.modifyIo p .setWrite).modifySession p

/-- `SetRead()` and `ModifySession`. -/
def setRead (ps : Process) (p : SessionPtr) : Process :=
  (ps.modifyIo p .setRead).modifySession p

/-- `AuxiliaryReadProcParseErrorHandling`. -/
def parseErrorHandling (ps : Process) (p : SessionPtr) : Process :=
  (ps.modifyIo p (·.append wrongReqMsg)).setWrite p

/-- `ReadProc`, and whether it has set `closed`. -/
def readProc (ps : Process) (p : SessionPtr) (io : ReadyIo) :
    Except LoopFault (Process × Bool × List Effect) := do
  let r := readToBuf io.stream (fun _ => 0) netReadBufSize io.reads
  if r.total = 0 then
    return (ps.close p (ps.server.readClose p.name), true, [.closed p])
  else
    let chunk := (List.range r.total).map fun (i : Nat) => r.mem i
    let parsed := LiteKV.readProc (ps.io p).readState chunk
    let ps := ps.modifyIo p fun io => { io with readState := parsed.1 }
    let handled ← handleAll p io.envs 0 parsed.2.1 ps
    let ps := handled.1.setWrite p
    if parsed.2.2 then
      return (ps.parseErrorHandling p, false, .received p chunk :: handled.2 ++ [.malformed p])
    else return (ps, false, .received p chunk :: handled.2)

/-! ## `WriteProc` -/

/-- `WriteProc`. -/
def writeProc (ps : Process) (p : SessionPtr) (sends : List IoResult) : Process × List Effect :=
  let buffer := (ps.io p).writeBuf
  let readableBytes := buffer.readableBytes
  if readableBytes ≤ 0 then (ps.setRead p, [])   -- nothing to write
  else
    let w := writeOut buffer.memory readableBytes sends
    if w.total > 0 then
      if w.total = readableBytes then
        ((ps.setRead p).modifyIo p fun io => { io with writeBuf := io.writeBuf.reset },
          [.sent p w.sent])
      else
        (ps.modifyIo p fun io => { io with writeBuf := io.writeBuf.readerIdxForward w.total },
          [.sent p w.sent])
    else (ps.close p (ps.server.writeClose p.name), [.closed p])

/-! ## The loop -/

/-- `AcceptProc`. -/
def acceptProc (ps : Process) (connection : Option Connection) : Process × List Effect :=
  match connection with
  | none => (ps, [])
  | some c =>
      let p : SessionPtr := ⟨c.addr, ps.server.nextSessionId⟩
      let ps := { ps with
        server := ps.server.acceptProc c.addr c.attached
        fds := Function.update ps.fds c.fd (some p) }
      let ps := ps.modifyIo p fun _ => .new c.fd
      if c.attached then (ps.modifySession p, [.accepted p])
      else (ps, [])   -- the session is lost, and its descriptor stays open

/-- `read_proc`, if its event fired, and whether it has set `closed`. -/
def fireRead (ps : Process) (p : SessionPtr) (fired : UInt32) (io : ReadyIo) :
    Except LoopFault (Process × Bool × List Effect) :=
  if (ps.io p).mask &&& fired &&& epollIn ≠ 0 then ps.readProc p io else .ok (ps, false, [])

/-- The body of the loop over the entries. `closed` keeps `write_proc` from a
session that `read_proc` has closed. -/
def ready (ps : Process) : Ready → Except LoopFault (Process × List Effect)
  | .listen fired connection =>
      .ok (if epollIn &&& fired &&& epollIn ≠ 0 then ps.acceptProc connection else (ps, []))
  | .session p fired io =>
      if !ps.alive p then .error (.dead p)
      else do
        let r ← ps.fireRead p fired io
        if r.2.1 then return (r.1, r.2.2)
        else if (r.1.io p).mask &&& fired &&& epollOut ≠ 0 then
          let w := r.1.writeProc p io.sends
          return (w.1, r.2.2 ++ w.2)
        else return (r.1, r.2.2)

/-- What `epoll_wait` finds. -/
def polled (ps : Process) (t : Turn) : Process := t.released.foldl release ps

/-- A turn of `while (!stopped)`. -/
def turn (ps : Process) (t : Turn) : Except LoopFault (Process × List Effect) := do
  let r ← traceE ready (ps.polled t) t.batch
  return ({ r.1 with engine := r.1.engine.handleFiredTimeEvent t.now t.stale },
    r.2.flatten ++ [.timers t.now t.stale])

/-- Some turns, and their effects. -/
def run (ps : Process) (turns : List Turn) : Except LoopFault (Process × List Effect) := do
  let r ← traceE turn ps turns
  return (r.1, r.2.flatten)

end Process

end LiteKV
