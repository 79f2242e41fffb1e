/-
LiteKV.Net.Commands — the engine and its command handlers,
`src/net/commands.h` and `src/net/commands.cpp`.

A handler gets the process state and the words of its command, and answers
with the new state and a reply. `argv[i]` is `arg argv i`; every handler
checks the number of words first, so the default is never read. The replies
are the source's, byte for byte; `Reply` can also be the fault of a list
traversal.

The state holds the three copies of `sExpiresMap`, one for each translation
unit that includes `core.h`; the handlers use `expires`. Appending to the
AOF is appending to `log`; the file is taken to be attached, as it is in the
server. What a command meets outside the process is its `Ctx`: the clock,
the numbers an eviction draws, whether the memory limit is exceeded, and
what the server answers to the four commands that do not touch the store.
-/
import LiteKV.Lkvdb
import LiteKV.Net.CommandCache

namespace LiteKV

open Lib Lib.AssocList

/-- The state of the process. -/
structure Engine where
  holder : KVContainer
  /-- `sExpiresMap` of `net/commands.cpp`. -/
  expires : ExpiresMap
  /-- `sExpiresMap` of `core.cpp`. -/
  expiresCore : ExpiresMap
  /-- `sExpiresMap` of `lkvdb.cpp`. -/
  expiresLkvdb : ExpiresMap
  tev : TimeEventHolder
  log : List (List Bytes)

/-- What a command meets outside the process. -/
structure Ctx where
  /-- `GetCurrentMs()`. -/
  now : Nat
  /-- `sync` of `HandleCommand`; a handler only asks for `sync && appendable`. -/
  sync : Bool
  /-- `sEvictPolicy`. -/
  policy : KVContainer.EvictionPolicy
  /-- What an `evict` command draws. -/
  evict : KVContainer.EvictionEnv
  /-- `IfNeedKeyEviction()`, and what that eviction draws. -/
  pressure : Option KVContainer.EvictionEnv
  /-- The replies of `publish`, `subscribe`, `unsubscribe` and `bgsave`. -/
  server : List Bytes → Bytes

/-- `GetCurrentSec()`. -/
def Ctx.nowSec (ctx : Ctx) : Nat := ctx.now / 1000

/-- A reply, or the fault of a traversal. -/
abbrev Reply := Except DListError Bytes

namespace Engine

/-- A new process with an empty container. -/
def new : Engine := ⟨.new, [], [], [], .new, []⟩

/-- `AddIntoAppendableDirectly`. -/
def addIntoAppendable (s : Engine) (ctx : Ctx) (argv : List Bytes) : Engine :=
  if ctx.sync then { s with log := s.log ++ [argv] } else s

end Engine

/-! ## Replies -/

def kInt1Msg : Bytes := ascii ":1\r\n"
def kInt0Msg : Bytes := ascii ":0\r\n"
def kIntMinus2Msg : Bytes := ascii ":-2\r\n"
def kIntMinus1Msg : Bytes := ascii ":-1\r\n"
def kNilMsg : Bytes := ascii "$-1\r\n"
def kOkMsg : Bytes := ascii "+OK\r\n"
def kPONGMsg : Bytes := ascii "+PONG\r\n"
def kArrayEmptyMsg : Bytes := ascii "*0\r\n"
def kNotOkMsg : Bytes := ascii "-ERROR failed\r\n"
def kNoSuchKeyMsg : Bytes := ascii "-ERROR no such key\r\n"
def kWrongTypeMsg : Bytes := ascii "-WRONGTYPE operation to a key holding wrong type of value\r\n"
def kOutOfRangeMsg : Bytes := ascii "-ERROR index out of range\r\n"
def kInvalidOpCodeMsg : Bytes := ascii "-ERROR unsupported command\r\n"
def kInvalidIntegerMsg : Bytes := ascii "-ERROR index or value is not an integer\r\n"
def kInt64OverflowMsg : Bytes := ascii "-ERROR integer overflow\r\n"
def kNotSupportedYetMsg : Bytes := ascii "-ERROR command not supported yet\r\n"

/-- `PackIntReply`. -/
def packIntReply (value : Int) : Bytes := ascii ":" ++ intToString value ++ crlf

/-- `PackBoolReply`. -/
def packBoolReply (yes : Bool) : Bytes := if yes then kInt1Msg else kInt0Msg

/-- `PackStringValueReply`. -/
def packStringValueReply (value : Bytes) : Bytes :=
  ascii "$" ++ natToString value.length ++ crlf ++ value ++ crlf

/-- `PackStringMsgReply`. -/
def packStringMsgReply (msg : String) : Bytes := ascii "+" ++ ascii msg ++ crlf

/-- `PackStringValueIntoStream` of a `DynamicString`: its `operator<<` writes the
buffer as a C string, behind the length of the whole of it. -/
def packStringValueIntoStream (value : DynamicString) : Bytes :=
  match value with
  | some v => ascii "$" ++ natToString v.length ++ crlf ++ cStr v ++ crlf
  | none => kNilMsg

/-- `PackArrayMsg` of a vector of `DynamicString`. -/
def packArrayMsg (array : List DynamicString) : Bytes :=
  ascii "*" ++ natToString array.length ++ crlf ++ array.flatMap packStringValueIntoStream

/-- `PackArrayMsg` of a vector of `std::string`. -/
def packArrayMsgStd (array : List Bytes) : Bytes :=
  ascii "*" ++ natToString array.length ++ crlf ++ array.flatMap packStringValueReply

/-- `PackEmptyArrayMsg`. -/
def packEmptyArrayMsg (size : Nat) : Bytes :=
  ascii "*" ++ natToString size ++ crlf ++ (List.replicate size kNilMsg).flatten

/-- `PackIntArrayMsg`, of the 0s and 1s `SetMIsMember` gives. -/
def packIntArrayMsg (array : List Bool) : Bytes :=
  ascii "*" ++ natToString array.length ++ crlf ++
    array.flatMap fun b => ascii ":" ++ natToString b.toNat ++ crlf

/-! ## Syntax -/

/-- `argv[i]`. -/
def arg (argv : List Bytes) (i : Nat) : Bytes := argv.getD i []

/-- `CheckSyntax`. -/
def checkSyntax (argv : List Bytes) (nKeyRequired nOperandsRequired : Int) (even : Bool) : Bool :=
  let len := argv.length
  if even ∧ len % 2 ≠ 0 then false
  else if nKeyRequired = 0 then len = 1
  else if nKeyRequired = 1 then
    if nOperandsRequired = -1 then len ≥ 3 else (len : Int) = nOperandsRequired + 2
  else if nKeyRequired = -1 then len ≥ 2
  else if nKeyRequired = -2 then len ≥ 1
  else false

/-- The error of `CheckSyntaxHelper`. -/
def syntaxErrMsg (name : String) : Bytes :=
  ascii "-ERROR incorrect number of arguments for '" ++ ascii name ++ ascii "' command" ++ crlf

/-- `CheckSyntaxHelper` in front of a handler's body. -/
def checkSyntaxHelper (argv : List Bytes) (nKeyRequired nOperandsRequired : Int) (even : Bool)
    (name : String) (s : Engine) (body : Engine × Reply) : Engine × Reply :=
  if checkSyntax argv nKeyRequired nOperandsRequired even then body
  else (s, .ok (syntaxErrMsg name))

/-- A body that calls one operation of the container on `argv[1]`, logs the
command when `logs` says so, and replies. -/
def onKey {α : Type} (ctx : Ctx) (s : Engine) (argv : List Bytes)
    (op : KVContainer → Key → KVContainer × α × ErrCode) (logs : α → ErrCode → Bool)
    (reply : α → ErrCode → Bytes) : Engine × Reply :=
  let r := op s.holder (.ofStdString (arg argv 1))
  let s := { s with holder := r.1 }
  (if logs r.2.1 r.2.2 then s.addIntoAppendable ctx argv else s, .ok (reply r.2.1 r.2.2))

/-- The same for a command that is never logged. -/
def readKey {α : Type} (s : Engine) (argv : List Bytes)
    (op : KVContainer → Key → KVContainer × α × ErrCode) (reply : α → ErrCode → Bytes) :
    Engine × Reply :=
  let r := op s.holder (.ofStdString (arg argv 1))
  ({ s with holder := r.1 }, .ok (reply r.2.1 r.2.2))

/-- A command handler. -/
abbrev Handler := Ctx → Engine → List Bytes → Engine × Reply

/-! ## Generic commands -/

def overviewCommand : Handler := fun _ s argv =>
  checkSyntaxHelper argv 0 0 false "overview" s
    (s, .ok (packArrayMsgStd s.holder.overview))

def numItemsCommand : Handler := fun _ s argv =>
  checkSyntaxHelper argv 0 0 false "total" s (s, .ok (packIntReply s.holder.numItems))

def pingCommand : Handler := fun _ s argv =>
  checkSyntaxHelper argv 0 0 false "ping" s (s, .ok kPONGMsg)

def evictCommand : Handler := fun ctx s argv =>
  checkSyntaxHelper argv 1 0 false "evict" s <|
    match canConvertToUInt64 (arg argv 1) with
    | none => (s, .ok kInvalidIntegerMsg)
    | some n =>
        let r := s.holder.keyEviction ctx.policy n ctx.evict
        let s := { s with holder := r.1 }
        let ans := if ctx.sync then ascii "del" :: r.2 else r.2
        (s.addIntoAppendable ctx ans, .ok (packIntReply (DList.toInt32 ans.length - 1)))

def delCommand : Handler := fun ctx s argv =>
  checkSyntaxHelper argv (-1) 0 false "del" s <|
    let r := s.holder.deleteAll (argv.drop 1)
    let s := { s with holder := r.1 }
    (s.addIntoAppendable ctx argv, .ok (packIntReply r.2))

def existsCommand : Handler := fun _ s argv =>
  checkSyntaxHelper argv (-1) 0 false "exists" s
    (s, .ok (packIntReply (s.holder.countExisting (argv.drop 1))))

/-- `TypeCommand` does not know sets. -/
def typeCommand : Handler := fun _ s argv =>
  checkSyntaxHelper argv 1 0 false "type" s
    (s, .ok (packStringMsgReply
      (match s.holder.queryObjectType (.ofStdString (arg argv 1)) with
        | some 1 => "int"
        | some 2 => "string"
        | some 3 => "list"
        | some 4 => "hash"
        | _ => "none")))

/-! ## Expiration -/

/-- What `ExpireCommand` does to the timers and the store; `none` when it
returns `kInt0Msg`. -/
def Engine.setExpiration (s : Engine) (ctx : Ctx) (key : Bytes) (interval : Int64) :
    Option Engine :=
  match AssocList.find? key s.expires with
  | none =>
      if interval.toInt > 0 then
        let r := s.tev.createTimeEvent ctx.now (interval.toInt.toNat * 1000 % 2 ^ 64)
          (.byValue key) 1
        some { s with tev := r.1, expires := (key, r.2) :: s.expires }
      else if interval.toInt = 0 then
        some { s with holder := (s.holder.delete (.ofStdString key)).1 }
      else some s
  | some ev =>
      if interval.toInt ≥ 0 then
        match s.tev.updateTimeEvent ctx.now ev (interval.toInt.toNat * 1000 % 2 ^ 64) 1 with
        | (tev, true) => some { s with tev := tev }
        | (_, false) => none
      else
        match s.tev.removeTimeEvent ev with
        | (tev, true) => some { s with tev := tev, expires := erase key s.expires }
        | (_, false) => none

/-- What `ExpireCommand` logs: `expireat` with the absolute time, or for a
negative interval the command that sets the key to its current value. -/
def Engine.logExpiration (s : Engine) (ctx : Ctx) (key : Bytes) (interval : Int64) : Engine :=
  if interval.toInt ≥ 0 then
    s.addIntoAppendable ctx
      [ascii "expireat", key, natToString ((ctx.nowSec + interval.toInt.toNat) % 2 ^ 64)]
  else
    match s.holder.recoverCommandFromValue key with
    | none => s
    | some recovered => s.addIntoAppendable ctx recovered

def expireCommand : Handler := fun ctx s argv =>
  checkSyntaxHelper argv 1 1 false "expire" s <|
    let key := arg argv 1
    if !s.holder.keyExists (.ofStdString key) then (s, .ok kInt0Msg)
    else
      match canConvertToInt64 (arg argv 2) with
      | none => (s, .ok kInvalidIntegerMsg)
      | some interval =>
          match s.setExpiration ctx key interval with
          | none => (s, .ok kInt0Msg)
          | some s => (s.logExpiration ctx key interval, .ok kInt1Msg)

/-- `std::max(unix_sec - now, 0l)`. -/
def expireInterval (ctx : Ctx) (unixSec : Int64) : Int64 :=
  let d := unixSec - Int64.ofNat ctx.nowSec
  if d.toInt < 0 then 0 else d

def expireAtCommand : Handler := fun ctx s argv =>
  checkSyntaxHelper argv 1 1 false "expireat" s <|
    match canConvertToInt64 (arg argv 2) with
    | none => (s, .ok kInvalidIntegerMsg)
    | some unixSec =>
        expireCommand ctx s
          [arg argv 0, arg argv 1, intToString (expireInterval ctx unixSec).toInt]

def ttlCommand : Handler := fun ctx s argv =>
  checkSyntaxHelper argv 1 0 false "ttl" s <|
    let key := arg argv 1
    if !s.holder.keyExists (.ofStdString key) then (s, .ok kIntMinus2Msg)
    else
      match AssocList.find? key s.expires with
      | none => (s, .ok kIntMinus1Msg)
      | some ev =>
          let when_ := ((s.tev.deref ev).map TimeEvent.when).getD 0
          (s, .ok (packIntReply ((when_ + 2 ^ 64 - ctx.now) % 2 ^ 64 / 1000 : Nat)))

/-! ## Integers and strings -/

def setCommand : Handler := fun ctx s argv =>
  checkSyntaxHelper argv 1 1 false "set" s <|
    onKey ctx s argv
      (fun h key =>
        (match canConvertToInt64 (arg argv 2) with
          | some val => h.setInt ctx.now key val
          | none => h.setString ctx.now key (arg argv 2), (), .ok))
      (fun _ _ => true) (fun _ _ => kOkMsg)

def getCommand : Handler := fun ctx s argv =>
  checkSyntaxHelper argv 1 0 false "get" s <|
    readKey s argv (fun h key => h.get ctx.now key) fun val code =>
      match code, val with
      | .ok, some (.int v) => packStringValueReply (intToString v.toInt)
      | .ok, some (.string v) => packStringValueReply v
      | .wrongType, _ => kWrongTypeMsg
      | _, _ => kNilMsg

/-- The end of `IncrDecrCommonHelper` and `IncrDecrCommonHelper2`. -/
def incrDecrReply (ans : Int64) (code : ErrCode) : Bytes :=
  if code = .ok then packIntReply ans.toInt
  else if code = .wrongType then kWrongTypeMsg
  else if code = .overflow then kInt64OverflowMsg
  else kNotOkMsg

/-- `IncrDecrCommonHelper`. -/
def incrDecrCommonHelper
    (operation : KVContainer → Nat → Key → Int64 → KVContainer × Int64 × ErrCode)
    (ctx : Ctx) (s : Engine) (argv : List Bytes) : Engine × Reply :=
  onKey ctx s argv (fun h key => operation h ctx.now key 1)
    (fun _ code => code == .ok) incrDecrReply

/-- `IncrDecrCommonHelper2`. -/
def incrDecrCommonHelper2
    (operation : KVContainer → Nat → Key → Int64 → KVContainer × Int64 × ErrCode)
    (ctx : Ctx) (s : Engine) (argv : List Bytes) : Engine × Reply :=
  match canConvertToInt64 (arg argv 2) with
  | none => (s, .ok kInvalidIntegerMsg)
  | some num =>
      if num.toInt < 0 then (s, .ok kInvalidIntegerMsg)
      else
        onKey ctx s argv (fun h key => operation h ctx.now key num) (fun _ code => code == .ok)
          incrDecrReply

def incrCommand : Handler := fun ctx s argv =>
  checkSyntaxHelper argv 1 0 false "incr" s <|
    incrDecrCommonHelper KVContainer.incrIntBy ctx s argv

def decrCommand : Handler := fun ctx s argv =>
  checkSyntaxHelper argv 1 0 false "decr" s <|
    incrDecrCommonHelper KVContainer.decrIntBy ctx s argv

def incrByCommand : Handler := fun ctx s argv =>
  checkSyntaxHelper argv 1 1 false "incrby" s <|
    incrDecrCommonHelper2 KVContainer.incrIntBy ctx s argv

def decrByCommand : Handler := fun ctx s argv =>
  checkSyntaxHelper argv 1 1 false "decrby" s <|
    incrDecrCommonHelper2 KVContainer.decrIntBy ctx s argv

def strlenCommand : Handler := fun ctx s argv =>
  checkSyntaxHelper argv 1 0 false "strlen" s <|
    readKey s argv (fun h key => h.strLen ctx.now key) fun len code =>
      if code = .ok then packIntReply len
      else if code = .wrongType then kWrongTypeMsg
      else packIntReply 0

def appendCommand : Handler := fun ctx s argv =>
  checkSyntaxHelper argv 1 1 false "append" s <|
    onKey ctx s argv (fun h key => h.append ctx.now key (arg argv 2)) (fun _ code => code == .ok)
      fun afterLen code =>
        if code = .ok then packIntReply afterLen
        else if code = .keyNotFound then kNilMsg
        else if code = .wrongType then kWrongTypeMsg
        else kNotOkMsg

/-- `GetRangeCommand`, `SetRangeCommand`, `LInsertCommand`, `LRemCommand` and
`SPopCommand`. -/
def notSupportedYet : Handler := fun _ s _ => (s, .ok kNotSupportedYetMsg)

/-! ## Lists -/

def lLenCommand : Handler := fun ctx s argv =>
  checkSyntaxHelper argv 1 0 false "llen" s <|
    readKey s argv (fun h key => h.listLen ctx.now key) fun len code =>
      if code = .ok then packIntReply len
      else if code = .wrongType then kWrongTypeMsg
      else packIntReply 0

/-- `ListPopCommandCommon`: a popped empty string is neither logged nor told
from an empty list. -/
def listPopCommandCommon (left : Bool) (ctx : Ctx) (s : Engine) (argv : List Bytes) :
    Engine × Reply :=
  onKey ctx s argv (fun h key => h.listPop ctx.now key left)
    (fun popped code => code == .ok && !popped.empty)
    fun popped code =>
      if code = .ok then
        if popped.empty then kNilMsg else packStringValueReply popped.toStdString
      else if code = .wrongType then kWrongTypeMsg
      else kNilMsg

def lPopCommand : Handler := fun ctx s argv =>
  checkSyntaxHelper argv 1 0 false "lpop" s <| listPopCommandCommon true ctx s argv

def rPopCommand : Handler := fun ctx s argv =>
  checkSyntaxHelper argv 1 0 false "rpop" s <| listPopCommandCommon false ctx s argv

/-- `ListPushCommandCommon`. -/
def listPushCommandCommon (left : Bool) (ctx : Ctx) (s : Engine) (argv : List Bytes) :
    Engine × Reply :=
  onKey ctx s argv (fun h key => h.listPush ctx.now key left (argv.drop 2))
    (fun _ code => code == .ok)
    fun len code =>
      if code = .ok then packIntReply len
      else if code = .wrongType then kWrongTypeMsg
      else kNotOkMsg

def lPushCommand : Handler := fun ctx s argv =>
  checkSyntaxHelper argv 1 (-1) false "lpush" s <| listPushCommandCommon true ctx s argv

def rPushCommand : Handler := fun ctx s argv =>
  checkSyntaxHelper argv 1 (-1) false "rpush" s <| listPushCommandCommon false ctx s argv

def lRangeCommand : Handler := fun ctx s argv =>
  checkSyntaxHelper argv 1 2 false "lrange" s <|
    match canConvertToInt32 (arg argv 2), canConvertToInt32 (arg argv 3) with
    | some begin_, some end_ =>
        let r := s.holder.listRange ctx.now (.ofStdString (arg argv 1)) begin_ end_
        ({ s with holder := r.1 },
          if r.2.2 = .ok then
            r.2.1.map fun ranges => if ranges.isEmpty then kArrayEmptyMsg else packArrayMsg ranges
          else if r.2.2 = .wrongType then .ok kWrongTypeMsg
          else .ok kArrayEmptyMsg)
    | _, _ => (s, .ok kInvalidIntegerMsg)

def lSetCommand : Handler := fun ctx s argv =>
  checkSyntaxHelper argv 1 2 false "lsetindex" s <|
    match canConvertToInt32 (arg argv 2) with
    | none => (s, .ok kInvalidIntegerMsg)
    | some idx =>
        onKey ctx s argv (fun h key => h.listSetItemAtIndex ctx.now key idx (arg argv 3))
          (fun _ code => code == .ok)
          fun _ code =>
            if code = .ok then kOkMsg
            else if code = .wrongType then kWrongTypeMsg
            else if code = .outOfRange then kOutOfRangeMsg
            else if code = .keyNotFound then kNoSuchKeyMsg
            else kNotOkMsg

def lIndexCommand : Handler := fun ctx s argv =>
  checkSyntaxHelper argv 1 1 false "lindex" s <|
    match canConvertToInt32 (arg argv 2) with
    | none => (s, .ok kInvalidIntegerMsg)
    | some idx =>
        readKey s argv (fun h key => h.listItemAtIndex ctx.now key idx) fun item code =>
          if code = .ok then packStringValueReply item.toStdString
          else if code = .wrongType then kWrongTypeMsg
          else kNilMsg

/-! ## Dictionaries -/

/-- The fields and values of `hset`, two words each. -/
def fieldValues : List Bytes → List (Bytes × Bytes)
  | field :: value :: rest => (field, value) :: fieldValues rest
  | _ => []

def hSetCommand : Handler := fun ctx s argv =>
  checkSyntaxHelper argv 1 (-1) true "hset" s <|
    onKey ctx s argv (fun h key => h.hashUpdateKV ctx.now key (fieldValues (argv.drop 2)))
      (fun count code => code == .ok && count != 0)
      fun count code =>
        if code = .ok ∧ count ≠ 0 then kOkMsg
        else if code = .wrongType then kWrongTypeMsg
        else kNotOkMsg

def hGetCommand : Handler := fun ctx s argv =>
  checkSyntaxHelper argv 1 (-1) false "hget" s <|
    if argv.length = 3 then
      readKey s argv (fun h key => h.hashGetValue ctx.now key (arg argv 2)) fun val code =>
        if code = .ok then packStringValueReply val.toStdString
        else if code = .keyNotFound then kNilMsg
        else if code = .wrongType then kWrongTypeMsg
        else kArrayEmptyMsg
    else
      readKey s argv (fun h key => h.hashGetValues ctx.now key (argv.drop 2)) fun values _ =>
        if values.isEmpty then packEmptyArrayMsg (argv.drop 2).length else packArrayMsg values

def hDelCommand : Handler := fun ctx s argv =>
  checkSyntaxHelper argv 1 (-1) false "hdel" s <|
    onKey ctx s argv (fun h key => h.hashDelField ctx.now key (argv.drop 2))
      (fun _ code => code != .wrongType)
      fun n code => if code = .wrongType then kWrongTypeMsg else packIntReply n

def hExistsCommand : Handler := fun ctx s argv =>
  checkSyntaxHelper argv 1 1 false "hexists" s <|
    readKey s argv (fun h key => h.hashExistField ctx.now key (arg argv 2)) fun ans code =>
      if code = .wrongType then kWrongTypeMsg else packBoolReply ans

/-- `HKeysValsEntriesCommon`. -/
def hKeysValsEntriesCommon
    (operation : KVContainer → Nat → Key → KVContainer × List DynamicString × ErrCode) (ctx : Ctx)
    (s : Engine) (argv : List Bytes) : Engine × Reply :=
  readKey s argv (fun h key => operation h ctx.now key) fun ks code =>
    if code = .wrongType then kWrongTypeMsg
    else if ks.isEmpty then kArrayEmptyMsg
    else packArrayMsg ks

def hGetAllCommand : Handler := fun ctx s argv =>
  checkSyntaxHelper argv 1 0 false "hgetall" s <|
    hKeysValsEntriesCommon KVContainer.hashGetAllEntries ctx s argv

def hKeysCommand : Handler := fun ctx s argv =>
  checkSyntaxHelper argv 1 0 false "hkeys" s <|
    hKeysValsEntriesCommon KVContainer.hashGetAllFields ctx s argv

def hValsCommand : Handler := fun ctx s argv =>
  checkSyntaxHelper argv 1 0 false "hvals" s <|
    hKeysValsEntriesCommon KVContainer.hashGetAllValues ctx s argv

def hLenCommand : Handler := fun ctx s argv =>
  checkSyntaxHelper argv 1 0 false "hlen" s <|
    readKey s argv (fun h key => h.hashLen ctx.now key) fun len code =>
      if code = .wrongType then kWrongTypeMsg else packIntReply len

/-! ## Sets -/

def sAddCommand : Handler := fun ctx s argv =>
  checkSyntaxHelper argv 1 (-1) false "sadd" s <|
    onKey ctx s argv (fun h key => h.setAddItem ctx.now key (argv.drop 2))
      (fun _ code => code != .wrongType && code != .fail)
      fun n code =>
        if code = .wrongType then kWrongTypeMsg
        else if code = .fail then packIntReply 0
        else packIntReply n

def sIsMemberCommand : Handler := fun ctx s argv =>
  checkSyntaxHelper argv 1 1 false "sismember" s <|
    readKey s argv (fun h key => h.setIsMember ctx.now key (arg argv 2)) fun ret code =>
      if code = .wrongType then kWrongTypeMsg else packBoolReply ret

def sMIsMemberCommand : Handler := fun ctx s argv =>
  checkSyntaxHelper argv 1 (-1) false "smismember" s <|
    readKey s argv (fun h key => h.setMIsMember ctx.now key (argv.drop 2)) fun ret code =>
      if code = .wrongType then kWrongTypeMsg else packIntArrayMsg ret

def sMembersCommand : Handler := fun ctx s argv =>
  checkSyntaxHelper argv 1 0 false "smembers" s <|
    readKey s argv (fun h key => h.setGetMembers ctx.now key) fun ret code =>
      if code = .wrongType then kWrongTypeMsg else packArrayMsg ret

def sRemCommand : Handler := fun ctx s argv =>
  checkSyntaxHelper argv 1 (-1) false "srem" s <|
    onKey ctx s argv (fun h key => h.setRemoveMembersByName ctx.now key (argv.drop 2))
      (fun _ code => code != .wrongType)
      fun ret code => if code = .wrongType then kWrongTypeMsg else packIntReply ret.toNat

def sCardCommand : Handler := fun ctx s argv =>
  checkSyntaxHelper argv 1 0 false "scard" s <|
    readKey s argv (fun h key => h.setGetMemberCount ctx.now key) fun n code =>
      if code = .wrongType then kWrongTypeMsg else packIntReply n

/-- The pub/sub commands and `bgsave`: the server answers, the store is not
touched. -/
def serverCommand : Handler := fun ctx s argv => (s, .ok (ctx.server argv))

/-! ## The engine -/

/-- The keys of `sOpCommandMap`. -/
inductive Opcode where
  | overview | total | ping | evict | del | exists_ | type | expire | expireat | ttl
  | set | get | incr | decr | incrby | decrby | strlen | append | getrange | setrange
  | llen | lpop | lpush | rpop | rpush | lrange | linsert | lrem | lsetindex | lindex
  | hset | hget | hdel | hexists | hgetall | hkeys | hvals | hlen
  | sadd | sismember | smismember | smembers | srem | scard | spop
  | publish | subscribe | unsubscribe | bgsave
  deriving DecidableEq

namespace Opcode

/-- The opcode as it is written. -/
def name : Opcode → Bytes
  | overview => ascii "overview" | total => ascii "total" | ping => ascii "ping"
  | evict => ascii "evict" | del => ascii "del" | exists_ => ascii "exists"
  | type => ascii "type" | expire => ascii "expire" | expireat => ascii "expireat"
  | ttl => ascii "ttl" | set => ascii "set" | get => ascii "get" | incr => ascii "incr"
  | decr => ascii "decr" | incrby => ascii "incrby" | decrby => ascii "decrby"
  | strlen => ascii "strlen" | append => ascii "append" | getrange => ascii "getrange"
  | setrange => ascii "setrange" | llen => ascii "llen" | lpop => ascii "lpop"
  | lpush => ascii "lpush" | rpop => ascii "rpop" | rpush => ascii "rpush"
  | lrange => ascii "lrange" | linsert => ascii "linsert" | lrem => ascii "lrem"
  | lsetindex => ascii "lsetindex" | lindex => ascii "lindex" | hset => ascii "hset"
  | hget => ascii "hget" | hdel => ascii "hdel" | hexists => ascii "hexists"
  | hgetall => ascii "hgetall" | hkeys => ascii "hkeys" | hvals => ascii "hvals"
  | hlen => ascii "hlen" | sadd => ascii "sadd" | sismember => ascii "sismember"
  | smismember => ascii "smismember" | smembers => ascii "smembers" | srem => ascii "srem"
  | scard => ascii "scard" | spop => ascii "spop" | publish => ascii "publish"
  | subscribe => ascii "subscribe" | unsubscribe => ascii "unsubscribe"
  | bgsave => ascii "bgsave"

/-- All of them. -/
def all : List Opcode :=
  [overview, total, ping, evict, del, exists_, type, expire, expireat, ttl,
    set, get, incr, decr, incrby, decrby, strlen, append, getrange, setrange,
    llen, lpop, lpush, rpop, rpush, lrange, linsert, lrem, lsetindex, lindex,
    hset, hget, hdel, hexists, hgetall, hkeys, hvals, hlen,
    sadd, sismember, smismember, smembers, srem, scard, spop,
    publish, subscribe, unsubscribe, bgsave]

/-- `sOpCommandMap.find(opcode)`. -/
def ofBytes (opcode : Bytes) : Option Opcode := all.find? fun o => o.name == opcode

/-- `sOpCommandMap[opcode]`. -/
def handler : Opcode → Handler
  | overview => overviewCommand | total => numItemsCommand | ping => pingCommand
  | evict => evictCommand | del => delCommand | exists_ => existsCommand
  | type => typeCommand | expire => expireCommand | expireat => expireAtCommand
  | ttl => ttlCommand | set => setCommand | get => getCommand | incr => incrCommand
  | decr => decrCommand | incrby => incrByCommand | decrby => decrByCommand
  | strlen => strlenCommand | append => appendCommand | getrange => notSupportedYet
  | setrange => notSupportedYet | llen => lLenCommand | lpop => lPopCommand
  | lpush => lPushCommand | rpop => rPopCommand | rpush => rPushCommand
  | lrange => lRangeCommand | linsert => notSupportedYet | lrem => notSupportedYet
  | lsetindex => lSetCommand | lindex => lIndexCommand | hset => hSetCommand
  | hget => hGetCommand | hdel => hDelCommand | hexists => hExistsCommand
  | hgetall => hGetAllCommand | hkeys => hKeysCommand | hvals => hValsCommand
  | hlen => hLenCommand | sadd => sAddCommand | sismember => sIsMemberCommand
  | smismember => sMIsMemberCommand | smembers => sMembersCommand | srem => sRemCommand
  | scard => sCardCommand | spop => notSupportedYet | publish => serverCommand
  | subscribe => serverCommand | unsubscribe => serverCommand | bgsave => serverCommand

end Opcode

namespace Engine

/-- The lazy eviction in `HandleCommand`. Its `del` is logged whatever `sync`
is. -/
def lazyEviction (s : Engine) (ctx : Ctx) : Engine :=
  match ctx.pressure with
  | none => s
  | some env =>
      let r := s.holder.keyEviction ctx.policy 16 env
      { s with holder := r.1, log := s.log ++ [ascii "del" :: r.2] }

/-- `HandleCommand`, for a command of at least one word. -/
def handleCommand (s : Engine) (ctx : Ctx) (argv : List Bytes) : Engine × Reply :=
  let argv := (arg argv 0).map toLower :: argv.drop 1
  match Opcode.ofBytes (arg argv 0) with
  | none => (s, .ok kInvalidOpCodeMsg)
  | some opcode => opcode.handler ctx (s.lazyEviction ctx) argv

/-- A callback that runs. The references of a loaded record's callback are
dead when it runs: `stale` is what reading them gives. -/
def runCallback (stale : Bytes) (s : Engine) : Callback → Engine
  | .byValue key =>
      { s with
        holder := (s.holder.delete (.ofStdString key)).1
        expires := erase key s.expires }
  | .byReference =>
      { s with
        holder := (s.holder.delete ⟨stale⟩).1
        expiresLkvdb := erase stale s.expiresLkvdb }

/-- `HandleFiredTimeEvent` at a time. -/
def handleFiredTimeEvent (s : Engine) (now : Nat) (stale : Bytes) : Engine :=
  let r := s.tev.handleFiredTimeEvent now
  r.2.foldl (runCallback stale) { s with tev := r.1 }

end Engine

/-- What happens to the process: a command, or a turn of the timers. -/
inductive Event where
  | command (ctx : Ctx) (argv : List Bytes)
  | timers (now : Nat) (stale : Bytes)

namespace Engine

/-- One event. -/
def step (s : Engine) : Event → Engine
  | .command ctx argv => (s.handleCommand ctx argv).1
  | .timers now stale => s.handleFiredTimeEvent now stale

/-- A run of events. -/
def run (s : Engine) (events : List Event) : Engine := events.foldl step s

end Engine

end LiteKV
