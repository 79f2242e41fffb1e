/-
LiteKV.Net.StoreSpec — what a client may see, said of the abstract store.

`TimedStore.Step` is the server's purpose as a transition system on the values
of the keys and their deadlines: a command comes, it is answered, and the store
is what the command leaves. Buckets, blocks, rehashing, visit times, the events
of the timers and the log do not occur. `Opcode.form` is the shape of a command,
`Opcode.Answers` its reply as a relation on the values and the words,
`Opcode.Leaves` the values behind it. Replies that list a collection may list
it in any order. The commands about deadlines and a turn of the timers are
functions of the store.

Two events take keys away that no client named: an eviction under memory
pressure, and an `evict`. They are bounded by `Store.Loses`: a key keeps its
value or is gone.

The store only promises a reply to `lrange` where the range fits
(`Cell.RangeFits`). An empty string popped off a list is answered like an empty
list, `type` does not know sets, and `srem` replies a truth value; `ttl` wraps
when the deadline has passed. These are the replies of the source.
-/
import LiteKV.Net.CountTheorems
import LiteKV.Net.TextTheorems
import LiteKV.Net.TtlTheorems
import LiteKV.RangeTheorems

namespace LiteKV

open Lib Lib.AssocList Lib.Distinct

/-! ## Questions about one key -/

namespace Cell

variable {α : Type}

/-- A question about a value of one type. -/
def ask (proj : Value → Option α) (missing wrong : Bytes) (f : α → Bytes) (c : Cell) : Bytes :=
  match c with
  | none => missing
  | some v =>
      match proj v with
      | none => wrong
      | some x => f x

/-- A question with several right answers. -/
def Asks (proj : Value → Option α) (missing wrong : Bytes) (f : α → Bytes → Prop) (c : Cell)
    (reply : Bytes) : Prop :=
  match c with
  | none => reply = missing
  | some v =>
      match proj v with
      | none => reply = wrong
      | some x => f x reply

/-- The end of a list a pop takes from, as a reply. -/
def popReply (left : Bool) : Cell → Bytes :=
  ask Value.asList kNilMsg kWrongTypeMsg fun l =>
    if (ListObject.afterPop l left).2.empty then kNilMsg
    else packStringValueReply (ListObject.afterPop l left).2.toStdString

/-- The reply of `incrby` and `decrby`: `sign` is the direction. -/
def byNumberReply (sign : Int) (word : Bytes) (c : Cell) : Bytes :=
  match canConvertToInt64 word with
  | none => kInvalidIntegerMsg
  | some n => if n.toInt < 0 then kInvalidIntegerMsg else (plus (sign * n.toInt) c).2

/-- The element at an index that may count from the end. -/
def indexReply (index : Int) : Cell → Bytes :=
  ask Value.asList kNilMsg kWrongTypeMsg fun l =>
    let i := KVContainer.normIndex index l.length
    if i < 0 then kNilMsg else (l[i.toNat]?.map packStringValueReply).getD kNilMsg

/-- The reply of `lsetindex`. -/
def setIndexReply (index : Int) (val : Bytes) (c : Cell) : Bytes :=
  match (setIndex index val c).2 with
  | .ok => kOkMsg
  | .wrongType => kWrongTypeMsg
  | .outOfRange => kOutOfRangeMsg
  | .keyNotFound => kNoSuchKeyMsg
  | _ => kNotOkMsg

/-- The range fits: the key holds no list, or the list is empty, or the start is
a position of it or behind the end, or the start is before the list and the end
is not its first position. -/
def RangeFits (begin_ end_ : Int) (c : Cell) : Prop :=
  ∀ l, c.bind Value.asList = some l → l.length < 2 ^ 31 ∧
    (l = [] ∨
      0 ≤ KVContainer.normIndex begin_ l.length ∧
        (KVContainer.normIndex end_ l.length < KVContainer.normIndex begin_ l.length ∨
          KVContainer.normIndex begin_ l.length < l.length) ∨
      KVContainer.normIndex begin_ l.length < 0 ∧ KVContainer.normIndex end_ l.length ≠ 0)

/-- The slice of a list. -/
def rangeReply (begin_ end_ : Int) : Cell → Bytes :=
  ask Value.asList kArrayEmptyMsg kWrongTypeMsg fun l =>
    packArrayMsg ((KVContainer.slice l (KVContainer.normIndex begin_ l.length)
      (KVContainer.normIndex end_ l.length)).map some)

end Cell

/-- The pairs are the entries of the map. -/
def Enumerates (es : List (Bytes × Bytes)) (m : Bytes → Option Bytes) : Prop :=
  (keys es).Nodup ∧ ∀ f v, (f, v) ∈ es ↔ m f = some v

/-- The words are the members of the set. -/
def Lists (ms : List Bytes) (p : Bytes → Bool) : Prop := ms.Nodup ∧ ∀ m, m ∈ ms ↔ p m = true

/-! ## Questions about the store -/

/-- What `type` calls a value. -/
def Cell.typeName : Cell → String
  | some (.int _) => "int"
  | some (.string _) => "string"
  | some (.list _) => "list"
  | some (.hash _) => "hash"
  | _ => "none"

/-- The number of elements, fields or members of a value. -/
noncomputable def Value.size : Value → Nat
  | .int _ | .string _ => 0
  | .list l => l.length
  | .hash m => {f | (m f).isSome = true}.ncard
  | .set p => {m | p m = true}.ncard

/-- The number of a value's type. -/
def Value.typeNumber : Value → Nat
  | .int _ => 1
  | .string _ => 2
  | .list _ => 3
  | .hash _ => 4
  | .set _ => 5

/-- The lines of `overview`, for the values of a store. -/
noncomputable def overviewOf (vs : List Value) : List Bytes :=
  let count (t : Nat) : Bytes := natToString (vs.filter fun v => v.typeNumber == t).length
  let total (t : Nat) : Bytes :=
    natToString (vs.map fun v => if v.typeNumber == t then v.size else 0).sum
  [ascii "Number of int:", count 1,
   ascii "Number of string:", count 2,
   ascii "Number of list:", count 3,
   ascii "Number of elements in list:", total 3,
   ascii "Number of hash:", count 4,
   ascii "Number of elements in hash:", total 4,
   ascii "Number of set:", count 5,
   ascii "Number of elements in set:", total 5]

namespace Store

/-- The values are those of the store, key by key. -/
def Holds (v : Store) (vs : List Value) : Prop :=
  ∃ ks : List Key, ks.Nodup ∧ (∀ k, k ∈ ks ↔ (v k).isSome = true) ∧ vs = ks.filterMap v

/-- The number of keys. -/
noncomputable def size (v : Store) : Nat := {k | (v k).isSome = true}.ncard

/-- A key keeps its value or is gone. -/
def Loses (v v' : Store) : Prop := ∀ k, v' k = v k ∨ v' k = none

/-- The number of keys that are gone. -/
noncomputable def lost (v v' : Store) : Nat := {k | (v k).isSome = true ∧ v' k = none}.ncard

end Store

/-! ## Commands -/

/-- The arguments of a command's `CheckSyntaxHelper`. -/
structure Form where
  nKeyRequired : Int
  nOperandsRequired : Int
  even : Bool
  name : String

namespace Opcode

/-- The form of a command; the commands that are not supported yet have none,
and the server checks that of its own four. -/
def form : Opcode → Option Form
  | overview => some ⟨0, 0, false, "overview"⟩
  | total => some ⟨0, 0, false, "total"⟩
  | ping => some ⟨0, 0, false, "ping"⟩
  | evict => some ⟨1, 0, false, "evict"⟩
  | del => some ⟨-1, 0, false, "del"⟩
  | exists_ => some ⟨-1, 0, false, "exists"⟩
  | type => some ⟨1, 0, false, "type"⟩
  | expire => some ⟨1, 1, false, "expire"⟩
  | expireat => some ⟨1, 1, false, "expireat"⟩
  | ttl => some ⟨1, 0, false, "ttl"⟩
  | set => some ⟨1, 1, false, "set"⟩
  | get => some ⟨1, 0, false, "get"⟩
  | incr => some ⟨1, 0, false, "incr"⟩
  | decr => some ⟨1, 0, false, "decr"⟩
  | incrby => some ⟨1, 1, false, "incrby"⟩
  | decrby => some ⟨1, 1, false, "decrby"⟩
  | strlen => some ⟨1, 0, false, "strlen"⟩
  | append => some ⟨1, 1, false, "append"⟩
  | llen => some ⟨1, 0, false, "llen"⟩
  | lpop => some ⟨1, 0, false, "lpop"⟩
  | rpop => some ⟨1, 0, false, "rpop"⟩
  | lpush => some ⟨1, -1, false, "lpush"⟩
  | rpush => some ⟨1, -1, false, "rpush"⟩
  | lrange => some ⟨1, 2, false, "lrange"⟩
  | lsetindex => some ⟨1, 2, false, "lsetindex"⟩
  | lindex => some ⟨1, 1, false, "lindex"⟩
  | hset => some ⟨1, -1, true, "hset"⟩
  | hget => some ⟨1, -1, false, "hget"⟩
  | hdel => some ⟨1, -1, false, "hdel"⟩
  | hexists => some ⟨1, 1, false, "hexists"⟩
  | hgetall => some ⟨1, 0, false, "hgetall"⟩
  | hkeys => some ⟨1, 0, false, "hkeys"⟩
  | hvals => some ⟨1, 0, false, "hvals"⟩
  | hlen => some ⟨1, 0, false, "hlen"⟩
  | sadd => some ⟨1, -1, false, "sadd"⟩
  | sismember => some ⟨1, 1, false, "sismember"⟩
  | smismember => some ⟨1, -1, false, "smismember"⟩
  | smembers => some ⟨1, 0, false, "smembers"⟩
  | srem => some ⟨1, -1, false, "srem"⟩
  | scard => some ⟨1, 0, false, "scard"⟩
  | getrange | setrange | linsert | lrem | spop | publish | subscribe | unsubscribe | bgsave => none

/-- The reply of a command of the right form, for the values it finds and those it
leaves. The values alone have no answer to a command about deadlines. -/
def Answers (op : Opcode) (ctx : Ctx) (argv : List Bytes) (v v' : Store) (reply : Reply) : Prop :=
  let c : Cell := v (keyOf argv)
  let items := argv.drop 2
  match op with
  | overview => ∃ vs, v.Holds vs ∧ reply = .ok (packArrayMsgStd (overviewOf vs))
  | total => reply = .ok (packIntReply v.size)
  | ping => reply = .ok kPONGMsg
  | evict =>
      reply = .ok (match canConvertToUInt64 (arg argv 1) with
        | none => kInvalidIntegerMsg
        | some _ => packIntReply (DList.toInt32 (v.lost v' + if ctx.sync then 1 else 0 : Nat) - 1))
  | del =>
      reply = .ok (packIntReply (distinct ((argv.drop 1).map StaticString.ofStdString)
        fun k => (v k).isSome))
  | exists_ =>
      reply = .ok (packIntReply ((argv.drop 1).filter fun k =>
        (v (.ofStdString k)).isSome).length)
  | type => reply = .ok (packStringMsgReply c.typeName)
  | expire | expireat | ttl => False
  | set => reply = .ok kOkMsg
  | get => reply = .ok (Text.ofCell c).getReply
  | incr => reply = .ok (c.plus 1).2
  | decr => reply = .ok (c.plus (-1)).2
  | incrby => reply = .ok (c.byNumberReply 1 (arg argv 2))
  | decrby => reply = .ok (c.byNumberReply (-1) (arg argv 2))
  | strlen => reply = .ok (packIntReply (Text.ofCell c).bytes.length)
  | append => reply = .ok ((Text.ofCell c).appendReply (arg argv 2))
  | llen =>
      reply = .ok (c.ask Value.asList (packIntReply 0) kWrongTypeMsg fun l => packIntReply l.length)
  | lpop => reply = .ok (c.popReply true)
  | rpop => reply = .ok (c.popReply false)
  | lpush | rpush =>
      reply = .ok (c.ask Value.asList (packIntReply items.length) kWrongTypeMsg fun l =>
        packIntReply (l.length + items.length : Nat))
  | lrange =>
      match canConvertToInt32 (arg argv 2), canConvertToInt32 (arg argv 3) with
      | some begin_, some end_ =>
          c.RangeFits begin_ end_ → reply = .ok (c.rangeReply begin_ end_)
      | _, _ => reply = .ok kInvalidIntegerMsg
  | lsetindex =>
      reply = .ok (match canConvertToInt32 (arg argv 2) with
        | none => kInvalidIntegerMsg
        | some idx => c.setIndexReply idx (arg argv 3))
  | lindex =>
      reply = .ok (match canConvertToInt32 (arg argv 2) with
        | none => kInvalidIntegerMsg
        | some idx => c.indexReply idx)
  | hset => reply = .ok (c.ask Value.asHash kOkMsg kWrongTypeMsg fun _ => kOkMsg)
  | hget =>
      if argv.length = 3 then
        reply = .ok (c.ask Value.asHash kNilMsg kWrongTypeMsg fun m =>
          ((m (arg argv 2)).map packStringValueReply).getD kNilMsg)
      else
        let none_ := packEmptyArrayMsg items.length
        reply = .ok (c.ask Value.asHash none_ none_ fun m => packArrayMsg (items.map m))
  | hdel =>
      reply = .ok (c.ask Value.asHash (packIntReply 0) kWrongTypeMsg fun m =>
        packIntReply (distinct items fun f => (m f).isSome))
  | hexists =>
      reply = .ok (c.ask Value.asHash (packBoolReply false) kWrongTypeMsg fun m =>
        packBoolReply (m (arg argv 2)).isSome)
  | hgetall =>
      ∃ bytes, reply = .ok bytes ∧ c.Asks Value.asHash kArrayEmptyMsg kWrongTypeMsg (fun m reply =>
        ∃ es, Enumerates es m ∧
          reply = packArrayMsg (es.flatMap fun e => [some e.1, some e.2])) bytes
  | hkeys =>
      ∃ bytes, reply = .ok bytes ∧ c.Asks Value.asHash kArrayEmptyMsg kWrongTypeMsg (fun m reply =>
        ∃ es, Enumerates es m ∧ reply = packArrayMsg (es.map fun e => some e.1)) bytes
  | hvals =>
      ∃ bytes, reply = .ok bytes ∧ c.Asks Value.asHash kArrayEmptyMsg kWrongTypeMsg (fun m reply =>
        ∃ es, Enumerates es m ∧ reply = packArrayMsg (es.map fun e => some e.2)) bytes
  | hlen =>
      reply = .ok (c.ask Value.asHash (packIntReply 0) kWrongTypeMsg fun m =>
        packIntReply {f | (m f).isSome = true}.ncard)
  | sadd =>
      reply = .ok (c.ask Value.asSet (packIntReply (distinct items fun _ => true)) kWrongTypeMsg
        fun p => packIntReply (distinct items fun m => !p m))
  | sismember =>
      reply = .ok (c.ask Value.asSet (packBoolReply false) kWrongTypeMsg fun p =>
        packBoolReply (p (arg argv 2)))
  | smismember =>
      reply = .ok (c.ask Value.asSet (packIntArrayMsg (items.map fun _ => false)) kWrongTypeMsg
        fun p => packIntArrayMsg (items.map p))
  | smembers =>
      ∃ bytes, reply = .ok bytes ∧ c.Asks Value.asSet kArrayEmptyMsg kWrongTypeMsg (fun p reply =>
        ∃ ms, Lists ms p ∧ reply = packArrayMsg (ms.map some)) bytes
  | srem =>
      reply = .ok (c.ask Value.asSet (packIntReply 0) kWrongTypeMsg fun p =>
        packIntReply (if distinct items p = 0 then 0 else 1))
  | scard =>
      reply = .ok (c.ask Value.asSet (packIntReply 0) kWrongTypeMsg fun p =>
        packIntReply {m | p m = true}.ncard)
  | getrange | setrange | linsert | lrem | spop => reply = .ok kNotSupportedYetMsg
  | publish | subscribe | unsubscribe | bgsave => reply = .ok (ctx.server argv)

/-- The values behind a command of the right form. -/
def Leaves (op : Opcode) (argv : List Bytes) (v v' : Store) : Prop :=
  match op with
  | evict => v.Loses v'
  | del => v' = fun k => if k ∈ (argv.drop 1).map StaticString.ofStdString then none else v k
  | op => v' = Function.update v (keyOf argv) (op.effect argv (v (keyOf argv))).1

/-- A command is answered, or refused for its number of words. -/
def Serves (op : Opcode) (ctx : Ctx) (argv : List Bytes) (v : Store) (reply : Reply) (v' : Store) :
    Prop :=
  match op.form with
  | none => op.Answers ctx argv v v' reply ∧ op.Leaves argv v v'
  | some f =>
      if checkSyntax argv f.nKeyRequired f.nOperandsRequired f.even = true then
        op.Answers ctx argv v v' reply ∧ op.Leaves argv v v'
      else reply = .ok (syntaxErrMsg f.name) ∧ v' = v

end Opcode

/-! ## Deadlines -/

/-- The values of the keys, and the deadlines by the words of the clients. -/
structure TimedStore where
  values : Store
  deadline : Bytes → Option Nat

namespace TimedStore

/-- An expiration of a key of the store. One of no seconds takes the key away at
once, unless it had a deadline. -/
def expire (t : TimedStore) (now : Nat) (word : Bytes) (interval : Int64) : TimedStore where
  values :=
    if interval.toInt = 0 ∧ t.deadline word = none then
      Function.update t.values (.ofStdString word) none
    else t.values
  deadline := Function.update t.deadline word (deadlineAfter now interval (t.deadline word))

/-- `expire`. -/
def expireAnswer (t : TimedStore) (ctx : Ctx) (argv : List Bytes) : TimedStore × Reply :=
  if t.values (keyOf argv) = none then (t, .ok kInt0Msg)
  else
    match canConvertToInt64 (arg argv 2) with
    | none => (t, .ok kInvalidIntegerMsg)
    | some interval => (t.expire ctx.now (arg argv 1) interval, .ok kInt1Msg)

/-- `expireat`, with the seconds that are left. -/
def expireAtAnswer (t : TimedStore) (ctx : Ctx) (argv : List Bytes) : TimedStore × Reply :=
  match canConvertToInt64 (arg argv 2) with
  | none => (t, .ok kInvalidIntegerMsg)
  | some unixSec =>
      if t.values (keyOf argv) = none then (t, .ok kInt0Msg)
      else (t.expire ctx.now (arg argv 1) (expireInterval ctx unixSec), .ok kInt1Msg)

/-- `ttl`, with the difference of two `uint64_t`. -/
def ttlAnswer (t : TimedStore) (ctx : Ctx) (argv : List Bytes) : Reply :=
  if t.values (keyOf argv) = none then .ok kIntMinus2Msg
  else
    match t.deadline (arg argv 1) with
    | none => .ok kIntMinus1Msg
    | some d => .ok (packIntReply ((d + 2 ^ 64 - ctx.now) % 2 ^ 64 / 1000 : Nat))

/-- The commands about deadlines; `none` for the others. -/
def answer (t : TimedStore) (ctx : Ctx) (argv : List Bytes) : Opcode → Option (TimedStore × Reply)
  | .expire =>
      some (if checkSyntax argv 1 1 false then t.expireAnswer ctx argv
        else (t, .ok (syntaxErrMsg "expire")))
  | .expireat =>
      some (if checkSyntax argv 1 1 false then t.expireAtAnswer ctx argv
        else (t, .ok (syntaxErrMsg "expireat")))
  | .ttl =>
      some (t, if checkSyntax argv 1 0 false then t.ttlAnswer ctx argv
        else .ok (syntaxErrMsg "ttl"))
  | _ => none

/-- A turn of the timers: the keys whose deadline has come are gone. -/
noncomputable def turn (t : TimedStore) (now : Nat) : TimedStore where
  values k := open Classical in
    if ∃ w d, t.deadline w = some d ∧ d ≤ now ∧ k = .ofStdString w then none else t.values k
  deadline w := (t.deadline w).filter fun d => now < d

end TimedStore

/-! ## Events -/

/-- What the values do at an event that is not about deadlines, and what the client
reads. -/
inductive Store.Step : Store → Event → Option Reply → Store → Prop where
  /-- An unknown opcode. -/
  | unknown {v : Store} {ctx : Ctx} {argv : List Bytes} (hop : opcodeOf argv = none) :
      Step v (.command ctx argv) (some (.ok kInvalidOpCodeMsg)) v
  /-- A command; under memory pressure keys may go before it. -/
  | command {v u v' : Store} {ctx : Ctx} {argv : List Bytes} {op : Opcode} {reply : Reply}
      (hop : opcodeOf argv = some op) (hpressure : v.Loses u) (hcalm : ctx.pressure = none → u = v)
      (hserves : op.Serves ctx (lowered argv) u reply v') :
      Step v (.command ctx argv) (some reply) v'

/-- What the store does at an event, and what the client reads. -/
inductive TimedStore.Step : TimedStore → Event → Option Reply → TimedStore → Prop where
  /-- Most commands leave the deadlines alone. -/
  | values {t : TimedStore} {e : Event} {reply : Option Reply} {v : Store}
      (hstep : t.values.Step e reply v) : Step t e reply { t with values := v }
  /-- A command about deadlines; under memory pressure keys may go before it. -/
  | expiration {t t' : TimedStore} {u : Store} {ctx : Ctx} {argv : List Bytes} {op : Opcode}
      {reply : Reply} (hop : opcodeOf argv = some op) (hpressure : t.values.Loses u)
      (hcalm : ctx.pressure = none → u = t.values)
      (hanswer : TimedStore.answer { t with values := u } ctx (lowered argv) op
        = some (t', reply)) :
      Step t (.command ctx argv) (some reply) t'
  /-- A turn of the timers. -/
  | timers {t : TimedStore} {now : Nat} {stale : Bytes} :
      Step t (.timers now stale) none (t.turn now)

end LiteKV
