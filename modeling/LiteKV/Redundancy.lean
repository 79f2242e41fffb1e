/-
LiteKV.Redundancy — `AppendableFile::RemoveRedundancy` of
`src/persistence.cpp`, the rewriting of a dump file.

The file is the list of the commands read from it. They are grouped by
their second word, `cache_map`. In a first pass over the commands of a key
a queue, `sequential`, is filled and emptied again at every `del`, `set`
and `expireat` that has passed. The second pass runs the queue on five
auxiliary containers, and what the LAST command of the queue worked on is
written as one command.

Whatever ends the function early is a `Fault`: an access out of range, a
pop of an empty deque, the assertion, a number that is not one. `op_type`
is an `Option`, so that reading it unassigned is a fault too. The sums of
`aux_int64` wrap.

The iteration orders of the unordered containers are not specified; they
are arguments, `RewriteOrder`. `GetCurrentSec()` is the argument `now`.
-/
import LiteKV.Net.Commands

namespace LiteKV

open Lib Lib.AssocList

/-- What ends the rewriting early. -/
inductive Fault where
  /-- An index into `argv`, `operands` or `aux_list` that is too large. -/
  | outOfRange
  /-- `pop_front` or `pop_back` of an empty deque. -/
  | emptyDeque
  /-- `assert(op == "set")`. -/
  | assertion
  /-- An exception of `std::stoul` or `std::stoll`. -/
  | notANumber
  /-- `op_type` read before it is assigned. -/
  | unassigned
  deriving DecidableEq

/-- `argv[i]`, for an `i` that may be out of range. -/
def wordAt (argv : List Bytes) (i : Nat) : Except Fault Bytes :=
  match argv[i]? with
  | some word => .ok word
  | none => .error .outOfRange

/-- A value that an exception replaces when it is not there. -/
def orNotANumber {α : Type} : Option α → Except Fault α
  | some n => .ok n
  | none => .error .notANumber

/-! ## Grouping -/

/-- `cache_map`. -/
abbrev CacheMap := List (Bytes × List (List Bytes))

/-- `cache_map[key].push_back(cache)`. -/
def CacheMap.pushBack (m : CacheMap) (key : Bytes) (cache : List Bytes) : CacheMap :=
  match AssocList.find? key m with
  | none => m ++ [(key, [cache])]
  | some commands => reset key (commands ++ [cache]) m

/-- `populate_caches_func` on every command of the file. -/
def populateCaches : CacheMap → List (List Bytes) → Except Fault CacheMap
  | m, [] => .ok m
  | m, cache :: caches => do
      let key ← wordAt cache 1
      populateCaches (m.pushBack key cache) caches

/-! ## The first pass -/

/-- One command of a key: what `sequential` is after it. The queue is emptied
first where `clear_all` is set. -/
def sequentialStep (now : Nat) (sequential : List (List Bytes)) (cmd : List Bytes) :
    Except Fault (List (List Bytes)) := do
  let operation ← wordAt cmd 0
  match Opcode.ofBytes operation with
  | some .expireat =>
      let word ← wordAt cmd 2
      let expireat := (canConvertToUInt64 word).getD now
      if now ≥ expireat then .ok [] else .ok (sequential ++ [cmd])
  | some .del => .ok []
  | some .set => .ok [cmd]
  | _ => .ok (sequential ++ [cmd])

/-- The first pass. -/
def sequentialOf (now : Nat) :
    List (List Bytes) → List (List Bytes) → Except Fault (List (List Bytes))
  | sequential, [] => .ok sequential
  | sequential, cmd :: cmds => do
      let sequential ← sequentialStep now sequential cmd
      sequentialOf now sequential cmds

/-! ## The second pass -/

/-- `OP_TYPE_…`. -/
inductive OpType where
  | list | hash | string | integer | set | other
  deriving DecidableEq

/-- The variables of the second pass, and the commands it has appended. -/
structure Aux where
  list : List Bytes
  hash : List (Bytes × Bytes)
  uset : List Bytes
  string : Bytes
  int64 : Int64
  opType : Option OpType
  appended : List (List Bytes)

namespace Aux

def new : Aux := ⟨[], [], [], [], 0, none, []⟩

/-- `aux_list[std::stoul(idx)] = operands[3]`. -/
def setIndex (aux : Aux) (idx value : Bytes) : Except Fault Aux := do
  let i ← orNotANumber (stoull idx)
  if i < aux.list.length then .ok { aux with list := aux.list.set i value }
  else .error .outOfRange

/-- The loop of `hset`. -/
def setPairs : List (Bytes × Bytes) → List Bytes → Except Fault (List (Bytes × Bytes))
  | hash, [] => .ok hash
  | _, [_] => .error .outOfRange
  | hash, field :: value :: rest => setPairs ((field, value) :: erase field hash) rest

/-- The branch of `incr` and its siblings. A string that is not a number and
not empty is left alone. -/
def count (aux : Aux) (f : Int64 → Except Fault Int64) : Except Fault Aux :=
  let aux := { aux with
    opType := some .integer
    int64 := (canConvertToInt64 aux.string).getD aux.int64 }
  if (canConvertToInt64 aux.string).isSome ∨ aux.string.isEmpty then do
    let n ← f aux.int64
    .ok { aux with string := intToString n.toInt }
  else .ok aux

/-- One command of the queue; `alone` says that it is the only one left. -/
def step (aux : Aux) (alone : Bool) (operands : List Bytes) : Except Fault Aux := do
  let op ← wordAt operands 0
  match Opcode.ofBytes op with
  | some .lpush =>
      .ok { aux with
        opType := some .list
        list := (operands.drop 2).foldl (fun l value => value :: l) aux.list }
  | some .rpush =>
      .ok { aux with
        opType := some .list
        list := (operands.drop 2).foldl (fun l value => l ++ [value]) aux.list }
  | some .lpop =>
      if aux.list.isEmpty then .error .emptyDeque
      else .ok { aux with opType := some .list, list := aux.list.tail }
  | some .rpop =>
      if aux.list.isEmpty then .error .emptyDeque
      else .ok { aux with opType := some .list, list := aux.list.dropLast }
  | some .lsetindex =>
      let idx ← wordAt operands 2
      let value ← wordAt operands 3
      ({ aux with opType := some .list } : Aux).setIndex idx value
  | some .hset =>
      let hash ← setPairs aux.hash (operands.drop 2)
      .ok { aux with opType := some .hash, hash := hash }
  | some .hdel =>
      .ok { aux with
        opType := some .hash
        hash := (operands.drop 2).foldl (fun m field => erase field m) aux.hash }
  | some .sadd =>
      .ok { aux with
        opType := some .set
        uset := (operands.drop 2).foldl (fun m member => m.insert member) aux.uset }
  | some .srem =>
      .ok { aux with
        opType := some .set
        uset := (operands.drop 2).foldl (fun m member => m.erase member) aux.uset }
  | some .append =>
      let value ← wordAt operands 2
      .ok { aux with opType := some .string, string := aux.string ++ value }
  | some .incr => aux.count fun n => .ok (n + 1)
  | some .decr => aux.count fun n => .ok (n - 1)
  | some .incrby => aux.count fun n => do
      let word ← wordAt operands 2
      let change ← orNotANumber (stoll word)
      .ok (n + Int64.ofInt change)
  | some .decrby => aux.count fun n => do
      let word ← wordAt operands 2
      let change ← orNotANumber (stoll word)
      .ok (n - Int64.ofInt change)
  | some .set =>
      if alone then
        .ok { aux with opType := some .other, appended := aux.appended ++ [operands] }
      else
        let value ← wordAt operands 2
        .ok { aux with opType := some .other, string := value }
  | _ => .error .assertion

/-- The second pass over the queue. -/
def simulate : Aux → List (List Bytes) → Except Fault Aux
  | aux, [] => .ok aux
  | aux, operands :: sequential => do
      let aux ← aux.step sequential.isEmpty operands
      simulate aux sequential

end Aux

/-- The orders in which the unordered containers are iterated. -/
structure RewriteOrder where
  caches : CacheMap → CacheMap
  hash : Bytes → List (Bytes × Bytes) → List (Bytes × Bytes)
  uset : Bytes → List Bytes → List Bytes
  caches_perm : ∀ m, (caches m).Perm m
  hash_perm : ∀ key m, (hash key m).Perm m
  uset_perm : ∀ key m, (uset key m).Perm m

/-- The commands written for a key. -/
def Aux.restore (aux : Aux) (order : RewriteOrder) (key : Bytes) :
    Except Fault (List (List Bytes)) :=
  match aux.opType with
  | none => .error .unassigned
  | some .list => .ok (aux.appended ++ [ascii "rpush" :: key :: aux.list])
  | some .hash =>
      .ok (aux.appended ++
        [ascii "hset" :: key :: (order.hash key aux.hash).flatMap fun e => [e.1, e.2]])
  | some .set => .ok (aux.appended ++ [ascii "sadd" :: key :: order.uset key aux.uset])
  | some .integer => .ok (aux.appended ++ [[ascii "set", key, aux.string]])
  | some .string => .ok (aux.appended ++ [[ascii "set", key, aux.string]])
  | some .other => .ok aux.appended

/-- The commands of one key. -/
def rewriteKey (now : Nat) (order : RewriteOrder) (key : Bytes) (commands : List (List Bytes)) :
    Except Fault (List (List Bytes)) := do
  let sequential ← sequentialOf now [] commands
  if sequential.isEmpty then .ok []
  else do
    let aux ← Aux.new.simulate sequential
    aux.restore order key

/-- The keys one after the other. -/
def rewriteKeys (now : Nat) (order : RewriteOrder) : CacheMap → Except Fault (List (List Bytes))
  | [] => .ok []
  | item :: items => do
      let cmds ← rewriteKey now order item.1 item.2
      let rest ← rewriteKeys now order items
      .ok (cmds ++ rest)

/-- `RemoveRedundancy`: the commands that are appended to the new file. -/
def removeRedundancy (now : Nat) (order : RewriteOrder) (file : List (List Bytes)) :
    Except Fault (List (List Bytes)) := do
  let cacheMap ← populateCaches [] file
  rewriteKeys now order (order.caches cacheMap)

end LiteKV
