/-
LiteKV.Core — the store, `KVContainer` of `src/core.h` and `src/core.cpp`.

A bucket's hash map is the list of its entries; the order of that list is
the model's own, and whatever iterates over a map takes the iteration order
as an argument. Keys are compared with `StaticString`'s `operator==`.

Every operation looks its key up and then inserts a new object, replaces
the object that is there, or deletes it: `find`, `insertNew`, `modify` and
`delete` are the only functions that touch the buckets. `errcode`, which
the source returns through a reference, is the last component of a result.

Allocation is taken to succeed. `GetCurrentMs()` is the argument `now`.
-/
import LiteKV.ValueObject
import LiteKV.Num

namespace LiteKV

open Lib Lib.AssocList Lib.Buckets

/-- `Key`. -/
abbrev Key := StaticString

/-- `kOkCode` and the other codes; `unset` is a code that no branch assigned. -/
inductive ErrCode where
  | unset
  | ok
  | fail
  | keyNotFound
  | wrongType
  | outOfRange
  | overflow
  deriving DecidableEq, Repr

/-- `kBucketSize`. -/
abbrev kBucketSize : Nat := 512

/-- `KVContainer`. -/
structure KVContainer where
  bucket : List (List (Key × ValueObject))
  keysPool : List Key

namespace KVContainer

/-- A new container. -/
def new : KVContainer := ⟨List.replicate kBucketSize [], []⟩

/-- `GetBucket`. -/
def bucketIdx (key : Key) : Nat := key.hash % kBucketSize

/-- `bucket.content.find(key)`. -/
def find (h : KVContainer) (key : Key) : Option ValueObject :=
  ((bucketAt h.bucket (bucketIdx key)).find? fun e => e.1.eq key).map Prod.snd

/-- `bucket.content[key] = obj` for a key that is not there, and its entry in
`keys_pool_`. -/
def insertNew (h : KVContainer) (key : Key) (obj : ValueObject) : KVContainer :=
  { bucket := h.bucket.set (bucketIdx key) ((key, obj) :: bucketAt h.bucket (bucketIdx key))
    keysPool := h.keysPool ++ [key] }

/-- Changing the object of a key that is there. -/
def modify (h : KVContainer) (key : Key) (obj : ValueObject) : KVContainer :=
  { h with
    bucket := h.bucket.set (bucketIdx key) ((bucketAt h.bucket (bucketIdx key)).map fun e =>
      if e.1.eq key then (e.1, obj) else e) }

/-- `Delete(const Key &)`. -/
def delete (h : KVContainer) (key : Key) : KVContainer × Bool :=
  match h.find key with
  | none => (h, false)
  | some _ =>
      ({ bucket := h.bucket.set (bucketIdx key)
          ((bucketAt h.bucket (bucketIdx key)).eraseP fun e => e.1.eq key)
         keysPool := h.keysPool.filter fun k => !k.eq key }, true)

/-- `Delete(const std::vector<std::string> &)`. -/
def deleteAll (h : KVContainer) : List Bytes → KVContainer × Nat
  | [] => (h, 0)
  | key :: keys =>
      let r := h.delete (.ofStdString key)
      let rs := r.1.deleteAll keys
      (rs.1, (if r.2 then 1 else 0) + rs.2)

/-- `KeyExists`. -/
def keyExists (h : KVContainer) (key : Key) : Bool := (h.find key).isSome

/-- `KeyExists(const std::vector<std::string> &)`. -/
def countExisting (h : KVContainer) (keys : List Bytes) : Nat :=
  (keys.filter fun k => h.keyExists (.ofStdString k)).length

/-- `NumItems`. -/
def numItems (h : KVContainer) : Nat := (h.bucket.map List.length).sum

/-- `QueryObjectType`; `none` is -1. -/
def queryObjectType (h : KVContainer) (key : Key) : Option UInt8 :=
  (h.find key).map fun o => o.payload.objectType

/-- Put a value under a key, whatever it held before. -/
def put (h : KVContainer) (key : Key) (obj : ValueObject) : KVContainer :=
  match h.find key with
  | none => h.insertNew key obj
  | some _ => h.modify key obj

/-- The part all typed operations share: a key that must be there and have the
right type, whose object is visited and replaced. -/
def onType {α β : Type} (proj : Payload → Option α) (h : KVContainer) (now : Nat) (key : Key)
    (missing : β) (f : α → Payload × β) : KVContainer × β × ErrCode :=
  match h.find key with
  | none => (h, missing, .keyNotFound)
  | some obj =>
      match proj obj.payload with
      | none => (h, missing, .wrongType)
      | some x =>
          let r := f x
          (h.modify key ⟨r.1, now⟩, r.2, .ok)

/-- The part the operations share that create their key: `fresh` is the new
object's content, to which `f` is applied like to an existing one. -/
def createOrOnType {α β : Type} (proj : Payload → Option α) (fresh : α) (h : KVContainer)
    (now : Nat) (key : Key) (missing : β) (f : α → Payload × β) : KVContainer × β × ErrCode :=
  match h.find key with
  | none =>
      let r := f fresh
      (h.insertNew key ⟨r.1, now⟩, r.2, .ok)
  | some obj =>
      match proj obj.payload with
      | none => (h, missing, .wrongType)
      | some x =>
          let r := f x
          (h.modify key ⟨r.1, now⟩, r.2, .ok)

/-! ## Integers and strings -/

/-- `SetInt`. -/
def setInt (h : KVContainer) (now : Nat) (key : Key) (intval : Int64) : KVContainer :=
  h.put key ⟨.int intval, now⟩

/-- `SetString`. -/
def setString (h : KVContainer) (now : Nat) (key : Key) (value : Bytes) : KVContainer :=
  h.put key ⟨.string value, now⟩

/-- `IncrIntBy` and `DecrIntBy`: `change` is the signed change, `bad` the
overflow test. -/
def addInt (h : KVContainer) (now : Nat) (key : Key) (change : Int64) (bad : Int64 → Bool) :
    KVContainer × Int64 × ErrCode :=
  match h.find key with
  | none => (h.insertNew key ⟨.int change, now⟩, change, .ok)
  | some obj =>
      match obj.payload.asInt with
      | none => (h, 0, .wrongType)
      | some val =>
          if bad val then (h.modify key ⟨.int val, now⟩, 0, .overflow)
          else (h.modify key ⟨.int (val + change), now⟩, val + change, .ok)

/-- `IncrIntBy`, for `0 <= increment`. -/
def incrIntBy (h : KVContainer) (now : Nat) (key : Key) (increment : Int64) :
    KVContainer × Int64 × ErrCode :=
  h.addInt now key increment fun val => val.toInt > 2 ^ 63 - 1 - increment.toInt

/-- `DecrIntBy`, for `0 <= decrement`. -/
def decrIntBy (h : KVContainer) (now : Nat) (key : Key) (decrement : Int64) :
    KVContainer × Int64 × ErrCode :=
  h.addInt now key (-decrement) fun val => val.toInt < -2 ^ 63 + decrement.toInt

/-- `StrLen`: the last line of the source compares `errcode` instead of
assigning it. -/
def strLen (h : KVContainer) (now : Nat) (key : Key) : KVContainer × Nat × ErrCode :=
  match h.find key with
  | none => (h, 0, .keyNotFound)
  | some obj =>
      match obj.payload with
      | .int v => (h.modify key ⟨.int v, now⟩, (intToString v.toInt).length, .ok)
      | .string s => (h.modify key ⟨.string s, now⟩, s.length, .ok)
      | _ => (h, 0, .unset)

/-- `Get`. -/
def get (h : KVContainer) (now : Nat) (key : Key) : KVContainer × Option Payload × ErrCode :=
  match h.find key with
  | none => (h, none, .keyNotFound)
  | some obj =>
      match obj.payload with
      | .int v => (h.modify key ⟨.int v, now⟩, some (.int v), .ok)
      | .string s => (h.modify key ⟨.string s, now⟩, some (.string s), .ok)
      | _ => (h, none, .wrongType)

/-- `Append`. -/
def append (h : KVContainer) (now : Nat) (key : Key) (val : Bytes) : KVContainer × Nat × ErrCode :=
  match h.find key with
  | none => (h.insertNew key ⟨.string val, now⟩, val.length, .ok)
  | some obj =>
      match obj.payload with
      | .string s => (h.modify key ⟨.string (s ++ val), now⟩, (s ++ val).length, .ok)
      | .int v =>   -- the number becomes a string
          (h.modify key ⟨.string (intToString v.toInt ++ val), now⟩,
            (intToString v.toInt ++ val).length, .ok)
      | _ => (h, 0, .wrongType)

/-! ## Lists -/

/-- Pushing several values, in order. -/
def pushAll (o : ListObject) (left : Bool) (values : List Bytes) : ListObject :=
  values.foldl (fun o v => o.push left v) o

/-- `ListPushAux` on a vector, for `LeftPush` and `RightPush`; the overload for
one value is the same with a vector of one. -/
def listPush (h : KVContainer) (now : Nat) (key : Key) (left : Bool) (values : List Bytes) :
    KVContainer × Nat × ErrCode :=
  h.createOrOnType Payload.asList .new now key 0 fun o =>
    (.list (pushAll o left values), (pushAll o left values).length)

/-- `ListPopAux`, for `LeftPop` and `RightPop`. -/
def listPop (h : KVContainer) (now : Nat) (key : Key) (left : Bool) :
    KVContainer × DynamicString × ErrCode :=
  h.onType Payload.asList now key none fun o => (.list (o.pop left).1, (o.pop left).2)

/-- `ListLen`. -/
def listLen (h : KVContainer) (now : Nat) (key : Key) : KVContainer × Nat × ErrCode :=
  h.onType Payload.asList now key 0 fun o => (.list o, o.length)

/-- `index + list_len` for a negative index, in `int`. -/
def normIndex (index : Int) (len : Nat) : Int :=
  if index < 0 then DList.toInt32 (index + DList.toInt32 len) else index

/-- `ListItemAtIndex`. -/
def listItemAtIndex (h : KVContainer) (now : Nat) (key : Key) (index : Int) :
    KVContainer × DynamicString × ErrCode :=
  match h.find key with
  | none => (h, none, .keyNotFound)
  | some obj =>
      match obj.payload.asList with
      | none => (h, none, .wrongType)
      | some o =>
          let index := normIndex index o.length
          if index < 0 then (h, none, .fail)
          else
            let h := h.modify key ⟨.list o, now⟩
            match o.getAt index.toNat with
            | some x => (h, x, .ok)
            | none => (h, none, .fail)

/-- `ListSetItemAtIndex`; the visit time is written only on success. -/
def listSetItemAtIndex (h : KVContainer) (now : Nat) (key : Key) (index : Int) (val : Bytes) :
    KVContainer × Bool × ErrCode :=
  match h.find key with
  | none => (h, false, .keyNotFound)
  | some obj =>
      match obj.payload.asList with
      | none => (h, false, .wrongType)
      | some o =>
          let index := normIndex index o.length
          if index < 0 then (h, false, .fail)
          else
            match o.setAt index.toNat val with
            | some o' => (h.modify key ⟨.list o', now⟩, true, .ok)
            | none => (h, false, .outOfRange)

/-- `ListRangeCommonOperation`, for `ListRange` and `ListRangeAsStdString`; the
two early returns leave the visit time alone. -/
def listRangeCommonOperation {β : Type} (range : DList → Int → Int → Except DListError (List β))
    (h : KVContainer) (now : Nat) (key : Key) (begin_ end_ : Int) :
    KVContainer × Except DListError (List β) × ErrCode :=
  match h.find key with
  | none => (h, .ok [], .keyNotFound)
  | some obj =>
      match obj.payload.asList with
      | none => (h, .ok [], .wrongType)
      | some o =>
          let begin_ := normIndex begin_ o.length
          let end_ := normIndex end_ o.length
          if (begin_ > 0 ∧ end_ < 0) ∨ (begin_ < 0 ∧ end_ < 0) then (h, .ok [], .ok)
          else
            let begin_ := if begin_ < 0 ∧ end_ > 0 then 0 else begin_
            (h.modify key ⟨.list o, now⟩, range o.list begin_ end_, .ok)

/-- `ListRange`. -/
def listRange (h : KVContainer) (now : Nat) (key : Key) (begin_ end_ : Int) :
    KVContainer × Except DListError (List DynamicString) × ErrCode :=
  listRangeCommonOperation DList.rangeBetween h now key begin_ end_

/-- `ListRangeAsStdString`. -/
def listRangeAsStdString (h : KVContainer) (now : Nat) (key : Key) (begin_ end_ : Int) :
    KVContainer × Except DListError (List Bytes) × ErrCode :=
  listRangeCommonOperation DList.rangeBetweenAsStdString h now key begin_ end_

/-! ## Dictionaries -/

/-- Updating several fields, in order. -/
def updateAll (o : DictObject) (fvs : List (Bytes × Bytes)) : DictObject :=
  fvs.foldl (fun o fv => (o.update fv.1 fv.2).1) o

/-- `HashUpdateKV` on vectors of fields and values, given as pairs; the number
of updates that did not fail. The overload for one field is the same with one
pair. -/
def hashUpdateKV (h : KVContainer) (now : Nat) (key : Key) (fvs : List (Bytes × Bytes)) :
    KVContainer × Nat × ErrCode :=
  h.createOrOnType Payload.asHash .new now key 0 fun o => (.hash (updateAll o fvs), fvs.length)

/-- `HashUpdateKV` as it is called: vectors of different sizes are refused
before the key is looked at. -/
def hashUpdateVectors (h : KVContainer) (now : Nat) (key : Key) (fields values : List Bytes) :
    KVContainer × Nat × ErrCode :=
  if fields.length ≠ values.length then (h, 0, .fail)
  else h.hashUpdateKV now key (fields.zip values)

/-- `HashGetValue` on one field. -/
def hashGetValue (h : KVContainer) (now : Nat) (key : Key) (field : Bytes) :
    KVContainer × DynamicString × ErrCode :=
  let r := h.onType Payload.asHash now key none fun o => (.hash (o.at_ field).1, (o.at_ field).2)
  match r.2.2, r.2.1 with
  | .ok, none => (r.1, none, .keyNotFound)   -- `At` threw
  | code, v => (r.1, v, code)

/-- Reading several fields, in order. -/
def atAll (o : DictObject) : List Bytes → DictObject × List DynamicString
  | [] => (o, [])
  | f :: fs =>
      let r := o.at_ f
      let rs := atAll r.1 fs
      (rs.1, r.2 :: rs.2)

/-- `HashGetValue` on a vector of fields. -/
def hashGetValues (h : KVContainer) (now : Nat) (key : Key) (fields : List Bytes) :
    KVContainer × List DynamicString × ErrCode :=
  h.onType Payload.asHash now key [] fun o => (.hash (atAll o fields).1, (atAll o fields).2)

/-- Erasing several fields, in order, and how many were there. -/
def eraseFields (o : DictObject) : List Bytes → DictObject × Nat
  | [] => (o, 0)
  | f :: fs =>
      let r := o.erase f
      let rs := eraseFields r.1 fs
      (rs.1, (if r.2 then 1 else 0) + rs.2)

/-- `HashDelField` on a vector. -/
def hashDelField (h : KVContainer) (now : Nat) (key : Key) (fields : List Bytes) :
    KVContainer × Nat × ErrCode :=
  h.onType Payload.asHash now key 0 fun o =>
    (.hash (eraseFields o fields).1, (eraseFields o fields).2)

/-- `HashExistField`. -/
def hashExistField (h : KVContainer) (now : Nat) (key : Key) (field : Bytes) :
    KVContainer × Bool × ErrCode :=
  h.onType Payload.asHash now key false fun o => (.hash o, o.dict.checkExists field)

/-- `HashGetAllEntries`: each field followed by its value. -/
def hashGetAllEntries (h : KVContainer) (now : Nat) (key : Key) :
    KVContainer × List DynamicString × ErrCode :=
  h.onType Payload.asHash now key [] fun o =>
    (.hash o, o.allEntries.flatMap fun e => [some e.1, some e.2])

/-- `HashGetAllFields`. -/
def hashGetAllFields (h : KVContainer) (now : Nat) (key : Key) :
    KVContainer × List DynamicString × ErrCode :=
  h.onType Payload.asHash now key [] fun o => (.hash o, o.dict.allKeys.map some)

/-- `HashGetAllValues`. -/
def hashGetAllValues (h : KVContainer) (now : Nat) (key : Key) :
    KVContainer × List DynamicString × ErrCode :=
  h.onType Payload.asHash now key [] fun o => (.hash o, o.dict.allValues.map some)

/-- `HashLen`. -/
def hashLen (h : KVContainer) (now : Nat) (key : Key) : KVContainer × Nat × ErrCode :=
  h.onType Payload.asHash now key 0 fun o => (.hash o, o.count)

/-! ## Sets -/

/-- Inserting several members, in order, and how many were new. -/
def insertAll (o : SetObject) : List Bytes → SetObject × Nat
  | [] => (o, 0)
  | m :: ms =>
      let r := o.insert m
      let rs := insertAll r.1 ms
      (rs.1, (if r.2 = .newAdded then 1 else 0) + rs.2)

/-- `SetAddItem` on a vector. -/
def setAddItem (h : KVContainer) (now : Nat) (key : Key) (members : List Bytes) :
    KVContainer × Nat × ErrCode :=
  h.createOrOnType Payload.asSet .new now key 0 fun o =>
    (.set (insertAll o members).1, (insertAll o members).2)

/-- `SetIsMember`. -/
def setIsMember (h : KVContainer) (now : Nat) (key : Key) (member : Bytes) :
    KVContainer × Bool × ErrCode :=
  h.onType Payload.asSet now key false fun o => (.set o, o.set.checkExists member)

/-- `SetMIsMember`. -/
def setMIsMember (h : KVContainer) (now : Nat) (key : Key) (members : List Bytes) :
    KVContainer × List Bool × ErrCode :=
  match h.find key with
  | none => (h, members.map fun _ => false, .keyNotFound)
  | some _ =>
      h.onType Payload.asSet now key [] fun o => (.set o, members.map o.set.checkExists)

/-- Erasing several members, in order, and how many were there. -/
def eraseMembers (o : SetObject) : List Bytes → SetObject × Nat
  | [] => (o, 0)
  | m :: ms =>
      let r := o.erase m
      let rs := eraseMembers r.1 ms
      (rs.1, (if r.2 then 1 else 0) + rs.2)

/-- `SetRemoveMembers`. -/
def setRemoveMembers (h : KVContainer) (now : Nat) (key : Key) (members : List Bytes) :
    KVContainer × Nat × ErrCode :=
  h.onType Payload.asSet now key 0 fun o =>
    (.set (eraseMembers o members).1, (eraseMembers o members).2)

/-- `SetRemoveMembers(const std::string &, …)`, the overload of `core.h` for a key
by its name: it returns the count as a `bool`. -/
def setRemoveMembersByName (h : KVContainer) (now : Nat) (key : Key) (members : List Bytes) :
    KVContainer × Bool × ErrCode :=
  let r := h.setRemoveMembers now key members
  (r.1, r.2.1 != 0, r.2.2)

/-- `SetGetMembers`. -/
def setGetMembers (h : KVContainer) (now : Nat) (key : Key) :
    KVContainer × List DynamicString × ErrCode :=
  h.onType Payload.asSet now key [] fun o => (.set o, o.allKeys.map some)

/-- `SetGetMemberCount`. -/
def setGetMemberCount (h : KVContainer) (now : Nat) (key : Key) : KVContainer × Nat × ErrCode :=
  h.onType Payload.asSet now key 0 fun o => (.set o, o.count)

/-! ## The whole store -/

/-- `RecoverCommandFromValue`; `none` when the key is not there. -/
def recoverCommandFromValue (h : KVContainer) (key : Bytes) : Option (List Bytes) :=
  (h.find (.ofStdString key)).map fun obj =>
    match obj.payload with
    | .int v => [ascii "set", key, intToString v.toInt]
    | .string s => [ascii "set", key, s]
    | .list o => ascii "rpush" :: key :: o.toList
    | .hash o => ascii "hset" :: key :: o.allEntries.flatMap fun e => [e.1, e.2]
    | .set o => ascii "sadd" :: key :: o.allKeys

/-- The objects of the store. -/
def objects (h : KVContainer) : List Payload := h.bucket.flatten.map fun e => e.2.payload

/-- `Overview`. -/
def overview (h : KVContainer) : List Bytes :=
  let ps := h.objects
  let count (f : Payload → Bool) : Bytes := natToString (ps.filter f).length
  let total (f : Payload → Nat) : Bytes := natToString (ps.map f).sum
  [ascii "Number of int:", count fun p => p.objectType == 1,
   ascii "Number of string:", count fun p => p.objectType == 2,
   ascii "Number of list:", count fun p => p.objectType == 3,
   ascii "Number of elements in list:",
     total fun p => match p with
       | .list o => o.length
       | _ => 0,
   ascii "Number of hash:", count fun p => p.objectType == 4,
   ascii "Number of elements in hash:",
     total fun p => match p with
       | .hash o => o.count
       | _ => 0,
   ascii "Number of set:", count fun p => p.objectType == 5,
   ascii "Number of elements in set:",
     total fun p => match p with
       | .set o => o.count
       | _ => 0]

/-! ## Eviction -/

/-- `EVICTION_POLICY_RANDOM` and `EVICTION_POLICY_LRU`. -/
inductive EvictionPolicy where
  | random
  | lru
  deriving DecidableEq

/-- What an eviction meets outside the store: the numbers drawn, what reading a
key gives whose storage is gone, and the milliseconds since it started when it
looks at the clock. -/
structure EvictionEnv where
  rand : Nat → Nat
  dangling : Nat → Bytes
  elapsed : Nat → Nat

/-- `RandIntValue(0, size - 1)`, the `i`-th draw. The bound is an `int`; pools of fewer
than `2 ^ 31` keys are meant. -/
def EvictionEnv.draw (e : EvictionEnv) (i size : Nat) : Nat := e.rand i % size

/-- One turn of `KeyEvictionRandom`. The name is read through the reference
`keys_pool_[idx]` after `Delete` moved the later keys down: it is the next
key's, or what is left of the last one. -/
def evictOne (h : KVContainer) (e : EvictionEnv) (i : Nat) : KVContainer × List Bytes :=
  let idx := e.draw i h.keysPool.length
  match h.keysPool[idx]? with
  | none => (h, [])
  | some key =>
      let r := h.delete key
      if r.2 then (r.1, [(r.1.keysPool[idx]?.map StaticString.toStdString).getD (e.dangling i)])
      else (r.1, [])

/-- The loop of `KeyEvictionRandom`. -/
def evictRandom (e : EvictionEnv) : (num : Nat) → (i : Nat) → KVContainer → KVContainer × List Bytes
  | 0, _, h => (h, [])
  | num + 1, i, h =>
      let r := h.evictOne e i
      let rs := evictRandom e num (i + 1) r.1
      (rs.1, r.2 ++ rs.2)

/-- The candidates of `KeyEvictionLruHelper`: ten draws, each key once. -/
def lruCandidates (h : KVContainer) (e : EvictionEnv) (i : Nat) : List Key :=
  (List.range 10).foldl (fun cs j =>
    match h.keysPool[e.draw (10 * i + j) h.keysPool.length]? with
    | none => cs
    | some k => if cs.any fun c => c.eq k then cs else cs ++ [k]) []

/-- `lv_time` of a key. -/
def lvTimeOf (h : KVContainer) (key : Key) : Nat := ((h.find key).map ValueObject.lvTime).getD 0

/-- `std::min_element`: the first of the least recently visited. -/
def leastVisited (h : KVContainer) : List Key → Option Key
  | [] => none
  | c :: cs => some (cs.foldl (fun best k => if h.lvTimeOf k < h.lvTimeOf best then k else best) c)

/-- `KeyEvictionLruHelper`. -/
def evictLruOne (h : KVContainer) (e : EvictionEnv) (i : Nat) : KVContainer × List Bytes :=
  match h.leastVisited (h.lruCandidates e i) with
  | none => (h, [])
  | some key =>
      let r := h.delete key
      if r.2 then (r.1, [key.toStdString]) else (r.1, [])

/-- The loop of `KeyEvictionLru` once `num` is not 0: the count it compares with
`num` is never changed, so it ends when the store is empty or the time is up.
Every turn deletes a key, so the number of keys bounds the turns. -/
def evictLru (e : EvictionEnv) : (fuel : Nat) → (i : Nat) → KVContainer → KVContainer × List Bytes
  | 0, _, h => (h, [])
  | fuel + 1, i, h =>
      if h.keysPool.isEmpty then (h, [])
      else
        let r := h.evictLruOne e i
        if e.elapsed i > 25 then r
        else
          let rs := evictLru e fuel (i + 1) r.1
          (rs.1, r.2 ++ rs.2)

/-- `KeyEviction`. -/
def keyEviction (h : KVContainer) (policy : EvictionPolicy) (n : Nat) (e : EvictionEnv) :
    KVContainer × List Bytes :=
  if h.keysPool.isEmpty then (h, [])
  else
    match policy with
    | .lru => if n = 0 then (h, []) else evictLru e h.keysPool.length 0 h
    | .random => evictRandom e (min h.keysPool.length n) 0 h

end KVContainer

end LiteKV
