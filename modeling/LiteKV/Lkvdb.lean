/-
LiteKV.Lkvdb — the binary dump: `KVContainer::Snapshot` of `src/core.cpp`,
the `Serialize` functions of the values, and `LiteKVLoad` of
`src/lkvdb.cpp`.

A record is

    0xFF  type  flag [8 bytes]  key  value  0xFE

where a key or a string is its length as a variable-length integer and its
bytes, and a collection its number of elements and the elements. An EMPTY
collection is no bytes at all, and the loader's loops over the elements
stop at the first empty string: neither side knows the other's convention.

The order in which a bucket's hash map is iterated is not specified, so
`Snapshot` takes it as an argument, `IterationOrder`. `sExpiresMap` is
declared `static` in the header: `core.cpp`, `lkvdb.cpp` and
`net/commands.cpp` each have their own, and `Snapshot` and the loader take
theirs as arguments.

The loader's cursor is the list of the bytes that remain; its early returns
leave what was done so far. The file is taken to open and map.
-/
import LiteKV.CoreTheorems
import LiteKV.Encoding
import LiteKV.Net.TimeEvent

namespace LiteKV

open Lib Lib.AssocList Lib.Buckets

/-! ## Writing -/

/-- `EncodeVarUnsignedInt64` of a `size_t`. -/
def encodeSize (n : Nat) : Bytes := encodeVarUnsignedInt64 (UInt64.ofNat n)

/-- `SerializeCharBuf`. -/
def serializeCharBuf (data : Bytes) : Bytes :=
  if data.length = 0 then [0] else encodeSize data.length ++ data

/-- `StaticString::Serialize`. -/
def StaticString.serialize (s : StaticString) : Bytes := serializeCharBuf s.buf

/-- `DynamicString::Serialize`: the null buffer has length 0. -/
def DynamicString.serialize (s : DynamicString) : Bytes := serializeCharBuf s.toStdString

/-- `DList::Serialize`; the loop is that of `RangeAsDynaStringVector()`. -/
def ListObject.serialize (o : ListObject) : Bytes :=
  if o.length = 0 then []
  else
    encodeSize o.length ++
      match o.list.elements with
      | .ok xs => xs.flatMap DynamicString.serialize
      | .error _ => []

/-- `HashDict::Serialize`. -/
def DictObject.serialize (o : DictObject) : Bytes :=
  if o.count = 0 then []
  else
    encodeSize o.count ++
      o.allEntries.flatMap fun e => serializeCharBuf e.1 ++ serializeCharBuf e.2

/-- `HashSet::Serialize`. -/
def SetObject.serialize (o : SetObject) : Bytes :=
  if o.count = 0 then []
  else encodeSize o.count ++ o.allKeys.flatMap serializeCharBuf

/-- `ValueObject::Serialize`. -/
def Payload.serialize : Payload → Bytes
  | .int v => encodeVarSignedInt64 v
  | .string s => serializeCharBuf s
  | .list o => o.serialize
  | .hash o => o.serialize
  | .set o => o.serialize

/-- `sExpiresMap` of one translation unit: the event of each key. -/
abbrev ExpiresMap := List (Bytes × Nat)

/-- The entry of one item in `Snapshot`. -/
def snapshotEntry (expires : ExpiresMap) (tev : TimeEventHolder) (key : Key) (value : Payload) :
    Bytes :=
  [0xFF, value.objectType] ++
    (match AssocList.find? key.toStdString expires with
      | some ev =>
          1 :: encodeFixed64BitInteger (.ofNat (((tev.deref ev).map TimeEvent.when).getD 0))
      | none => [0]) ++
    key.serialize ++ value.serialize ++ [0xFE]

/-- An order in which the buckets' hash maps may be iterated. -/
structure IterationOrder (h : KVContainer) where
  buckets : List (List (Key × ValueObject))
  perm : List.Forall₂ List.Perm buckets h.bucket

/-- The order of the model's own lists. -/
def IterationOrder.ofBuckets (h : KVContainer) : IterationOrder h :=
  ⟨h.bucket, List.forall₂_same.mpr fun b _ => List.Perm.refl b⟩

/-- `Snapshot`. -/
def KVContainer.snapshot (h : KVContainer) (order : IterationOrder h) (expires : ExpiresMap)
    (tev : TimeEventHolder) : Bytes :=
  encodeFixed64BitInteger (.ofNat h.numItems) ++
    order.buckets.flatten.flatMap fun e => snapshotEntry expires tev e.1 e.2.payload

/-- The header `LiteKVSave` writes: `LITEKV` and the version in four digits. -/
def magicHeader : Bytes := ascii "LITEKV0001"

/-- What `LiteKVSave` writes to the file. -/
def liteKVSave (buf : Bytes) : Bytes := magicHeader ++ buf

/-! ## Reading -/

/-- The loop of `DecodeInteger`: at most ten bytes of seven bits each. -/
def decodeLoop : (fuel shift valen : Nat) → Bytes → Nat × Bytes
  | 0, _, valen, bs => (valen, bs)
  | _ + 1, _, valen, [] => (valen, [])
  | fuel + 1, shift, valen, b :: bs =>
      if b.toNat ≥ 0b10000000 then
        decodeLoop fuel (shift + 7) (valen ||| (((b.toNat % 128) <<< shift) % 2 ^ 64)) bs
      else (valen ||| ((b.toNat <<< shift) % 2 ^ 64), bs)

/-- `DecodeInteger`. -/
def decodeInteger (bs : Bytes) : Nat × Bytes := decodeLoop 10 0 0 bs

/-- `DecodeStdString`, and the bytes `DecodeStaticString` copies. -/
def decodeStdString (bs : Bytes) : Bytes × Bytes :=
  let r := decodeInteger bs
  if r.1 = 0 ∨ r.2.length < r.1 then ([], r.2) else (r.2.take r.1, r.2.drop r.1)

/-- The loop of `DecodeDList`. -/
def decodeElems : (count : Nat) → ListObject → Bytes → ListObject × Bytes
  | 0, ans, bs => (ans, bs)
  | count + 1, ans, bs =>
      let elem := decodeStdString bs
      if elem.1.isEmpty then (ans, elem.2)
      else decodeElems count (ans.push false elem.1) elem.2

/-- `DecodeDList`. -/
def decodeDList (bs : Bytes) : ListObject × Bytes :=
  let count := decodeInteger bs
  decodeElems count.1 .new count.2

/-- The loop of `DecodeHashDict`. -/
def decodeFields : (count : Nat) → DictObject → Bytes → DictObject × Bytes
  | 0, ans, bs => (ans, bs)
  | count + 1, ans, bs =>
      let key := decodeStdString bs
      if key.1.isEmpty then (ans, key.2)
      else
        let value := decodeStdString key.2
        if value.1.isEmpty then (ans, value.2)
        else decodeFields count (ans.update key.1 value.1).1 value.2

/-- `DecodeHashDict`. -/
def decodeHashDict (bs : Bytes) : DictObject × Bytes :=
  let count := decodeInteger bs
  decodeFields count.1 .new count.2

/-- The loop of `DecodeHashSet`. -/
def decodeMembers : (count : Nat) → SetObject → Bytes → SetObject × Bytes
  | 0, ans, bs => (ans, bs)
  | count + 1, ans, bs =>
      let elem := decodeStdString bs
      if elem.1.isEmpty then (ans, elem.2)
      else decodeMembers count (ans.insert elem.1).1 elem.2

/-- `DecodeHashSet`. -/
def decodeHashSet (bs : Bytes) : SetObject × Bytes :=
  let count := decodeInteger bs
  decodeMembers count.1 .new count.2

/-- The value of a record and its place in the store. A record that has
expired (`live` is false) is read over. -/
def loadValue (type : UInt8) (live : Bool) (now : Nat) (key : Key) (h : KVContainer)
    (bs : Bytes) : KVContainer × Bytes :=
  if type = 1 then
    let val := decodeInteger bs
    (if live then h.setInt now key (Int64.ofNat val.1) else h, val.2)
  else if type = 2 then
    let str := decodeStdString bs
    (if live then h.setString now key str.1 else h, str.2)
  else if type = 3 then
    let li := decodeDList bs
    (if live then li.1.toList.foldl (fun h item => (h.listPush now key false [item]).1) h else h,
      li.2)
  else if type = 4 then
    let hd := decodeHashDict bs
    (if live then hd.1.allEntries.foldl (fun h item => (h.hashUpdateKV now key [item]).1) h else h,
      hd.2)
  else
    let hs := decodeHashSet bs
    (if live then hs.1.allKeys.foldl (fun h item => (h.setAddItem now key [item]).1) h else h, hs.2)

/-- What loading has done: the store, `lkvdb.cpp`'s `sExpiresMap`, the time
events, and the arguments of the calls of `callback`. -/
structure LoadState where
  holder : KVContainer
  expires : ExpiresMap
  tev : TimeEventHolder
  calls : List (Nat × Nat)

/-- `AddTimerEventToKey`. -/
def LoadState.addTimerEventToKey (s : LoadState) (now interval : Nat) (stdKey : Bytes) :
    LoadState :=
  let r := s.tev.createTimeEvent now interval .byReference 1
  { s with tev := r.1, expires := (stdKey, r.2) :: erase stdKey s.expires }

/-- The optional expiration of a record: its flag, its time and the bytes
behind it; `none` when eight bytes are missing. -/
def loadExpiration (bs : Bytes) : Option (Bool × Nat × Bytes) :=
  match bs with
  | [] => none
  | flag :: bs =>
      if flag = 0 then some (false, 0, bs)
      else if bs.length < 8 then none
      else some (true, (decodeFixed64BitInteger bs).toNat, bs.drop 8)

/-- One turn of the loop of `LiteKVLoad`, for record `idx` of `len`. The second
component is the cursor, or `none` when the function returned. -/
def loadRecord (now len idx : Nat) (s : LoadState) (bs : Bytes) : LoadState × Option Bytes :=
  match bs with
  | startFlag :: type :: bs =>
      if startFlag ≠ 0xFF then (s, none)
      else if type < 1 ∨ 5 < type then (s, none)
      else
        match loadExpiration bs with
        | none => (s, none)
        | some (expireFlag, expTimestamp, bs) =>
            let key := decodeStdString bs
            let interval := (expTimestamp + 2 ^ 64 - now) % 2 ^ 64
            let live := !expireFlag || expTimestamp > now
            let v := loadValue type live now ⟨key.1⟩ s.holder key.2
            let s := { s with holder := v.1 }
            let s := if live && expireFlag then
                s.addTimerEventToKey now interval (StaticString.toStdString ⟨key.1⟩) else s
            match v.2 with
            | [] => (s, none)
            | endFlag :: bs =>
                if endFlag ≠ 0xFE then (s, none)
                else ({ s with calls := s.calls ++ [(len, idx)] }, some bs)
  | _ => (s, none)

/-- The loop of `LiteKVLoad`; the flag says that it came to its end. -/
def loadRecords (now len : Nat) : (todo idx : Nat) → LoadState → Bytes → LoadState × Bool
  | 0, _, s, _ => (s, true)
  | todo + 1, idx, s, bs =>
      match loadRecord now len idx s bs with
      | (s, none) => (s, false)
      | (s, some bs) => loadRecords now len todo (idx + 1) s bs

/-- `LiteKVLoad` of a file, into a container, at a time. -/
def liteKVLoad (file : Bytes) (now : Nat) (s : LoadState) : LoadState × Bool :=
  if file.length < 10 then (s, false)
  else if file.take 6 ≠ ascii "LITEKV" then (s, false)
  else
    let bs := file.drop 10
    if bs.length < 8 then (s, false)
    else
      let len := (decodeFixed64BitInteger bs).toNat
      loadRecords now len len 1 s (bs.drop 8)

/-- An empty container, in a process without expirations. -/
def LoadState.new : LoadState := ⟨.new, [], .new, []⟩

end LiteKV
