/-
LiteKV.Mapping — `LiteKVLoad` of `src/lkvdb.cpp` over its mapping, with
`cursor` and `remain`.

`LiteKV.Lkvdb` reads the list of the bytes that remain. Here the pointer and
the count are what the code has, every dereference, every string built from
the mapping and every `Advance` is in the cursor's log, and the loops count
as theirs do: up to a number that comes from the file, and `idx`, which
starts at 1 and is compared with `<=`, past the largest `size_t` to 0. A
loop takes fuel, and `none` is one that has not ended.

A byte outside the mapping is read as 0; the log shows that it was.
`GetCurrentMs()` is called once for each record, so the time is a function
of the record.
-/
import LiteKV.Lkvdb
import LiteKV.Lib.Cursor

namespace LiteKV

open Lib.Cursors

/-- What has been done when the value of a record is in the store: a key that
expires has got its timer. -/
def LoadState.stored (s : LoadState) (now : Nat) (exp : Bool × Nat) (key : Bytes)
    (holder : KVContainer) : LoadState :=
  let s := { s with holder := holder }
  let interval := (exp.2 + 2 ^ 64 - now) % 2 ^ 64
  if (!exp.1 || exp.2 > now) && exp.1 then
    s.addTimerEventToKey now interval (StaticString.toStdString ⟨key⟩)
  else s

/-- A mapped file: its length is a `size_t`. -/
structure Mapping where
  bytes : Bytes
  fits : bytes.length < 2 ^ 64

namespace Mapping

variable (m : Mapping)

/-- `*cursor`. -/
def byte (c : Cursor) : UInt8 := m.bytes[c.pos]?.getD 0

/-- `*(uint64_t *)cursor`. -/
def word (c : Cursor) : Nat := (decodeFixed64BitInteger (m.bytes.drop c.pos)).toNat

/-- The bytes a string is built of. -/
def slice (c : Cursor) (len : Nat) : Bytes := (m.bytes.drop c.pos).take len

/-- The loop of `DecodeInteger`. -/
def decodeLoop : (fuel shift valen : Nat) → Cursor → Nat × Cursor
  | 0, _, valen, c => (valen, c)
  | fuel + 1, shift, valen, c =>
      if c.remain < 1 then (valen, c)
      else
        let byte := (m.byte c).toNat
        let c := (c.read 1).advance 1
        if byte ≥ 0b10000000 then
          decodeLoop fuel (shift + 7) (valen ||| (((byte % 128) <<< shift) % 2 ^ 64)) c
        else (valen ||| ((byte <<< shift) % 2 ^ 64), c)

/-- `DecodeInteger`. -/
def decodeInteger (c : Cursor) : Nat × Cursor := m.decodeLoop 10 0 0 c

/-- `DecodeStdString` and `DecodeStaticString`. -/
def decodeStdString (c : Cursor) : Bytes × Cursor :=
  let strLen := m.decodeInteger c
  let c := strLen.2
  if strLen.1 = 0 ∨ c.remain < strLen.1 then ([], c)
  else (m.slice c strLen.1, (c.copy strLen.1).advance strLen.1)

/-- The body of `DecodeDList`'s loop. -/
def nextElem (ans : ListObject) (c : Cursor) : Option ListObject × Cursor :=
  let elem := m.decodeStdString c
  (if elem.1.isEmpty then none else some (ans.push false elem.1), elem.2)

/-- The body of `DecodeHashDict`'s loop. -/
def nextField (ans : DictObject) (c : Cursor) : Option DictObject × Cursor :=
  let key := m.decodeStdString c
  if key.1.isEmpty then (none, key.2)
  else
    let value := m.decodeStdString key.2
    (if value.1.isEmpty then none else some (ans.update key.1 value.1).1, value.2)

/-- The body of `DecodeHashSet`'s loop. -/
def nextMember (ans : SetObject) (c : Cursor) : Option SetObject × Cursor :=
  let elem := m.decodeStdString c
  (if elem.1.isEmpty then none else some (ans.insert elem.1).1, elem.2)

/-- `DecodeDList`. -/
def decodeDList (fuel : Nat) (c : Cursor) : Option (ListObject × Cursor) :=
  let count := m.decodeInteger c
  walk m.nextElem fuel 0 count.1 .new count.2

/-- `DecodeHashDict`. -/
def decodeHashDict (fuel : Nat) (c : Cursor) : Option (DictObject × Cursor) :=
  let count := m.decodeInteger c
  walk m.nextField fuel 0 count.1 .new count.2

/-- `DecodeHashSet`. -/
def decodeHashSet (fuel : Nat) (c : Cursor) : Option (SetObject × Cursor) :=
  let count := m.decodeInteger c
  walk m.nextMember fuel 0 count.1 .new count.2

/-- The value of a record and its place in the store. -/
def loadValue (fuel : Nat) (type : UInt8) (live : Bool) (now : Nat) (key : Key) (h : KVContainer)
    (c : Cursor) : Option (KVContainer × Cursor) :=
  if type = 1 then
    let val := m.decodeInteger c
    some (if live then h.setInt now key (Int64.ofNat val.1) else h, val.2)
  else if type = 2 then
    let str := m.decodeStdString c
    some (if live then h.setString now key str.1 else h, str.2)
  else if type = 3 then
    (m.decodeDList fuel c).map fun li =>
      (if live then li.1.toList.foldl (fun h item => (h.listPush now key false [item]).1) h else h,
        li.2)
  else if type = 4 then
    (m.decodeHashDict fuel c).map fun hd =>
      (if live then hd.1.allEntries.foldl (fun h item => (h.hashUpdateKV now key [item]).1) h
        else h, hd.2)
  else
    (m.decodeHashSet fuel c).map fun hs =>
      (if live then hs.1.allKeys.foldl (fun h item => (h.setAddItem now key [item]).1) h else h,
        hs.2)

/-- The expiration of a record, flag and time; `none` when the eight bytes are
missing. -/
def loadExpiration (c : Cursor) : Option (Bool × Nat) × Cursor :=
  let expireFlag := m.byte c
  let c := (c.read 1).advance 1
  if expireFlag = 0 then (some (false, 0), c)
  else if c.remain < 8 then (none, c)
  else (some (true, m.word c), (c.read 8).advance 8)

/-- The end of a record, with its callback; the flag says that the next turn
follows, otherwise the function has returned. -/
def endItem (len idx : Nat) (s : LoadState) (c : Cursor) : LoadState × Cursor × Bool :=
  if c.remain < 1 then (s, c, false)
  else
    let endFlag := m.byte c
    let c := (c.read 1).advance 1
    if endFlag ≠ 0xFE then (s, c, false)
    else ({ s with calls := s.calls ++ [(len, idx)] }, c, true)

/-- The rest of a record, from its key on. -/
def loadItem (fuel now len idx : Nat) (type : UInt8) (exp : Bool × Nat) (s : LoadState)
    (c : Cursor) : Option (LoadState × Cursor × Bool) :=
  let key := m.decodeStdString c
  let value := m.loadValue fuel type (!exp.1 || exp.2 > now) now ⟨key.1⟩ s.holder key.2
  value.map fun v => m.endItem len idx (s.stored now exp key.1 v.1) v.2

/-- One turn of the loop of `LiteKVLoad`. -/
def loadRecord (fuel now len idx : Nat) (s : LoadState) (c : Cursor) :
    Option (LoadState × Cursor × Bool) :=
  if c.remain < 1 then some (s, c, false)
  else
    let startFlag := m.byte c
    let c := c.read 1
    if startFlag ≠ 0xFF then some (s, c, false)
    else
      let c := c.advance 1
      if c.remain < 1 then some (s, c, false)
      else
        let type := m.byte c
        let c := (c.read 1).advance 1
        if type < 1 ∨ 5 < type then some (s, c, false)
        else if c.remain < 1 then some (s, c, false)
        else
          match m.loadExpiration c with
          | (none, c) => some (s, c, false)
          | (some exp, c) => m.loadItem fuel now len idx type exp s c

/-- The loop of `LiteKVLoad`. -/
def loadRecords (clock : Nat → Nat) (len : Nat) : (fuel idx : Nat) → LoadState → Cursor →
    Option (LoadState × Cursor × Bool)
  | 0, _, _, _ => none
  | fuel + 1, idx, s, c =>
      if idx ≤ len then
        match m.loadRecord (fuel + 1) (clock idx) len idx s c with
        | none => none
        | some (s, c, false) => some (s, c, false)
        | some (s, c, true) => loadRecords clock len fuel ((idx + 1) % 2 ^ 64) s c
      else some (s, c, true)

/-- `LiteKVLoad` of a mapped file. -/
def liteKVLoad (clock : Nat → Nat) (fuel : Nat) (s : LoadState) :
    Option (LoadState × Cursor × Bool) :=
  let c := Cursor.start m.bytes.length
  if c.remain < 10 then some (s, c, false)
  else
    let magic := m.slice c 6
    let c := c.read 10
    if magic ≠ ascii "LITEKV" then some (s, c, false)
    else
      let c := c.advance 10
      if c.remain < 8 then some (s, c, false)
      else m.loadRecords clock (m.word c) fuel 1 s ((c.read 8).advance 8)

end Mapping

end LiteKV
