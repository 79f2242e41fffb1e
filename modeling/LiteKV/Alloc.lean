/-
LiteKV.Alloc — the operations of `src/core.cpp` that write, when an
allocation fails.

`LiteKV.Core` takes allocation to succeed, so that an object always has the
content its type says. Here objects are as `src/valueobject.h` declares
them: a tag, and a pointer that may be null or of another type; a bucket
holds `shared_ptr`s, which may be empty. Reading through a pointer that is
not what the tag says is a `PtrFault`.

Only the allocations are here whose failure the source looks at: the two
in each `Construct...ObjPtr` of `src/valueobject.cpp`, which answers
`bad_alloc` with an empty pointer, and the `new(std::nothrow)` of
`SetString` and `Append`. `Allocs` says how they end, one after another.
`errcode` is the caller's variable: what it holds at the call is an
argument, and stays where nothing assigns it.
-/
import LiteKV.CoreTheorems

namespace LiteKV

open Lib Lib.AssocList Lib.Buckets

/-! ## Objects -/

/-- `ValueObject::ptr`; an integer is the pointer itself. -/
inductive Ptr where
  | null
  | word (intval : Int64)
  | string (s : Bytes)
  | list (o : ListObject)
  | hash (o : DictObject)
  | set (o : SetObject)

/-- `struct ValueObject`. -/
structure RawObject where
  type : UInt8
  lvTime : Nat
  ptr : Ptr

/-- `ValueObjectPtr`; `none` is the empty one. -/
abbrev RawObjectPtr := Option RawObject

/-- What the source does not survive. -/
inductive PtrFault where
  | nullObject
  | badPointer
  deriving DecidableEq, Repr

namespace RawObject

/-- `FreePtr`. -/
def freePtr (obj : RawObject) : RawObject :=
  if obj.type ≠ 1 then { obj with ptr := .null } else obj

/-- `ToInt64`; zero is the null pointer. -/
def toInt64 (obj : RawObject) : Except PtrFault Int64 :=
  if obj.type ≠ 1 then .ok 0
  else
    match obj.ptr with
    | .word v => .ok v
    | .null => .ok 0
    | _ => .error .badPointer

/-- `RetrievePtr(key, DynamicString)`, read through. -/
def asString (obj : RawObject) : Except PtrFault Bytes :=
  match obj.ptr with
  | .string s => .ok s
  | _ => .error .badPointer

/-- `RetrievePtr(key, DList)`. -/
def asList (obj : RawObject) : Except PtrFault ListObject :=
  match obj.ptr with
  | .list o => .ok o
  | _ => .error .badPointer

/-- `RetrievePtr(key, HashDict)`. -/
def asHash (obj : RawObject) : Except PtrFault DictObject :=
  match obj.ptr with
  | .hash o => .ok o
  | _ => .error .badPointer

/-- `RetrievePtr(key, HashSet)`. -/
def asSet (obj : RawObject) : Except PtrFault SetObject :=
  match obj.ptr with
  | .set o => .ok o
  | _ => .error .badPointer

end RawObject

/-- `bucket.content[key]->`. -/
def deref : RawObjectPtr → Except PtrFault RawObject
  | none => .error .nullObject
  | some obj => .ok obj

/-! ## Allocations -/

/-- How the allocations to come end (`true` is success, and behind the end of
the list all succeed), and whether one has failed. -/
structure Allocs where
  outcomes : List Bool
  failed : Bool

/-- One allocation. -/
def Allocs.next (a : Allocs) : Bool × Allocs :=
  match a.outcomes with
  | [] => (true, a)
  | b :: bs => (b, ⟨bs, a.failed || !b⟩)

/-- `ConstructIntObjPtr`. -/
def constructIntObjPtr (a : Allocs) (now : Nat) (intval : Int64) : RawObjectPtr × Allocs :=
  let r := a.next
  (if r.1 then some ⟨1, now, .word intval⟩ else none, r.2)

/-- `ConstructStrObjPtr`, `ConstructDListObjPtr`, `ConstructHashObjPtr` and
`ConstructSetObjPtr`: the content is allocated, then the object. -/
def constructObjPtr (type : UInt8) (content : Ptr) (a : Allocs) (now : Nat) :
    RawObjectPtr × Allocs :=
  let r := a.next
  if r.1 then
    let r' := r.2.next
    (if r'.1 then some ⟨type, now, content⟩ else none, r'.2)
  else (none, r.2)

def constructStrObjPtr (a : Allocs) (now : Nat) (strval : Bytes) : RawObjectPtr × Allocs :=
  constructObjPtr 2 (.string strval) a now

def constructDListObjPtr (a : Allocs) (now : Nat) : RawObjectPtr × Allocs :=
  constructObjPtr 3 (.list .new) a now

def constructHashObjPtr (a : Allocs) (now : Nat) : RawObjectPtr × Allocs :=
  constructObjPtr 4 (.hash .new) a now

def constructSetObjPtr (a : Allocs) (now : Nat) : RawObjectPtr × Allocs :=
  constructObjPtr 5 (.set .new) a now

/-! ## The container -/

/-- `KVContainer`. -/
structure RawContainer where
  bucket : List (List (Key × RawObjectPtr))
  keysPool : List Key

/-- What a function returns. -/
inductive Ret where
  | bool (b : Bool)
  | size (n : Nat)
  | int64 (v : Int64)
  deriving DecidableEq, Repr

/-- How a call ends: its result, `errcode` if it has one, and whether one of its
allocations failed. -/
structure Report where
  ret : Ret
  code : Option ErrCode
  allocFailed : Bool
  deriving DecidableEq, Repr

abbrev WriteResult := Except PtrFault (RawContainer × Report)

namespace RawContainer

/-- `bucket.content.find(key)`. -/
def find (s : RawContainer) (key : Key) : Option RawObjectPtr :=
  ((bucketAt s.bucket (KVContainer.bucketIdx key)).find? fun e => e.1.eq key).map Prod.snd

/-- `bucket.content[key] = obj` for a key that is not there, and its entry in
`keys_pool_`. -/
def insertNew (s : RawContainer) (key : Key) (obj : RawObjectPtr) : RawContainer :=
  { bucket := s.bucket.set (KVContainer.bucketIdx key)
      ((key, obj) :: bucketAt s.bucket (KVContainer.bucketIdx key))
    keysPool := s.keysPool ++ [key] }

/-- Changing the object of a key that is there. -/
def modify (s : RawContainer) (key : Key) (obj : RawObjectPtr) : RawContainer :=
  { s with
    bucket := s.bucket.set (KVContainer.bucketIdx key)
      ((bucketAt s.bucket (KVContainer.bucketIdx key)).map fun e =>
        if e.1.eq key then (e.1, obj) else e) }

variable (s : RawContainer) (now : Nat) (a : Allocs)

/-! ## Integers and strings -/

/-- `SetInt`. -/
def setInt (key : Key) (intval : Int64) : WriteResult :=
  match s.find key with
  | none =>
      let r := constructIntObjPtr a now intval
      match r.1 with
      | none => .ok (s, ⟨.bool false, none, r.2.failed⟩)
      | some obj => .ok (s.insertNew key (some obj), ⟨.bool true, none, r.2.failed⟩)
  | some slot => do
      let obj ← deref slot
      let obj := if obj.type ≠ 1 then obj.freePtr else obj
      .ok (s.modify key (some { obj with type := 1, ptr := .word intval, lvTime := now }),
        ⟨.bool true, none, a.failed⟩)

/-- `SetString`: the old content of a collection is freed before the new one is
allocated. -/
def setString (key : Key) (value : Bytes) : WriteResult :=
  match s.find key with
  | none =>
      let r := constructStrObjPtr a now value
      match r.1 with
      | none => .ok (s, ⟨.bool false, none, r.2.failed⟩)
      | some obj => .ok (s.insertNew key (some obj), ⟨.bool true, none, r.2.failed⟩)
  | some slot => do
      let obj ← deref slot
      if obj.type = 2 then
        let _ ← obj.asString
        .ok (s.modify key (some { obj with type := 2, ptr := .string value, lvTime := now }),
          ⟨.bool true, none, a.failed⟩)
      else
        let obj := if obj.type = 3 ∨ obj.type = 4 ∨ obj.type = 5 then obj.freePtr else obj
        if obj.type = 1 ∨ obj.type = 3 ∨ obj.type = 4 ∨ obj.type = 5 then
          let r := a.next
          if r.1 then
            .ok (s.modify key (some { obj with type := 2, ptr := .string value, lvTime := now }),
              ⟨.bool true, none, r.2.failed⟩)
          else .ok (s.modify key (some obj), ⟨.bool false, none, r.2.failed⟩)
        else
          .ok (s.modify key (some { obj with type := 2, lvTime := now }),
            ⟨.bool true, none, a.failed⟩)

/-- `IncrIntBy` and `DecrIntBy`, as in `LiteKV.Core`. -/
def addInt (key : Key) (change : Int64) (bad : Int64 → Bool) : WriteResult :=
  match s.find key with
  | none =>
      let r := constructIntObjPtr a now change
      match r.1 with
      | none => .ok (s, ⟨.int64 0, some .fail, r.2.failed⟩)
      | some obj => .ok (s.insertNew key (some obj), ⟨.int64 change, some .ok, r.2.failed⟩)
  | some slot => do
      let obj ← deref slot
      if obj.type ≠ 1 then .ok (s, ⟨.int64 0, some .wrongType, a.failed⟩)
      else
        let val ← obj.toInt64
        if bad val then
          .ok (s.modify key (some { obj with lvTime := now }), ⟨.int64 0, some .overflow, a.failed⟩)
        else
          .ok (s.modify key (some { obj with ptr := .word (val + change), lvTime := now }),
            ⟨.int64 (val + change), some .ok, a.failed⟩)

/-- `IncrIntBy`. -/
def incrIntBy (key : Key) (increment : Int64) : WriteResult :=
  s.addInt now a key increment fun val => val.toInt > 2 ^ 63 - 1 - increment.toInt

/-- `DecrIntBy`. -/
def decrIntBy (key : Key) (decrement : Int64) : WriteResult :=
  s.addInt now a key (-decrement) fun val => val.toInt < -2 ^ 63 + decrement.toInt

/-- `Append`: when the string an integer becomes is not allocated, `errcode` is
not assigned. -/
def append (errcode : ErrCode) (key : Key) (val : Bytes) : WriteResult :=
  match s.find key with
  | none =>
      let r := constructStrObjPtr a now val
      match r.1 with
      | none => .ok (s, ⟨.size 0, some .fail, r.2.failed⟩)
      | some obj => .ok (s.insertNew key (some obj), ⟨.size val.length, some .ok, r.2.failed⟩)
  | some slot => do
      let obj ← deref slot
      if obj.type = 2 then
        let str ← obj.asString
        .ok (s.modify key (some { obj with ptr := .string (str ++ val), lvTime := now }),
          ⟨.size (str ++ val).length, some .ok, a.failed⟩)
      else if obj.type = 1 then
        let num ← obj.toInt64
        let r := a.next
        if r.1 then
          let str := intToString num.toInt ++ val
          .ok (s.modify key (some { obj with type := 2, ptr := .string str, lvTime := now }),
            ⟨.size str.length, some .ok, r.2.failed⟩)
        else .ok (s, ⟨.size 0, some errcode, r.2.failed⟩)
      else .ok (s, ⟨.size 0, some .wrongType, a.failed⟩)

/-! ## Lists -/

/-- The pushes of `ListPushAux`, and what follows them. -/
def pushValues (key : Key) (left : Bool) (values : List Bytes) (ret : ListObject → Ret)
    (slot : RawObjectPtr) : WriteResult := do
  let obj ← deref slot
  let o ← obj.asList
  let o := KVContainer.pushAll o left values
  .ok (s.modify key (some { obj with ptr := .list o, lvTime := now }),
    ⟨ret o, some .ok, a.failed⟩)

/-- `ListPushAux`: what `ConstructDListObjPtr` gives is used as it is. -/
def listPushAux (key : Key) (left : Bool) (values : List Bytes) (wrong : Ret)
    (ret : ListObject → Ret) : WriteResult :=
  match s.find key with
  | none =>
      let r := constructDListObjPtr a now
      (s.insertNew key r.1).pushValues now r.2 key left values ret r.1
  | some slot => do
      let obj ← deref slot
      if obj.type ≠ 3 then .ok (s, ⟨wrong, some .wrongType, a.failed⟩)
      else s.pushValues now a key left values ret slot

/-- `LeftPush` and `RightPush` of one value. -/
def listPush (key : Key) (left : Bool) (val : Bytes) : WriteResult :=
  s.listPushAux now a key left [val] (.bool false) fun _ => .bool true

/-- `LeftPush` and `RightPush` of a vector. -/
def listPushVector (key : Key) (left : Bool) (values : List Bytes) : WriteResult :=
  s.listPushAux now a key left values (.size 0) fun o => .size o.length

/-- `ListSetItemAtIndex`; nothing it calls throws the `bad_alloc` it catches. -/
def listSetItemAtIndex (key : Key) (index : Int) (val : Bytes) : WriteResult :=
  match s.find key with
  | none => .ok (s, ⟨.bool false, some .keyNotFound, a.failed⟩)
  | some slot => do
      let obj ← deref slot
      if obj.type ≠ 3 then .ok (s, ⟨.bool false, some .wrongType, a.failed⟩)
      else
        let o ← obj.asList
        let index := KVContainer.normIndex index o.length
        if index < 0 then .ok (s, ⟨.bool false, some .fail, a.failed⟩)
        else
          match o.setAt index.toNat val with
          | some o' =>
              .ok (s.modify key (some { obj with ptr := .list o', lvTime := now }),
                ⟨.bool true, some .ok, a.failed⟩)
          | none => .ok (s, ⟨.bool false, some .outOfRange, a.failed⟩)

/-! ## Dictionaries and sets -/

/-- `HashUpdateKV` of one field. -/
def hashUpdateKV (key : Key) (field value : Bytes) : WriteResult :=
  match s.find key with
  | none =>
      let r := constructHashObjPtr a now
      match r.1 with
      | none => .ok (s, ⟨.bool false, some .fail, r.2.failed⟩)
      | some obj => do
          let o ← obj.asHash
          .ok (s.insertNew key (some { obj with ptr := .hash (o.update field value).1 }),
            ⟨.bool true, some .ok, r.2.failed⟩)
  | some slot => do
      let obj ← deref slot
      if obj.type ≠ 4 then .ok (s, ⟨.bool false, some .wrongType, a.failed⟩)
      else
        let o ← obj.asHash
        let u := o.update field value
        let s := s.modify key (some { obj with ptr := .hash u.1, lvTime := now })
        if u.2 = .undefined then .ok (s, ⟨.bool false, some .fail, a.failed⟩)
        else .ok (s, ⟨.bool true, some .ok, a.failed⟩)

/-- The updates of `HashUpdateKV` on vectors, and what follows them. -/
def updateFields (key : Key) (fvs : List (Bytes × Bytes)) (slot : RawObjectPtr) : WriteResult := do
  let obj ← deref slot
  let o ← obj.asHash
  .ok (s.modify key (some { obj with ptr := .hash (KVContainer.updateAll o fvs), lvTime := now }),
    ⟨.size fvs.length, some .ok, a.failed⟩)

/-- `HashUpdateKV` on vectors. -/
def hashUpdateVectors (key : Key) (fields values : List Bytes) : WriteResult :=
  if fields.length ≠ values.length then .ok (s, ⟨.size 0, some .fail, a.failed⟩)
  else
    match s.find key with
    | none =>
        let r := constructHashObjPtr a now
        match r.1 with
        | none => .ok (s, ⟨.size 0, some .fail, r.2.failed⟩)
        | some obj =>
            (s.insertNew key (some obj)).updateFields now r.2 key (fields.zip values) (some obj)
    | some slot => do
        let obj ← deref slot
        if obj.type ≠ 4 then .ok (s, ⟨.size 0, some .wrongType, a.failed⟩)
        else s.updateFields now a key (fields.zip values) slot

/-- `SetAddItem` of one member. -/
def setAddItem (key : Key) (member : Bytes) : WriteResult :=
  match s.find key with
  | none =>
      let r := constructSetObjPtr a now
      match r.1 with
      | none => .ok (s, ⟨.bool false, some .fail, r.2.failed⟩)
      | some obj => do
          let o ← obj.asSet
          .ok (s.insertNew key (some { obj with ptr := .set (o.insert member).1 }),
            ⟨.bool true, some .ok, r.2.failed⟩)
  | some slot => do
      let obj ← deref slot
      if obj.type ≠ 5 then .ok (s, ⟨.bool false, some .wrongType, a.failed⟩)
      else
        let o ← obj.asSet
        let u := o.insert member
        let s := s.modify key (some { obj with ptr := .set u.1, lvTime := now })
        if u.2 = .existed ∨ u.2 = .undefined then .ok (s, ⟨.bool false, some .fail, a.failed⟩)
        else .ok (s, ⟨.bool true, some .ok, a.failed⟩)

/-- The insertions of `SetAddItem` on a vector, and what follows them. -/
def insertMembers (key : Key) (members : List Bytes) (slot : RawObjectPtr) : WriteResult := do
  let obj ← deref slot
  let o ← obj.asSet
  let r := KVContainer.insertAll o members
  .ok (s.modify key (some { obj with ptr := .set r.1, lvTime := now }),
    ⟨.size r.2, some .ok, a.failed⟩)

/-- `SetAddItem` on a vector; the source returns `false` for 0. -/
def setAddItems (key : Key) (members : List Bytes) : WriteResult :=
  match s.find key with
  | none =>
      let r := constructSetObjPtr a now
      match r.1 with
      | none => .ok (s, ⟨.size 0, some .fail, r.2.failed⟩)
      | some obj => (s.insertNew key (some obj)).insertMembers now r.2 key members (some obj)
  | some slot => do
      let obj ← deref slot
      if obj.type ≠ 5 then .ok (s, ⟨.size 0, some .wrongType, a.failed⟩)
      else s.insertMembers now a key members slot

end RawContainer

/-! ## Calls -/

/-- A writing operation, with its key as the callers write it. -/
inductive Write where
  | setInt (key : Bytes) (intval : Int64)
  | setString (key value : Bytes)
  | incrIntBy (key : Bytes) (increment : Int64)
  | decrIntBy (key : Bytes) (decrement : Int64)
  | append (key val : Bytes)
  | listPush (key : Bytes) (left : Bool) (val : Bytes)
  | listPushVector (key : Bytes) (left : Bool) (values : List Bytes)
  | listSetItemAtIndex (key : Bytes) (index : Int32) (val : Bytes)
  | hashUpdateKV (key field value : Bytes)
  | hashUpdateVectors (key : Bytes) (fields values : List Bytes)
  | setAddItem (key member : Bytes)
  | setAddItems (key : Bytes) (members : List Bytes)

/-- The circumstances of a call: the time, how its allocations end, and what the
caller's `errcode` holds. -/
structure Call where
  now : Nat
  outcomes : List Bool
  errcode : ErrCode

/-- A call of a writing operation. -/
def Write.run (s : RawContainer) (c : Call) (w : Write) : WriteResult :=
  let a : Allocs := ⟨c.outcomes, false⟩
  match w with
  | .setInt key v => s.setInt c.now a (.ofStdString key) v
  | .setString key v => s.setString c.now a (.ofStdString key) v
  | .incrIntBy key n => s.incrIntBy c.now a (.ofStdString key) n
  | .decrIntBy key n => s.decrIntBy c.now a (.ofStdString key) n
  | .append key val => s.append c.now a c.errcode (.ofStdString key) val
  | .listPush key left val => s.listPush c.now a (.ofStdString key) left val
  | .listPushVector key left values => s.listPushVector c.now a (.ofStdString key) left values
  | .listSetItemAtIndex key index val =>
      s.listSetItemAtIndex c.now a (.ofStdString key) index.toInt val
  | .hashUpdateKV key field value => s.hashUpdateKV c.now a (.ofStdString key) field value
  | .hashUpdateVectors key fields values =>
      s.hashUpdateVectors c.now a (.ofStdString key) fields values
  | .setAddItem key member => s.setAddItem c.now a (.ofStdString key) member
  | .setAddItems key members => s.setAddItems c.now a (.ofStdString key) members

/-- The operation of `LiteKV.Core` that a call is when nothing fails. -/
def Write.op : Write → KVContainer.Op
  | .setInt key v => .setInt key v
  | .setString key v => .setString key v
  | .incrIntBy key n => .incrIntBy key n
  | .decrIntBy key n => .decrIntBy key n
  | .append key val => .append key val
  | .listPush key left val => .listPush key left [val]
  | .listPushVector key left values => .listPush key left values
  | .listSetItemAtIndex key index val => .listSetItemAtIndex key index val
  | .hashUpdateKV key field value => .hashUpdateKV key [(field, value)]
  | .hashUpdateVectors key fields values => .hashUpdateVectors key fields values
  | .setAddItem key member => .setAddItem key [member]
  | .setAddItems key members => .setAddItem key members

end LiteKV
