/-
LiteKV.ValueObject — the values of the store, `src/valueobject.h`.

The three collections are carried together with the fact that makes their
operations total: a `ListObject` is a block list that represents some list,
a `DictObject` and a `SetObject` are rehashed tables in one of their two
phases. A store can therefore not hold a collection that no sequence of
operations builds, and above this module a collection is used through what
it stands for: `toList`, `lookup`, `contains`.

`Value` is that abstraction for a whole value. Two stores are the same map
when they give every key the same `Value`.
-/
import LiteKV.DListTheorems
import LiteKV.HashTheorems

namespace LiteKV

open Lib.AssocList

/-! ## Lists -/

/-- A `DList` reached by the list operations. -/
structure ListObject where
  list : DList
  ok : ∃ l, DList.Repr list l

namespace ListObject

/-- `new DList`. -/
def new : ListObject := ⟨.new, [], DList.repr_new⟩

/-- `RangeAsStdStringVector()`, the list the object stands for. -/
def toList (o : ListObject) : List Bytes :=
  match o.list.rangeAsStdStringVector with
  | .ok l => l
  | .error _ => []

theorem repr_toList (o : ListObject) : DList.Repr o.list o.toList := by
  obtain ⟨l, hl⟩ := o.ok
  have : o.toList = l := by rw [toList, DList.rangeAsStdStringVector_repr hl]
  rw [this]
  exact hl

theorem toList_eq {o : ListObject} {l : List Bytes} (h : DList.Repr o.list l) : o.toList = l := by
  rw [toList, DList.rangeAsStdStringVector_repr h]

/-- The object an operation leaves, given that it does not fault. -/
def ofResult (r : Except DListError DList) (h : ∃ d l, r = .ok d ∧ DList.Repr d l) : ListObject :=
  match r, h with
  | .ok d, h => ⟨d, by
      obtain ⟨d', l, hd, hl⟩ := h
      cases hd
      exact ⟨l, hl⟩⟩
  | .error _, h => absurd h (by rintro ⟨_, _, hd, _⟩; cases hd)

theorem toList_ofResult {r : Except DListError DList} (h : ∃ d l, r = .ok d ∧ DList.Repr d l)
    {d : DList} {l : List Bytes} (hr : r = .ok d) (hl : DList.Repr d l) :
    (ofResult r h).toList = l := by
  subst hr
  exact toList_eq hl

theorem push_ok (o : ListObject) (left : Bool) (val : Bytes) :
    ∃ d, (if left then o.list.pushLeft val else o.list.pushRight val) = .ok d ∧
      DList.Repr d (if left then val :: o.toList else o.toList ++ [val]) := by
  cases left with
  | true => exact DList.pushLeft_repr o.repr_toList val
  | false => exact DList.pushRight_repr o.repr_toList val

/-- `PushLeft` or `PushRight`. -/
def push (o : ListObject) (left : Bool) (val : Bytes) : ListObject :=
  ofResult (if left then o.list.pushLeft val else o.list.pushRight val) (by
    obtain ⟨d, hd, hr⟩ := o.push_ok left val
    exact ⟨d, _, hd, hr⟩)

@[simp] theorem toList_new : new.toList = [] := toList_eq DList.repr_new

@[simp] theorem toList_push (o : ListObject) (left : Bool) (val : Bytes) :
    (o.push left val).toList = if left then val :: o.toList else o.toList ++ [val] := by
  obtain ⟨d, hd, hr⟩ := o.push_ok left val
  exact toList_ofResult _ hd hr

/-- What a pop leaves and gives: the element, or the null string of an empty list. -/
def afterPop (l : List Bytes) (left : Bool) : List Bytes × DynamicString :=
  if left then (l.tail, l.head?) else (l.dropLast, l.getLast?)

theorem pop_ok (o : ListObject) (left : Bool) :
    ∃ d, (if left then o.list.popLeft else o.list.popRight) = .ok (d, (afterPop o.toList left).2) ∧
      DList.Repr d (afterPop o.toList left).1 := by
  have h := o.repr_toList
  generalize o.toList = l at h
  cases left with
  | true =>
      cases l with
      | nil => exact ⟨o.list, DList.popLeft_empty h, h⟩
      | cons v l =>
          obtain ⟨d, hd, hr⟩ := DList.popLeft_repr h
          exact ⟨d, hd, hr⟩
  | false =>
      rcases List.eq_nil_or_concat l with rfl | ⟨l', v, rfl⟩
      · exact ⟨o.list, DList.popRight_empty h, h⟩
      · rw [List.concat_eq_append] at h ⊢
        obtain ⟨d, hd, hr⟩ := DList.popRight_repr h
        refine ⟨d, ?_, by simpa [afterPop] using hr⟩
        simpa [afterPop] using hd

/-- `PopLeft` or `PopRight`. -/
def pop (o : ListObject) (left : Bool) : ListObject × DynamicString :=
  let r := if left then o.list.popLeft else o.list.popRight
  (ofResult (r.map Prod.fst) (by
    obtain ⟨d, hd, hr⟩ := o.pop_ok left
    exact ⟨d, _, by simp only [r, hd]; rfl, hr⟩),
   match r with
   | .ok x => x.2
   | .error _ => none)

theorem pop_spec (o : ListObject) (left : Bool) :
    (o.pop left).1.toList = (afterPop o.toList left).1 ∧
      (o.pop left).2 = (afterPop o.toList left).2 := by
  obtain ⟨d, hd, hr⟩ := o.pop_ok left
  refine ⟨toList_ofResult _ (by rw [hd]; rfl) hr, ?_⟩
  simp only [pop, hd]

/-- `Length()`. -/
def length (o : ListObject) : Nat := o.list.len

@[simp] theorem length_eq (o : ListObject) : o.length = o.toList.length := o.repr_toList.len

/-- `operator[](idx).Reset(val)`; `none` when the access throws. -/
def setAt (o : ListObject) (idx : Nat) (val : Bytes) : Option ListObject :=
  match h : o.list.setAt idx val with
  | .ok d => some ⟨d, DList.setAt_any o.repr_toList h⟩
  | .error _ => none

/-- An `int` index is always within reach of the first node. -/
theorem setAt_spec (o : ListObject) {idx : Nat} (hidx : idx < 2 ^ 31) (val : Bytes) :
    (o.setAt idx val).map toList
      = if idx < o.toList.length then some (o.toList.set idx val) else none := by
  have h := o.repr_toList
  unfold setAt
  by_cases hi : idx < o.toList.length
  · rw [if_pos hi]
    have hne : o.toList ≠ [] := by
      intro hnil
      rw [hnil] at hi
      simp at hi
    have hpos := DList.frontCount_pos h hne
    obtain ⟨d, hd, hr⟩ := DList.setAt_repr h hi (by omega) val
    split
    · rename_i d' h'
      rw [hd] at h'
      cases h'
      simp only [Option.map_some, Option.some.injEq]
      exact toList_eq hr
    · rename_i e h'
      rw [hd] at h'
      cases h'
  · rw [if_neg hi]
    have hx : o.list.setAt idx val = .error .outOfRange := by
      simp only [DList.setAt, DList.index_throws h (Nat.le_of_not_lt hi), Lib.Run.error_bind]
    split
    · rename_i d' h'
      rw [hx] at h'
      cases h'
    · rfl

/-- `operator[](idx)`; `none` when the access throws. -/
def getAt (o : ListObject) (idx : Nat) : Option DynamicString :=
  match o.list.getAt idx with
  | .ok x => some x
  | .error _ => none

end ListObject

/-! ## Dictionaries and sets -/

/-- A `HashDict` reached by its operations. -/
structure DictObject where
  dict : HashDict
  ok : dict.Ok

namespace DictObject

/-- `new HashDict`. -/
def new : DictObject := ⟨Rehashable.new, Rehashable.ok_new⟩

/-- The map the object stands for. -/
def lookup (o : DictObject) (field : Bytes) : Option Bytes := o.dict.lookup field

@[simp] theorem lookup_new (field : Bytes) : new.lookup field = none := Rehashable.lookup_new field

/-- `Update`. -/
def update (o : DictObject) (field val : Bytes) : DictObject × Added :=
  (⟨(o.dict.update field val).1, (HashDict.update_spec o.ok field val).1⟩,
    (o.dict.update field val).2)

@[simp] theorem lookup_update (o : DictObject) (field val k : Bytes) :
    (o.update field val).1.lookup k = if k = field then some val else o.lookup k :=
  (HashDict.update_spec o.ok field val).2.1 k

@[simp] theorem update_answer (o : DictObject) (field val : Bytes) :
    (o.update field val).2 = if (o.lookup field).isSome then .updated else .newAdded :=
  (HashDict.update_spec o.ok field val).2.2

/-- `Erase`. -/
def erase (o : DictObject) (field : Bytes) : DictObject × Bool :=
  (⟨(HashDict.erase o.dict field).1, (Rehashable.erase_spec .dict o.ok field).1⟩,
    (HashDict.erase o.dict field).2)

@[simp] theorem lookup_erase (o : DictObject) (field k : Bytes) :
    (o.erase field).1.lookup k = if k = field then none else o.lookup k :=
  (Rehashable.erase_spec .dict o.ok field).2.1 k

/-- `At`. -/
def at_ (o : DictObject) (field : Bytes) : DictObject × Option Bytes :=
  (⟨(o.dict.at_ field).1, (HashDict.at_spec o.ok field).1⟩, (o.dict.at_ field).2)

@[simp] theorem lookup_at (o : DictObject) (field k : Bytes) :
    (o.at_ field).1.lookup k = o.lookup k := (HashDict.at_spec o.ok field).2.1 k

/-- `AllEntries()`. -/
def allEntries (o : DictObject) : List (Bytes × Bytes) := o.dict.allEntries

/-- `Count()`. -/
def count (o : DictObject) : Nat := o.dict.count

theorem isMap (o : DictObject) : Rehashable.IsMap o.dict o.lookup := Rehashable.isMap_of_ok o.ok

end DictObject

/-- A `HashSet` reached by its operations. -/
structure SetObject where
  set : HashSet
  ok : set.Ok

namespace SetObject

/-- `new HashSet`. -/
def new : SetObject := ⟨Rehashable.new, Rehashable.ok_new⟩

/-- Membership in the set the object stands for. -/
def contains (o : SetObject) (member : Bytes) : Bool := (o.set.lookup member).isSome

@[simp] theorem contains_new (member : Bytes) : new.contains member = false := by
  rw [contains, new, Rehashable.lookup_new]
  rfl

/-- `Insert`. -/
def insert (o : SetObject) (member : Bytes) : SetObject × Added :=
  (⟨(HashSet.insert o.set member).1, (HashSet.insert_spec o.ok member).1⟩,
    (HashSet.insert o.set member).2)

@[simp] theorem contains_insert (o : SetObject) (member k : Bytes) :
    (o.insert member).1.contains k = (k == member || o.contains k) := by
  simp only [contains, insert, (HashSet.insert_spec o.ok member).2.1 k]
  by_cases h : k = member <;> simp [h]

@[simp] theorem insert_answer (o : SetObject) (member : Bytes) :
    (o.insert member).2 = if o.contains member then .existed else .newAdded :=
  (HashSet.insert_spec o.ok member).2.2

/-- `Erase`. -/
def erase (o : SetObject) (member : Bytes) : SetObject × Bool :=
  (⟨(HashSet.erase o.set member).1, (Rehashable.erase_spec .set o.ok member).1⟩,
    (HashSet.erase o.set member).2)

@[simp] theorem contains_erase (o : SetObject) (member k : Bytes) :
    (o.erase member).1.contains k = (k != member && o.contains k) := by
  have h := (Rehashable.erase_spec .set o.ok member).2.1 k
  simp only [contains, erase, HashSet.erase, h]
  by_cases hk : k = member <;> simp [hk]

/-- `AllKeys()`. -/
def allKeys (o : SetObject) : List Bytes := o.set.allKeys

/-- `Count()`. -/
def count (o : SetObject) : Nat := o.set.count

theorem isMap (o : SetObject) : Rehashable.IsMap o.set o.set.lookup :=
  Rehashable.isMap_of_ok o.ok

end SetObject

/-! ## Values -/

/-- What `type` and `ptr` of a `ValueObject` hold together. -/
inductive Payload where
  | int (v : Int64)
  | string (s : Bytes)
  | list (o : ListObject)
  | hash (o : DictObject)
  | set (o : SetObject)

/-- `ValueObject`: the payload and `lv_time`. -/
structure ValueObject where
  payload : Payload
  lvTime : Nat

/-- A value as the map from keys to values has it: its type and its contents. -/
inductive Value where
  | int (v : Int64)
  | string (s : Bytes)
  | list (l : List Bytes)
  | hash (m : Bytes → Option Bytes)
  | set (m : Bytes → Bool)

namespace Payload

/-- `type`. -/
def objectType : Payload → UInt8
  | int _ => 1
  | string _ => 2
  | list _ => 3
  | hash _ => 4
  | set _ => 5

/-- What a payload stands for. -/
def toValue : Payload → Value
  | int v => .int v
  | string s => .string s
  | list o => .list o.toList
  | hash o => .hash o.lookup
  | set o => .set o.contains

def asInt : Payload → Option Int64
  | int v => some v
  | _ => none

def asList : Payload → Option ListObject
  | list o => some o
  | _ => none

def asHash : Payload → Option DictObject
  | hash o => some o
  | _ => none

def asSet : Payload → Option SetObject
  | set o => some o
  | _ => none

end Payload

end LiteKV
