/-
LiteKV.Store — what the store is for: a map from keys to values.

This is the abstract model. A store gives every key a `Value` or nothing;
an operation on one key is a function of what the key holds, its CELL, and
answers with the new content and the code the source reports. Nothing here
knows about buckets, blocks, rehashing or visit times.

`onCell` is an operation that needs its key with the right type,
`createOnCell` one that creates it; the collections differ only in the
projection they use.
-/
import LiteKV.Core
import Mathlib.Logic.Function.Basic

namespace LiteKV

/-- A map from keys to values. -/
abbrev Store := Key → Option Value

/-- What one key holds. -/
abbrev Cell := Option Value

namespace Value

def asInt : Value → Option Int64
  | int v => some v
  | _ => none

def asList : Value → Option (List Bytes)
  | list l => some l
  | _ => none

def asHash : Value → Option (Bytes → Option Bytes)
  | hash m => some m
  | _ => none

def asSet : Value → Option (Bytes → Bool)
  | set m => some m
  | _ => none

/-- The value a text is stored as: a canonical decimal becomes an integer. -/
def ofText (value : Bytes) : Value :=
  match canConvertToInt64 value with
  | some n => .int n
  | none => .string value

end Value

namespace Cell

variable {α : Type}

/-- An operation on a key that must be there with the right type. -/
def onCell (proj : Value → Option α) (g : α → Value) (c : Cell) : Cell × ErrCode :=
  match c with
  | none => (c, .keyNotFound)
  | some v =>
      match proj v with
      | none => (c, .wrongType)
      | some x => (some (g x), .ok)

/-- An operation that creates its key. -/
def createOnCell (proj : Value → Option α) (fresh : α) (g : α → Value) (c : Cell) :
    Cell × ErrCode :=
  match c with
  | none => (some (g fresh), .ok)
  | some v =>
      match proj v with
      | none => (c, .wrongType)
      | some x => (some (g x), .ok)

/-- Adding to an integer, or creating it. -/
def addInt (change : Int64) (bad : Int64 → Bool) (c : Cell) : Cell × ErrCode :=
  match c with
  | none => (some (.int change), .ok)
  | some v =>
      match v.asInt with
      | none => (c, .wrongType)
      | some n => if bad n then (c, .overflow) else (some (.int (n + change)), .ok)

/-- Appending to a string; an integer becomes the string it prints as. -/
def append (val : Bytes) (c : Cell) : Cell × ErrCode :=
  match c with
  | none => (some (.string val), .ok)
  | some (.string s) => (some (.string (s ++ val)), .ok)
  | some (.int n) => (some (.string (intToString n.toInt ++ val)), .ok)
  | some _ => (c, .wrongType)

/-- The list after several pushes. -/
def pushed (left : Bool) (values l : List Bytes) : List Bytes :=
  if left then values.reverse ++ l else l ++ values

def push (left : Bool) (values : List Bytes) : Cell → Cell × ErrCode :=
  createOnCell Value.asList [] fun l => .list (pushed left values l)

def pop (left : Bool) : Cell → Cell × ErrCode :=
  onCell Value.asList fun l => .list (ListObject.afterPop l left).1

/-- The element a pop gives. -/
def popped (left : Bool) (c : Cell) : DynamicString :=
  match c.bind Value.asList with
  | none => none
  | some l => (ListObject.afterPop l left).2

/-- Writing to a list at an index that may count from the end. -/
def setIndex (index : Int) (val : Bytes) (c : Cell) : Cell × ErrCode :=
  match c with
  | none => (c, .keyNotFound)
  | some v =>
      match v.asList with
      | none => (c, .wrongType)
      | some l =>
          let i := KVContainer.normIndex index l.length
          if i < 0 then (c, .fail)
          else if i.toNat < l.length then (some (.list (l.set i.toNat val)), .ok)
          else (c, .outOfRange)

/-- The map after several field updates. -/
def updated (fvs : List (Bytes × Bytes)) (m : Bytes → Option Bytes) : Bytes → Option Bytes :=
  fvs.foldl (fun m fv => Function.update m fv.1 (some fv.2)) m

def updateFields (fvs : List (Bytes × Bytes)) : Cell → Cell × ErrCode :=
  createOnCell Value.asHash (fun _ => none) fun m => .hash (updated fvs m)

/-- The map without several fields. -/
def without (fields : List Bytes) (m : Bytes → Option Bytes) : Bytes → Option Bytes :=
  fun k => if k ∈ fields then none else m k

def deleteFields (fields : List Bytes) : Cell → Cell × ErrCode :=
  onCell Value.asHash fun m => .hash (without fields m)

def addMembers (members : List Bytes) : Cell → Cell × ErrCode :=
  createOnCell Value.asSet (fun _ => false) fun m => .set fun k => decide (k ∈ members) || m k

def removeMembers (members : List Bytes) : Cell → Cell × ErrCode :=
  onCell Value.asSet fun m => .set fun k => decide (k ∉ members) && m k

/-- Only an operation that succeeds changes what the key holds. -/
theorem onCell_eq_of_ne_ok {proj : Value → Option α} {g : α → Value} {c : Cell}
    (h : (onCell proj g c).2 ≠ .ok) : (onCell proj g c).1 = c := by
  unfold onCell at h ⊢
  split
  · rfl
  · split
    · rfl
    · rename_i hx
      simp [hx] at h

theorem createOnCell_eq_of_ne_ok {proj : Value → Option α} {fresh : α} {g : α → Value} {c : Cell}
    (h : (createOnCell proj fresh g c).2 ≠ .ok) : (createOnCell proj fresh g c).1 = c := by
  unfold createOnCell at h ⊢
  split
  · simp at h
  · split
    · rfl
    · rename_i hx
      simp [hx] at h

theorem addInt_eq_of_ne_ok {change : Int64} {bad : Int64 → Bool} {c : Cell}
    (h : (addInt change bad c).2 ≠ .ok) : (addInt change bad c).1 = c := by
  unfold addInt at h ⊢
  split
  · simp at h
  · split
    · rfl
    · split
      · rfl
      · rename_i hx hb
        simp [hx, hb] at h

theorem append_eq_of_ne_ok {val : Bytes} {c : Cell} (h : (append val c).2 ≠ .ok) :
    (append val c).1 = c := by
  unfold append at h ⊢
  split
  · simp at h
  · simp at h
  · simp at h
  · rfl

theorem setIndex_eq_of_ne_ok {index : Int} {val : Bytes} {c : Cell}
    (h : (setIndex index val c).2 ≠ .ok) : (setIndex index val c).1 = c := by
  unfold setIndex at h ⊢
  split
  · rfl
  · split
    · rfl
    · rename_i hx
      simp only [hx] at h ⊢
      split
      · rfl
      · rename_i hneg
        split
        · rename_i hlt
          simp [hneg, hlt] at h
        · rfl

end Cell

end LiteKV
