/-
LiteKV.DList — the block list of `src/dlist.h` and `src/dlist.cpp`.

The chain of nodes from `head_` to `tail_` is the list `nodes`, so a node
pointer is a position in it: `node->prev == nullptr` is position 0,
`node->next == nullptr` the last position, and the position one past the
end is the null pointer. A new node in front of the chain moves every
position by one, the cursors' with them. An element pointer is an offset in
its cursor's block, `none` when it is null.

Every dereference is checked: a null node or a slot outside a block gives
`badAccess`, so that "never used" is a statement about these functions and
not a convention. `outOfRange` is the exception `operator[]` throws.

`occupied` is a `uint16_t`, and `NodeAtIndex` does its arithmetic in `int`;
both are kept.
-/
import LiteKV.Str

namespace LiteKV

/-- What can go wrong in a `DList` operation. -/
inductive DListError where
  /-- a null node, or a slot outside its block, was used -/
  | badAccess
  /-- `std::out_of_range` -/
  | outOfRange
  deriving DecidableEq, Repr

/-- `kBlockSize`: slots per node. -/
abbrev kBlockSize : Nat := 128

/-- `Node`: a block of elements and how many of them are in use. -/
structure Node where
  data : List DynamicString
  occupied : Nat
  deriving DecidableEq, Repr

/-- `NewNode()`. -/
def Node.new : Node := ⟨List.replicate kBlockSize none, 0⟩

/-- `occupied++` on a `uint16_t`. -/
def Node.occupy (n : Node) : Node :=
  { n with occupied := if n.occupied = 65535 then 0 else n.occupied + 1 }

/-- `occupied--` on a `uint16_t`. -/
def Node.vacate (n : Node) : Node :=
  { n with occupied := if n.occupied = 0 then 65535 else n.occupied - 1 }

/-- `Iterator`: a node and an element of its block. -/
structure Iterator where
  node : Nat
  ptr : Option Nat
  deriving DecidableEq, Repr

/-- `DList`. -/
structure DList where
  nodes : List Node
  begin_ : Iterator
  end_ : Iterator
  len : Nat
  nNodes : Nat
  deriving DecidableEq, Repr

namespace DList

/-- The constructor: two linked nodes, a cursor in each, no element. -/
def new : DList :=
  { nodes := [Node.new, Node.new], begin_ := ⟨0, none⟩, end_ := ⟨1, none⟩, len := 0, nNodes := 2 }

/-- Dereference a node pointer. -/
def deref (d : DList) (node : Nat) : Except DListError Node :=
  match d.nodes[node]? with
  | some n => .ok n
  | none => .error .badAccess

/-- Dereference an element pointer. -/
def slot (d : DList) (node off : Nat) : Except DListError DynamicString := do
  let n ← d.deref node
  match n.data[off]? with
  | some x => .ok x
  | none => .error .badAccess

/-- Write a slot and update its node's `occupied` counter. -/
def write (d : DList) (node off : Nat) (x : DynamicString) (count : Node → Node) :
    Except DListError DList := do
  let _ ← d.slot node off
  let n ← d.deref node
  return { d with nodes := d.nodes.set node (count { n with data := n.data.set off x }) }

/-- The part of `PushLeft` before the store: where the new element goes. -/
def stepLeft (d : DList) : Except DListError DList := do
  let _ ← d.deref d.begin_.node
  match d.begin_.ptr with
  | none =>   -- not inited
      let b : Iterator := { d.begin_ with ptr := some (kBlockSize - 1) }
      return { d with begin_ := b, end_ := if d.end_.ptr.isNone then b else d.end_ }
  | some off =>
      if off = 0 then   -- already at the left edge of the block
        if d.begin_.node = 0 then
          return { d with
            nodes := Node.new :: d.nodes
            nNodes := d.nNodes + 1
            begin_ := ⟨0, some (kBlockSize - 1)⟩
            end_ := { d.end_ with node := d.end_.node + 1 } }
        else
          return { d with begin_ := ⟨d.begin_.node - 1, some (kBlockSize - 1)⟩ }
      else
        return { d with begin_ := { d.begin_ with ptr := some (off - 1) } }

/-- The part of `PushRight` before the store. -/
def stepRight (d : DList) : Except DListError DList := do
  let _ ← d.deref d.end_.node
  match d.end_.ptr with
  | none =>
      let e : Iterator := { d.end_ with ptr := some 0 }
      return { d with end_ := e, begin_ := if d.begin_.ptr.isNone then e else d.begin_ }
  | some off =>
      if off = kBlockSize - 1 then   -- already at the right edge of the block
        if d.end_.node + 1 = d.nodes.length then
          return { d with
            nodes := d.nodes ++ [Node.new]
            nNodes := d.nNodes + 1
            end_ := ⟨d.end_.node + 1, some 0⟩ }
        else
          return { d with end_ := ⟨d.end_.node + 1, some 0⟩ }
      else
        return { d with end_ := { d.end_ with ptr := some (off + 1) } }

/-- `it.ptr->Reset(val, len); it.node->occupied++; ++len_`. -/
def store (d : DList) (it : Iterator) (val : Bytes) : Except DListError DList := do
  match it.ptr with
  | none => throw .badAccess
  | some off =>
      let d ← d.write it.node off (some val) Node.occupy
      return { d with len := d.len + 1 }

/-- `PushLeft`. -/
def pushLeft (d : DList) (val : Bytes) : Except DListError DList := do
  let d ← d.stepLeft
  d.store d.begin_ val

/-- `PushRight`. -/
def pushRight (d : DList) (val : Bytes) : Except DListError DList := do
  let d ← d.stepRight
  d.store d.end_ val

/-- `begin_.ptr == end_.ptr`: the same element of the same block. -/
def oneLeft (d : DList) : Bool := d.begin_.node == d.end_.node && d.begin_.ptr == d.end_.ptr

/-- `PopLeft`: the element is moved out of its slot, which keeps a null string. -/
def popLeft (d : DList) : Except DListError (DList × DynamicString) := do
  if d.len = 0 then return (d, none)
  match d.begin_.ptr with
  | none => throw .badAccess
  | some off =>
      let ret ← d.slot d.begin_.node off
      let d' ←
        if d.oneLeft then do
          let d' ← d.write d.begin_.node off none Node.vacate
          pure { d' with begin_ := { d.begin_ with ptr := none },
                         end_ := { d.end_ with ptr := none } }
        else if off = kBlockSize - 1 then
          if d.begin_.node + 1 ≠ d.nodes.length then do
            let d' ← d.write d.begin_.node off none Node.vacate
            pure { d' with begin_ := ⟨d.begin_.node + 1, some 0⟩ }
          else d.write d.begin_.node off none id
        else do
          let d' ← d.write d.begin_.node off none Node.vacate
          pure { d' with begin_ := { d.begin_ with ptr := some (off + 1) } }
      return ({ d' with len := d.len - 1 }, ret)

/-- `PopRight`. -/
def popRight (d : DList) : Except DListError (DList × DynamicString) := do
  if d.len = 0 then return (d, none)
  match d.end_.ptr with
  | none => throw .badAccess
  | some off =>
      let ret ← d.slot d.end_.node off
      let d' ←
        if d.oneLeft then do
          let d' ← d.write d.end_.node off none Node.vacate
          pure { d' with begin_ := { d.begin_ with ptr := none },
                         end_ := { d.end_ with ptr := none } }
        else if off = 0 then
          if d.end_.node ≠ 0 then do
            let d' ← d.write d.end_.node off none Node.vacate
            pure { d' with end_ := ⟨d.end_.node - 1, some (kBlockSize - 1)⟩ }
          else d.write d.end_.node off none id
        else do
          let d' ← d.write d.end_.node off none Node.vacate
          pure { d' with end_ := { d.end_ with ptr := some (off - 1) } }
      return ({ d' with len := d.len - 1 }, ret)

/-! ## Indexing -/

/-- Conversion to a 32-bit `int`. -/
def toInt32 (x : Int) : Int := (x + 2 ^ 31) % 2 ^ 32 - 2 ^ 31

/-- `tmp = tmp->next`, `k` times. -/
def advance (d : DList) : (k : Nat) → (node : Nat) → Except DListError Nat
  | 0, node => .ok node
  | k + 1, node => do
      let _ ← d.deref node
      d.advance k (node + 1)

/-- `NodeAtIndex`: the node that holds index `idx`, the number of blocks
crossed and the offset, the latter two in `int`. -/
def nodeAtIndex (d : DList) (idx : Nat) : Except DListError (Nat × Int × Int) := do
  let b ← d.deref d.begin_.node
  if b.occupied > idx then return (d.begin_.node, -1, idx)
  let diff := toInt32 (idx - b.occupied : Nat)
  let nCross := Int.tdiv diff kBlockSize
  let offset := Int.tmod diff kBlockSize
  let tmp ← d.advance (nCross + 1).toNat d.begin_.node
  return (tmp, nCross, offset)

/-- `operator[]`: the slot the returned reference denotes. -/
def index (d : DList) (idx : Nat) : Except DListError (Nat × Nat) := do
  if idx ≥ d.len then throw .outOfRange
  let b ← d.deref d.begin_.node
  if b.occupied > idx then
    match d.begin_.ptr with
    | none => throw .badAccess
    | some off =>
        let _ ← d.slot d.begin_.node (off + idx)
        return (d.begin_.node, off + idx)
  else
    let package ← d.nodeAtIndex idx
    let tmp := package.1
    let offset := package.2.2
    if offset < 0 then throw .badAccess
    let _ ← d.slot tmp offset.toNat
    return (tmp, offset.toNat)

/-- `(*this)[idx].Reset(val)`. -/
def setAt (d : DList) (idx : Nat) (val : Bytes) : Except DListError DList := do
  let at_ ← d.index idx
  d.write at_.1 at_.2 (some val) id

/-- `(*this)[idx]`, read. -/
def getAt (d : DList) (idx : Nat) : Except DListError DynamicString := do
  let at_ ← d.index idx
  d.slot at_.1 at_.2

/-! ## Traversal -/

/-- The inner loop: `count` elements from `off` on in one block. -/
def readBlock (n : Node) : (count off : Nat) → Except DListError (List DynamicString)
  | 0, _ => .ok []
  | count + 1, off =>
      match n.data[off]? with
      | none => .error .badAccess
      | some x => do
          let xs ← readBlock n count (off + 1)
          return x :: xs

/-- The outer loop: `while (tmp && tmp->occupied > 0 && elem)`. -/
def traverse : List Node → (off : Nat) → Except DListError (List DynamicString)
  | [], _ => .ok []
  | n :: rest, off =>
      if n.occupied > 0 then do
        let xs ← readBlock n n.occupied off
        let ys ← traverse rest 0
        return xs ++ ys
      else .ok []

/-- All elements in order, as the three traversals of the source visit them. -/
def elements (d : DList) : Except DListError (List DynamicString) :=
  if d.len = 0 then .ok []
  else
    match d.begin_.ptr with
    | none => .ok []
    | some off => traverse (d.nodes.drop d.begin_.node) off

/-- `RangeAsStdStringVector()`. -/
def rangeAsStdStringVector (d : DList) : Except DListError (List Bytes) := do
  let xs ← d.elements
  return xs.map DynamicString.toStdString

/-- `RangeAsDynaStringVector()`. -/
def rangeAsDynaStringVector (d : DList) : Except DListError (List DynamicString) := d.elements

/-- The inner loop of `RANGE_FUNC_HELPER`: up to `distance` elements from `off`
on, to the end of the block. -/
def rangeBlock (n : Node) : (distance : Nat) → (off : Int) →
    Except DListError (List DynamicString × Nat)
  | 0, _ => .ok ([], 0)
  | distance + 1, off =>
      if off = kBlockSize then .ok ([], distance + 1)
      else if off < 0 then .error .badAccess
      else
        match n.data[off.toNat]? with
        | none => .error .badAccess
        | some x => do
            let r ← rangeBlock n distance (off + 1)
            return (x :: r.1, r.2)

/-- Its outer loop, over the nodes from `tmp` on. -/
def rangeNodes : List Node → (off : Int) → (distance : Nat) → Except DListError (List DynamicString)
  | [], _, _ => .ok []
  | n :: rest, off, distance =>
      if n.occupied > 0 ∧ distance > 0 then do
        let r ← rangeBlock n distance off
        let ys ← rangeNodes rest 0 r.2
        return r.1 ++ ys
      else .ok []

/-- `RangeAsDynaStringVector(int start, int finish)`. -/
def rangeBetween (d : DList) (start finish : Int) : Except DListError (List DynamicString) := do
  if d.len = 0 ∨ start > finish then return []
  let finish := min finish (toInt32 (d.len - 1 : Nat))
  let distance := toInt32 (finish - start + 1)
  let package ← d.nodeAtIndex (start % 2 ^ 64).toNat
  let tmp := package.1
  let _ ← d.deref tmp
  let off ←
    if tmp = d.begin_.node then
      match d.begin_.ptr with
      | none => throw .badAccess
      | some b => pure (b + package.2.2)
    else pure package.2.2
  rangeNodes (d.nodes.drop tmp) off distance.toNat

/-- `RangeAsStdStringVector(int start, int finish)`. -/
def rangeBetweenAsStdString (d : DList) (start finish : Int) : Except DListError (List Bytes) := do
  let xs ← d.rangeBetween start finish
  return xs.map DynamicString.toStdString

/-! ## Trimming -/

/-- One of the two loops of `FreeRedundantNodes`, over the nodes of the chain
from an edge inwards; `k` nodes are deleted already, and the result is how many
are in the end. `cursor` is the place of the node the loop's condition reads
(`begin_.node`, or `end_.node` counted from the right). -/
def freeFrom (cursor : Nat) : (k : Nat) → List Node → Except DListError Nat
  | k, [] => .ok k
  | k, n :: rest =>
      if n.occupied = 0 then
        -- the cursor's node is not in the chain any more
        if cursor < k ∨ k + rest.length < cursor then .error .badAccess
        else if k + 1 = cursor then .ok k   -- tmp == begin_.node->prev
        else if rest = [] then .error .badAccess   -- deleting->prev, and deleting is null
        else freeFrom cursor (k + 1) rest
      else .ok k

/-- The place of a node after `k` nodes were deleted in front of the remaining
`m`; a deleted node is none of the chain. -/
def relocate (k m node : Nat) : Nat := if k ≤ node ∧ node < k + m then node - k else m

/-- `capacity >= (int)(len_ * kRedundantFactor)`. -/
def isRedundant (d : DList) : Bool :=
  decide (toInt32 ((d.nNodes * kBlockSize : Nat) : Int) ≥ toInt32 ((d.len * 2 : Nat) : Int))

/-- `FreeRedundantNodes`. -/
def freeRedundantNodes (d : DList) : Except DListError DList := do
  if d.isRedundant then
    -- remove redundant nodes from the left
    let k ← freeFrom d.begin_.node 0 d.nodes
    let nodes := d.nodes.drop k
    -- remove redundant nodes from the right
    let j ← freeFrom (d.nodes.length - 1 - d.end_.node) 0 nodes.reverse
    let nodes := nodes.take (nodes.length - j)
    return { d with
      nodes := nodes
      begin_ := { d.begin_ with node := relocate k nodes.length d.begin_.node }
      end_ := { d.end_ with node := relocate k nodes.length d.end_.node }
      nNodes := d.nNodes - k - j }
  else return d

end DList

end LiteKV
