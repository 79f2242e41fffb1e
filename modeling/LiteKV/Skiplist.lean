/-
LiteKV.Skiplist — `src/skiplist.h` and `src/skiplist.cpp`.

Nodes live in a heap and are linked by pointers, as in the source: each
node has one `next` pointer for each of its levels, and a `prev` pointer for
the lowest. The sentinel `head_` has all 32 levels and is never compared
with. Following a pointer to a node that was deleted, or reading a link
above a node's level, is an error of the model; so is a search that does
not end, which has one turn for every node that was ever allocated.
`new (std::nothrow)` always succeeds.

The random level of an insertion is an argument. `Remove` lowers
`cur_max_level_` with a test that reads `head_->nexts[cur_max_level_ - 1]`
before it looks whether `cur_max_level_` is 0; what stands in front of the
array is an argument too.
-/
import LiteKV.Str
import Mathlib.Logic.Function.Basic

namespace LiteKV

/-- `kMaxLevel`. -/
def kMaxLevel : Nat := 32

/-- A place in the heap. -/
abbrev SKPtr := Nat

/-- An element: a score and its data. -/
structure SKElem where
  score : Int64
  data : DynamicString
  deriving DecidableEq

/-- `strncmp` on buffers that a NUL byte ends. -/
def strncmp : (n : Nat) → Bytes → Bytes → Int
  | 0, _, _ => 0
  | n + 1, a, b =>
      let x := a.headD 0
      let y := b.headD 0
      if x ≠ y then (x.toNat : Int) - y.toNat
      else if x = 0 then 0
      else strncmp n a.tail b.tail

/-- `SKNodeComparator`: 0 for equal, 1 for greater and -1 for less than `b`. -/
def skComparator (a b : SKElem) : Int :=
  if a.score = b.score then
    let len1 := a.data.toStdString.length
    let len2 := b.data.toStdString.length
    let res1 := strncmp (min len1 len2) a.data.toStdString b.data.toStdString
    if res1 = 0 then
      if len1 = len2 then 0 else if len1 < len2 then -1 else 1
    else if res1 < 0 then -1 else 1
  else if a.score < b.score then -1 else 1

/-- `SKNode`. -/
structure SKNode where
  elem : SKElem
  prev : Option SKPtr
  nexts : List (Option SKPtr)
  level : Nat

/-- `SKNode(score, data, lv)`. -/
def SKNode.new (elem : SKElem) (level : Nat) : SKNode :=
  ⟨elem, none, List.replicate level none, level⟩

/-- What the source must not do. -/
inductive SKError where
  | badAccess
  | endless
  deriving DecidableEq

/-- `Skiplist`; `fresh` is the next place `new` gives. -/
structure Skiplist where
  heap : SKPtr → Option SKNode
  fresh : SKPtr
  head : SKPtr
  count : Nat
  curMaxLevel : Nat

/-- `SKNode* path[kMaxLevel]`. -/
abbrev SKPath := List (Option SKPtr)

namespace Skiplist

/-- `Skiplist()`. -/
def new : Skiplist where
  heap := Function.update (fun _ => none) 0 (some (SKNode.new ⟨Int64.minValue, some []⟩ kMaxLevel))
  fresh := 1
  head := 0
  count := 0
  curMaxLevel := 0

/-! ## Memory -/

/-- `*p`. -/
def node (s : Skiplist) (p : SKPtr) : Except SKError SKNode :=
  match s.heap p with
  | none => .error .badAccess
  | some n => .ok n

/-- `p->nexts[l]`. -/
def next (s : Skiplist) (p : SKPtr) (l : Nat) : Except SKError (Option SKPtr) := do
  let n ← s.node p
  match n.nexts[l]? with
  | none => .error .badAccess
  | some q => .ok q

/-- A change of `*p`. -/
def write (s : Skiplist) (p : SKPtr) (n : SKNode) : Skiplist :=
  { s with heap := Function.update s.heap p (some n) }

/-- `p->nexts[l] = q`. -/
def setNext (s : Skiplist) (p : SKPtr) (l : Nat) (q : Option SKPtr) : Except SKError Skiplist := do
  let n ← s.node p
  if l < n.nexts.length then .ok (s.write p { n with nexts := n.nexts.set l q })
  else .error .badAccess

/-- `p->prev = q`. -/
def setPrev (s : Skiplist) (p : SKPtr) (q : SKPtr) : Except SKError Skiplist := do
  let n ← s.node p
  .ok (s.write p { n with prev := some q })

/-- `if (p) p->prev = q`. -/
def setPrevOf (s : Skiplist) (p : Option SKPtr) (q : SKPtr) : Except SKError Skiplist :=
  match p with
  | none => .ok s
  | some p => s.setPrev p q

/-- `comparator_(score, target, *p)`. -/
def compareAt (s : Skiplist) (e : SKElem) (p : SKPtr) : Except SKError Int := do
  let n ← s.node p
  .ok (skComparator e n.elem)

/-- `p && comparator_(score, target, *p) == 0`. -/
def isTarget (s : Skiplist) (e : SKElem) (p : Option SKPtr) : Except SKError Bool :=
  match p with
  | none => .ok false
  | some p => do .ok ((← s.compareAt e p) == 0)

/-! ## Searching -/

/-- `while (cur->nexts[l] && ..) cur = cur->nexts[l]`. -/
def walk (s : Skiplist) (go : SKElem → Bool) (l : Nat) : (fuel : Nat) → SKPtr → Except SKError SKPtr
  | 0, _ => .error .endless
  | fuel + 1, cur => do
      match ← s.next cur l with
      | none => .ok cur
      | some q =>
          let n ← s.node q
          if go n.elem then walk s go l fuel q else .ok cur

/-- `for (int l = levels - 1; l >= 0; --l)` around it, with `path[l] = cur`. -/
def descend (s : Skiplist) (go : SKElem → Bool) :
    (levels : Nat) → SKPtr → SKPath → Except SKError (SKPtr × SKPath)
  | 0, cur, path => .ok (cur, path)
  | l + 1, cur, path => do
      let cur ← s.walk go l (s.fresh + 1) cur
      descend s go l cur (path.set l (some cur))

/-- `Find`, from the level `levels - 1` down. -/
def find (s : Skiplist) (e : SKElem) (levels : Nat) : Except SKError (SKPtr × SKPath) :=
  s.descend (fun x => skComparator e x > 0) levels s.head (List.replicate kMaxLevel none)

/-- `Begin()`. -/
def begin_ (s : Skiplist) : Except SKError (Option SKPtr) := s.next s.head 0

/-- `End()`. -/
def end_ (s : Skiplist) : Except SKError (Option SKPtr) := do
  match ← s.next s.head 0 with
  | none => .ok none
  | some _ =>
      let r ← s.descend (fun _ => true) kMaxLevel s.head (List.replicate kMaxLevel none)
      .ok (some r.1)

/-- The loop of `GatherAllNodes`. -/
def gatherFrom (s : Skiplist) : (fuel : Nat) → Option SKPtr → Except SKError (List SKPtr)
  | _, none => .ok []
  | 0, some _ => .error .endless
  | fuel + 1, some p => do
      let rest ← gatherFrom s fuel (← s.next p 0)
      .ok (p :: rest)

/-- `GatherAllNodes(nodes, false)`. -/
def gatherAllNodes (s : Skiplist) : Except SKError (List SKPtr) := do
  s.gatherFrom s.fresh (← s.next s.head 0)

/-! ## The operations -/

/-- `new SKNode(score, target, level)`. -/
def alloc (s : Skiplist) (e : SKElem) (level : Nat) : Skiplist :=
  { s with heap := Function.update s.heap s.fresh (some (.new e level)), fresh := s.fresh + 1 }

/-- One level of the loop of `Insert`. -/
def linkLevel (path : SKPath) (p : SKPtr) (s : Skiplist) (l : Nat) : Except SKError Skiplist := do
  match path[l]? with
  | some (some before) =>
      let s ← s.setNext p l (← s.next before l)
      s.setNext before l (some p)
  | _ => .error .badAccess

/-- `Insert`, with the level of `GenRandomLevel`. -/
def insert (s : Skiplist) (e : SKElem) (level : Nat) : Except SKError (Skiplist × Bool) := do
  match ← s.next s.head 0 with
  | none =>
      -- the first node has level 1
      let p := s.fresh
      let s := s.alloc e 1
      let s ← s.setNext s.head 0 (some p)
      let s ← s.setPrev p s.head
      .ok ({ s with count := s.count + 1, curMaxLevel := 1 }, true)
  | some _ =>
      let (cur, path) ← s.find e level
      let after ← s.next cur 0
      if ← s.isTarget e after then .ok (s, false)
      else
        let p := s.fresh
        let s := s.alloc e level
        let s ← (List.range level).foldlM (linkLevel path p) s
        let s ← s.setPrevOf after p
        let s ← s.setPrev p cur
        .ok ({ s with curMaxLevel := max s.curMaxLevel level, count := s.count + 1 }, true)

/-- `Contains`. -/
def contains (s : Skiplist) (e : SKElem) : Except SKError Bool := do
  match ← s.next s.head 0 with
  | none => .ok false
  | some _ =>
      let r ← s.find e s.curMaxLevel
      s.isTarget e (← s.next r.1 0)

/-- One level of the loop of `Remove`. -/
def unlinkLevel (e : SKElem) (path : SKPath) (del : SKPtr) (s : Skiplist) (l : Nat) :
    Except SKError Skiplist := do
  match path[l]? with
  | none => .error .badAccess
  | some none => .ok s
  | some (some before) =>
      if ← s.isTarget e (← s.next before l) then s.setNext before l (← s.next del l) else .ok s

/-- `head_->nexts[level - 1]`, where `outside` stands in front of the array. -/
def headBelow (s : Skiplist) (outside : Option SKPtr) :
    (level : Nat) → Except SKError (Option SKPtr)
  | 0 => .ok outside
  | l + 1 => s.next s.head l

/-- The loop that lowers `cur_max_level_`. -/
def lowerLevel (s : Skiplist) (outside : Option SKPtr) : (fuel : Nat) → Nat → Except SKError Nat
  | 0, _ => .error .endless
  | fuel + 1, level => do
      if (← s.headBelow outside level).isNone && decide (level > 0) then
        lowerLevel s outside fuel (level - 1)
      else .ok level

/-- `cur_max_level_` after a node of the level is gone. -/
def levelWithout (s : Skiplist) (outside : Option SKPtr) (level : Nat) : Except SKError Nat :=
  if level = s.curMaxLevel then s.lowerLevel outside (s.curMaxLevel + 1) s.curMaxLevel
  else .ok s.curMaxLevel

/-- `Remove`. -/
def remove (s : Skiplist) (e : SKElem) (outside : Option SKPtr) :
    Except SKError (Skiplist × Bool) := do
  match ← s.next s.head 0 with
  | none => .ok (s, false)
  | some _ =>
      let (cur, path) ← s.find e s.curMaxLevel
      match ← s.next cur 0 with
      | none => .ok (s, false)
      | some del =>
          if (← s.compareAt e del) ≠ 0 then .ok (s, false)
          else
            let s ← (List.range s.curMaxLevel).reverse.foldlM (unlinkLevel e path del) s
            let s ← s.setPrevOf (← s.next del 0) cur
            let n ← s.node del
            let level ← s.levelWithout outside n.level
            .ok ({ s with
                    heap := Function.update s.heap del none
                    curMaxLevel := level
                    count := s.count - 1 }, true)

/-- `Clear`. -/
def clear (s : Skiplist) : Except SKError Skiplist := do
  if s.count = 0 then .ok s
  else
    let nodes ← s.gatherAllNodes
    let s := { s with heap := fun p => if p ∈ nodes then none else s.heap p }
    let h ← s.node s.head
    let s := s.write s.head { h with nexts := h.nexts.map fun _ => none }
    .ok { s with curMaxLevel := 0, count := 0 }

/-! ## Checked removal

`Remove` again, where a null pointer in the path and an index in front of
`head_->nexts` are errors. A link above a node's level is one everywhere. -/

/-- `Remove`, for the two loops in it. -/
def removeWith (unlink : SKPath → SKPtr → Skiplist → Nat → Except SKError Skiplist)
    (without : Skiplist → Nat → Except SKError Nat) (s : Skiplist) (e : SKElem) :
    Except SKError (Skiplist × Bool) := do
  match ← s.next s.head 0 with
  | none => .ok (s, false)
  | some _ =>
      let (cur, path) ← s.find e s.curMaxLevel
      match ← s.next cur 0 with
      | none => .ok (s, false)
      | some del =>
          if (← s.compareAt e del) ≠ 0 then .ok (s, false)
          else
            let s ← (List.range s.curMaxLevel).reverse.foldlM (unlink path del) s
            let s ← s.setPrevOf (← s.next del 0) cur
            let n ← s.node del
            let level ← without s n.level
            .ok ({ s with
                    heap := Function.update s.heap del none
                    curMaxLevel := level
                    count := s.count - 1 }, true)

/-- One level of the loop of `Remove`; the path is not null. -/
def checkedUnlinkLevel (e : SKElem) (path : SKPath) (del : SKPtr) (s : Skiplist) (l : Nat) :
    Except SKError Skiplist := do
  match path[l]? with
  | some (some before) =>
      if ← s.isTarget e (← s.next before l) then s.setNext before l (← s.next del l) else .ok s
  | _ => .error .badAccess

/-- `head_->nexts[level - 1]`. -/
def checkedHeadBelow (s : Skiplist) : (level : Nat) → Except SKError (Option SKPtr)
  | 0 => .error .badAccess
  | l + 1 => s.next s.head l

/-- `while (head_->nexts[level - 1] == nullptr && level > 0) --level`. -/
def checkedLowerLevel (s : Skiplist) : (fuel : Nat) → Nat → Except SKError Nat
  | 0, _ => .error .endless
  | fuel + 1, level => do
      if (← s.checkedHeadBelow level).isNone && decide (level > 0) then
        checkedLowerLevel s fuel (level - 1)
      else .ok level

/-- `if (del_node->level == cur_max_level_)` around it. -/
def checkedLevelWithout (s : Skiplist) (level : Nat) : Except SKError Nat :=
  if level = s.curMaxLevel then s.checkedLowerLevel (s.curMaxLevel + 1) s.curMaxLevel
  else .ok s.curMaxLevel

/-- `Remove` with its accesses checked. -/
def checkedRemove (s : Skiplist) (e : SKElem) : Except SKError (Skiplist × Bool) :=
  s.removeWith (checkedUnlinkLevel e) checkedLevelWithout e

/-! ## Runs -/

/-- A level `GenRandomLevel` can give. -/
abbrev RandomLevel := { level : Nat // 1 ≤ level ∧ level ≤ kMaxLevel }

/-- The operations. -/
inductive Op where
  | insert (e : SKElem) (level : RandomLevel)
  | remove (e : SKElem) (outside : Option SKPtr)
  | contains (e : SKElem)
  | clear

/-- One operation, with what it returns; `Clear` returns nothing. -/
def step (s : Skiplist) : Op → Except SKError (Skiplist × Option Bool)
  | .insert e level => do
      let r ← s.insert e level.1
      .ok (r.1, some r.2)
  | .remove e outside => do
      let r ← s.remove e outside
      .ok (r.1, some r.2)
  | .contains e => do .ok (s, some (← s.contains e))
  | .clear => do .ok (← s.clear, none)

/-- An operation, or a call of `End`. -/
inductive Call where
  | op (op : Op)
  | end_

/-- What a call returns. -/
inductive Result where
  | flag (b : Option Bool)
  | last (p : Option SKPtr)

/-- One call with its accesses checked. -/
def checkedStep (s : Skiplist) : Call → Except SKError (Skiplist × Result)
  | .op (.remove e _) => do
      let r ← s.checkedRemove e
      .ok (r.1, .flag (some r.2))
  | .op op => do
      let r ← s.step op
      .ok (r.1, .flag r.2)
  | .end_ => do .ok (s, .last (← s.end_))

end Skiplist

end LiteKV
