/-
LiteKV.StrAlloc — `DynamicString` with its buffer, `src/str.h` and
`src/str.cpp`.

`LiteKV.Str` takes a `DynamicString` for its bytes. Here it is its three
fields: `len_`, `alloc_`, and the block `buf_` points to, whose length is the
size it really has. Each allocation is given its answer, and a write that
leaves the block is an error.

The strings that are put in are not part of the object. `alloc_` grows by a
`float` product, which is exact below `2 ^ 22`; the copy constructor does not
look at the answer of `malloc`, which is taken to succeed there. The
constructors from a string leave what `Append` leaves on a fresh object.
-/
import LiteKV.Str
import LiteKV.Lib.Region
import LiteKV.Lib.Run

namespace LiteKV

open Lib Lib.Region

/-- `DynamicString`; no block is the null pointer. -/
structure RawString where
  len : Nat
  alloc : Nat
  buf : Option Bytes
  deriving DecidableEq, Repr

namespace RawString

/-- `DynamicString()`. -/
def new : RawString := ⟨0, 0, none⟩

/-- `ToStdString()`. -/
def toStdString (s : RawString) : Bytes :=
  match s.buf with
  | none => []
  | some block => block.take s.len

/-- `alloc_ - len_ - 1`, a `uint32_t`. -/
def freeBytes (s : RawString) : Nat := (s.alloc + (2 ^ 32 - (s.len + 1))) % 2 ^ 32

/-- `uint32_t(n * kBufGrowFactor + 1)`. -/
def grown (n : Nat) : Nat := n * 3 / 2 + 1

/-- `memcpy(buf_ + len_, str, addlen); len_ += addlen; buf_[len_] = '\0'`. -/
def put (s : RawString) (block str : Bytes) : Except Overrun RawString := do
  let block ← store block s.len str
  let block ← store block (s.len + str.length) [0]
  .ok { s with len := s.len + str.length, buf := some block }

/-- `Append` once there is a buffer. -/
def appendTo (s : RawString) (block : Bytes) (realloced : Answer UInt8) (str : Bytes) :
    Except Overrun RawString :=
  if s.freeBytes ≥ str.length then s.put block str
  else
    -- `alloc_` is set before the answer is known
    let s := { s with alloc := grown (s.len + str.length) }
    match realloc realloced block s.alloc with
    | none => .ok s
    | some tmp => { s with buf := some tmp }.put tmp str

/-- `Append`. -/
def append (s : RawString) (malloced realloced : Answer UInt8) (str : Bytes) :
    Except Overrun RawString :=
  match s.buf with
  | some block => s.appendTo block realloced str
  | none =>
      let s := { s with alloc := str.length + 1, buf := malloc malloced (str.length + 1) }
      match s.buf with
      | none => .ok s
      | some block => s.appendTo block realloced str

/-- `Clear`. -/
def clear (s : RawString) : Except Overrun RawString :=
  match s.buf with
  | none => .ok s
  | some block =>
      if s.len = 0 ∨ s.alloc = 0 then .ok s
      else do
        let block ← store block 0 (List.replicate s.alloc 0)
        let block ← store block 0 [0]
        .ok { s with len := 0, buf := some block }

/-- `Reset`. -/
def reset (s : RawString) (malloced realloced : Answer UInt8) (str : Bytes) :
    Except Overrun RawString :=
  match s.buf with
  | some _ => do (← s.clear).append malloced realloced str
  | none =>
      match malloc malloced (str.length + 1) with
      | none => .ok s
      | some block => do
          let s := { s with alloc := str.length + 1, buf := some block }
          (← s.clear).append malloced realloced str

/-- `Shrink`. -/
def shrink (s : RawString) (realloced : Answer UInt8) : RawString :=
  match s.buf with
  | none => s
  | some block =>
      match realloc realloced block (s.len + 1) with
      | none => s
      | some tmp => { s with alloc := s.len + 1, buf := some tmp }

/-- `DynamicString(const DynamicString &x)`; `junk` is in the memory it finds. -/
def copy (x : RawString) (junk : Nat → UInt8) : Except Overrun RawString :=
  match x.buf with
  | none => .ok new
  | some block => do
      let buf ← store ((List.range x.alloc).map junk) 0 (block.take x.len)
      let buf ← store buf x.len [0]
      .ok ⟨x.len, x.alloc, some buf⟩

/-- A call with the answers of its allocations. The life of an object goes on with
a copy of it: the two share nothing. -/
inductive Call where
  | append (str : Bytes) (malloced realloced : Answer UInt8)
  | clear
  | reset (str : Bytes) (malloced realloced : Answer UInt8)
  | shrink (realloced : Answer UInt8)
  | copy (junk : Nat → UInt8)

/-- The call. -/
def call (s : RawString) : Call → Except Overrun RawString
  | .append str malloced realloced => s.append malloced realloced str
  | .clear => s.clear
  | .reset str malloced realloced => s.reset malloced realloced str
  | .shrink realloced => .ok (s.shrink realloced)
  | .copy junk => s.copy junk

/-- The call, and the contents after it. -/
def step (s : RawString) (c : Call) : Except Overrun (RawString × Bytes) := do
  let s ← s.call c
  .ok (s, s.toStdString)

end RawString

end LiteKV
