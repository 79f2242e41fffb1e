/-
LiteKV.Net.Utils — the socket helpers of `src/net/utils.cpp`.

`read` and `send` are the kernel's; a run of a helper meets a list of their
results, and what comes after the list is `EAGAIN`. A count is cut to what
the call asked for. The bytes a `read` delivers are the next ones of the
peer's stream, so the stream is read at `total_read`.

`buf` is the address 0: memory is a function of the distance to it, which is
negative in front of the buffer. Both loops add the size of the last
transfer to `buf`, not the running total, and that size is -1 after a call
that was interrupted; `last` is this variable (`bytes_read`,
`bytes_written`).
-/
import LiteKV.Str

namespace LiteKV

/-- A result of `read` or `send`. -/
inductive IoResult where
  /-- `more + 1` bytes. -/
  | count (more : Nat)
  /-- The result 0: the peer has closed the connection. -/
  | closed
  | eintr
  | eagain
  deriving DecidableEq

namespace IoResult

def isCount : IoResult → Bool
  | count _ => true
  | _ => false

end IoResult

/-- Memory, by the distance from `buf`. -/
abbrev Memory := Int → UInt8

/-- `memset(buf, 0, len)`. -/
def Memory.zeroed (mem : Memory) (len : Nat) : Memory :=
  fun p => if 0 ≤ p ∧ p < len then 0 else mem p

/-! ## `ReadToBuf` -/

/-- The variables of `ReadToBuf`, the memory, and the ranges it has handed to
`read`: where they start and how long they are. -/
structure ReadRun where
  total : Nat
  last : Int
  mem : Memory
  calls : List (Int × Nat)

namespace ReadRun

/-- `::read(fd, buf + bytes_read, len - total_read)`. -/
def call (s : ReadRun) (len : Nat) : ReadRun :=
  { s with calls := s.calls ++ [(s.last, len - s.total)] }

/-- A call that delivers `n` bytes. -/
def deliver (s : ReadRun) (stream : Nat → UInt8) (n : Nat) : ReadRun :=
  { s with
    total := s.total + n
    last := n
    mem := fun p =>
      if s.last ≤ p ∧ p < s.last + n then stream (s.total + (p - s.last).toNat) else s.mem p }

end ReadRun

/-- `while (total_read < len)`. -/
def readLoop (stream : Nat → UInt8) (len : Nat) : List IoResult → ReadRun → ReadRun
  | [], s => if s.total < len then s.call len else s
  | r :: rs, s =>
      if s.total < len then
        match r with
        | .count more =>
            readLoop stream len rs ((s.call len).deliver stream (min (more + 1) (len - s.total)))
        | .closed => s.call len
        | .eintr => readLoop stream len rs { s.call len with last := -1 }
        | .eagain => s.call len
      else s

/-- `ReadToBuf`, for a length that is not negative; `total` is its result. -/
def readToBuf (stream : Nat → UInt8) (mem : Memory) (len : Nat) (results : List IoResult) :
    ReadRun :=
  readLoop stream len results ⟨0, 0, mem.zeroed len, []⟩

/-! ## `WriteFromBuf` -/

/-- The variables of `WriteFromBuf` and the bytes the kernel has accepted. -/
structure WriteRun where
  total : Nat
  last : Int
  sent : Bytes

/-- A call that accepts `n` bytes from `buf + bytes_written`. -/
def WriteRun.accept (s : WriteRun) (mem : Memory) (n : Nat) : WriteRun :=
  ⟨s.total + n, n, s.sent ++ (List.range n).map fun (i : Nat) => mem (s.last + i)⟩

/-- `while (total_written < len)`; a result of 0 matches no branch and goes round
again. -/
def writeLoop (mem : Memory) (len : Nat) : List IoResult → WriteRun → WriteRun
  | [], s => s
  | r :: rs, s =>
      if s.total < len then
        match r with
        | .count more => writeLoop mem len rs (s.accept mem (min (more + 1) (len - s.total)))
        | .closed => writeLoop mem len rs { s with last := 0 }
        | .eintr => writeLoop mem len rs { s with last := -1 }
        | .eagain => s
      else s

/-- `WriteFromBuf`, for a length that is not negative; `total` is its result. -/
def writeFromBuf (mem : Memory) (len : Nat) (results : List IoResult) : WriteRun :=
  writeLoop mem len results ⟨0, 0, []⟩

end LiteKV
