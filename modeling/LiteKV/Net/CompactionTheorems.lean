/-
LiteKV.Net.CompactionTheorems — when `MoveReadableToHead` may call `memcpy`.

The readable bytes are copied to the front of the same array, so the two
ranges meet exactly when more bytes are readable than have been read in front
of them. Whether that happens is a matter of three numbers, `Layout`: the size
of the storage, the bytes already read and the bytes still readable. They
follow from the lengths alone, `layout_use`, so the runs without an overlap
are told apart on the calls: each append fits behind the writer, or does not
fit into the storage at all, or finds at most as much readable as was read.
-/
import LiteKV.Net.BufferTheorems
import Mathlib.Data.Set.Lattice
import Mathlib.Order.CompletePartialOrder
import Mathlib.Order.Interval.Set.Disjoint

namespace LiteKV

open Lib Lib.Run

namespace Buffer

/-! ## `memcpy` inside one array -/

/-- `memcpy(data + dst, data + src, len)`; `none` where the ranges meet. -/
def memcpy (data : Bytes) (dst src len : Nat) : Option Bytes :=
  if dst + len ≤ src ∨ src + len ≤ dst ∨ len = 0 then
    some (overwrite data dst ((data.drop src).take len))
  else none

/-- The storage after the two calls of `MoveReadableToHead()`. -/
def compacted (b : Buffer) : Option Bytes := do
  let data ← memcpy b.data 0 b.pReader b.readableBytes
  some (overwrite data (b.pWriter - b.pReader) (List.replicate b.pReader 0))

/-- The copy is defined exactly if the two ranges do not meet, and is then the
one of `moveReadableToHead`. -/
theorem compacted_eq (b : Buffer) : b.compacted
    = if b.readableBytes ≤ b.pReader then some b.moveReadableToHead.data else none := by
  have hsrc : (b.data.drop b.pReader).take b.readableBytes = b.readable := rfl
  by_cases h : b.readableBytes ≤ b.pReader
  · have hdef : 0 + b.readableBytes ≤ b.pReader ∨ b.pReader + b.readableBytes ≤ 0 ∨
        b.readableBytes = 0 := Or.inl (by omega)
    rw [if_pos h, compacted, memcpy, if_pos hdef, hsrc, moveReadableToHead_data]
    rfl
  · have hdef : ¬ (0 + b.readableBytes ≤ b.pReader ∨ b.pReader + b.readableBytes ≤ 0 ∨
        b.readableBytes = 0) := by omega
    rw [if_neg h, compacted, memcpy, if_neg hdef]
    rfl

/-- `EnsureBytesForWrite(n)` calls `MoveReadableToHead()`. -/
def Compacts (b : Buffer) (n : Nat) : Prop :=
  b.data.length - b.pWriter < n ∧ b.pReader + (b.data.length - b.pWriter) ≥ n

theorem ensureBytesForWrite_of_compacts {b : Buffer} {n : Nat} (h : b.Compacts n) :
    b.ensureBytesForWrite n = b.moveReadableToHead := by
  rw [ensureBytesForWrite, if_pos h.1, if_pos h.2]

/-- What `memcpy` asks of its two ranges. -/
def CopyDisjoint (b : Buffer) : Prop :=
  Disjoint (Set.Ico b.pReader b.pWriter) (Set.Ico 0 b.readableBytes)

theorem copyDisjoint_iff (b : Buffer) : b.CopyDisjoint ↔ b.readableBytes ≤ b.pReader := by
  have hr := b.reader_le
  rw [CopyDisjoint, Set.Ico_disjoint_Ico, readableBytes]
  omega

/-- `memcpy` is defined exactly then. -/
theorem copyDisjoint_iff_compacted (b : Buffer) : b.CopyDisjoint ↔ b.compacted.isSome = true := by
  rw [copyDisjoint_iff, compacted_eq]
  split <;> simp_all

end Buffer

/-! ## The layout -/

/-- A call that moves the indices. The length of an appended string is an `int`. -/
inductive BufferUse where
  | append (value : Bytes) (short : value.length < 2 ^ 31)
  | readerIdxForward (len : Nat)
  | reset

/-- The call. -/
def Buffer.use (b : Buffer) : BufferUse → Buffer
  | .append value _ => b.append value
  | .readerIdxForward len => b.readerIdxForward len
  | .reset => b.reset

/-- The size of the storage, the bytes already read and the readable bytes. -/
structure Layout where
  size : Nat
  read : Nat
  unread : Nat
  deriving DecidableEq

namespace Layout

/-- An empty buffer. -/
def withSize (size : Nat) : Layout := ⟨size, 0, 0⟩

/-- The bytes behind the readable ones. -/
def behind (l : Layout) : Nat := l.size - (l.read + l.unread)

/-- What a call does to the layout. -/
def next (l : Layout) : BufferUse → Layout
  | .append value _ =>
      let n := value.length
      if n ≤ l.behind then ⟨l.size, l.read, l.unread + n⟩
      else if n ≤ l.read + l.behind then ⟨l.size, 0, l.unread + n⟩
      else ⟨l.read + l.unread + n + 2, 0, l.unread + n⟩
  | .readerIdxForward len => ⟨l.size, l.read + min len l.unread, l.unread - len⟩
  | .reset => ⟨l.size, 0, 0⟩

/-- An append fits behind the readable bytes, or does not fit at all, or finds at
most as many readable bytes as bytes already read. -/
def Roomy (l : Layout) : BufferUse → Prop
  | .append value _ =>
      value.length ≤ l.behind ∨ l.read + l.behind < value.length ∨ l.unread ≤ l.read
  | _ => True

instance Roomy.decidable (l : Layout) : ∀ u, Decidable (l.Roomy u)
  | .append _ _ => inferInstanceAs (Decidable (_ ∨ _ ∨ _))
  | .readerIdxForward _ => isTrue trivial
  | .reset => isTrue trivial

end Layout

namespace Buffer

/-- The layout of a buffer. -/
def layout (b : Buffer) : Layout := ⟨b.data.length, b.pReader, b.readableBytes⟩

theorem behind_layout (b : Buffer) : b.layout.behind = b.data.length - b.pWriter := by
  have hr := b.reader_le
  show b.data.length - (b.pReader + (b.pWriter - b.pReader)) = _
  rw [show b.pReader + (b.pWriter - b.pReader) = b.pWriter by omega]

theorem layout_write (b : Buffer) (value : Bytes)
    (room : b.pWriter + value.length ≤ b.data.length) :
    (b.write value room).layout
      = ⟨b.layout.size, b.layout.read, b.layout.unread + value.length⟩ := by
  have hr := b.reader_le
  have hsize : (b.write value room).data.length = b.data.length := by
    simp only [write, List.length_append, List.length_take, List.length_drop]
    omega
  have hunread : (b.write value room).readableBytes = b.readableBytes + value.length := by
    show b.pWriter + value.length - b.pReader = b.pWriter - b.pReader + value.length
    omega
  rw [layout, hsize, hunread]
  rfl

theorem layout_moveReadableToHead (b : Buffer) :
    b.moveReadableToHead.layout = ⟨b.data.length, 0, b.readableBytes⟩ := by
  have hr := b.reader_le
  have hw := b.writer_le
  have hl := b.length_readable
  have hsize : b.moveReadableToHead.data.length = b.data.length := by
    simp only [moveReadableToHead, List.length_append, List.length_replicate, List.length_drop]
    omega
  rw [layout, hsize]
  rfl

/-- The three ways of `EnsureBytesForWrite`. -/
theorem layout_ensureBytesForWrite (b : Buffer) (n : Nat) : (b.ensureBytesForWrite n).layout
    = if n ≤ b.layout.behind then b.layout
      else if n ≤ b.layout.read + b.layout.behind then ⟨b.data.length, 0, b.readableBytes⟩
      else ⟨b.pWriter + n + 2, 0, b.readableBytes⟩ := by
  have hr := b.reader_le
  have hl := b.length_readable
  rw [behind_layout, show b.layout.read = b.pReader from rfl, ensureBytesForWrite]
  by_cases hfits : n ≤ b.data.length - b.pWriter
  · rw [if_neg (by omega), if_pos hfits]
  · rw [if_pos (by omega), if_neg hfits]
    by_cases hmove : n ≤ b.pReader + (b.data.length - b.pWriter)
    · rw [if_pos (by omega), if_pos hmove, layout_moveReadableToHead]
    · rw [if_neg (by omega), if_neg hmove]
      have hsize :
          (b.readable ++ List.replicate (b.pWriter + n + 2 - b.readable.length) (0 : UInt8)).length
            = b.pWriter + n + 2 := by
        rw [List.length_append, List.length_replicate]
        omega
      rw [layout, hsize]
      show (⟨_, 0, b.readable.length - 0⟩ : Layout) = _
      rw [hl, Nat.sub_zero]
      rfl

/-- One call: the layout follows from the lengths. -/
theorem layout_use (b : Buffer) (u : BufferUse) : (b.use u).layout = b.layout.next u := by
  cases u with
  | append value short =>
      have hr := b.reader_le
      have hwriter : b.layout.read + b.layout.unread = b.pWriter := by
        show b.pReader + (b.pWriter - b.pReader) = b.pWriter
        omega
      rw [use, append, layout_write, layout_ensureBytesForWrite, Layout.next, hwriter]
      split
      · rfl
      · split <;> rfl
  | readerIdxForward len =>
      have hr := b.reader_le
      have hunread : (b.readerIdxForward len).readableBytes = b.readableBytes - len := by
        show b.pWriter - (b.pReader + min len b.readableBytes) = b.readableBytes - len
        rw [readableBytes]
        omega
      rw [use, layout, hunread]
      rfl
  | reset =>
      rw [use, layout, Layout.next]
      congr 1
      exact List.length_replicate

/-- The layout after a run. -/
theorem layout_run (uses : List BufferUse) (b : Buffer) :
    (uses.foldl use b).layout = uses.foldl Layout.next b.layout := by
  induction uses generalizing b with
  | nil => rfl
  | cons u uses ih => rw [List.foldl_cons, List.foldl_cons, ih, layout_use]

/-- An append copies only disjoint ranges exactly if it is roomy. -/
theorem roomy_append_iff (b : Buffer) (value : Bytes) (short : value.length < 2 ^ 31) :
    b.layout.Roomy (.append value short) ↔ (b.Compacts value.length → b.CopyDisjoint) := by
  show value.length ≤ b.layout.behind ∨ b.pReader + b.layout.behind < value.length ∨
    b.readableBytes ≤ b.pReader ↔ _
  rw [behind_layout, copyDisjoint_iff, Compacts]
  omega

end Buffer

/-- **`MoveReadableToHead` copies disjoint ranges in a run exactly if every
append of the run is roomy.** -/
theorem compaction_disjoint_iff (initBufsize : Nat) (uses : List BufferUse) :
    (∀ pre value short post, uses = pre ++ .append value short :: post →
      (pre.foldl Buffer.use (.withSize initBufsize)).Compacts value.length →
      (pre.foldl Buffer.use (.withSize initBufsize)).CopyDisjoint) ↔
    Guarded Layout.next Layout.Roomy (.withSize initBufsize) uses := by
  have hlayout (pre : List BufferUse) : pre.foldl Layout.next (.withSize initBufsize)
      = (pre.foldl Buffer.use (.withSize initBufsize)).layout := by
    rw [Buffer.layout_run]
    congr 1
    show Layout.mk initBufsize 0 0 = ⟨(List.replicate initBufsize (0 : UInt8)).length, 0, 0⟩
    rw [List.length_replicate]
  rw [guarded_iff_forall]
  constructor
  · intro h pre u post huses
    cases u with
    | append value short =>
        rw [hlayout, Buffer.roomy_append_iff]
        exact h pre value short post huses
    | readerIdxForward len => trivial
    | reset => trivial
  · intro h pre value short post huses
    have hroomy := h pre (.append value short) post huses
    rwa [hlayout, Buffer.roomy_append_iff] at hroomy

/-- 60 bytes come in, 10 of them are read, and 10 more do not fit behind them. -/
theorem compaction_overlaps :
    let b := ((Buffer.new.append (List.replicate 60 97)).readerIdxForward 10)
    b.Compacts 10 ∧ ¬ b.CopyDisjoint ∧ b.compacted = none := by
  intro b
  have hlayout : b.layout = ⟨64, 10, 50⟩ := by decide +kernel
  rw [Buffer.layout, Layout.mk.injEq] at hlayout
  obtain ⟨hsize, hread, hunread⟩ := hlayout
  have hle : ¬ b.readableBytes ≤ b.pReader := by omega
  have hwriter : b.pWriter = 60 := by
    have := b.reader_le
    rw [Buffer.readableBytes] at hunread
    omega
  refine ⟨⟨by omega, by omega⟩, fun h => hle (b.copyDisjoint_iff.mp h), ?_⟩
  rw [Buffer.compacted_eq, if_neg hle]

end LiteKV
