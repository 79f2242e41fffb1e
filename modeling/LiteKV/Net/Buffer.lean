/-
LiteKV.Net.Buffer — the read buffer, `src/net/buffer.h` and `buffer.cpp`.

The bytes between `p_reader_` and `p_writer_` are the readable ones; the
two indices are ordered and inside the storage, which the structure carries
with it. Everything the parser asks of a buffer is a function of its
readable bytes, and `readable_append`, `readable_reset` and
`readable_forward` say what the three mutating operations do to them, so
that nothing above this module looks at an index.

`MoveReadableToHead` copies inside one array with `memcpy`; the copy is
taken to be right where source and target overlap. The number scanner is
given the readable bytes only.
-/
import LiteKV.Num

namespace LiteKV

/-- `Buffer`. -/
structure Buffer where
  data : Bytes
  pReader : Nat
  pWriter : Nat
  reader_le : pReader ≤ pWriter
  writer_le : pWriter ≤ data.length

namespace Buffer

/-- `Buffer(size_t init_bufsize = 64)`. -/
def new : Buffer := ⟨List.replicate 64 0, 0, 0, by omega, by omega⟩

/-- `Buffer(init_bufsize)`. -/
def withSize (initBufsize : Nat) : Buffer :=
  ⟨List.replicate initBufsize 0, 0, 0, by omega, by omega⟩

/-- The readable bytes, `ReadableAsString()`. -/
def readable (b : Buffer) : Bytes := (b.data.drop b.pReader).take (b.pWriter - b.pReader)

theorem length_readable (b : Buffer) : b.readable.length = b.pWriter - b.pReader := by
  have := b.writer_le
  simp only [readable, List.length_take, List.length_drop]
  omega

/-- `ReadableBytes()`. -/
def readableBytes (b : Buffer) : Nat := b.pWriter - b.pReader

/-- `Reset()`. -/
def reset (b : Buffer) : Buffer :=
  ⟨List.replicate b.data.length 0, 0, 0, by omega, by omega⟩

/-- `MoveReadableToHead()`. -/
def moveReadableToHead (b : Buffer) : Buffer :=
  { data := b.readable ++ List.replicate b.pReader 0 ++ b.data.drop b.pWriter
    pReader := 0
    pWriter := b.pWriter - b.pReader
    reader_le := by omega
    writer_le := by simp [length_readable] }

/-- `EnsureBytesForWrite`. -/
def ensureBytesForWrite (b : Buffer) (n : Nat) : Buffer :=
  if b.data.length - b.pWriter < n then
    if b.pReader + (b.data.length - b.pWriter) ≥ n then b.moveReadableToHead
    else
      { data := b.readable ++ List.replicate (b.pWriter + n + 2 - b.readable.length) 0
        pReader := 0
        pWriter := b.readable.length
        reader_le := by omega
        writer_le := by simp }
  else b

theorem ensureBytesForWrite_room (b : Buffer) (n : Nat) :
    (b.ensureBytesForWrite n).pWriter + n ≤ (b.ensureBytesForWrite n).data.length := by
  have hr := b.reader_le
  have hw := b.writer_le
  have hl := b.length_readable
  unfold ensureBytesForWrite
  split
  · split
    · simp only [moveReadableToHead, List.length_append, List.length_replicate, List.length_drop]
      omega
    · simp only [List.length_append, List.length_replicate]
      omega
  · omega

/-- `memcpy(BeginWrite(), value, len); p_writer_ += len`, into storage that has
room for it. -/
def write (b : Buffer) (value : Bytes) (room : b.pWriter + value.length ≤ b.data.length) : Buffer :=
  { data := b.data.take b.pWriter ++ value ++ b.data.drop (b.pWriter + value.length)
    pReader := b.pReader
    pWriter := b.pWriter + value.length
    reader_le := Nat.le_trans b.reader_le (Nat.le_add_right _ _)
    writer_le := by
      simp only [List.length_append, List.length_take, List.length_drop]
      omega }

/-- `Append`. -/
def append (b : Buffer) (value : Bytes) : Buffer :=
  (b.ensureBytesForWrite value.length).write value (b.ensureBytesForWrite_room value.length)

/-- `ReaderIdxForward`. -/
def readerIdxForward (b : Buffer) (len : Nat) : Buffer :=
  { b with
    pReader := b.pReader + min len b.readableBytes
    reader_le := by
      have := b.reader_le
      simp only [readableBytes]
      omega }

/-- `ReadStdString`. -/
def readStdString (b : Buffer) (len : Nat) : Bytes :=
  if len > b.readable.length then [] else b.readable.take len

/-- `ReadStdStringFrom`. -/
def readStdStringFrom (b : Buffer) (index len : Nat) : Bytes :=
  if index ≥ b.readable.length then [] else (b.readable.drop index).take len

/-- `ReadStdStringAndForward`. -/
def readStdStringAndForward (b : Buffer) (len : Nat) : Buffer × Bytes :=
  if len > b.readableBytes then (b, []) else (b.readerIdxForward len, b.readable.take len)

/-- `std::search`: the index of the first occurrence of `pat`, and the length of
`text` when there is none. -/
def search (pat : Bytes) : (text : Bytes) → Nat
  | [] => 0
  | c :: text => if pat.isPrefixOf (c :: text) then 0 else search pat text + 1

/-- `ReadStdStringAndForwardTill`; the delimiter is a C string. -/
def readStdStringAndForwardTill (b : Buffer) (delim : Bytes) : Buffer × Bytes :=
  let delimLen := (cStr delim).length
  let offset := search (cStr delim) b.readable
  if offset = b.readable.length then (b, [])
  else (b.readerIdxForward (offset + delimLen), b.readable.take offset)

/-- `ReadableCharacterAt`. -/
def readableCharacterAt (b : Buffer) (index : Nat) : UInt8 :=
  b.readable[min index (b.readable.length - 1)]?.getD 0

/-- `ReadLongFrom`: the number and `step`. -/
def readLongFrom (b : Buffer) (index : Nat) : Int × Nat :=
  if index ≥ b.readable.length then (0, 0) else strtoll (b.readable.drop index)

/-! ## What the operations do to the readable bytes -/

@[simp] theorem readable_reset (b : Buffer) : b.reset.readable = [] := by
  simp [readable, reset]

theorem readable_moveReadableToHead (b : Buffer) :
    b.moveReadableToHead.readable = b.readable := by
  have hl := b.length_readable
  show ((b.readable ++ List.replicate b.pReader 0 ++ b.data.drop b.pWriter).drop 0).take
    (b.pWriter - b.pReader - 0) = b.readable
  rw [List.drop_zero, Nat.sub_zero, List.append_assoc, List.take_left' hl]

theorem readable_ensureBytesForWrite (b : Buffer) (n : Nat) :
    (b.ensureBytesForWrite n).readable = b.readable := by
  unfold ensureBytesForWrite
  split
  · split
    · exact b.readable_moveReadableToHead
    · show List.take _ (List.drop 0 _) = _
      rw [List.drop_zero, Nat.sub_zero, List.take_left' rfl]
  · rfl

theorem readable_write (b : Buffer) (value : Bytes)
    (room : b.pWriter + value.length ≤ b.data.length) :
    (b.write value room).readable = b.readable ++ value := by
  have hr := b.reader_le
  have hlen : (b.data.take b.pWriter).length = b.pWriter := by
    rw [List.length_take]; omega
  simp only [readable, write]
  rw [List.append_assoc, List.drop_append_of_le_length (by omega), List.drop_take,
    ← List.append_assoc, List.take_left' (by
      simp only [List.length_append, List.length_take, List.length_drop]; omega)]

@[simp] theorem readable_append (b : Buffer) (value : Bytes) :
    (b.append value).readable = b.readable ++ value := by
  rw [append, readable_write, readable_ensureBytesForWrite]

@[simp] theorem readable_forward (b : Buffer) (len : Nat) :
    (b.readerIdxForward len).readable = b.readable.drop len := by
  have hr := b.reader_le
  have hw := b.writer_le
  simp only [readerIdxForward, readable, readableBytes, List.drop_take, List.drop_drop]
  by_cases hl : len ≤ b.pWriter - b.pReader
  · rw [Nat.min_eq_left hl]
    congr 1
    omega
  · rw [Nat.min_eq_right (by omega), show b.pWriter - b.pReader - len = 0 by omega,
      show b.pWriter - (b.pReader + (b.pWriter - b.pReader)) = 0 by omega, List.take_zero,
      List.take_zero]

end Buffer

end LiteKV
