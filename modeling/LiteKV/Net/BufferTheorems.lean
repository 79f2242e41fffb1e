/-
LiteKV.Net.BufferTheorems — the buffer is a queue of bytes, and the storage
behind the writer is clear.

A run of calls on a buffer is compared with the same run on a ledger of all
bytes ever appended, `call_simulates`. The readable bytes are the ledger's
pending ones and every string a call returns is the ledger's.

The second half of the relation is `ZeroTail`. Growing starts from a cleared
vector, and moving the readable bytes to the front clears exactly the bytes
between the old writer and the new one, `moveReadableToHead_data`. Thanks to
it the number scanner, which reads the storage and not the readable bytes,
stops in time: `strtoll_storage`.
-/
import LiteKV.Net.Buffer
import LiteKV.Lib.Run
import LiteKV.Lib.Ledger

namespace LiteKV

open Lib Lib.Run

namespace Buffer

/-! ## The storage -/

/-- `memcpy(data + index, src, src.size())`; with equal bytes, `memset`. -/
def overwrite (data : Bytes) (index : Nat) (src : Bytes) : Bytes :=
  data.take index ++ src ++ data.drop (index + src.length)

/-- The two calls of `MoveReadableToHead()`. -/
theorem moveReadableToHead_data (b : Buffer) :
    b.moveReadableToHead.data
      = overwrite (overwrite b.data 0 b.readable) (b.pWriter - b.pReader)
          (List.replicate b.pReader 0) := by
  have hr := b.reader_le
  have hl := b.length_readable
  have hcopy : overwrite b.data 0 b.readable
      = b.readable ++ b.data.drop (b.pWriter - b.pReader) := by
    rw [overwrite, List.take_zero, List.nil_append, Nat.zero_add, hl]
  rw [hcopy, overwrite, List.take_left' hl, List.length_replicate, Nat.sub_add_cancel hr,
    List.drop_append, List.drop_eq_nil_of_le (by omega), List.nil_append, List.drop_drop, hl,
    show b.pWriter - b.pReader + (b.pWriter - (b.pWriter - b.pReader)) = b.pWriter by omega]
  rfl

/-- Every byte at or behind the writer is 0. -/
def ZeroTail (b : Buffer) : Prop := ∀ c ∈ b.data.drop b.pWriter, c = 0

theorem ZeroTail.getElem {b : Buffer} (h : b.ZeroTail) (i : Nat) (hi : i < b.data.length)
    (hw : b.pWriter ≤ i) : b.data[i] = 0 :=
  h _ (List.mem_drop_iff_getElem.mpr ⟨i - b.pWriter, by omega, by
    simp only [show b.pWriter + (i - b.pWriter) = i by omega]⟩)

theorem zeroTail_withSize (n : Nat) : (withSize n).ZeroTail :=
  fun _ hc => List.eq_of_mem_replicate (List.mem_of_mem_drop hc)

theorem zeroTail_reset (b : Buffer) : b.reset.ZeroTail :=
  fun _ hc => List.eq_of_mem_replicate (List.mem_of_mem_drop hc)

theorem zeroTail_forward {b : Buffer} (h : b.ZeroTail) (len : Nat) :
    (b.readerIdxForward len).ZeroTail := h

theorem zeroTail_moveReadableToHead {b : Buffer} (h : b.ZeroTail) :
    b.moveReadableToHead.ZeroTail := by
  intro c hc
  have hdrop : b.moveReadableToHead.data.drop b.moveReadableToHead.pWriter
      = List.replicate b.pReader 0 ++ b.data.drop b.pWriter := by
    show ((b.readable ++ List.replicate b.pReader 0) ++ b.data.drop b.pWriter).drop
      (b.pWriter - b.pReader) = _
    rw [List.append_assoc, List.drop_left' b.length_readable]
  rw [hdrop, List.mem_append] at hc
  rcases hc with hc | hc
  · exact List.eq_of_mem_replicate hc
  · exact h c hc

theorem zeroTail_ensureBytesForWrite {b : Buffer} (h : b.ZeroTail) (n : Nat) :
    (b.ensureBytesForWrite n).ZeroTail := by
  unfold ensureBytesForWrite
  split
  · split
    · exact zeroTail_moveReadableToHead h
    · intro c hc
      rw [List.drop_left' rfl] at hc
      exact List.eq_of_mem_replicate hc
  · exact h

theorem zeroTail_write {b : Buffer} (h : b.ZeroTail) (value : Bytes)
    (room : b.pWriter + value.length ≤ b.data.length) : (b.write value room).ZeroTail := by
  intro c hc
  have hlen : (b.data.take b.pWriter ++ value).length = b.pWriter + value.length := by
    rw [List.length_append, List.length_take]
    omega
  have hdrop : (b.write value room).data.drop (b.write value room).pWriter
      = (b.data.drop b.pWriter).drop value.length := by
    show ((b.data.take b.pWriter ++ value) ++ b.data.drop (b.pWriter + value.length)).drop
      (b.pWriter + value.length) = _
    rw [List.drop_left' hlen, List.drop_drop]
  rw [hdrop] at hc
  exact h c (List.mem_of_mem_drop hc)

theorem zeroTail_append {b : Buffer} (h : b.ZeroTail) (value : Bytes) :
    (b.append value).ZeroTail :=
  zeroTail_write (zeroTail_ensureBytesForWrite h _) value _

end Buffer

/-! ## What a scan looks at -/

/-- The bytes a scan passes over: white space, a sign and digits. -/
def scanned (s : Bytes) : Nat :=
  let ws := (s.takeWhile isSpace).length
  let sign := (scanSign (s.drop ws)).2
  ws + sign + ((s.drop (ws + sign)).takeWhile isDigit).length

/-- Nothing that a number goes on with stands in front. -/
def Stops (rest : Bytes) : Prop :=
  ∀ c ∈ rest.head?, isSpace c = false ∧ isDigit c = false ∧ c ≠ 45 ∧ c ≠ 43

theorem stops_zero (rest : Bytes) : Stops (0 :: rest) := by
  intro c hc
  obtain rfl : 0 = c := Option.some.inj hc
  decide

theorem scanSign_le (t : Bytes) : (scanSign t).2 ≤ t.length := by
  cases t with
  | nil => exact Nat.le_refl 0
  | cons c t =>
      rw [scanSign, List.length_cons]
      split
      · omega
      · split <;> omega

theorem scanned_le (s : Bytes) : scanned s ≤ s.length := by
  have hws : (s.takeWhile isSpace).length ≤ s.length := (List.takeWhile_prefix _).length_le
  have hsign := scanSign_le (s.drop (s.takeWhile isSpace).length)
  have hds := (List.takeWhile_prefix isDigit (l := s.drop ((s.takeWhile isSpace).length
    + (scanSign (s.drop (s.takeWhile isSpace).length)).2))).length_le
  rw [List.length_drop] at hsign hds
  rw [scanned]
  omega

theorem takeWhile_append_of_stops {p : UInt8 → Bool} {t rest : Bytes}
    (h : (t.takeWhile p).length < t.length ∨ ∀ c ∈ rest.head?, p c = false) :
    (t ++ rest).takeWhile p = t.takeWhile p := by
  rw [List.takeWhile_append]
  split
  · rename_i hall
    have hnone : rest.takeWhile p = [] := by
      cases rest with
      | nil => rfl
      | cons c rest =>
          rw [List.takeWhile_cons, h.resolve_left (by omega) c rfl]
          rfl
    rw [hnone, List.append_nil]
    exact ((List.takeWhile_prefix p).eq_of_length hall).symm
  · rfl

theorem scanSign_append_stop {t rest : Bytes} (h : 0 < t.length ∨ Stops rest) :
    scanSign (t ++ rest) = scanSign t := by
  cases t with
  | cons c t => rfl
  | nil =>
      cases rest with
      | nil => rfl
      | cons c rest =>
          obtain ⟨-, -, hminus, hplus⟩ := h.resolve_left (Nat.lt_irrefl 0) c rfl
          rw [List.nil_append, scanSign, if_neg hminus, if_neg hplus]
          rfl

/-- What stands behind a string does not matter to its scan, when the scan stops
inside of the string, or there. -/
theorem scan_append {s rest : Bytes} (h : scanned s < s.length ∨ Stops rest) :
    scanned (s ++ rest) = scanned s ∧ scanInteger (s ++ rest) = scanInteger s := by
  have hws : (s.takeWhile isSpace).length ≤ s.length := (List.takeWhile_prefix _).length_le
  have hsg := scanSign_le (s.drop (s.takeWhile isSpace).length)
  rw [List.length_drop] at hsg
  rw [scanned] at h
  have hspace : (s ++ rest).takeWhile isSpace = s.takeWhile isSpace :=
    takeWhile_append_of_stops (h.imp (by omega) fun h c hc => (h c hc).1)
  have hsign : scanSign ((s ++ rest).drop (s.takeWhile isSpace).length)
      = scanSign (s.drop (s.takeWhile isSpace).length) := by
    rw [List.drop_append_of_le_length hws]
    exact scanSign_append_stop (h.imp_left fun h => by rw [List.length_drop]; omega)
  have hdigits : ((s ++ rest).drop ((s.takeWhile isSpace).length
        + (scanSign (s.drop (s.takeWhile isSpace).length)).2)).takeWhile isDigit
      = (s.drop ((s.takeWhile isSpace).length
        + (scanSign (s.drop (s.takeWhile isSpace).length)).2)).takeWhile isDigit := by
    rw [List.drop_append_of_le_length (by omega)]
    exact takeWhile_append_of_stops (h.imp (fun h => by rw [List.length_drop]; omega)
      fun h c hc => (h c hc).2.1)
  constructor
  · simp only [scanned, hspace, hsign, hdigits]
  · simp only [scanInteger, hspace, hsign, hdigits]

/-- Bytes that are 0 end a number like the end of the string. -/
theorem scanInteger_append_zeros {zeros : Bytes} (hz : ∀ c ∈ zeros, c = 0) (s : Bytes) :
    scanInteger (s ++ zeros) = scanInteger s := by
  refine (scan_append (Or.inr fun c hc => ?_)).2
  obtain rfl := hz c (List.mem_of_mem_head? hc)
  decide

/-- The storage from a readable byte on. -/
theorem Buffer.drop_data_eq (b : Buffer) {index : Nat} (hi : index ≤ b.readableBytes) :
    b.data.drop (b.pReader + index) = b.readable.drop index ++ b.data.drop b.pWriter := by
  have hr := b.reader_le
  have hl := b.length_readable
  have hsplit : b.data.drop b.pReader = b.readable ++ b.data.drop b.pWriter := by
    rw [readable, show b.data.drop b.pWriter
      = (b.data.drop b.pReader).drop (b.pWriter - b.pReader) by
        rw [List.drop_drop]; congr 1; omega, List.take_append_drop]
  rw [← List.drop_drop, hsplit, List.drop_append_of_le_length (by rw [hl]; exact hi)]

/-- `ReadLongFrom` scans the storage: behind the readable bytes it meets a 0. -/
theorem Buffer.strtoll_storage {b : Buffer} (h : b.ZeroTail) {index : Nat}
    (hi : index < b.readableBytes) :
    strtoll (b.data.drop (b.pReader + index)) = b.readLongFrom index := by
  have hlt : ¬ index ≥ b.readable.length := by
    rw [b.length_readable]
    exact Nat.not_le.mpr hi
  rw [readLongFrom, if_neg hlt, b.drop_data_eq (Nat.le_of_lt hi), strtoll, strtoll,
    scanInteger_append_zeros h]

/-! ## Searching -/

/-- The first place of `text` at which `pat` stands. -/
def firstOccurrence (pat text : Bytes) : Option Nat :=
  (List.range text.length).find? fun i => pat.isPrefixOf (text.drop i)

/-- `std::search` finds the first occurrence, and the end when there is none. -/
theorem Buffer.search_eq (pat text : Bytes) :
    search pat text = (firstOccurrence pat text).getD text.length := by
  induction text with
  | nil => rfl
  | cons c text ih =>
      rw [search, firstOccurrence, List.length_cons, List.range_succ_eq_map, List.find?_cons]
      by_cases hp : pat.isPrefixOf (c :: text) = true
      · rw [if_pos hp, List.drop_zero, hp]
        rfl
      · rw [if_neg hp, List.drop_zero, Bool.eq_false_iff.mpr hp, List.find?_map, ih,
          firstOccurrence]
        show _ = (Option.map Nat.succ
          ((List.range text.length).find? fun i => pat.isPrefixOf (text.drop i))).getD _
        cases (List.range text.length).find? fun i => pat.isPrefixOf (text.drop i) <;> rfl

theorem firstOccurrence_lt {pat text : Bytes} {i : Nat} (h : firstOccurrence pat text = some i) :
    i < text.length :=
  List.mem_range.mp (List.mem_of_find?_eq_some h)

/-! ## Runs -/

/-- A call on a buffer. The length of an appended string is an `int`. -/
inductive BufferCall where
  | append (value : Bytes) (short : value.length < 2 ^ 31)
  | readerIdxForward (len : Nat)
  | readStdStringAndForward (len : Nat)
  | readStdStringAndForwardTill (delim : Bytes)
  | reset

/-- The bytes a call appends. -/
def BufferCall.appended : BufferCall → Bytes
  | append value _ => value
  | _ => []

/-- A call on the buffer, and the string it returns. -/
def Buffer.call (b : Buffer) : BufferCall → Buffer × Bytes
  | .append value _ => (b.append value, [])
  | .readerIdxForward len => (b.readerIdxForward len, [])
  | .readStdStringAndForward len => b.readStdStringAndForward len
  | .readStdStringAndForwardTill delim => b.readStdStringAndForwardTill delim
  | .reset => (b.reset, [])

/-- What a call does to a queue of bytes. A read takes what it returns, and a
read up to a delimiter the delimiter too; a read that cannot be served takes
nothing. -/
def queueCall (l : Ledger UInt8) : BufferCall → Ledger UInt8 × Bytes
  | .append value _ => (l.push value, [])
  | .readerIdxForward len => (l.take len, [])
  | .readStdStringAndForward len =>
      if len ≤ l.pending.length then (l.take len, l.pending.take len) else (l, [])
  | .readStdStringAndForwardTill delim =>
      match firstOccurrence (cStr delim) l.pending with
      | some i => (l.take (i + (cStr delim).length), l.pending.take i)
      | none => (l, [])
  | .reset => (l.take l.pending.length, [])

/-- The buffer holds the pending bytes of the ledger and is clear behind them. -/
def Buffer.Holds (b : Buffer) (l : Ledger UInt8) : Prop := b.readable = l.pending ∧ b.ZeroTail

theorem Buffer.holds_withSize (n : Nat) : (Buffer.withSize n).Holds .empty :=
  ⟨List.take_eq_nil_iff.mpr (Or.inl rfl), zeroTail_withSize n⟩

theorem Buffer.Holds.forward {b : Buffer} {l : Ledger UInt8} (h : b.Holds l) (len : Nat) :
    (b.readerIdxForward len).Holds (l.take len) :=
  ⟨by rw [readable_forward, l.pending_take, h.1], zeroTail_forward h.2 len⟩

/-- One call. -/
theorem Buffer.call_simulates (b : Buffer) (l : Ledger UInt8) (c : BufferCall) (h : b.Holds l) :
    (b.call c).1.Holds (queueCall l c).1 ∧ (b.call c).2 = (queueCall l c).2 := by
  obtain ⟨hread, hzero⟩ := h
  have hbytes : b.readableBytes = l.pending.length := by
    rw [← hread, length_readable, readableBytes]
  cases c with
  | append value short =>
      exact ⟨⟨by rw [call, queueCall, readable_append, l.pending_push, hread],
        zeroTail_append hzero value⟩, rfl⟩
  | readerIdxForward len => exact ⟨Holds.forward ⟨hread, hzero⟩ len, rfl⟩
  | readStdStringAndForward len =>
      rw [call, queueCall, readStdStringAndForward, hbytes, hread]
      by_cases hlen : len ≤ l.pending.length
      · rw [if_neg (by omega), if_pos hlen]
        exact ⟨Holds.forward ⟨hread, hzero⟩ len, rfl⟩
      · rw [if_pos (by omega), if_neg hlen]
        exact ⟨⟨hread, hzero⟩, rfl⟩
  | readStdStringAndForwardTill delim =>
      simp only [call, queueCall, readStdStringAndForwardTill, search_eq, hread]
      cases hfirst : firstOccurrence (cStr delim) l.pending with
      | none =>
          rw [Option.getD_none, if_pos rfl]
          exact ⟨⟨hread, hzero⟩, rfl⟩
      | some i =>
          have hi := firstOccurrence_lt hfirst
          rw [Option.getD_some, if_neg (by omega)]
          exact ⟨Holds.forward ⟨hread, hzero⟩ _, rfl⟩
  | reset =>
      refine ⟨⟨?_, zeroTail_reset b⟩, rfl⟩
      rw [call, queueCall, readable_reset, l.pending_take, List.drop_length]

theorem queueCall_entered (l : Ledger UInt8) (c : BufferCall) :
    (queueCall l c).1.entered = l.entered ++ c.appended := by
  cases c with
  | append value short => rfl
  | readStdStringAndForward len =>
      refine Eq.trans ?_ (List.append_nil _).symm
      rw [queueCall]
      split <;> rfl
  | readStdStringAndForwardTill delim =>
      refine Eq.trans ?_ (List.append_nil _).symm
      rw [queueCall]
      split <;> rfl
  | readerIdxForward len | reset => exact (List.append_nil _).symm

/-- What entered the ledger in a run is what the calls appended. -/
theorem trace_entered (calls : List BufferCall) (l : Ledger UInt8) :
    (trace queueCall l calls).1.entered = l.entered ++ calls.flatMap BufferCall.appended := by
  induction calls generalizing l with
  | nil => exact (List.append_nil _).symm
  | cons c calls ih =>
      rw [trace_cons, ih, queueCall_entered, List.flatMap_cons, List.append_assoc]

/-- **The buffer is a byte queue**: in every run the readable bytes are the
appended bytes that no call has consumed, in order, every call returns what the
queue gives it, and the storage is clear from the writer on. -/
theorem buffer_is_fifo (initBufsize : Nat) (calls : List BufferCall) :
    let run := trace Buffer.call (.withSize initBufsize) calls
    let queue := trace queueCall .empty calls
    run.1.pReader ≤ run.1.pWriter ∧ run.1.pWriter ≤ run.1.data.length ∧
      (run.1.data.drop run.1.pReader).take (run.1.pWriter - run.1.pReader)
        = queue.1.entered.drop queue.1.left ∧
      queue.1.entered = calls.flatMap BufferCall.appended ∧
      run.2 = queue.2 ∧
      ∀ i (hi : i < run.1.data.length), run.1.pWriter ≤ i → run.1.data[i] = 0 := by
  obtain ⟨⟨hread, hzero⟩, hout⟩ := trace_simulates Buffer.call queueCall Buffer.Holds
    Buffer.call_simulates calls _ _ (Buffer.holds_withSize initBufsize)
  intro run queue
  exact ⟨run.1.reader_le, run.1.writer_le, hread, trace_entered calls .empty, hout,
    fun i hi hw => hzero.getElem i hi hw⟩

end LiteKV
