/-
LiteKV.Net.NumberScanTheorems — where `ReadLongFrom` looks.

`strtoll` is given no length: it stops at the first byte that does not go on
with the number, and looks at that byte. Behind the readable bytes the
storage is 0, `ZeroTail`, so the scan stays inside whenever there is a byte
behind them. There is one after every growth, but an append may fill the
storage to the last byte; then the scan leaves it if the readable bytes end in
the middle of a number. `scansInside_iff` is exactly that.

The parser adds what the scan took to an index and subtracts it from the
number of readable bytes. `parserArgs` follows it for any answers of
`ReadLongFrom`, and the subtractions are in order when the answers are.
-/
import LiteKV.Net.BufferTheorems
import LiteKV.Net.Protocol

namespace LiteKV

open Lib Lib.Run

namespace Buffer

/-- `ReadLongFrom` in memory: `beyond` is what stands behind the storage. -/
def readLongIn (b : Buffer) (beyond : Bytes) (index : Nat) : Int × Nat :=
  if index ≥ b.readableBytes then (0, 0)
  else strtoll (b.data.drop (b.pReader + index) ++ beyond)

/-- The bytes `strtoll` looks at: those it passes over, and the one it stops at. -/
def examined (s : Bytes) : Nat := scanned s + 1

/-- `ReadLongFrom(index, step)` looks at the storage only, its result is one of the
readable bytes, and the step does not lead behind them. -/
structure ScansInside (b : Buffer) (index : Nat) : Prop where
  inside : ∀ beyond, index < b.readableBytes →
    b.pReader + index + examined (b.data.drop (b.pReader + index) ++ beyond) ≤ b.data.length
  readableOnly : ∀ beyond, b.readLongIn beyond index = b.readLongFrom index
  step_le : ∀ beyond, index + (b.readLongIn beyond index).2 ≤ b.readableBytes

/-- The string is white space, a sign and digits to its end. -/
def RunsOut (s : Bytes) : Prop := s ≠ [] ∧ scanned s = s.length

instance RunsOut.decidable (s : Bytes) : Decidable (RunsOut s) :=
  inferInstanceAs (Decidable (_ ∧ _))

/-- There is a byte behind the readable ones, or the number from `index` on ends
among them. -/
def ScanEnds (b : Buffer) (index : Nat) : Prop :=
  b.pWriter < b.data.length ∨ ¬ RunsOut (b.readable.drop index)

theorem strtoll_le_scanned (s : Bytes) : (strtoll s).2 ≤ scanned s := by
  rw [strtoll, scanInteger]
  split
  · exact Nat.zero_le _
  · rename_i neg m used hscan
    simp only [Option.ite_none_left_eq_some, Option.some.injEq, Prod.mk.injEq] at hscan
    obtain ⟨-, -, -, rfl⟩ := hscan
    exact Nat.le_refl _

theorem scanned_lt_of_not_runsOut {s : Bytes} (hne : s ≠ []) (h : ¬ RunsOut s) :
    scanned s < s.length :=
  Nat.lt_of_le_of_ne (scanned_le s) fun heq => h ⟨hne, heq⟩

section

variable {b : Buffer} {index : Nat}

theorem length_drop_readable (hi : index ≤ b.readableBytes) :
    b.pReader + index + (b.readable.drop index).length = b.pWriter := by
  have hr := b.reader_le
  rw [readableBytes] at hi
  rw [List.length_drop, length_readable]
  omega

theorem drop_readable_ne_nil (hi : index < b.readableBytes) : b.readable.drop index ≠ [] := by
  rw [Ne, List.drop_eq_nil_iff, length_readable]
  exact Nat.not_le.mpr hi

/-- What the scan meets behind the readable bytes stops it, or it has stopped. -/
theorem ScanEnds.stops (h : b.ScanEnds index) (hz : b.ZeroTail) (hi : index < b.readableBytes)
    (beyond : Bytes) : scanned (b.readable.drop index) < (b.readable.drop index).length ∨
      Stops (b.data.drop b.pWriter ++ beyond) := by
  rcases h with hroom | hends
  · right
    rw [List.drop_eq_getElem_cons hroom, hz.getElem b.pWriter hroom (Nat.le_refl _)]
    exact stops_zero _
  · exact Or.inl (scanned_lt_of_not_runsOut (drop_readable_ne_nil hi) hends)

theorem ScanEnds.scansInside (h : b.ScanEnds index) (hz : b.ZeroTail)
    (hi : index ≤ b.readableBytes) : b.ScansInside index := by
  rcases Nat.lt_or_eq_of_le hi with hlt | rfl
  · have hmem (beyond : Bytes) : b.data.drop (b.pReader + index) ++ beyond
        = b.readable.drop index ++ (b.data.drop b.pWriter ++ beyond) := by
      rw [b.drop_data_eq hi, List.append_assoc]
    have hscan (beyond : Bytes) := scan_append (h.stops hz hlt beyond)
    have hlen := length_drop_readable hi
    have hle := scanned_le (b.readable.drop index)
    have hw := b.writer_le
    have hin : ¬ index ≥ b.readable.length := by
      rw [length_readable]
      exact Nat.not_le.mpr hlt
    have hresult (beyond : Bytes) : b.readLongIn beyond index = b.readLongFrom index := by
      rw [readLongIn, if_neg (Nat.not_le.mpr hlt), hmem, readLongFrom, if_neg hin, strtoll, strtoll,
        (hscan beyond).2]
    refine ⟨fun beyond _ => ?_, hresult, fun beyond => ?_⟩
    · rw [examined, hmem, (hscan beyond).1]
      rcases h with hroom | hends
      · omega
      · have := scanned_lt_of_not_runsOut (drop_readable_ne_nil hlt) hends
        omega
    · have hstep := strtoll_le_scanned (b.readable.drop index)
      rw [hresult, readLongFrom, if_neg hin]
      rw [List.length_drop, length_readable] at hle
      rw [readableBytes] at hi ⊢
      omega
  · have hpast : b.readableBytes ≥ b.readable.length := by
      rw [length_readable]
      exact Nat.le_refl _
    refine ⟨fun beyond hlt => absurd hlt (Nat.lt_irrefl _), fun beyond => ?_, fun beyond => ?_⟩
    · rw [readLongIn, if_pos (Nat.le_refl _), readLongFrom, if_pos hpast]
    · rw [readLongIn, if_pos (Nat.le_refl _)]
      exact Nat.le_refl _

/-- **`ReadLongFrom` stays inside exactly if** the index does, and there is a byte
behind the readable ones or the number ends among them. -/
theorem scansInside_of_zeroTail (hz : b.ZeroTail) (index : Nat) :
    b.ScansInside index ↔ index ≤ b.readableBytes ∧ b.ScanEnds index := by
  constructor
  · intro h
    have hi : index ≤ b.readableBytes := Nat.le_trans (Nat.le_add_right _ _) (h.step_le [])
    refine ⟨hi, ?_⟩
    by_cases hroom : b.pWriter < b.data.length
    · exact Or.inl hroom
    · refine Or.inr fun hout => ?_
      obtain ⟨hne, hall⟩ := hout
      have hlt : index < b.readableBytes := by
        rw [Ne, List.drop_eq_nil_iff, length_readable] at hne
        exact Nat.not_le.mp hne
      have hinside := h.inside [] hlt
      have hnone : b.data.drop b.pWriter = [] := List.drop_eq_nil_of_le (Nat.not_lt.mp hroom)
      have hlen := length_drop_readable hi
      rw [b.drop_data_eq hi, hnone, List.append_nil, List.append_nil, examined, hall] at hinside
      omega
  · rintro ⟨hi, hends⟩
    exact hends.scansInside hz hi

end

/-! ## The parser -/

section

variable (b : Buffer) (readLong : Nat → Int × Nat)

/-- The loop of `TryParseFromBuffer` for given answers of `ReadLongFrom`: the
values of `cur_idx` in `ReadableBytes() - cur_idx`, and `cur_idx` if the loop is
left through its condition. -/
def parserArgs : (nPara : Nat) → (curIdx : Nat) → List Nat × Option Nat
  | 0, curIdx => ([], some curIdx)
  | nPara + 1, curIdx =>
      if curIdx ≥ b.readable.length then ([], none)
      else if b.readableCharacterAt curIdx ≠ 36 then ([], none)
      else
        let num := readLong (curIdx + 1)
        if num.2 = 0 then ([curIdx + 1], none)
        else
          let lenEnd := curIdx + 1 + num.2
          if b.noCrlf lenEnd then ([lenEnd], none)
          else
            let argLen := ParseState.toSizeT num.1
            if (b.readStdStringFrom (lenEnd + 2) argLen).length ≠ argLen then ([lenEnd + 2], none)
            else
              let argEnd := lenEnd + 2 + argLen
              if b.noCrlf argEnd then ([argEnd], none) else parserArgs nPara (argEnd + 2)

/-- The values of `cur_idx` that `TryParseFromBuffer` subtracts. -/
def subtrahends : List Nat :=
  if b.readable.length ≤ 0 then []
  else if b.readStdString 1 ≠ [42] then []
  else
    let num := readLong 1
    if num.2 = 0 then []
    else if b.noCrlf (1 + num.2) then [1 + num.2]
    else (b.parserArgs readLong num.1.toNat (1 + num.2 + 2)).1

end

/-- With the model's `ReadLongFrom` this is the loop of the model. -/
theorem parseArgs_curIdx : ∀ (nPara curIdx : Nat) (s : ParseState),
    (ParseState.parseArgs nPara curIdx s).2
      = (s.buffer.parserArgs s.buffer.readLongFrom nPara curIdx).2
  | 0, _, _ => rfl
  | nPara + 1, curIdx, s => by
      rw [ParseState.parseArgs, parserArgs]
      dsimp only
      by_cases hend : curIdx ≥ s.buffer.readable.length
      · rw [if_pos hend, if_pos hend]
      rw [if_neg hend, if_neg hend]
      by_cases hdollar : s.buffer.readableCharacterAt curIdx ≠ 36
      · rw [if_pos hdollar, if_pos hdollar]
      rw [if_neg hdollar, if_neg hdollar]
      generalize s.buffer.readLongFrom (curIdx + 1) = num
      by_cases hnum : num.2 = 0
      · rw [if_pos hnum, if_pos hnum]
      rw [if_neg hnum, if_neg hnum]
      by_cases hline : s.buffer.noCrlf (curIdx + 1 + num.2) = true
      · rw [if_pos hline, if_pos hline]
      rw [if_neg hline, if_neg hline]
      by_cases harg : (s.buffer.readStdStringFrom (curIdx + 1 + num.2 + 2)
          (ParseState.toSizeT num.1)).length ≠ ParseState.toSizeT num.1
      · rw [if_pos harg, if_pos harg]
      rw [if_neg harg, if_neg harg]
      by_cases hargEnd : s.buffer.noCrlf
          (curIdx + 1 + num.2 + 2 + ParseState.toSizeT num.1) = true
      · rw [if_pos hargEnd, if_pos hargEnd]
      rw [if_neg hargEnd, if_neg hargEnd]
      exact parseArgs_curIdx nPara _ _

section

variable {b : Buffer} {readLong : Nat → Int × Nat}

/-- Two bytes that were there. -/
theorem add_two_le_of_crlf {idx : Nat} (h : ¬ b.noCrlf idx = true) :
    idx + 2 ≤ b.readable.length := by
  have hcrlf : b.readStdStringFrom idx 2 = crlf := by simpa [noCrlf] using h
  have hlen := congrArg List.length hcrlf
  rw [readStdStringFrom] at hlen
  split at hlen
  · exact absurd hlen (by decide)
  · rw [List.length_take, List.length_drop] at hlen
    have : min 2 (b.readable.length - idx) = 2 := hlen
    omega

/-- An argument that was there. -/
theorem add_le_of_length {idx len : Nat} (hidx : idx ≤ b.readable.length)
    (h : ¬ (b.readStdStringFrom idx len).length ≠ len) : idx + len ≤ b.readable.length := by
  have hlen := not_not.mp h
  rw [readStdStringFrom] at hlen
  split at hlen
  · rw [List.length_nil] at hlen
    omega
  · rw [List.length_take, List.length_drop] at hlen
    omega

variable (hread : ∀ index ≤ b.readable.length, index + (readLong index).2 ≤ b.readable.length)

include hread

/-- In the loop. -/
theorem parserArgs_le : ∀ (nPara curIdx : Nat),
    ∀ i ∈ (b.parserArgs readLong nPara curIdx).1, i ≤ b.readable.length
  | 0, _, i, hi => absurd hi List.not_mem_nil
  | nPara + 1, curIdx, i, hi => by
      rw [parserArgs] at hi
      dsimp only at hi
      by_cases hend : curIdx ≥ b.readable.length
      · rw [if_pos hend] at hi
        exact absurd hi List.not_mem_nil
      rw [if_neg hend] at hi
      by_cases hdollar : b.readableCharacterAt curIdx ≠ 36
      · rw [if_pos hdollar] at hi
        exact absurd hi List.not_mem_nil
      rw [if_neg hdollar] at hi
      have hnext : curIdx + 1 ≤ b.readable.length := by omega
      have hscan := hread (curIdx + 1) hnext
      revert hi hscan
      generalize readLong (curIdx + 1) = num
      intro hi hscan
      by_cases hnum : num.2 = 0
      · rw [if_pos hnum] at hi
        rwa [List.mem_singleton.mp hi]
      rw [if_neg hnum] at hi
      by_cases hline : b.noCrlf (curIdx + 1 + num.2) = true
      · rw [if_pos hline] at hi
        rwa [List.mem_singleton.mp hi]
      rw [if_neg hline] at hi
      have hlenEnd := add_two_le_of_crlf hline
      by_cases harg : (b.readStdStringFrom (curIdx + 1 + num.2 + 2)
          (ParseState.toSizeT num.1)).length ≠ ParseState.toSizeT num.1
      · rw [if_pos harg] at hi
        rwa [List.mem_singleton.mp hi]
      rw [if_neg harg] at hi
      have hargEnd := add_le_of_length hlenEnd harg
      by_cases hline' : b.noCrlf (curIdx + 1 + num.2 + 2 + ParseState.toSizeT num.1) = true
      · rw [if_pos hline'] at hi
        rwa [List.mem_singleton.mp hi]
      rw [if_neg hline'] at hi
      exact parserArgs_le nPara _ i hi

/-- **No subtraction of the parser underflows**, when no scan leads behind the
readable bytes. -/
theorem subtrahends_le : ∀ i ∈ b.subtrahends readLong, i ≤ b.readable.length := by
  intro i hi
  rw [subtrahends] at hi
  dsimp only at hi
  by_cases hempty : b.readable.length ≤ 0
  · rw [if_pos hempty] at hi
    exact absurd hi List.not_mem_nil
  rw [if_neg hempty] at hi
  by_cases hstar : b.readStdString 1 ≠ [42]
  · rw [if_pos hstar] at hi
    exact absurd hi List.not_mem_nil
  rw [if_neg hstar] at hi
  by_cases hnum : (readLong 1).2 = 0
  · rw [if_pos hnum] at hi
    exact absurd hi List.not_mem_nil
  rw [if_neg hnum] at hi
  by_cases hline : b.noCrlf (1 + (readLong 1).2) = true
  · rw [if_pos hline] at hi
    rw [List.mem_singleton.mp hi]
    exact hread 1 (by omega)
  · rw [if_neg hline] at hi
    exact parserArgs_le hread _ _ i hi

end

end Buffer

/-- The buffer after some calls. -/
def bufferAfter (initBufsize : Nat) (calls : List BufferCall) : Buffer :=
  (trace Buffer.call (.withSize initBufsize) calls).1

theorem bufferAfter_zeroTail (initBufsize : Nat) (calls : List BufferCall) :
    (bufferAfter initBufsize calls).ZeroTail := by
  exact (trace_simulates Buffer.call queueCall Buffer.Holds Buffer.call_simulates calls _ _
    (Buffer.holds_withSize initBufsize)).1.2

/-- **Number scanning stays inside the buffer exactly if** the index does, and
there is a byte behind the readable ones or the number ends among them; and
where it does for every index, the parser's subtractions do not underflow. -/
theorem scansInside_iff (initBufsize : Nat) (calls : List BufferCall) :
    let b := bufferAfter initBufsize calls
    (∀ index, b.ScansInside index ↔ index ≤ b.readableBytes ∧ b.ScanEnds index) ∧
      ((∀ index ≤ b.readableBytes, b.ScanEnds index) → ∀ beyond,
        ∀ i ∈ b.subtrahends (b.readLongIn beyond), i ≤ b.readableBytes) := by
  intro b
  have hz : b.ZeroTail := bufferAfter_zeroTail initBufsize calls
  refine ⟨Buffer.scansInside_of_zeroTail hz, fun hends beyond => ?_⟩
  have hlen : b.readable.length = b.readableBytes := b.length_readable
  rw [← hlen]
  refine Buffer.subtrahends_le fun index hi => ?_
  rw [hlen] at hi ⊢
  exact ((hends index hi).scansInside hz hi).step_le beyond

/-- A request in a fresh buffer with room behind it. -/
theorem scansInside_iff_request :
    let b := bufferAfter 64 [.append (ascii "*1") (by decide)]
    b.ScansInside 1 ∧ ∀ i ∈ b.subtrahends (b.readLongIn [53]), i ≤ b.readableBytes := by
  have hroom : (bufferAfter 64 [.append (ascii "*1") (by decide)]).pWriter
      < (bufferAfter 64 [.append (ascii "*1") (by decide)]).data.length := by decide +kernel
  obtain ⟨hinside, hparser⟩ := scansInside_iff 64 [.append (ascii "*1") (by decide)]
  exact ⟨(hinside 1).mpr ⟨by decide +kernel, Or.inl hroom⟩,
    hparser (fun _ _ => Or.inl hroom) [53]⟩

/-- A star and 63 digits fill a new buffer; a digit in the memory behind it is
read as one more, and the parser's subtraction underflows. -/
theorem scan_leaves_full_buffer :
    let b := bufferAfter 64 [.append (42 :: List.replicate 63 49) (by decide)]
    ¬ b.ScansInside 1 ∧ b.readableBytes = 64 ∧ (b.readLongIn [53] 1).2 = 64 ∧
      b.subtrahends (b.readLongIn [53]) = [65] := by
  intro b
  have hbytes : b.readableBytes = 64 := by decide +kernel
  have hstep : (b.readLongIn [53] 1).2 = 64 := by decide +kernel
  refine ⟨fun h => ?_, hbytes, hstep, by decide +kernel⟩
  have hle := h.step_le [53]
  rw [hbytes, hstep] at hle
  omega

end LiteKV
