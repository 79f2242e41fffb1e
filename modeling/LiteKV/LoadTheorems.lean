/-
LiteKV.LoadTheorems — the file that was written is read back.

A block that ends behind an argument leaves arguments in the cache, and then
the attempt that first sees the whole command fails. It clears the cache,
and the command stays in the buffer: it is taken behind the next block, or
by the last loop. `Holding` is the state between two blocks: the buffer has
a piece of the commands that are still to come, and there are leftovers in
the cache only while the first of them is incomplete.
-/
import Mathlib.Data.List.Infix
import LiteKV.Persistence
import LiteKV.Net.ProtocolTheorems

namespace LiteKV

open CommandCache Command

/-- What is given to `whattodo` for some commands. -/
def given (cmds : List Command) : List CommandCache := cmds.map fun c => ofArgv c.argv

/-- The first `m` bytes of the commands `todo` are readable. -/
structure Piece (todo : List Command) (m : Nat) (st : ParseState) : Prop where
  fits : m ≤ (encodeAll todo).length
  readable : st.buffer.readable = (encodeAll todo).take m

/-- And leftovers in the cache go with an incomplete first command. -/
structure Holding (todo : List Command) (m : Nat) (st : ParseState) : Prop extends
    Piece todo m st where
  kept : ∀ c ∈ todo.head?, c.encode.length ≤ m → st.cache.argv = []

/-! ## One loop -/

theorem drainLoop_stop {fuel : Nat} {st st' : ParseState}
    (h : st.tryParseFromBuffer = (st', false)) : drainLoop (fuel + 1) st = ([], st') := by
  rw [drainLoop, h]
  rfl

/-- An attempt on a piece of one command takes nothing, whatever is in the
cache. -/
theorem drainLoop_partly (fuel : Nat) {st : ParseState} {todo : List Command} {m : Nat}
    (h : Piece todo m st) (hpart : ∀ c ∈ todo.head?, m < c.encode.length) :
    (drainLoop (fuel + 1) st).1 = [] ∧ Piece todo m (drainLoop (fuel + 1) st).2 := by
  by_cases h0 : st.buffer.readable = []
  · rw [drainLoop_stop (tryParse_empty h0)]
    exact ⟨rfl, h⟩
  · cases todo with
    | nil => exact absurd (h.readable.trans List.take_nil) h0
    | cons c cs =>
        have hm := hpart c rfl
        have hpos : 0 < m := by
          rw [Nat.pos_iff_ne_zero]
          rintro rfl
          exact h0 h.readable
        have hread := h.readable
        rw [take_encodeAll hm.le] at hread
        obtain ⟨cache, htry, -⟩ := tryParse_piece c hpos hm hread
        rw [drainLoop_stop htry]
        exact ⟨rfl, h.fits, h.readable⟩

/-- With a clear cache the loop takes every whole command. -/
theorem drainLoop_clear : ∀ (todo : List Command) (m fuel : Nat) (st : ParseState),
    Piece todo m st → st.cache.argv = [] → m < fuel →
    ∃ done rest m', todo = done ++ rest ∧ (drainLoop fuel st).1 = given done ∧
      m = (encodeAll done).length + m' ∧ Piece rest m' (drainLoop fuel st).2 ∧
      ∀ c ∈ rest.head?, m' < c.encode.length
  | _, _, 0, _, _, _, hfuel => by omega
  | [], m, fuel + 1, st, h, _, _ => by
      obtain ⟨hnone, hpiece⟩ := drainLoop_partly fuel h fun c hc => by cases hc
      exact ⟨[], [], m, rfl, hnone, (Nat.zero_add m).symm, hpiece, fun c hc => by cases hc⟩
  | c :: cs, m, fuel + 1, st, h, hargv, hfuel => by
      by_cases hc : c.encode.length ≤ m
      · -- a whole command first
        obtain ⟨j, rfl⟩ : ∃ j, m = c.encode.length + j := ⟨m - c.encode.length, by omega⟩
        have hread := h.readable
        have hfits := h.fits
        rw [encodeAll_cons, List.take_length_add_append] at hread
        rw [encodeAll_cons, List.length_append] at hfits
        have hpos := encode_pos c
        have hnext : Piece cs j ⟨st.buffer.readerIdxForward c.encode.length, .clear, st.err⟩ := by
          refine ⟨by omega, ?_⟩
          rw [Buffer.readable_forward, hread, List.drop_left]
        obtain ⟨done, rest, m', hsplit, hgiven, hm, hpiece, hpart⟩ :=
          drainLoop_clear cs j fuel _ hnext rfl (by omega)
        have hloop : drainLoop (fuel + 1) st = (ofArgv c.argv :: (drainLoop fuel
            ⟨st.buffer.readerIdxForward c.encode.length, .clear, st.err⟩).1, (drainLoop fuel
            ⟨st.buffer.readerIdxForward c.encode.length, .clear, st.err⟩).2) := by
          rw [drainLoop, tryParse_full c hread hargv]
          rfl
        rw [hloop]
        refine ⟨c :: done, rest, m', by rw [hsplit]; rfl, by rw [hgiven]; rfl, ?_, hpiece, hpart⟩
        rw [encodeAll_cons, List.length_append, hm]
        omega
      · obtain ⟨hnone, hpiece⟩ := drainLoop_partly fuel h fun c' hc' => by
          obtain rfl : c = c' := by simpa using hc'
          omega
        refine ⟨[], c :: cs, m, rfl, hnone, (Nat.zero_add m).symm, hpiece, fun c' hc' => ?_⟩
        obtain rfl : c = c' := by simpa using hc'
        omega

theorem Piece.length {todo : List Command} {m : Nat} {st : ParseState} (h : Piece todo m st) :
    st.buffer.readable.length = m := by
  rw [h.readable, List.length_take, Nat.min_eq_left h.fits]

theorem drain_clear {todo : List Command} {m : Nat} {st : ParseState} (h : Piece todo m st)
    (hargv : st.cache.argv = []) :
    ∃ done rest m', todo = done ++ rest ∧ (drain st).1 = given done ∧
      m = (encodeAll done).length + m' ∧ Piece rest m' (drain st).2 ∧
      ∀ c ∈ rest.head?, m' < c.encode.length :=
  drainLoop_clear todo m _ st h hargv (by rw [h.length]; omega)

/-- With leftovers in the cache it takes nothing, and they go when the first
command is whole. -/
theorem drain_leftovers {todo : List Command} {m : Nat} {st : ParseState} (h : Piece todo m st)
    (hargv : st.cache.argv ≠ []) :
    (drain st).1 = [] ∧ Holding todo m (drain st).2 := by
  by_cases hpart : ∀ c ∈ todo.head?, m < c.encode.length
  · obtain ⟨hnone, hpiece⟩ := drainLoop_partly st.buffer.readable.length h hpart
    refine ⟨hnone, hpiece, fun c hc hle => ?_⟩
    have := hpart c hc
    omega
  · cases todo with
    | nil => exact absurd (fun c hc => by cases hc) hpart
    | cons c cs =>
        have hc : c.encode.length ≤ m := by
          by_contra hlt
          refine hpart fun c' hc' => ?_
          obtain rfl : c = c' := by simpa using hc'
          omega
        obtain ⟨j, rfl⟩ : ∃ j, m = c.encode.length + j := ⟨m - c.encode.length, by omega⟩
        have hread := h.readable
        rw [encodeAll_cons, List.take_length_add_append] at hread
        have htry := tryParse_poisoned c hread hargv
        rw [drain, drainLoop_stop htry]
        exact ⟨rfl, ⟨h.fits, h.readable⟩, fun _ _ _ => rfl⟩

/-! ## The blocks -/

/-- One block. -/
theorem readBlock_holding {todo : List Command} {m : Nat} {st : ParseState}
    (h : Holding todo m st) {block : Bytes} (hblock : block <+: (encodeAll todo).drop m) :
    ∃ done rest m', todo = done ++ rest ∧ (readBlock st block).1 = given done ∧
      m + block.length = (encodeAll done).length + m' ∧
      Holding rest m' (readBlock st block).2 := by
  have hlen := hblock.length_le
  rw [List.length_drop] at hlen
  have hpiece : Piece todo (m + block.length) ⟨st.buffer.append block, st.cache, false⟩ := by
    have hfits := h.fits
    refine ⟨by omega, ?_⟩
    obtain ⟨t, ht⟩ := hblock
    rw [Buffer.readable_append, h.readable, List.take_add, ← ht, List.take_left]
  by_cases hargv : st.cache.argv = []
  · obtain ⟨done, rest, m', hsplit, hgiven, hm, hp, hpart⟩ := drain_clear hpiece hargv
    refine ⟨done, rest, m', hsplit, hgiven, hm, hp, fun c hc hle => ?_⟩
    have := hpart c hc
    omega
  · obtain ⟨hnone, hhold⟩ := drain_leftovers hpiece hargv
    exact ⟨[], todo, m + block.length, rfl, hnone, (Nat.zero_add _).symm, hhold⟩

/-- All the blocks of a file that may stop anywhere: what was not given to
`whattodo` is in the buffer. -/
theorem blockLoop_prefix {blockSize : Nat} (hsize : 0 < blockSize) :
    ∀ (fuel : Nat) (file : Bytes) (todo : List Command) (m : Nat) (st : ParseState),
      Holding todo m st → file <+: (encodeAll todo).drop m → file.length < fuel →
      ∃ done rest m', todo = done ++ rest ∧ (blockLoop blockSize fuel file st).1 = given done ∧
        m + file.length = (encodeAll done).length + m' ∧
        Holding rest m' (blockLoop blockSize fuel file st).2
  | 0, _, _, _, _, _, _, hfuel => by omega
  | fuel + 1, file, todo, m, st, h, hfile, hfuel => by
      unfold blockLoop
      by_cases hnil : file = []
      · -- nothing is left to be read
        rw [hnil, List.take_nil]
        exact ⟨[], todo, m, rfl, rfl, (Nat.zero_add m).symm, h⟩
      · have hne : (file.take blockSize).isEmpty = false := by
          rw [List.isEmpty_eq_false_iff, ne_eq, List.take_eq_nil_iff]
          rintro (h0 | h0)
          · omega
          · exact hnil h0
        have hpos : 0 < file.length := List.length_pos_iff.mpr hnil
        have hprefix : file.take blockSize <+: (encodeAll todo).drop m :=
          (List.take_prefix blockSize file).trans hfile
        obtain ⟨done, rest, m', hsplit, hgiven, hm, hhold⟩ := readBlock_holding h hprefix
        have htake : (file.take blockSize).length = min blockSize file.length := List.length_take
        simp only [hne, Bool.false_eq_true, if_false]
        split
        · -- the last block
          exact ⟨done, rest, m', hsplit, hgiven, by omega, hhold⟩
        · have hfile' : file.drop blockSize <+: (encodeAll rest).drop m' := by
            have hcut : m + blockSize = (encodeAll done).length + m' := by omega
            have hdrop := List.IsPrefix.drop hfile blockSize
            rwa [hsplit, encodeAll_append, List.drop_drop, hcut,
              List.drop_length_add_append] at hdrop
          have hlen' : (file.drop blockSize).length = file.length - blockSize := List.length_drop
          obtain ⟨done', rest', m'', hsplit', hgiven', hm', hhold'⟩ :=
            blockLoop_prefix hsize fuel (file.drop blockSize) rest m' _ hhold hfile' (by omega)
          refine ⟨done ++ done', rest', m'', by rw [hsplit, hsplit', List.append_assoc], ?_, ?_,
            hhold'⟩
          · rw [hgiven, hgiven']
            exact List.map_append.symm
          · rw [encodeAll_append, List.length_append]
            omega

/-- All the blocks of the whole file. -/
theorem blockLoop_holding {blockSize : Nat} (hsize : 0 < blockSize) (fuel : Nat) (file : Bytes)
    (todo : List Command) (m : Nat) (st : ParseState) (h : Holding todo m st)
    (hfile : file = (encodeAll todo).drop m) (hfuel : file.length < fuel) :
    ∃ done rest, todo = done ++ rest ∧ (blockLoop blockSize fuel file st).1 = given done ∧
      Holding rest (encodeAll rest).length (blockLoop blockSize fuel file st).2 := by
  obtain ⟨done, rest, m', hsplit, hgiven, hm, hhold⟩ :=
    blockLoop_prefix hsize fuel file todo m st h (hfile ▸ List.prefix_refl _) hfuel
  have hfits := h.fits
  have hlen : file.length = (encodeAll todo).length - m := by rw [hfile, List.length_drop]
  have hall : (encodeAll todo).length = (encodeAll done).length + (encodeAll rest).length := by
    rw [hsplit, encodeAll_append, List.length_append]
  have hm' : m' = (encodeAll rest).length := by omega
  exact ⟨done, rest, hsplit, hgiven, hm' ▸ hhold⟩

/-- The loop behind the last block takes what is left. -/
theorem drain_whole {rest : List Command} {st : ParseState}
    (h : Holding rest (encodeAll rest).length st) :
    (if st.buffer.readableBytes > 0 then (drain st).1 else []) = given rest := by
  have hbytes : st.buffer.readableBytes = (encodeAll rest).length := by
    rw [Buffer.readableBytes, ← Buffer.length_readable, h.length]
  cases rest with
  | nil => exact if_neg (by rw [hbytes]; exact Nat.lt_irrefl 0)
  | cons c cs =>
      -- the first command is whole, so nothing is left over in the cache
      have hpos := encode_pos c
      rw [encodeAll_cons, List.length_append] at hbytes
      have hargv := h.kept c rfl (by rw [encodeAll_cons, List.length_append]; omega)
      obtain ⟨done, rest, m, hsplit, hgiven, hm, -, hpart⟩ := drain_clear h.toPiece hargv
      have hrest : rest = [] := by
        cases rest with
        | nil => rfl
        | cons c' cs' =>
            have hlt := hpart c' rfl
            rw [hsplit, encodeAll_append, encodeAll_cons, List.length_append,
              List.length_append] at hm
            omega
      rw [if_pos (by omega), hgiven, hsplit, hrest, List.append_nil]

/-- **Reading the file of some commands gives `whattodo` exactly these commands,
in order, whatever the size of the blocks.** -/
theorem commonOperation_encodeAll {blockSize : Nat} (hsize : 0 < blockSize) (cmds : List Command) :
    commonOperation blockSize (encodeAll cmds) = cmds.map fun c => ofArgv c.argv := by
  have hnew : Holding cmds 0 ⟨.new, .clear, false⟩ := ⟨⟨by omega, rfl⟩, fun _ _ _ => rfl⟩
  obtain ⟨done, rest, hsplit, hgiven, hhold⟩ := blockLoop_holding hsize
    ((encodeAll cmds).length + 1) (encodeAll cmds) cmds 0 _ hnew rfl (by omega)
  calc commonOperation blockSize (encodeAll cmds)
      = given done ++ given rest := by rw [commonOperation, hgiven, drain_whole hhold]
    _ = given (done ++ rest) := List.map_append.symm
    _ = cmds.map fun c => ofArgv c.argv := by rw [← hsplit]; rfl

/-- Two commands, byte by byte and in one block. -/
theorem commonOperation_encodeAll_two :
    commonOperation 1 (encodeAll [setRequest, setRequest])
        = [ofArgv setRequest.argv, ofArgv setRequest.argv] ∧
      commonOperation restoreAofReadBufSize (encodeAll [setRequest, setRequest])
        = [ofArgv setRequest.argv, ofArgv setRequest.argv] :=
  ⟨commonOperation_encodeAll (by decide) [setRequest, setRequest],
    commonOperation_encodeAll (by decide) [setRequest, setRequest]⟩

end LiteKV
