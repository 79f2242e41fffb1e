/-
LiteKV.Net.ProtocolTheorems — which cuts of the stream the parser survives.

The proof goes from one argument to whole streams. `scanArg` is one turn of
the parser's loop read off the bytes ahead of `cur_idx`; on the bytes of an
argument it gives that argument, and on every proper, non-empty piece of
them it gives up without setting `err`. A turn that finds nothing ahead
waits and keeps the arguments read so far. So an attempt on the first `m`
bytes of a request leaves the cache empty unless `m` is the end of an
argument that is not the last one, and sets `err` only when it sees a lone
`*`.

Arguments kept from such a wait are still there at the next attempt, which
starts over and counts them twice: it clears the cache and consumes
nothing. Hence the condition `CutsFit`: no chunk ends right behind a `*`,
and no chunk that brings the end of a request starts behind one of its
arguments.
-/
import LiteKV.Net.Protocol
import LiteKV.NumTheorems
import LiteKV.Lib.Run

namespace LiteKV

open CommandCache

/-! ## One argument -/

/-- One turn of the loop on the bytes ahead: the argument and the bytes it
takes, or whether giving up sets `err`. -/
def scanArg (s : Bytes) : Except Bool (Bytes × Nat) :=
  if s.head? ≠ some 36 then .error true
  else
    let s₁ := s.drop 1
    let num := strtoll s₁
    if num.2 = 0 then .error (s₁.length > 0)
    else
      let s₂ := s₁.drop num.2
      if s₂.take 2 ≠ crlf then .error (s₂.length ≥ 2)
      else
        let s₃ := s₂.drop 2
        let argLen := ParseState.toSizeT num.1
        if (s₃.take argLen).length ≠ argLen then .error (s₃.length ≥ argLen)
        else
          let s₄ := s₃.drop argLen
          if s₄.take 2 ≠ crlf then .error (s₄.length ≥ 2)
          else .ok (s₃.take argLen, 1 + num.2 + 2 + argLen + 2)

section Reading

variable {b : Buffer} {idx : Nat} {s : Bytes}

theorem at_end_iff (h : b.readable.drop idx = s) : idx ≥ b.readable.length ↔ s = [] := by
  rw [← h, List.drop_eq_nil_iff]

theorem readStdStringFrom_eq (h : b.readable.drop idx = s) (len : Nat) :
    b.readStdStringFrom idx len = s.take len := by
  unfold Buffer.readStdStringFrom
  split
  · rename_i hi
    rw [(at_end_iff h).mp hi, List.take_nil]
  · rw [h]

theorem strtoll_nil : strtoll [] = (0, 0) := by decide

theorem readLongFrom_eq (h : b.readable.drop idx = s) : b.readLongFrom idx = strtoll s := by
  unfold Buffer.readLongFrom
  split
  · rename_i hi
    rw [(at_end_iff h).mp hi, strtoll_nil]
  · rw [h]

theorem readableCharacterAt_eq (h : b.readable.drop idx = s) (hs : s ≠ []) :
    some (b.readableCharacterAt idx) = s.head? := by
  have hlt : idx < b.readable.length := by
    rw [← Nat.not_le]
    exact fun hge => hs ((at_end_iff h).mp hge)
  unfold Buffer.readableCharacterAt
  rw [Nat.min_eq_left (by omega), List.getElem?_eq_getElem hlt, Option.getD_some, ← h,
    List.head?_drop, List.getElem?_eq_getElem hlt]

theorem drop_more (h : b.readable.drop idx = s) (n : Nat) :
    b.readable.drop (idx + n) = s.drop n := by rw [← h, List.drop_drop]

theorem ahead_eq (h : b.readable.drop idx = s) : b.ahead idx = s.length := by
  rw [Buffer.ahead, ← h, List.length_drop]

theorem noCrlf_eq (h : b.readable.drop idx = s) : b.noCrlf idx = decide (s.take 2 ≠ crlf) := by
  rw [Buffer.noCrlf, readStdStringFrom_eq h]

end Reading

/-- A turn of the loop is `scanArg` on the bytes ahead. -/
theorem parseArgs_succ {st : ParseState} {idx : Nat} {s : Bytes}
    (h : st.buffer.readable.drop idx = s) (hs : s ≠ []) (n : Nat) :
    ParseState.parseArgs (n + 1) idx st = match scanArg s with
      | .error bad => (st.giveUp bad, none)
      | .ok (arg, used) => ParseState.parseArgs n (idx + used)
          { st with cache := { st.cache with argv := st.cache.argv ++ [arg] } } := by
  have hlt : ¬ idx ≥ st.buffer.readable.length := fun hge => hs ((at_end_iff h).mp hge)
  have hchar := readableCharacterAt_eq h hs
  have h1 := drop_more h 1
  unfold scanArg
  rw [ParseState.parseArgs, if_neg hlt, ← hchar]
  simp only [readLongFrom_eq h1, ahead_eq h1, ne_eq, Option.some.injEq]
  by_cases h36 : st.buffer.readableCharacterAt idx = 36
  · rw [if_neg (not_not_intro h36), if_neg (not_not_intro h36)]
    generalize strtoll (s.drop 1) = num
    have h2 := drop_more h1 num.2
    have h3 := drop_more h2 2
    have h4 := drop_more h3 (ParseState.toSizeT num.1)
    by_cases hz : num.2 = 0
    · rw [if_pos hz, if_pos hz]
    · rw [if_neg hz, if_neg hz]
      simp only [noCrlf_eq h2, ahead_eq h2, readStdStringFrom_eq h3, ahead_eq h3, noCrlf_eq h4,
        ahead_eq h4, ne_eq, decide_eq_true_eq]
      by_cases hc : ((s.drop 1).drop num.2).take 2 = crlf
      · rw [if_neg (not_not_intro hc), if_neg (not_not_intro hc)]
        split
        · rfl
        · split
          · rfl
          · simp only [Nat.add_assoc]
      · rw [if_pos hc, if_pos hc]
  · rw [if_pos h36, if_pos h36]
    simp [show st.buffer.readable.length > idx by omega]

/-! ## The pieces of an argument and of a header line -/

theorem noDigitStart_crlf (t : Bytes) : NoDigitStart (crlf ++ t) := by
  simp [NoDigitStart, crlf, isDigit]

/-- Digits with nothing behind them are all read. -/
theorem strtoll_digits {ds : Bytes} (hne : ds ≠ []) (hd : ∀ b ∈ ds, isDigit b = true) :
    (strtoll ds).2 = ds.length := by
  have hnil : NoDigitStart [] := by simp [NoDigitStart]
  have h := scanInteger_digits hne hd hnil
  rw [List.append_nil] at h
  simp only [strtoll, h]

theorem toSizeT_natCast {n : Nat} (h : n < 2 ^ 63) : ParseState.toSizeT (n : Int) = n := by
  rw [ParseState.toSizeT]
  omega

theorem take_two_crlf (t : Bytes) : (crlf ++ t).take 2 = crlf := rfl

/-- Less than two bytes are no `"\r\n"`. -/
theorem take_two_ne_crlf {s : Bytes} (h : s.length < 2) : s.take 2 ≠ crlf := by
  intro he
  have := congrArg List.length he
  simp only [List.length_take, crlf, List.length_cons, List.length_nil] at this
  omega

/-- The bytes of an argument give the argument. -/
theorem scanArg_item {a : Bytes} (ha : a.length < 2 ^ 63) (t : Bytes) :
    scanArg (itemString a ++ t) = .ok (a, (itemString a).length) := by
  have hs : itemString a ++ t = 36 :: (natToString a.length ++ (crlf ++ (a ++ (crlf ++ t)))) := by
    simp [itemString]
  have hlen : (itemString a).length = 1 + (natToString a.length).length + 2 + a.length + 2 := by
    simp only [itemString, List.length_append, List.length_cons, crlf, List.length_nil]
    omega
  have hnum := strtoll_natToString ha (noDigitStart_crlf (a ++ (crlf ++ t)))
  have hne : (natToString a.length).length ≠ 0 := by
    simpa using natToString_ne_nil a.length
  unfold scanArg
  rw [hs, if_neg (by simp)]
  simp only [List.drop_succ_cons, List.drop_zero, hnum, if_neg hne, List.drop_left, take_two_crlf,
    ne_eq, not_true_eq_false, if_false, toSizeT_natCast ha]
  rw [show (crlf ++ (a ++ (crlf ++ t))).drop 2 = a ++ (crlf ++ t) from rfl]
  simp only [List.take_left, List.drop_left, take_two_crlf, not_true_eq_false, if_false, hlen]

/-- What is ahead after the digits of a length, when the piece ends in them or
behind them. -/
theorem strtoll_piece (n : Nat) (hn : n < 2 ^ 63) (t : Bytes) {m : Nat} (hm : 0 < m) :
    let s := (natToString n ++ (crlf ++ t)).take m
    (strtoll s).2 ≠ 0 ∧
    ((s.drop (strtoll s).2 = [] ∧ m ≤ (natToString n).length) ∨
      (∃ k, m = (natToString n).length + (k + 1) ∧ strtoll s = ((n : Int), (natToString n).length) ∧
        s.drop (natToString n).length = (crlf ++ t).take (k + 1))) := by
  intro s
  have hne := natToString_ne_nil n
  have hpos : 0 < (natToString n).length := List.length_pos_iff.mpr hne
  by_cases hle : m ≤ (natToString n).length
  · have hs : s = (natToString n).take m := List.take_append_of_le_length hle
    have hd : (strtoll s).2 = s.length := by
      rw [hs]
      refine strtoll_digits ?_ fun b hb => natToString_all_digit n b (List.mem_of_mem_take hb)
      intro hnil
      have := congrArg List.length hnil
      simp only [List.length_take, List.length_nil] at this
      omega
    refine ⟨?_, Or.inl ⟨by rw [hd, List.drop_length], hle⟩⟩
    rw [hd, hs, List.length_take]
    omega
  · obtain ⟨k, hk⟩ : ∃ k, m = (natToString n).length + (k + 1) :=
      ⟨m - (natToString n).length - 1, by omega⟩
    have hs : s = natToString n ++ (crlf ++ t).take (k + 1) := by
      show List.take m _ = _
      rw [hk, List.take_append, List.take_of_length_le (by omega), Nat.add_sub_cancel_left]
    have hcr : (crlf ++ t).take (k + 1) = 13 :: ([10] ++ t).take k := rfl
    have hnum : strtoll s = ((n : Int), (natToString n).length) := by
      rw [hs]
      refine strtoll_natToString hn ?_
      rw [hcr]
      simp [NoDigitStart, isDigit]
    refine ⟨by rw [hnum]; exact Nat.ne_of_gt hpos, Or.inr ⟨k, hk, hnum, ?_⟩⟩
    rw [hs, List.drop_left]

/-- A proper piece of an argument makes the turn give up without `err`. -/
theorem scanArg_piece {a : Bytes} (ha : a.length < 2 ^ 63) {m : Nat} (h0 : 0 < m)
    (hm : m < (itemString a).length) : scanArg ((itemString a).take m) = .error false := by
  have hlen : (itemString a).length = 1 + (natToString a.length).length + 2 + a.length + 2 := by
    simp only [itemString, List.length_append, List.length_cons, crlf, List.length_nil]
    omega
  obtain ⟨j, rfl⟩ : ∃ j, m = j + 1 := ⟨m - 1, by omega⟩
  have hs : (itemString a).take (j + 1)
      = 36 :: (natToString a.length ++ (crlf ++ (a ++ crlf))).take j := by
    simp [itemString]
  unfold scanArg
  rw [hs, if_neg (by simp)]
  simp only [List.drop_succ_cons, List.drop_zero]
  by_cases hj : j = 0
  · -- a lone `$`
    subst hj
    simp [strtoll_nil]
  obtain ⟨hne, hcase⟩ := strtoll_piece a.length ha (a ++ crlf) (m := j) (by omega)
  rw [if_neg hne]
  rcases hcase with ⟨hend, -⟩ | ⟨k, hk, hnum, hrest⟩
  · -- inside the digits
    rw [hend]
    simp [crlf]
  · simp only [hnum, hrest, toSizeT_natCast ha]
    by_cases hk0 : k = 0
    · -- the carriage return alone
      subst hk0
      rw [if_pos (take_two_ne_crlf (by simp [crlf]))]
      simp [crlf]
    · obtain ⟨i, rfl⟩ : ∃ i, k = i + 1 := ⟨k - 1, by omega⟩
      have hc : (crlf ++ (a ++ crlf)).take (i + 1 + 1) = crlf ++ (a ++ crlf).take i := rfl
      rw [hc, take_two_crlf, if_neg (by simp)]
      rw [show (crlf ++ (a ++ crlf).take i).drop 2 = (a ++ crlf).take i from rfl]
      by_cases hi : i < a.length
      · -- inside the data
        rw [List.take_append_of_le_length (by omega)]
        have hl : (((a.take i).take a.length).length ≠ a.length) := by
          simp only [List.length_take]; omega
        rw [if_pos hl]
        simp [hi]
      · have ht : (a ++ crlf).take i = a ++ crlf.take (i - a.length) := by
          rw [List.take_append, List.take_of_length_le (by omega)]
        have hl : (crlf.take (i - a.length)).length < 2 := by
          simp only [List.length_take, crlf, List.length_cons, List.length_nil]
          omega
        rw [ht, List.take_left, if_neg (by simp), List.drop_left, if_pos (take_two_ne_crlf hl)]
        simp only [ge_iff_le, Except.error.injEq, decide_eq_false_iff_not]
        omega

/-! ## One request -/

/-- A request a client can send: at least the opcode, and sizes that fit the
types that hold them. -/
structure Command where
  argv : List Bytes
  nonempty : argv ≠ []
  argcFits : argv.length < 2 ^ 63
  argsFit : ∀ a ∈ argv, a.length < 2 ^ 63

namespace Command

/-- The bytes of the request. -/
def encode (c : Command) : Bytes := (ofArgv c.argv).toProtocolString

/-- The header line. -/
def header (c : Command) : Bytes := 42 :: (natToString c.argv.length ++ crlf)

/-- The bytes of some arguments. -/
def items (as : List Bytes) : Bytes := (as.map itemString).flatten

/-- The `m`-th byte of the request is the last one of an argument, but not of
the request. -/
def ArgEnd (c : Command) (m : Nat) : Prop :=
  ∃ k, 1 ≤ k ∧ k < c.argv.length ∧ m = c.header.length + (items (c.argv.take k)).length

theorem encode_eq (c : Command) : c.encode = c.header ++ items c.argv := by
  simp [encode, header, items, toProtocolString, protocolString, ofArgv]

@[simp] theorem items_nil : items [] = [] := rfl

@[simp] theorem items_cons (a : Bytes) (as : List Bytes) :
    items (a :: as) = itemString a ++ items as :=
  rfl

theorem itemString_pos (a : Bytes) : 0 < (itemString a).length := by simp [itemString]

theorem header_length (c : Command) : 3 < c.header.length := by
  have := List.length_pos_iff.mpr (natToString_ne_nil c.argv.length)
  simp only [header, List.length_cons, List.length_append, crlf, List.length_nil]
  omega

theorem encode_pos (c : Command) : 0 < c.encode.length := by
  rw [encode_eq, List.length_append]
  have := header_length c
  omega

theorem items_pos {as : List Bytes} (h : as ≠ []) : 0 < (items as).length := by
  obtain ⟨a, as, rfl⟩ := List.exists_cons_of_ne_nil h
  have := itemString_pos a
  rw [items_cons, List.length_append]
  omega

end Command

open Command

/-- The loop on all its arguments. -/
theorem parseArgs_items : ∀ (as : List Bytes) (t : Bytes) (st : ParseState) (idx : Nat),
    (∀ a ∈ as, a.length < 2 ^ 63) → st.buffer.readable.drop idx = items as ++ t →
    ParseState.parseArgs as.length idx st
      = ({ st with cache := { st.cache with argv := st.cache.argv ++ as } },
          some (idx + (items as).length))
  | [], t, st, idx, _, _ => by simp [ParseState.parseArgs]
  | a :: as, t, st, idx, hfit, hdrop => by
      rw [items_cons, List.append_assoc] at hdrop
      have hne : itemString a ++ (items as ++ t) ≠ [] := by
        have := itemString_pos a
        intro hnil
        have := congrArg List.length hnil
        simp only [List.length_append, List.length_nil] at this
        omega
      rw [List.length_cons, parseArgs_succ hdrop hne as.length,
        scanArg_item (hfit a List.mem_cons_self)]
      have hnext := drop_more hdrop (itemString a).length
      rw [List.drop_left] at hnext
      have ih := parseArgs_items as t
        { st with cache := { st.cache with argv := st.cache.argv ++ [a] } }
        (idx + (itemString a).length)
        (fun b hb => hfit b (List.mem_cons_of_mem a hb)) hnext
      simp only [ih, items_cons, List.length_append, List.append_assoc, List.singleton_append,
        Nat.add_assoc]

/-- The loop on a proper piece of its arguments: it waits behind a whole number
of them, and gives up anywhere else. -/
theorem parseArgs_piece : ∀ (as : List Bytes) (m : Nat) (st : ParseState) (idx : Nat),
    (∀ a ∈ as, a.length < 2 ^ 63) → m < (items as).length →
    st.buffer.readable.drop idx = (items as).take m →
    (∃ k < as.length, m = (items (as.take k)).length ∧ ParseState.parseArgs as.length idx st
      = ({ st with cache := { st.cache with argv := st.cache.argv ++ as.take k } }, none)) ∨
    ((∀ k < as.length, m ≠ (items (as.take k)).length) ∧
      ParseState.parseArgs as.length idx st = (st.giveUp false, none))
  | [], m, st, idx, _, hm, _ => by simp at hm
  | a :: as, m, st, idx, hfit, hm, hdrop => by
      have hpos := itemString_pos a
      rw [items_cons, List.length_append] at hm
      rw [items_cons] at hdrop
      by_cases h0 : m = 0
      · -- nothing of the next argument is there
        subst h0
        refine Or.inl ⟨0, by simp, by simp, ?_⟩
        rw [List.take_zero] at hdrop
        rw [List.length_cons, ParseState.parseArgs, if_pos ((at_end_iff hdrop).mpr rfl)]
        simp
      by_cases hlt : m < (itemString a).length
      · -- a piece of the next argument is there
        rw [List.take_append_of_le_length (by omega)] at hdrop
        refine Or.inr ⟨fun k _ hmk => ?_, ?_⟩
        · cases k with
          | zero => simp only [List.take_zero, items_nil, List.length_nil] at hmk; omega
          | succ k =>
              rw [List.take_succ_cons, items_cons, List.length_append] at hmk
              omega
        · have hne : (itemString a).take m ≠ [] := by
            intro hnil
            have := congrArg List.length hnil
            simp only [List.length_take, List.length_nil] at this
            omega
          rw [List.length_cons, parseArgs_succ hdrop hne as.length,
            scanArg_piece (hfit a List.mem_cons_self) (by omega) hlt]
      · -- the next argument is there
        obtain ⟨j, rfl⟩ : ∃ j, m = (itemString a).length + j :=
          ⟨m - (itemString a).length, by omega⟩
        rw [List.take_length_add_append] at hdrop
        have hne : itemString a ++ (items as).take j ≠ [] := by
          intro hnil
          have := congrArg List.length hnil
          simp only [List.length_append, List.length_nil] at this
          omega
        have hnext := drop_more hdrop (itemString a).length
        rw [List.drop_left] at hnext
        rw [List.length_cons, parseArgs_succ hdrop hne as.length,
          scanArg_item (hfit a List.mem_cons_self)]
        simp only
        rcases parseArgs_piece as j
          { st with cache := { st.cache with argv := st.cache.argv ++ [a] } }
          (idx + (itemString a).length)
          (fun b hb => hfit b (List.mem_cons_of_mem a hb)) (by omega) hnext with
          ⟨k, hk, hj, hres⟩ | ⟨hno, hres⟩
        · refine Or.inl ⟨k + 1, by simpa using hk, ?_, ?_⟩
          · rw [List.take_succ_cons, items_cons, List.length_append, hj]
          · rw [hres]
            simp
        · refine Or.inr ⟨fun k hk hmk => ?_, ?_⟩
          · cases k with
            | zero => simp only [List.take_zero, items_nil, List.length_nil] at hmk; omega
            | succ k =>
                rw [List.take_succ_cons, items_cons, List.length_append] at hmk
                exact hno k (by simpa using hk) (by omega)
          · rw [hres]
            rfl

/-- An attempt that finds the header line goes on to the arguments. -/
theorem tryParse_header (c : Command) {st : ParseState} {t : Bytes}
    (h : st.buffer.readable = c.header ++ t) :
    st.tryParseFromBuffer = ParseState.finish (ParseState.parseArgs c.argv.length c.header.length
      { st with cache := { st.cache with argc := c.argv.length } }) := by
  have hh : c.header.length = 1 + (natToString c.argv.length).length + 2 := by
    simp only [header, List.length_cons, List.length_append, crlf, List.length_nil]
    omega
  have h1 : st.buffer.readable.drop 1 = natToString c.argv.length ++ (crlf ++ t) := by
    rw [h]; simp [header]
  have hnum := strtoll_natToString c.argcFits (noDigitStart_crlf t)
  have hne : (natToString c.argv.length).length ≠ 0 := by
    simpa using natToString_ne_nil c.argv.length
  have h2 := drop_more h1 (natToString c.argv.length).length
  rw [List.drop_left] at h2
  have hlen : ¬ st.buffer.readable.length ≤ 0 := by
    rw [h]; simp [header]
  have hstar : st.buffer.readStdString 1 = [42] := by
    rw [Buffer.readStdString, if_neg (by omega), h]
    simp [header]
  unfold ParseState.tryParseFromBuffer
  simp only [if_neg hlen, hstar, ne_eq, not_true_eq_false, if_false, readLongFrom_eq h1, hnum,
    if_neg hne, toSizeT_natCast c.argcFits, noCrlf_eq h2, take_two_crlf, decide_false,
    Bool.false_eq_true, Int.toNat_natCast, hh]

/-- A whole request, with nothing left over from an earlier attempt. -/
theorem tryParse_full (c : Command) {st : ParseState} {t : Bytes}
    (h : st.buffer.readable = c.encode ++ t) (hargv : st.cache.argv = []) :
    st.tryParseFromBuffer =
      ({ st with buffer := st.buffer.readerIdxForward c.encode.length, cache := ofArgv c.argv },
        true) := by
  rw [encode_eq, List.append_assoc] at h
  have hdrop : st.buffer.readable.drop c.header.length = items c.argv ++ t := by
    rw [h, List.drop_left]
  rw [tryParse_header c h, parseArgs_items c.argv t
    { st with cache := { st.cache with argc := c.argv.length } } c.header.length c.argsFit hdrop]
  simp [ParseState.finish, hargv, encode_eq, ofArgv]

/-- A whole request behind leftovers: it is not taken, and the leftovers go. -/
theorem tryParse_poisoned (c : Command) {st : ParseState} {t : Bytes}
    (h : st.buffer.readable = c.encode ++ t) (hargv : st.cache.argv ≠ []) :
    st.tryParseFromBuffer = ({ st with cache := .clear }, false) := by
  rw [encode_eq, List.append_assoc] at h
  have hdrop : st.buffer.readable.drop c.header.length = items c.argv ++ t := by
    rw [h, List.drop_left]
  have hpos : 0 < st.cache.argv.length := List.length_pos_iff.mpr hargv
  rw [tryParse_header c h, parseArgs_items c.argv t
    { st with cache := { st.cache with argc := c.argv.length } } c.header.length c.argsFit hdrop]
  simp only [ParseState.finish, List.length_append]
  rw [if_pos (by omega)]

/-- A proper piece of the header line. -/
theorem tryParse_header_piece (c : Command) {st : ParseState} {m : Nat} (h0 : 0 < m)
    (hm : m < c.header.length) (h : st.buffer.readable = c.header.take m) :
    st.tryParseFromBuffer = (st.giveUp (m = 1), false) := by
  obtain ⟨j, rfl⟩ : ∃ j, m = j + 1 := ⟨m - 1, by omega⟩
  have hh : c.header.length = 1 + (natToString c.argv.length).length + 2 := by
    simp only [header, List.length_cons, List.length_append, crlf, List.length_nil]
    omega
  have h' : st.buffer.readable = 42 :: (natToString c.argv.length ++ (crlf ++ [])).take j := by
    rw [h]; simp [header]
  have h1 : st.buffer.readable.drop 1 = (natToString c.argv.length ++ (crlf ++ [])).take j := by
    rw [h']; rfl
  have hlen : ¬ st.buffer.readable.length ≤ 0 := by rw [h']; simp
  have hstar : st.buffer.readStdString 1 = [42] := by
    rw [Buffer.readStdString, if_neg (by omega), h']
    rfl
  unfold ParseState.tryParseFromBuffer
  simp only [if_neg hlen, hstar, ne_eq, not_true_eq_false, if_false, readLongFrom_eq h1]
  by_cases hj : j = 0
  · -- a lone `*`
    subst hj
    simp [strtoll_nil, show st.buffer.readable.length > 0 by omega]
  obtain ⟨hne, hcase⟩ := strtoll_piece c.argv.length c.argcFits [] (m := j) (by omega)
  have h2 := drop_more h1 (strtoll ((natToString c.argv.length ++ (crlf ++ [])).take j)).2
  have hshort : (((natToString c.argv.length ++ (crlf ++ [])).take j).drop
      (strtoll ((natToString c.argv.length ++ (crlf ++ [])).take j)).2).length < 2 := by
    rcases hcase with ⟨hend, -⟩ | ⟨k, hk, hnum, hrest⟩
    · rw [hend]; simp
    · rw [hnum, hrest, List.length_take]
      omega
  rw [if_neg hne]
  simp only [noCrlf_eq h2, ahead_eq h2, decide_eq_true (take_two_ne_crlf hshort), if_true,
    ge_iff_le, Nat.not_le.mpr hshort, decide_false]
  simp [ParseState.giveUp, hj]

theorem not_argEnd_of_le (c : Command) {m : Nat} (h : m ≤ c.header.length) : ¬ c.ArgEnd m := by
  rintro ⟨k, hk, hkl, rfl⟩
  have hne : c.argv.take k ≠ [] := by
    intro hnil
    have := congrArg List.length hnil
    simp only [List.length_take, List.length_nil] at this
    omega
  have := items_pos hne
  omega

/-- **An attempt on a proper piece of a request**: nothing is consumed, `err` is
set for a lone `*` only, and arguments are kept exactly behind an argument. -/
theorem tryParse_piece (c : Command) {st : ParseState} {m : Nat} (h0 : 0 < m)
    (hm : m < c.encode.length) (h : st.buffer.readable = c.encode.take m) :
    ∃ cache : CommandCache,
      st.tryParseFromBuffer = ({ st with cache := cache, err := st.err || m = 1 }, false) ∧
      (c.ArgEnd m → cache.argv ≠ []) ∧
      (¬ c.ArgEnd m → cache.argv = [] ∨ (m = c.header.length ∧ cache.argv = st.cache.argv)) := by
  have hhl := header_length c
  rw [encode_eq, List.length_append] at hm
  rw [encode_eq] at h
  by_cases hlt : m < c.header.length
  · rw [List.take_append_of_le_length (by omega)] at h
    exact ⟨.clear, tryParse_header_piece c h0 hlt h,
      fun ha => absurd ha (not_argEnd_of_le c (by omega)), fun _ => Or.inl rfl⟩
  · obtain ⟨j, rfl⟩ : ∃ j, m = c.header.length + j := ⟨m - c.header.length, by omega⟩
    rw [List.take_length_add_append] at h
    have hdrop : st.buffer.readable.drop c.header.length = (items c.argv).take j := by
      rw [h, List.drop_left]
    have hone : (decide (c.header.length + j = 1)) = false := decide_eq_false (by omega)
    rw [tryParse_header c h, hone, Bool.or_false]
    rcases parseArgs_piece c.argv j { st with cache := { st.cache with argc := c.argv.length } }
      c.header.length c.argsFit (by omega) hdrop with ⟨k, hk, hj, hres⟩ | ⟨hno, hres⟩
    · rw [hres]
      refine ⟨_, rfl, fun ha hnil => ?_, fun hna => Or.inr ?_⟩
      · -- behind an argument
        have hk0 : k ≠ 0 := by
          rintro rfl
          refine not_argEnd_of_le c ?_ ha
          rw [hj]; simp
        have := congrArg List.length hnil
        simp only [List.length_append, List.length_take, List.length_nil] at this
        omega
      · -- behind the header line
        have hk0 : k = 0 := by
          by_contra hne
          exact hna ⟨k, by omega, hk, by rw [hj]⟩
        subst hk0
        simp [hj]
    · rw [hres]
      refine ⟨.clear, by simp [ParseState.finish, ParseState.giveUp], fun ha => ?_,
        fun _ => Or.inl rfl⟩
      obtain ⟨k, -, hk, hkm⟩ := ha
      exact absurd (by omega) (hno k hk)

/-! ## Whole streams -/

/-- The bytes of a list of requests. -/
def encodeAll (cmds : List Command) : Bytes := (cmds.map encode).flatten

theorem encodeAll_append (a b : List Command) :
    encodeAll (a ++ b) = encodeAll a ++ encodeAll b := by
  rw [encodeAll, List.map_append, List.flatten_append]
  rfl

/-- The requests that the first `n` bytes of the stream hold completely. -/
def received : List Command → Nat → List Command
  | [], _ => []
  | c :: cs, n => if c.encode.length ≤ n then c :: received cs (n - c.encode.length) else []

/-- The requests they do not hold completely, and how many of those `n` bytes
belong to the first of these. -/
def pending : List Command → Nat → List Command × Nat
  | [], n => ([], n)
  | c :: cs, n => if c.encode.length ≤ n then pending cs (n - c.encode.length) else (c :: cs, n)

/-- What one chunk should do: dispatch the requests it completes, without `err`. -/
def expected (cmds : List Command) (n : Nat) (chunk : Bytes) : List CommandCache × Bool :=
  (((received cmds (n + chunk.length)).drop (received cmds n).length).map
    fun c => ofArgv c.argv, false)

/-- What all chunks should do, the first of them coming after `n` bytes. -/
def expectedAll (cmds : List Command) : Nat → List Bytes → List (List CommandCache × Bool)
  | _, [] => []
  | n, chunk :: chunks => expected cmds n chunk :: expectedAll cmds (n + chunk.length) chunks

/-- A chunk after `n` bytes does not end right behind a `*`, and if it brings the
end of a request it does not start behind one of that request's arguments. -/
def CutFits (cmds : List Command) (n : Nat) (chunk : Bytes) : Prop :=
  (pending cmds (n + chunk.length)).2 ≠ 1 ∧
  ∀ c ∈ (pending cmds n).1.head?, c.ArgEnd (pending cmds n).2 →
    (pending cmds n).2 + chunk.length < c.encode.length

/-- Every chunk does so, the first of them coming after `n` bytes. -/
def CutsFit (cmds : List Command) : Nat → List Bytes → Prop
  | _, [] => True
  | n, chunk :: chunks => CutFits cmds n chunk ∧ CutsFit cmds (n + chunk.length) chunks

@[simp] theorem encodeAll_cons (c : Command) (cs : List Command) :
    encodeAll (c :: cs) = c.encode ++ encodeAll cs := rfl

theorem pending_add : ∀ (cmds : List Command) (n k : Nat),
    pending cmds (n + k) = pending (pending cmds n).1 ((pending cmds n).2 + k)
  | [], _, _ => rfl
  | c :: cs, n, k => by
      by_cases h : c.encode.length ≤ n
      · rw [pending, if_pos (by omega),
          show n + k - c.encode.length = n - c.encode.length + k by omega,
          pending_add cs (n - c.encode.length) k, pending, if_pos h]
      · have hp : pending (c :: cs) n = (c :: cs, n) := by rw [pending, if_neg h]
        rw [hp]

theorem received_add : ∀ (cmds : List Command) (n k : Nat),
    received cmds (n + k)
      = received cmds n ++ received (pending cmds n).1 ((pending cmds n).2 + k)
  | [], _, _ => rfl
  | c :: cs, n, k => by
      by_cases h : c.encode.length ≤ n
      · rw [received, if_pos (by omega),
          show n + k - c.encode.length = n - c.encode.length + k by omega,
          received_add cs (n - c.encode.length) k]
        simp [received, pending, h]
      · have hp : pending (c :: cs) n = (c :: cs, n) := by rw [pending, if_neg h]
        have hr : received (c :: cs) n = [] := by rw [received, if_neg h]
        rw [hp, hr, List.nil_append]

theorem expected_eq (cmds : List Command) (n : Nat) (chunk : Bytes) :
    expected cmds n chunk
      = ((received (pending cmds n).1 ((pending cmds n).2 + chunk.length)).map
          fun c => ofArgv c.argv, false) := by
  rw [expected, received_add, List.drop_left]

/-- The unread bytes of the stream are those of the pending requests. -/
theorem drop_pending : ∀ (cmds : List Command) (n : Nat), n ≤ (encodeAll cmds).length →
    (encodeAll cmds).drop n = (encodeAll (pending cmds n).1).drop (pending cmds n).2 ∧
    (pending cmds n).2 ≤ (encodeAll (pending cmds n).1).length ∧
    ∀ c ∈ (pending cmds n).1.head?, (pending cmds n).2 < c.encode.length
  | [], n, h => by simpa [pending] using h
  | c :: cs, n, h => by
      rw [encodeAll_cons, List.length_append] at h
      by_cases hc : c.encode.length ≤ n
      · have hp : pending (c :: cs) n = pending cs (n - c.encode.length) := by
          rw [pending, if_pos hc]
        rw [hp, encodeAll_cons, List.drop_append, List.drop_eq_nil_of_le hc, List.nil_append]
        exact drop_pending cs (n - c.encode.length) (by omega)
      · have hp : pending (c :: cs) n = (c :: cs, n) := by rw [pending, if_neg hc]
        rw [hp]
        refine ⟨rfl, ?_, ?_⟩
        · rw [encodeAll_cons, List.length_append]; exact h
        · intro c' hc'
          obtain rfl : c = c' := by simpa using hc'
          simpa using hc

/-! ## The session between two chunks -/

/-- The session holds the first `m` bytes of the requests `cmds`, of which the
first is not complete, and the cache holds arguments exactly behind one. -/
structure Holds (s : ReadState) (cmds : List Command) (m : Nat) : Prop where
  readable : s.buffer.readable = (encodeAll cmds).take m
  fits : m ≤ (encodeAll cmds).length
  partly : ∀ c ∈ cmds.head?, m < c.encode.length
  kept : s.cache.argv ≠ [] ↔ ∃ c ∈ cmds.head?, c.ArgEnd m

theorem holds_new (cmds : List Command) : Holds .new (pending cmds 0).1 (pending cmds 0).2 := by
  have hp : pending cmds 0 = (cmds, 0) := by
    cases cmds with
    | nil => rfl
    | cons c cs =>
        have := encode_pos c
        rw [pending, if_neg (by omega)]
  rw [hp]
  refine ⟨rfl, by omega, fun c _ => encode_pos c, ?_⟩
  constructor
  · intro h
    exact absurd rfl h
  · rintro ⟨c, -, hc⟩
    exact absurd hc (not_argEnd_of_le c (by omega))

theorem tryParse_empty {st : ParseState} (h : st.buffer.readable = []) :
    st.tryParseFromBuffer = (st, false) := by
  unfold ParseState.tryParseFromBuffer
  rw [if_pos (by rw [h]; simp)]

theorem take_encodeAll {c : Command} {cs : List Command} {m : Nat} (h : m ≤ c.encode.length) :
    (encodeAll (c :: cs)).take m = c.encode.take m := by
  rw [encodeAll_cons, List.take_append_of_le_length h]

/-- The last attempt of a loop, on what is left of the stream. -/
theorem parseLoop_piece (fuel : Nat) (st : ParseState) {cmds : List Command} {m : Nat}
    (hfits : m ≤ (encodeAll cmds).length) (hpart : ∀ c ∈ cmds.head?, m < c.encode.length)
    (hread : st.buffer.readable = (encodeAll cmds).take m) (herr : st.err = false)
    (hkept : ∀ c ∈ cmds.head?, m ≤ c.header.length → st.cache.argv = [])
    (hnil : cmds = [] → st.cache.argv = []) :
    (parseLoop (fuel + 1) st).1 = [] ∧ (parseLoop (fuel + 1) st).2.err = decide (m = 1) ∧
    Holds ⟨(parseLoop (fuel + 1) st).2.buffer, (parseLoop (fuel + 1) st).2.cache⟩ cmds m := by
  unfold parseLoop
  by_cases h0 : m = 0
  · subst h0
    rw [List.take_zero] at hread
    rw [tryParse_empty hread]
    refine ⟨rfl, by simpa using herr, ⟨by simpa using hread, hfits, hpart, ?_⟩⟩
    have hargv : st.cache.argv = [] := by
      cases cmds with
      | nil => exact hnil rfl
      | cons c cs => exact hkept c (by simp) (by omega)
    constructor
    · intro h
      exact absurd hargv h
    · rintro ⟨c, -, hc⟩
      exact absurd hc (not_argEnd_of_le c (by omega))
  · cases cmds with
    | nil =>
        simp only [encodeAll, List.map_nil, List.flatten_nil, List.length_nil] at hfits
        omega
    | cons c cs =>
        have hm := hpart c (by simp)
        rw [take_encodeAll (by omega)] at hread
        obtain ⟨cache, hres, hend, hno⟩ := tryParse_piece c (by omega) hm hread
        rw [hres]
        simp only [Bool.false_and, Bool.false_eq_true, if_false, herr, Bool.false_or]
        refine ⟨trivial, trivial, ⟨by rw [hread, take_encodeAll (by omega)], hfits, hpart, ?_⟩⟩
        constructor
        · intro hne
          by_contra hc
          have hna : ¬ c.ArgEnd m := fun h => hc ⟨c, by simp, h⟩
          rcases hno hna with hnil' | ⟨hhead, hsame⟩
          · exact hne hnil'
          · exact hne (hsame.trans (hkept c (by simp) (by omega)))
        · rintro ⟨c', hc', hargEnd⟩
          obtain rfl : c = c' := by simpa using hc'
          exact hend hargEnd

/-- The loop on any number of whole requests and a piece, with a clear cache. -/
theorem parseLoop_stream : ∀ (cmds : List Command) (m fuel : Nat) (st : ParseState),
    m ≤ (encodeAll cmds).length → m < fuel → st.buffer.readable = (encodeAll cmds).take m →
    st.err = false → st.cache.argv = [] →
    (parseLoop fuel st).1 = (received cmds m).map (fun c => ofArgv c.argv) ∧
    (parseLoop fuel st).2.err = decide ((pending cmds m).2 = 1) ∧
    Holds ⟨(parseLoop fuel st).2.buffer, (parseLoop fuel st).2.cache⟩ (pending cmds m).1
      (pending cmds m).2
  | _, _, 0, _, _, hfuel, _, _, _ => by omega
  | [], m, fuel + 1, st, hm, _, hread, herr, hargv => by
      exact parseLoop_piece fuel st hm (fun c hc => by cases hc) hread herr
        (fun c hc => by cases hc) fun _ => hargv
  | c :: cs, m, fuel + 1, st, hm, hfuel, hread, herr, hargv => by
      by_cases hc : c.encode.length ≤ m
      · -- a whole request first
        have hp : pending (c :: cs) m = pending cs (m - c.encode.length) := by
          rw [pending, if_pos hc]
        have hr : received (c :: cs) m = c :: received cs (m - c.encode.length) := by
          rw [received, if_pos hc]
        obtain ⟨j, rfl⟩ : ∃ j, m = c.encode.length + j := ⟨m - c.encode.length, by omega⟩
        rw [Nat.add_sub_cancel_left] at hp hr
        rw [encodeAll_cons, List.take_length_add_append] at hread
        rw [encodeAll_cons, List.length_append] at hm
        have hclen := header_length c
        have hbuf : (st.buffer.readerIdxForward c.encode.length).readable
            = (encodeAll cs).take j := by
          rw [Buffer.readable_forward, hread, List.drop_left]
        have ih := parseLoop_stream cs j fuel
          ⟨st.buffer.readerIdxForward c.encode.length, .clear, st.err⟩ (by omega) (by
            rw [encode_eq, List.length_append] at hfuel
            omega) hbuf herr rfl
        rw [hp, hr, List.map_cons]
        have hloop : parseLoop (fuel + 1) st
            = (ofArgv c.argv :: (parseLoop fuel
                ⟨st.buffer.readerIdxForward c.encode.length, .clear, st.err⟩).1,
              (parseLoop fuel ⟨st.buffer.readerIdxForward c.encode.length, .clear, st.err⟩).2) := by
          rw [parseLoop, tryParse_full c hread hargv]
          simp [herr]
        rw [hloop]
        exact ⟨by rw [ih.1], ih.2.1, ih.2.2⟩
      · -- a piece of a request
        have hp : pending (c :: cs) m = (c :: cs, m) := by rw [pending, if_neg hc]
        have hr : received (c :: cs) m = [] := by rw [received, if_neg hc]
        rw [hp, hr, List.map_nil]
        refine parseLoop_piece fuel st hm ?_ hread herr (fun _ _ _ => hargv) (fun _ => hargv)
        intro c' hc'
        obtain rfl : c = c' := by simpa using hc'
        omega

/-- What a chunk does to a session that holds a piece of the stream. -/
theorem readProc_holds {s : ReadState} {cmds : List Command} {m : Nat} (h : Holds s cmds m)
    {chunk : Bytes} (hchunk : chunk <+: (encodeAll cmds).drop m) :
    ((∀ c ∈ cmds.head?, c.ArgEnd m → m + chunk.length < c.encode.length) →
      (readProc s chunk).2 = ((received cmds (m + chunk.length)).map (fun c => ofArgv c.argv),
        decide ((pending cmds (m + chunk.length)).2 = 1)) ∧
      Holds (readProc s chunk).1 (pending cmds (m + chunk.length)).1
        (pending cmds (m + chunk.length)).2) ∧
    ((∃ c ∈ cmds.head?, c.ArgEnd m ∧ c.encode.length ≤ m + chunk.length) →
      (readProc s chunk).2.1 = [] ∧ received cmds (m + chunk.length) ≠ []) := by
  obtain ⟨hread, hfits, hpart, hkept⟩ := h
  obtain ⟨rest, hrest⟩ := hchunk
  have hlen : chunk.length + rest.length = (encodeAll cmds).length - m := by
    rw [← List.length_append, hrest, List.length_drop]
  have hbuf : (s.buffer.append chunk).readable = (encodeAll cmds).take (m + chunk.length) := by
    rw [Buffer.readable_append, hread, List.take_add, ← hrest, List.take_left]
  constructor
  · intro hfit
    by_cases hargv : s.cache.argv = []
    · obtain ⟨h1, h2, h3⟩ := parseLoop_stream cmds (m + chunk.length)
        ((s.buffer.append chunk).readable.length + 1) ⟨s.buffer.append chunk, s.cache, false⟩
        (by omega) (by rw [hbuf, List.length_take]; omega) hbuf rfl hargv
      exact ⟨Prod.ext h1 h2, h3⟩
    · -- arguments were kept, but the request is still not complete
      obtain ⟨c, hc, hend⟩ := hkept.mp hargv
      have hlt := hfit c hc hend
      obtain ⟨cs, rfl⟩ : ∃ cs, cmds = c :: cs := by
        cases cmds with
        | nil => simp at hc
        | cons c' cs => exact ⟨cs, by simp_all⟩
      have hp : pending (c :: cs) (m + chunk.length) = (c :: cs, m + chunk.length) := by
        rw [pending, if_neg (by omega)]
      have hr : received (c :: cs) (m + chunk.length) = [] := by rw [received, if_neg (by omega)]
      have hgt : c.header.length < m := by
        by_contra hle
        exact not_argEnd_of_le c (by omega) hend
      obtain ⟨h1, h2, h3⟩ := parseLoop_piece (s.buffer.append chunk).readable.length
        ⟨s.buffer.append chunk, s.cache, false⟩ (m := m + chunk.length) (by omega)
        (by
          intro c' hc'
          obtain rfl : c = c' := by simpa using hc'
          exact hlt) hbuf rfl
        (by
          intro c' hc' hle
          obtain rfl : c = c' := by simpa using hc'
          omega) (by simp)
      rw [hp, hr]
      exact ⟨Prod.ext h1 h2, h3⟩
  · rintro ⟨c, hc, hend, hge⟩
    obtain ⟨cs, rfl⟩ : ∃ cs, cmds = c :: cs := by
      cases cmds with
      | nil => simp at hc
      | cons c' cs => exact ⟨cs, by simp_all⟩
    have hargv : s.cache.argv ≠ [] := hkept.mpr ⟨c, by simp, hend⟩
    refine ⟨?_, by rw [received, if_pos hge]; simp⟩
    obtain ⟨j, hj⟩ : ∃ j, m + chunk.length = c.encode.length + j :=
      ⟨m + chunk.length - c.encode.length, by omega⟩
    rw [hj, encodeAll_cons, List.take_length_add_append] at hbuf
    have hparse : ParseState.tryParseFromBuffer ⟨s.buffer.append chunk, s.cache, false⟩
        = (⟨s.buffer.append chunk, .clear, false⟩, false) := tryParse_poisoned c hbuf hargv
    simp [readProc, parseLoop, hparse]

/-- **When request parsing does not depend on the cuts**: every chunk dispatches
exactly the requests whose last byte it carries, in order and without `err`, if
and only if every cut fits. -/
theorem parse_chunks_iff (cmds : List Command) (chunks : List Bytes)
    (hchunks : chunks.flatten = encodeAll cmds) :
    (Lib.Run.trace readProc .new chunks).2 = expectedAll cmds 0 chunks ↔ CutsFit cmds 0 chunks := by
  have key : ∀ (chunks : List Bytes) (n : Nat) (s : ReadState),
      Holds s (pending cmds n).1 (pending cmds n).2 →
      chunks.flatten = (encodeAll cmds).drop n → n ≤ (encodeAll cmds).length →
      ((Lib.Run.trace readProc s chunks).2 = expectedAll cmds n chunks ↔
        CutsFit cmds n chunks) := by
    intro chunks
    induction chunks with
    | nil =>
        intro n s _ _ _
        exact ⟨fun _ => trivial, fun _ => rfl⟩
    | cons chunk chunks ih =>
        intro n s hs hflat hn
        have hdp := drop_pending cmds n hn
        have hpre : chunk <+: (encodeAll (pending cmds n).1).drop (pending cmds n).2 :=
          ⟨chunks.flatten, by rw [← hdp.1, ← hflat, List.flatten_cons]⟩
        have hlen : chunk.length ≤ (encodeAll cmds).length - n := by
          have := congrArg List.length hflat
          rw [List.flatten_cons, List.length_append, List.length_drop] at this
          omega
        obtain ⟨hgood, hbad⟩ := readProc_holds hs hpre
        rw [← pending_add] at hgood
        rw [Lib.Run.trace_cons, expectedAll, CutsFit, List.cons.injEq, expected_eq, CutFits]
        by_cases hfit : ∀ c ∈ (pending cmds n).1.head?, c.ArgEnd (pending cmds n).2 →
            (pending cmds n).2 + chunk.length < c.encode.length
        · obtain ⟨hout, hnext⟩ := hgood hfit
          have hrec := ih (n + chunk.length) (readProc s chunk).1 hnext (by
            rw [← List.drop_drop, ← hflat, List.flatten_cons, List.drop_left]) (by omega)
          rw [hout, hrec]
          simp only [Prod.mk.injEq, true_and, decide_eq_false_iff_not]
          exact ⟨fun h => ⟨⟨h.1, hfit⟩, h.2⟩, fun h => ⟨h.1.1, h.2⟩⟩
        · constructor
          · rintro ⟨hout, -⟩
            exfalso
            apply hfit
            intro c hc hend
            by_contra hge
            obtain ⟨hnil, hne⟩ := hbad ⟨c, hc, hend, by omega⟩
            rw [hout] at hnil
            exact hne (by simpa using hnil)
          · rintro ⟨⟨-, h⟩, -⟩
            exact absurd h hfit
  exact key chunks 0 .new (holds_new cmds) (by simpa using hchunks) (by omega)

/-- `set a 1`. -/
def setRequest : Command where
  argv := [ascii "set", ascii "a", ascii "1"]
  nonempty := by decide
  argcFits := by decide
  argsFit := by decide

/-- Cut inside the header line, inside an argument and behind a request. -/
theorem parse_chunks_iff_harmless_cuts :
    (Lib.Run.trace readProc .new [ascii "*3\r", ascii "\n$3\r\nse",
        ascii "t\r\n$1\r\na\r\n$1\r\n1\r\n"]).2
      = expectedAll [setRequest] 0 [ascii "*3\r", ascii "\n$3\r\nse",
          ascii "t\r\n$1\r\na\r\n$1\r\n1\r\n"] ↔
    CutsFit [setRequest] 0 [ascii "*3\r", ascii "\n$3\r\nse",
      ascii "t\r\n$1\r\na\r\n$1\r\n1\r\n"] :=
  parse_chunks_iff [setRequest] [ascii "*3\r", ascii "\n$3\r\nse",
    ascii "t\r\n$1\r\na\r\n$1\r\n1\r\n"] (by decide)

/-- Cut right behind the `*`, and cut behind the first argument: the first sets
`err`, the second never dispatches the request. -/
theorem parse_chunks_depends_on_cuts :
    (Lib.Run.trace readProc .new [ascii "*", ascii "3\r\n$3\r\nset\r\n$1\r\na\r\n$1\r\n1\r\n"]).2
      ≠ expectedAll [setRequest] 0
          [ascii "*", ascii "3\r\n$3\r\nset\r\n$1\r\na\r\n$1\r\n1\r\n"] ∧
    (Lib.Run.trace readProc .new [ascii "*3\r\n$3\r\nset\r\n", ascii "$1\r\na\r\n$1\r\n1\r\n"]).2
      ≠ expectedAll [setRequest] 0
          [ascii "*3\r\n$3\r\nset\r\n", ascii "$1\r\na\r\n$1\r\n1\r\n"] := by
  constructor
  · decide
  · decide

end LiteKV
