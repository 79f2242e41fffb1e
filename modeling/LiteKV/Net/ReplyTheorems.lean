/-
LiteKV.Net.ReplyTheorems — what a client reads in an array reply.

`readArray` is the client's side of the protocol: a count line, then per
item a length line, that many bytes and a line end. The two encoders of the
source agree with it on the lengths, not on the bytes: the streaming one
writes an item with `operator<<`, which stops at the first NUL
(`readItem_pack`, `nul_unread`). So a reply is read back, and the stream is
left where the next reply starts, exactly when no item holds a NUL byte.

`arrayAnswer` lists the commands that answer with `PackArrayMsg`, with the
vector each of them packs.
-/
import LiteKV.Net.ProtocolTheorems
import LiteKV.Net.WrongTypeTheorems
import LiteKV.Lib.Decoder

namespace LiteKV

open Lib.Decoding

/-! ## The client -/

/-- A decimal number and the line end behind it. -/
def readNumber : Decoder UInt8 Nat := fun bs =>
  let ds := bs.takeWhile isDigit
  if ds.isEmpty ∨ (bs.drop ds.length).take 2 ≠ crlf then none
  else some (digitsVal ds, bs.drop (ds.length + 2))

/-- `n` bytes and the line end behind them. -/
def readBulk (n : Nat) : Decoder UInt8 Bytes := fun bs =>
  if bs.length < n ∨ (bs.drop n).take 2 ≠ crlf then none else some (bs.take n, bs.drop (n + 2))

/-- One item of an array: the null reply, or a string. -/
def readItem : Decoder UInt8 DynamicString := fun bs =>
  if bs.take 5 = kNilMsg then some (none, bs.drop 5)
  else if bs.take 1 = ascii "$" then
    (readNumber (bs.drop 1)).bind fun r => (readBulk r.1 r.2).map fun b => (some b.1, b.2)
  else none

/-- An array reply. -/
def readArray : Decoder UInt8 (List DynamicString) := fun bs =>
  if bs.take 1 = ascii "*" then (readNumber (bs.drop 1)).bind fun r => many readItem r.1 r.2
  else none

/-! ## Lines and strings -/

theorem readNumber_natToString (n : Nat) : Reads readNumber (natToString n ++ crlf) n := by
  intro rest
  have hw : (natToString n ++ crlf ++ rest).takeWhile isDigit = natToString n := by
    rw [List.append_assoc]
    exact takeWhile_isDigit_append (natToString_all_digit n) (noDigitStart_crlf rest)
  have hd : (natToString n ++ crlf ++ rest).drop (natToString n).length = crlf ++ rest := by
    rw [List.append_assoc, List.drop_left]
  have hne : ¬ (natToString n).isEmpty := by
    simpa [List.isEmpty_iff] using natToString_ne_nil n
  have hlen : (natToString n ++ crlf).length = (natToString n).length + 2 := by
    simp [crlf]
  simp only [readNumber, hw, hd, digitsVal_natToString]
  rw [if_neg (by simp [hne, crlf]), ← hlen, List.drop_left]

theorem readBulk_append (v : Bytes) : Reads (readBulk v.length) (v ++ crlf) v := by
  intro rest
  have hlen : (v ++ crlf).length = v.length + 2 := by simp [crlf]
  have hd : (v ++ crlf ++ rest).drop v.length = crlf ++ rest := by
    rw [List.append_assoc, List.drop_left]
  have ht : (v ++ crlf ++ rest).take v.length = v := by rw [List.append_assoc, List.take_left]
  rw [readBulk, hd, ht, if_neg (by simp [crlf]), ← hlen, List.drop_left]

/-- A string with a NUL is its C string, the NUL and something more. -/
theorem eq_cStr_append_nul {v : Bytes} (h : ¬ NoNul v) : ∃ w, v = cStr v ++ 0 :: w := by
  have hsplit : cStr v ++ v.dropWhile (· ≠ 0) = v := List.takeWhile_append_dropWhile
  cases hd : v.dropWhile (· ≠ 0) with
  | nil =>
      rw [hd, List.append_nil] at hsplit
      exact absurd (hsplit ▸ cStr_noNul v) h
  | cons b w =>
      have hb : b = 0 := by
        have := List.head?_dropWhile_not (· ≠ (0 : UInt8)) v
        rw [hd] at this
        simpa using this
      exact ⟨w, by rw [← hb, ← hd, hsplit]⟩

/-- An item whose C string is shorter than its declared length is not read as
what it stands for: a line end stands where its first NUL should be. -/
theorem noNul_of_readBulk {v tail rest : Bytes}
    (h : readBulk v.length (cStr v ++ crlf ++ tail) = some (v, rest)) : NoNul v := by
  have ht : (cStr v ++ crlf ++ tail).take v.length = v := by
    rw [readBulk] at h
    split at h
    · cases h
    · exact congrArg Prod.fst (Option.some.inj h)
  by_contra hnul
  obtain ⟨w, hw⟩ := eq_cStr_append_nul hnul
  generalize cStr v = c at ht hw
  have hlt : c.length < v.length := by
    have := congrArg List.length hw
    simp only [List.length_append, List.length_cons] at this
    omega
  have h0 : v[c.length]? = some 0 := by simp [hw]
  have h13 : ((c ++ crlf ++ tail).take v.length)[c.length]? = some 13 := by
    rw [List.getElem?_take_of_lt hlt, List.append_assoc,
      List.getElem?_append_right (Nat.le_refl _), Nat.sub_self]
    rfl
  rw [ht, h0] at h13
  cases h13

/-! ## Items and arrays -/

theorem packStringValueIntoStream_some (v : Bytes) (tail : Bytes) :
    packStringValueIntoStream (some v) ++ tail
      = ascii "$" ++ (natToString v.length ++ crlf ++ (cStr v ++ crlf ++ tail)) := by
  simp only [packStringValueIntoStream, List.append_assoc]

/-- An item as far as its length line. -/
theorem readItem_dollar (v tail : Bytes) :
    readItem (packStringValueIntoStream (some v) ++ tail)
      = (readBulk v.length (cStr v ++ crlf ++ tail)).map fun b => (some b.1, b.2) := by
  obtain ⟨d, ds, hd⟩ := List.exists_cons_of_ne_nil (natToString_ne_nil v.length)
  have hdigit : isDigit d = true :=
    natToString_all_digit v.length d (by rw [hd]; exact List.mem_cons_self)
  have hnil : ¬ (ascii "$" ++ (natToString v.length ++ crlf ++ (cStr v ++ crlf ++ tail))).take 5
      = kNilMsg := by
    rw [hd]
    intro h
    have : d = 45 := by
      have := congrArg (·[1]?) h
      simpa [ascii, kNilMsg] using this
    subst this
    exact absurd hdigit (by decide)
  have hdollar : (ascii "$" ++ (natToString v.length ++ crlf ++ (cStr v ++ crlf ++ tail))).take 1
      = ascii "$" := rfl
  rw [packStringValueIntoStream_some, readItem, if_neg hnil, if_pos hdollar]
  show (readNumber (natToString v.length ++ crlf ++ (cStr v ++ crlf ++ tail))).bind _ = _
  rw [readNumber_natToString, Option.bind_some]

/-- The null string, and every string without NUL. -/
def Unbroken (v : DynamicString) : Prop := ∀ b, v = some b → NoNul b

theorem readItem_unbroken {v : DynamicString} (h : Unbroken v) :
    Reads readItem (packStringValueIntoStream v) v := by
  intro rest
  cases v with
  | none => rfl
  | some b =>
      rw [readItem_dollar, cStr_of_noNul (h b rfl), readBulk_append b rest]
      rfl

theorem unbroken_of_readItem {v : DynamicString} {tail rest : Bytes}
    (h : readItem (packStringValueIntoStream v ++ tail) = some (v, rest)) : Unbroken v := by
  intro b hb
  subst hb
  rw [readItem_dollar] at h
  cases hr : readBulk b.length (cStr b ++ crlf ++ tail) with
  | none => rw [hr] at h; cases h
  | some r =>
      simp only [hr, Option.map_some, Option.some.injEq, Prod.mk.injEq] at h
      exact noNul_of_readBulk (by rw [hr, ← h.1])

/-- A client reads the array back, and finds the next reply behind it. -/
def DecodesTo (reply : Bytes) (items : List DynamicString) : Prop := Reads readArray reply items

theorem readArray_packArrayMsg (items : List DynamicString) (rest : Bytes) :
    readArray (packArrayMsg items ++ rest)
      = many readItem items.length (items.flatMap packStringValueIntoStream ++ rest) := by
  have hcat : packArrayMsg items ++ rest = ascii "*" ++ (natToString items.length ++ crlf ++
      (items.flatMap packStringValueIntoStream ++ rest)) := by
    simp only [packArrayMsg, List.append_assoc]
  have hstar : (ascii "*" ++ (natToString items.length ++ crlf ++
      (items.flatMap packStringValueIntoStream ++ rest))).take 1 = ascii "*" := rfl
  rw [hcat, readArray, if_pos hstar]
  show (readNumber (natToString items.length ++ crlf ++ _)).bind _ = _
  rw [readNumber_natToString, Option.bind_some]

theorem packArrayMsg_decodes_iff (items : List DynamicString) :
    DecodesTo (packArrayMsg items) items ↔ ∀ b, some b ∈ items → NoNul b := by
  have hiff (rest : Bytes) : readArray (packArrayMsg items ++ rest) = some (items, rest) ↔
      ∀ v ∈ items, Unbroken v := by
    rw [readArray_packArrayMsg]
    exact many_flatMap_iff packStringValueIntoStream (fun _ => readItem_unbroken)
      (fun _ _ _ => unbroken_of_readItem) items rest
  constructor
  · intro h b hb
    exact (hiff []).mp (h []) _ hb b rfl
  · intro h rest
    exact (hiff rest).mpr fun v hv b hb => h b (hb ▸ hv)

/-- The two encoders agree on the strings without NUL. -/
theorem packArrayMsg_eq_std {items : List Bytes} (h : ∀ b ∈ items, NoNul b) :
    packArrayMsg (items.map some) = packArrayMsgStd items := by
  have hitems : (items.map some).flatMap packStringValueIntoStream
      = items.flatMap packStringValueReply := by
    rw [List.flatMap_map]
    refine List.flatMap_congr fun b hb => ?_
    rw [packStringValueIntoStream, cStr_of_noNul (h b hb), packStringValueReply]
  rw [packArrayMsg, packArrayMsgStd, List.length_map, hitems]

/-! ## The commands -/

/-- The items an operation of the container returned with `kOkCode`. -/
def okItems (r : KVContainer × List DynamicString × ErrCode) : Option (List DynamicString) :=
  if r.2.2 = .ok then some r.2.1 else none

/-- The vector a command packs with `PackArrayMsg`: what the container gave it
for the words behind the opcode. `none` where the answer is not an array. -/
def arrayAnswer (ctx : Ctx) (s : Engine) (op : Opcode) (args : List Bytes) :
    Option (List DynamicString) :=
  match op, args with
  | .lrange, [key, first, last] =>
      match canConvertToInt32 first, canConvertToInt32 last with
      | some b, some e =>
          let r := s.holder.listRange ctx.now (.ofStdString key) b e
          if r.2.2 = .ok then r.2.1.toOption else none
      | _, _ => none
  | .hgetall, [key] => okItems (s.holder.hashGetAllEntries ctx.now (.ofStdString key))
  | .hkeys, [key] => okItems (s.holder.hashGetAllFields ctx.now (.ofStdString key))
  | .hvals, [key] => okItems (s.holder.hashGetAllValues ctx.now (.ofStdString key))
  | .smembers, [key] => okItems (s.holder.setGetMembers ctx.now (.ofStdString key))
  | .hget, key :: f :: g :: fields =>
      okItems (s.holder.hashGetValues ctx.now (.ofStdString key) (f :: g :: fields))
  | _, _ => none

theorem okItems_eq_some {r : KVContainer × List DynamicString × ErrCode}
    {items : List DynamicString} (h : okItems r = some items) : r.2.2 = .ok ∧ r.2.1 = items := by
  by_cases hc : r.2.2 = .ok
  · rw [okItems, if_pos hc] at h
    exact ⟨hc, Option.some.inj h⟩
  · rw [okItems, if_neg hc] at h
    cases h

/-- The constant answer for no items is the array of no items. -/
theorem packArrayMsg_nil : packArrayMsg [] = kArrayEmptyMsg := by decide

/-- `HKeysValsEntriesCommon` on the words of the command. -/
theorem hKeysValsEntriesCommon_reply
    {operation : KVContainer → Nat → Key → KVContainer × List DynamicString × ErrCode} {ctx : Ctx}
    {s : Engine} {argv : List Bytes} {items : List DynamicString}
    (h : okItems (operation s.holder ctx.now (.ofStdString (arg argv 1))) = some items) :
    (hKeysValsEntriesCommon operation ctx s argv).2 = .ok (packArrayMsg items) := by
  obtain ⟨hcode, hitems⟩ := okItems_eq_some h
  simp only [hKeysValsEntriesCommon, readKey, hcode, hitems, reduceCtorEq, if_false]
  cases items with
  | nil => rw [packArrayMsg_nil]; rfl
  | cons x xs => rfl

theorem length_atAll (o : DictObject) (fields : List Bytes) :
    (KVContainer.atAll o fields).2.length = fields.length := by
  induction fields generalizing o with
  | nil => rfl
  | cons f fs ih => rw [KVContainer.atAll, List.length_cons, List.length_cons, ih]

theorem hashGetValues_length {h : KVContainer} {now : Nat} {key : Key} {fields : List Bytes}
    (hcode : (h.hashGetValues now key fields).2.2 = .ok) :
    (h.hashGetValues now key fields).2.1.length = fields.length := by
  rw [KVContainer.hashGetValues, KVContainer.onType] at hcode ⊢
  cases hf : h.find key with
  | none => simp [hf] at hcode
  | some obj =>
      cases ho : obj.payload.asHash with
      | none => simp [hf, ho] at hcode
      | some o => simp only [ho, length_atAll]

/-- `HKeysValsEntriesCommon` and `SMembersCommand` take a key and no operand. -/
theorem syntax_key (opcode key : Bytes) : checkSyntax [opcode, key] 1 0 false = true := rfl

/-- What the commands answer. -/
theorem arrayAnswer_reply {ctx : Ctx} {s : Engine} {op : Opcode} {args : List Bytes}
    {items : List DynamicString} (h : arrayAnswer ctx s op args = some items) :
    (op.handler ctx s (op.name :: args)).2 = .ok (packArrayMsg items) := by
  unfold arrayAnswer at h
  split at h
  · -- `lrange`
    rename_i key first last
    split at h
    · rename_i b e hb he
      have hsyntax : checkSyntax [Opcode.lrange.name, key, first, last] 1 2 false = true := rfl
      generalize hr : s.holder.listRange ctx.now (.ofStdString key) b e = r at h
      simp only [Opcode.handler, lRangeCommand, syntax_run hsyntax, arg, List.getD_cons_succ,
        List.getD_cons_zero, hb, he, hr]
      by_cases hcode : r.2.2 = .ok
      · rw [if_pos hcode] at h ⊢
        cases hranges : r.2.1 with
        | error e => rw [hranges] at h; cases h
        | ok ranges =>
            obtain rfl : ranges = items := by
              rw [hranges] at h
              exact Option.some.inj h
            cases ranges with
            | nil => rw [packArrayMsg_nil]; rfl
            | cons x xs => rfl
      · rw [if_neg hcode] at h
        cases h
    · cases h
  · simp only [Opcode.handler, hGetAllCommand, syntax_run (syntax_key _ _)]
    exact hKeysValsEntriesCommon_reply h
  · simp only [Opcode.handler, hKeysCommand, syntax_run (syntax_key _ _)]
    exact hKeysValsEntriesCommon_reply h
  · simp only [Opcode.handler, hValsCommand, syntax_run (syntax_key _ _)]
    exact hKeysValsEntriesCommon_reply h
  · -- `smembers`
    rename_i key
    obtain ⟨hcode, hitems⟩ := okItems_eq_some h
    simp only [Opcode.handler, sMembersCommand, syntax_run (syntax_key _ _), readKey, arg,
      List.getD_cons_succ, List.getD_cons_zero, hcode, hitems, reduceCtorEq, if_false]
  · -- `hget` of several fields
    rename_i key f g fields
    obtain ⟨hcode, hitems⟩ := okItems_eq_some h
    have hlen := hashGetValues_length hcode
    rw [hitems, List.length_cons] at hlen
    have hmany : checkSyntax (Opcode.hget.name :: key :: f :: g :: fields) 1 (-1) false = true :=
      syntax_many (by simp)
    have hne : items.isEmpty = false := by
      cases items with
      | nil => cases hlen
      | cons x xs => rfl
    have hthree : ¬ (Opcode.hget.name :: key :: f :: g :: fields).length = 3 := by simp
    simp only [Opcode.handler, hGetCommand, syntax_run hmany, if_neg hthree, readKey, arg,
      List.getD_cons_succ, List.getD_cons_zero, List.drop_succ_cons, List.drop_zero, hitems, hne,
      Bool.false_eq_true, if_false]
  · cases h

/-- **Array replies are well formed when no item holds a NUL byte.** A reply
over a vector of non-null strings is read back to the same strings by a client
that then finds the next reply, and equals what the encoder of `std::string`s
produces, exactly when none of them holds a NUL; and so the replies of the
commands that answer with stored strings. -/
theorem array_replies_iff (items : List Bytes) (ctx : Ctx) (s : Engine) (op : Opcode)
    (args : List Bytes) :
    ((DecodesTo (packArrayMsg (items.map some)) (items.map some) ∧
        packArrayMsg (items.map some) = packArrayMsgStd items) ↔ ∀ b ∈ items, NoNul b) ∧
    ∀ answer ∈ arrayAnswer ctx s op args,
      ∃ reply, (op.handler ctx s (op.name :: args)).2 = .ok reply ∧
        (DecodesTo reply answer ↔ ∀ b, some b ∈ answer → NoNul b) := by
  refine ⟨⟨fun h b hb => ?_, fun h => ⟨?_, packArrayMsg_eq_std h⟩⟩, fun answer hanswer =>
    ⟨_, arrayAnswer_reply hanswer, packArrayMsg_decodes_iff answer⟩⟩
  · exact (packArrayMsg_decodes_iff _).mp h.1 b (List.mem_map_of_mem hb)
  · exact (packArrayMsg_decodes_iff _).mpr fun b hb => h b (by simpa using hb)

/-- The three bytes `a`, NUL, `b` are announced and the first one is sent. -/
theorem array_reply_drops_bytes :
    packArrayMsg [some [97, 0, 98]] = ascii "*1\r\n$3\r\na\r\n" ∧
      ¬ (DecodesTo (packArrayMsg [some [97, 0, 98]]) [some [97, 0, 98]] ∧
        packArrayMsg [some [97, 0, 98]] = packArrayMsgStd [[97, 0, 98]]) :=
  ⟨by decide, fun h => absurd ((packArrayMsg_decodes_iff _).mp h.1 [97, 0, 98]
    (List.mem_singleton.mpr rfl)) (by decide)⟩

end LiteKV
