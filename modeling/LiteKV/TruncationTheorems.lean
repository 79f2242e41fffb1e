/-
LiteKV.TruncationTheorems — loading a dump that was cut short.

`take` cuts an encoding, and each decoder answers a cut with something: a
variable-length integer with the groups that are there
(`decodeInteger_take`), a string with nothing, leaving the bytes it did not
take behind (`decodeStdString_take`), a collection with its first elements.
The record is applied before its end is looked for, so what the answer is
decides: `CutHarmless` is read off it.

The bytes a cut string leaves behind are read on, as the end flag of the
record and then as records. `CutInStep` says that they are none, or do not
pass for an end flag; a key is read as empty, and its bytes as the value. In
step the condition is exact.
-/
import LiteKV.LkvdbTheorems

namespace LiteKV

open Lib Lib.AssocList Lib.Buckets

/-! ## Integers -/

/-- The groups of a cut integer: all bytes are taken, and what is missing makes
the number smaller. -/
theorem decodeLoop_take (n : Nat) : ∀ (shift valen value j : Nat),
    value < 2 ^ (7 * (n + 1)) → valen < 2 ^ shift → valen + value * 2 ^ shift < 2 ^ 64 →
    j < (encodeVarLoop n value).length →
    ∃ x, decodeLoop (n + 1) shift valen ((encodeVarLoop n value).take j) = (x, []) ∧
      x ≤ valen + value * 2 ^ shift ∧ (0 < value → x < valen + value * 2 ^ shift) := by
  have hnone : ∀ n shift valen value : Nat,
      ∃ x, decodeLoop (n + 1) shift valen [] = (x, []) ∧
        x ≤ valen + value * 2 ^ shift ∧ (0 < value → x < valen + value * 2 ^ shift) := by
    intro n shift valen value
    refine ⟨valen, rfl, Nat.le_add_right _ _, fun hpos => ?_⟩
    have := Nat.mul_pos hpos (Nat.two_pow_pos shift)
    omega
  induction n with
  | zero =>
    intro shift valen value j _ _ _ hj
    obtain rfl : j = 0 := by simpa [encodeVarLoop] using hj
    exact hnone 0 shift valen value
  | succ n ih =>
    intro shift valen value j hv hvalen hfit hj
    cases j with
    | zero => exact hnone (n + 1) shift valen value
    | succ j =>
        rw [encodeVarLoop_succ] at hj ⊢
        split at hj
        · simp at hj
        · rename_i hge
          rw [if_neg hge, List.take_succ_cons]
          obtain ⟨hstep, hvalen', hsum⟩ :=
            decodeLoop_group (n + 1) hvalen hfit ((encodeVarLoop n (value / 128)).take j)
          obtain ⟨x, hrun, hle, hlt⟩ := ih (shift + 7) _ (value / 128) j (div_lt_of_groups hv)
            hvalen' (by rw [hsum]; exact hfit) (by simpa using hj)
          rw [hsum] at hle hlt
          exact ⟨x, hstep.trans hrun, hle, fun _ => hlt (by omega)⟩

theorem decodeInteger_take (value : UInt64) {j : Nat}
    (hj : j < (encodeVarUnsignedInt64 value).length) :
    ∃ x, decodeInteger ((encodeVarUnsignedInt64 value).take j) = (x, []) ∧ x ≤ value.toNat ∧
      (0 < value.toNat → x < value.toNat) := by
  have hlt := value.toNat_lt
  have h := decodeLoop_take 9 0 0 value.toNat j (by omega) (by omega) (by omega) hj
  simp only [Nat.pow_zero, Nat.mul_one, Nat.zero_add] at h
  exact h

/-! ## Strings -/

/-- The length of a string's length. -/
def lengthSize (n : Nat) : Nat := (encodeSize n).length

/-- A cut string is empty, and the bytes of it that are there stay behind. -/
theorem decodeStdString_take {data : Bytes} (hd : data.length < 2 ^ 64) {j : Nat}
    (hj : j < (serializeCharBuf data).length) :
    decodeStdString ((serializeCharBuf data).take j)
      = ([], data.take (j - lengthSize data.length)) := by
  rw [serializeCharBuf] at hj ⊢
  split at hj
  · rename_i h0
    obtain rfl : j = 0 := by simpa using hj
    have hnil : data = [] := List.eq_nil_of_length_eq_zero h0
    rw [if_pos h0, hnil]
    rfl
  · rename_i h0
    rw [if_neg h0]
    rw [List.length_append] at hj
    by_cases hlen : j < (encodeSize data.length).length
    · -- the length itself is cut
      obtain ⟨x, hdec, -, -⟩ := decodeInteger_take (.ofNat data.length) hlen
      have hzero : j - lengthSize data.length = 0 := Nat.sub_eq_zero_of_le (Nat.le_of_lt hlen)
      rw [List.take_append_of_le_length (Nat.le_of_lt hlen), decodeStdString, encodeSize, hdec,
        hzero]
      have hshort : x = 0 ∨ ([] : Bytes).length < x := by
        rw [List.length_nil]
        omega
      simp only [if_pos hshort, List.take_zero]
    · obtain ⟨i, rfl⟩ : ∃ i, j = (encodeSize data.length).length + i :=
        ⟨j - (encodeSize data.length).length, by omega⟩
      have hleft : (encodeSize data.length).length + i - lengthSize data.length = i :=
        Nat.add_sub_cancel_left _ _
      rw [List.take_length_add_append, decodeStdString, decodeInteger_encodeSize hd, hleft]
      have hshort : data.length = 0 ∨ (data.take i).length < data.length := by
        rw [List.length_take]
        omega
      simp only [if_pos hshort]

theorem serializeCharBuf_pos (data : Bytes) : 0 < (serializeCharBuf data).length := by
  rw [serializeCharBuf]
  split
  · decide
  · rw [List.length_append]
    omega

/-! ## Collections -/

/-- The strings of a cut sequence that are whole, and what is there of the one
that is cut. -/
def cutTexts : List Bytes → Nat → Nat × Bytes
  | [], _ => (0, [])
  | s :: ss, q =>
      if q < (serializeCharBuf s).length then (0, s.take (q - lengthSize s.length))
      else
        let r := cutTexts ss (q - (serializeCharBuf s).length)
        (r.1 + 1, r.2)

/-- Before the first string nothing is there. -/
@[simp] theorem cutTexts_zero (ss : List Bytes) : cutTexts ss 0 = (0, []) := by
  cases ss with
  | nil => rfl
  | cons s ss => simp [cutTexts, serializeCharBuf_pos]

theorem cutTexts_lt (ss : List Bytes) : ∀ {q : Nat}, q < (ss.flatMap serializeCharBuf).length →
    (cutTexts ss q).1 < ss.length := by
  induction ss with
  | nil => intro q hq; exact absurd hq (Nat.not_lt_zero q)
  | cons s ss ih =>
    intro q hq
    rw [List.flatMap_cons, List.length_append] at hq
    rw [cutTexts]
    split
    · exact Nat.zero_lt_succ _
    · exact Nat.succ_lt_succ (ih (by omega))

/-- The same with a number in front. -/
theorem cutTexts_lt_number {ss : List Bytes} (hne : ss ≠ []) {n q : Nat}
    (hq : q < (encodeSize n ++ ss.flatMap serializeCharBuf).length) :
    (cutTexts ss (q - lengthSize n)).1 < ss.length := by
  rw [List.length_append] at hq
  rcases Nat.eq_zero_or_pos (q - lengthSize n) with h0 | hpos
  · rw [h0, cutTexts_zero]
    exact List.length_pos_iff.mpr hne
  · have hsize : lengthSize n = (encodeSize n).length := rfl
    exact cutTexts_lt ss (by omega)

theorem TextLoop.take {α : Type} {loop : Nat → α → Bytes → α × Bytes} {add : α → Bytes → α}
    (h : TextLoop loop add) (ss : List Bytes) : ∀ (ans : α) {q : Nat},
    (∀ s ∈ ss, Element s) → q < (ss.flatMap serializeCharBuf).length →
    loop ss.length ans ((ss.flatMap serializeCharBuf).take q)
      = ((ss.take (cutTexts ss q).1).foldl add ans, (cutTexts ss q).2) := by
  induction ss with
  | nil => intro ans q _ hq; exact absurd hq (Nat.not_lt_zero q)
  | cons s ss ih =>
    intro ans q hss hq
    have hs := hss s List.mem_cons_self
    rw [List.flatMap_cons, List.length_append] at hq
    rw [List.length_cons, h.turn, List.flatMap_cons, cutTexts]
    by_cases hcut : q < (serializeCharBuf s).length
    · rw [if_pos hcut, List.take_append_of_le_length (Nat.le_of_lt hcut),
        decodeStdString_take hs.2 hcut]
      rfl
    · obtain ⟨i, rfl⟩ : ∃ i, q = (serializeCharBuf s).length + i :=
        ⟨q - (serializeCharBuf s).length, by omega⟩
      obtain ⟨hdec, hne⟩ := hs.decode ((ss.flatMap serializeCharBuf).take i)
      rw [if_neg hcut, List.take_length_add_append, Nat.add_sub_cancel_left]
      simp only [hdec, hne]
      exact ih _ (fun s' hs' => hss s' (List.mem_cons_of_mem s hs')) (by omega)

/-- The texts of the pairs of a dictionary. -/
def pairTexts (es : List (Bytes × Bytes)) : List Bytes := es.flatMap fun e => [e.1, e.2]

theorem pairTexts_cons (e : Bytes × Bytes) (es : List (Bytes × Bytes)) :
    pairTexts (e :: es) = e.1 :: e.2 :: pairTexts es := rfl

theorem length_pairTexts (es : List (Bytes × Bytes)) : (pairTexts es).length = 2 * es.length := by
  induction es with
  | nil => rfl
  | cons e es ih =>
      rw [pairTexts_cons, List.length_cons, List.length_cons, ih, List.length_cons]
      omega

theorem pairTexts_serialize (es : List (Bytes × Bytes)) :
    (pairTexts es).flatMap serializeCharBuf
      = es.flatMap fun e => serializeCharBuf e.1 ++ serializeCharBuf e.2 := by
  induction es with
  | nil => rfl
  | cons e es ih => simp [pairTexts_cons, ih]

/-- A pair counts when both its texts are whole. -/
theorem decodeFields_take (es : List (Bytes × Bytes)) : ∀ (ans : DictObject) {q : Nat},
    (∀ e ∈ es, Element e.1 ∧ Element e.2) → q < ((pairTexts es).flatMap serializeCharBuf).length →
    decodeFields es.length ans (((pairTexts es).flatMap serializeCharBuf).take q)
      = (KVContainer.updateAll ans (es.take ((cutTexts (pairTexts es) q).1 / 2)),
          (cutTexts (pairTexts es) q).2) := by
  induction es with
  | nil => intro ans q _ hq; exact absurd hq (Nat.not_lt_zero q)
  | cons e es ih =>
    intro ans q hes hq
    obtain ⟨hk, hv⟩ := hes e List.mem_cons_self
    rw [pairTexts_cons, List.flatMap_cons, List.flatMap_cons, List.length_append,
      List.length_append] at hq
    rw [List.length_cons, decodeFields, pairTexts_cons, List.flatMap_cons, List.flatMap_cons,
      cutTexts]
    by_cases hcut : q < (serializeCharBuf e.1).length
    · rw [if_pos hcut, List.take_append_of_le_length (Nat.le_of_lt hcut),
        decodeStdString_take hk.2 hcut]
      simp only [List.isEmpty_nil, if_true, Nat.zero_div, List.take_zero]
      rfl
    · obtain ⟨i, rfl⟩ : ∃ i, q = (serializeCharBuf e.1).length + i :=
        ⟨q - (serializeCharBuf e.1).length, by omega⟩
      obtain ⟨hdec, hne⟩ := hk.decode ((serializeCharBuf e.2 ++
        (pairTexts es).flatMap serializeCharBuf).take i)
      rw [if_neg hcut, List.take_length_add_append, Nat.add_sub_cancel_left, cutTexts]
      simp only [hdec, hne]
      by_cases hcut' : i < (serializeCharBuf e.2).length
      · rw [if_pos hcut', List.take_append_of_le_length (Nat.le_of_lt hcut'),
          decodeStdString_take hv.2 hcut']
        have hhalf : (0 + 1) / 2 = 0 := rfl
        simp only [Bool.false_eq_true, if_false, List.isEmpty_nil, if_true, hhalf, List.take_zero]
        rfl
      · obtain ⟨i', rfl⟩ : ∃ i', i = (serializeCharBuf e.2).length + i' :=
          ⟨i - (serializeCharBuf e.2).length, by omega⟩
        obtain ⟨hdec', hne'⟩ := hv.decode (((pairTexts es).flatMap serializeCharBuf).take i')
        have htwo : ((cutTexts (pairTexts es) i').1 + 1 + 1) / 2
            = (cutTexts (pairTexts es) i').1 / 2 + 1 := by omega
        rw [if_neg hcut', List.take_length_add_append, Nat.add_sub_cancel_left]
        simp only [hdec', hne']
        rw [htwo]
        exact ih _ (fun e' he' => hes e' (List.mem_cons_of_mem e he')) (by omega)

/-- Nothing is read of nothing, whatever the number of elements is. -/
theorem decode_nil (n : Nat) : (∀ ans, decodeElems n ans [] = (ans, [])) ∧
    (∀ ans, decodeFields n ans [] = (ans, [])) ∧ ∀ ans, decodeMembers n ans [] = (ans, []) := by
  have hempty : decodeStdString [] = ([], []) := rfl
  cases n with
  | zero => exact ⟨fun _ => rfl, fun _ => rfl, fun _ => rfl⟩
  | succ n =>
      refine ⟨fun ans => ?_, fun ans => ?_, fun ans => ?_⟩
      · simp only [decodeElems, hempty, List.isEmpty_nil, if_true]
      · simp only [decodeFields, hempty, List.isEmpty_nil, if_true]
      · simp only [decodeMembers, hempty, List.isEmpty_nil, if_true]

/-- The number in front of a collection that is cut: whole with what there is of
the elements, or cut itself with nothing of them. -/
theorem decodeInteger_cut {n : Nat} (hn : n < 2 ^ 64) (body : Bytes) {q : Nat}
    (hq : q < (encodeSize n ++ body).length) :
    ∃ x, decodeInteger ((encodeSize n ++ body).take q) = (x, body.take (q - lengthSize n)) ∧
      (q - lengthSize n = 0 ∨ (x = n ∧ q - lengthSize n < body.length)) := by
  rw [List.length_append] at hq
  by_cases hcut : q < (encodeSize n).length
  · obtain ⟨x, hdec, -, -⟩ := decodeInteger_take (.ofNat n) hcut
    have hzero : q - lengthSize n = 0 := Nat.sub_eq_zero_of_le (Nat.le_of_lt hcut)
    refine ⟨x, ?_, .inl hzero⟩
    rw [List.take_append_of_le_length (Nat.le_of_lt hcut), hzero, encodeSize, hdec]
    rfl
  · obtain ⟨i, rfl⟩ : ∃ i, q = (encodeSize n).length + i := ⟨q - (encodeSize n).length, by omega⟩
    have hleft : (encodeSize n).length + i - lengthSize n = i := Nat.add_sub_cancel_left _ _
    refine ⟨n, ?_, .inr ⟨rfl, by omega⟩⟩
    rw [List.take_length_add_append, decodeInteger_encodeSize hn, hleft]

/-! ## The value of a cut record -/

/-- A cut leaves the value as it was, or leaves nothing of it: an integer must
be zero and a string empty, of a collection no element may be whole. -/
def Payload.CutKeeps : Payload → Nat → Prop
  | .int v, _ => v = 0
  | .string s, _ => s = []
  | .list o, q => (cutTexts o.toList (q - lengthSize o.toList.length)).1 = 0
  | .hash o, q => (cutTexts (pairTexts o.allEntries) (q - lengthSize o.allEntries.length)).1 < 2
  | .set o, q => (cutTexts o.allKeys (q - lengthSize o.allKeys.length)).1 = 0

/-- What there is of the text that is cut; its decoder leaves it behind. -/
def Payload.cutRest : Payload → Nat → Bytes
  | .int _, _ => []
  | .string s, q => s.take (q - lengthSize s.length)
  | .list o, q => (cutTexts o.toList (q - lengthSize o.toList.length)).2
  | .hash o, q => (cutTexts (pairTexts o.allEntries) (q - lengthSize o.allEntries.length)).2
  | .set o, q => (cutTexts o.allKeys (q - lengthSize o.allKeys.length)).2

theorem decodeDList_take {ss : List Bytes} (hss : ∀ s ∈ ss, Element s) (hlen : ss.length < 2 ^ 64)
    {q : Nat} (hq : q < (encodeSize ss.length ++ ss.flatMap serializeCharBuf).length) :
    decodeDList ((encodeSize ss.length ++ ss.flatMap serializeCharBuf).take q)
      = ((ss.take (cutTexts ss (q - lengthSize ss.length)).1).foldl
            (fun o s => o.push false s) .new,
          (cutTexts ss (q - lengthSize ss.length)).2) := by
  obtain ⟨x, hdec, hx⟩ := decodeInteger_cut hlen _ hq
  rw [decodeDList, hdec]
  rcases hx with hzero | ⟨rfl, hlt⟩
  · rw [hzero, List.take_zero, cutTexts_zero]
    exact (decode_nil x).1 .new
  · exact decodeElems_loop.take ss .new hss hlt

theorem decodeHashDict_take {es : List (Bytes × Bytes)}
    (hes : ∀ e ∈ es, Element e.1 ∧ Element e.2) (hlen : es.length < 2 ^ 64) {q : Nat}
    (hq : q < (encodeSize es.length ++ (pairTexts es).flatMap serializeCharBuf).length) :
    decodeHashDict ((encodeSize es.length ++ (pairTexts es).flatMap serializeCharBuf).take q)
      = (KVContainer.updateAll .new
            (es.take ((cutTexts (pairTexts es) (q - lengthSize es.length)).1 / 2)),
          (cutTexts (pairTexts es) (q - lengthSize es.length)).2) := by
  obtain ⟨x, hdec, hx⟩ := decodeInteger_cut hlen _ hq
  rw [decodeHashDict, hdec]
  rcases hx with hzero | ⟨rfl, hlt⟩
  · rw [hzero, List.take_zero, cutTexts_zero]
    exact (decode_nil x).2.1 .new
  · exact decodeFields_take es .new hes hlt

theorem decodeHashSet_take {ss : List Bytes} (hss : ∀ s ∈ ss, Element s)
    (hlen : ss.length < 2 ^ 64) {q : Nat}
    (hq : q < (encodeSize ss.length ++ ss.flatMap serializeCharBuf).length) :
    decodeHashSet ((encodeSize ss.length ++ ss.flatMap serializeCharBuf).take q)
      = ((KVContainer.insertAll .new (ss.take (cutTexts ss (q - lengthSize ss.length)).1)).1,
          (cutTexts ss (q - lengthSize ss.length)).2) := by
  obtain ⟨x, hdec, hx⟩ := decodeInteger_cut hlen _ hq
  rw [decodeHashSet, hdec, KVContainer.insertAll_fst]
  rcases hx with hzero | ⟨rfl, hlt⟩
  · rw [hzero, List.take_zero, cutTexts_zero]
    exact (decode_nil x).2.2 .new
  · exact decodeMembers_loop.take ss .new hss hlt

/-- Fewer elements than all are another value, unless they are none. -/
theorem keeps_of_take {α : Type} {as : List α} {n : Nat} {whole : Value} (make : List α → Value)
    (hne : as ≠ []) (hdiff : make (as.take n) ≠ whole) :
    ((if as.take n = [] then none else some (make (as.take n))) = none ∨
      (if as.take n = [] then none else some (make (as.take n))) = some whole) ↔ n = 0 := by
  constructor
  · intro h
    by_cases hnil : as.take n = []
    · exact (List.take_eq_nil_iff.mp hnil).resolve_right hne
    · rw [if_neg hnil] at h
      rcases h with h | h
      · cases h
      · exact absurd (Option.some.inj h) hdiff
  · rintro rfl
    rw [List.take_zero]
    exact .inl (if_pos rfl)

/-- One of the elements behind a cut is missing in front of it. -/
theorem exists_behind {α : Type} {as : List α} (hn : as.Nodup) {n : Nat} (hlt : n < as.length) :
    ∃ a ∈ as, a ∉ as.take n := by
  refine ⟨as[n], List.getElem_mem hlt, fun hmem => ?_⟩
  obtain ⟨i, hi, heq⟩ := List.getElem_of_mem hmem
  rw [List.length_take] at hi
  rw [List.getElem_take] at heq
  have hin : i = n := (List.Nodup.getElem_inj_iff hn).mp heq
  omega

/-- The field a cut is in front of is missing. -/
theorem updated_take_ne (o : DictObject) {n : Nat} (hlt : n < o.allEntries.length) :
    Cell.updated (o.allEntries.take n) (fun _ => none) ≠ o.lookup := by
  intro heq
  have hnodup := o.entries_spec.1
  obtain ⟨k, hk, hout⟩ := exists_behind hnodup (by rw [keys, List.length_map]; exact hlt)
  rw [keys, ← List.map_take] at hout
  rw [updated_eq_find? _ _ (hnodup.sublist ((List.take_sublist _ _).map _))] at heq
  have hat : (AssocList.find? k (o.allEntries.take n)).or none = o.lookup k := congrFun heq k
  rw [find?_eq_none.mpr hout, o.entries_spec.2.2 k] at hat
  exact find?_eq_none.mp hat.symm hk

/-- The member a cut is in front of is missing. -/
theorem members_take_ne (o : SetObject) {n : Nat} (hlt : n < o.allKeys.length) :
    (fun k => decide (k ∈ o.allKeys.take n)) ≠ o.contains := by
  intro heq
  obtain ⟨k, hk, hout⟩ := exists_behind o.isMap.nodup hlt
  have hat := congrFun heq k
  rw [o.members_spec.2, Bool.eq_iff_iff, decide_eq_true_eq, decide_eq_true_eq] at hat
  exact hout (hat.mpr hk)

/-- A number that is smaller unless it is zero is the same integer only then. -/
theorem ofNat_smaller_iff {v : Int64} {x : Nat} (hle : x ≤ v.toUInt64.toNat)
    (hlt : 0 < v.toUInt64.toNat → x < v.toUInt64.toNat) : Int64.ofNat x = v ↔ v = 0 := by
  constructor
  · intro hv
    by_contra hne
    have hpos : 0 < v.toUInt64.toNat := by
      refine Nat.pos_of_ne_zero fun h0 => hne ?_
      exact congrArg Int64.ofUInt64 (UInt64.toNat_inj.mp h0)
    -- a smaller number below 2^64 is another integer
    have hx : x < 2 ^ 64 := Nat.lt_of_le_of_lt hle v.toUInt64.toNat_lt
    have hback : v.toUInt64.toNat = x := by
      rw [← hv]
      exact Nat.mod_eq_of_lt hx
    exact absurd (hlt hpos) (by omega)
  · rintro rfl
    obtain rfl : x = 0 := Nat.le_zero.mp hle
    rfl

/-- A cut value, read for a key that has none. -/
theorem loaded_cut {p : Payload} (hload : p.toValue.Loadable) (hfits : p.Fits) {q : Nat}
    (hq : q < p.serialize.length) :
    ((Cell.loaded p.objectType (p.serialize.take q) none = none ∨
        Cell.loaded p.objectType (p.serialize.take q) none = some p.toValue) ↔ p.CutKeeps q) ∧
      valueRest p.objectType (p.serialize.take q) = p.cutRest q := by
  cases p with
  | int v =>
      obtain ⟨x, hdec, hle, hlt⟩ := decodeInteger_take v.toUInt64 hq
      have hcut : decodeInteger ((Payload.int v).serialize.take q) = (x, []) := hdec
      rw [Payload.objectType, Cell.loaded, if_pos rfl, valueRest, if_pos rfl, hcut]
      refine ⟨⟨?_, fun h => ?_⟩, rfl⟩
      · rintro (h | h)
        · cases h
        · exact (ofNat_smaller_iff hle hlt).mp (Value.int.inj (Option.some.inj h))
      · exact .inr (congrArg (fun n => some (Value.int n)) ((ofNat_smaller_iff hle hlt).mpr h))
  | string s =>
      have hdec : decodeStdString ((Payload.string s).serialize.take q)
          = ([], s.take (q - lengthSize s.length)) :=
        decodeStdString_take (hfits.2 s (by simp [Payload.texts])) hq
      rw [Payload.objectType, Cell.loaded, if_neg (by decide), if_pos rfl, valueRest,
        if_neg (by decide), if_pos rfl, hdec]
      refine ⟨⟨?_, ?_⟩, rfl⟩
      · rintro (h | h)
        · cases h
        · exact (Value.string.inj (Option.some.inj h)).symm
      · intro h
        exact .inr (congrArg (fun s => some (Value.string s)) h.symm)
  | list o =>
      have hlen : o.toList.length < 2 ^ 64 := hfits.1
      rw [Payload.serialize, ListObject.serialize_eq hload.1] at hq ⊢
      obtain ⟨hval, hrest⟩ := loaded_list
        (decodeDList_take (fun s hs => ⟨hload.2 s hs, hfits.2 s hs⟩) hlen hq)
      refine ⟨?_, hrest⟩
      rw [Payload.objectType, hval]
      refine keeps_of_take Value.list hload.1 fun h => ?_
      have hshort := congrArg List.length (Value.list.inj h)
      have hlt := cutTexts_lt_number hload.1 hq
      rw [List.length_take] at hshort
      omega
  | hash o =>
      obtain ⟨hne, hs, hlen⟩ := hfits.hash hload
      rw [Payload.serialize, DictObject.serialize_eq hne, ← pairTexts_serialize] at hq ⊢
      obtain ⟨hval, hrest⟩ := loaded_hash (decodeHashDict_take hs hlen hq)
      refine ⟨?_, hrest⟩
      rw [Payload.objectType, hval]
      have hne' : pairTexts o.allEntries ≠ [] := by
        rw [← List.length_pos_iff, length_pairTexts]
        have := List.length_pos_iff.mpr hne
        omega
      have hlt := cutTexts_lt_number hne' hq
      rw [length_pairTexts] at hlt
      refine (keeps_of_take (fun es => Value.hash (Cell.updated es fun _ => none)) hne
        fun h => ?_).trans ?_
      · refine updated_take_ne o ?_ (Value.hash.inj h)
        omega
      · rw [Payload.CutKeeps]
        omega
  | set o =>
      obtain ⟨hne, hs, hlen⟩ := hfits.set hload
      rw [Payload.serialize, SetObject.serialize_eq hne] at hq ⊢
      obtain ⟨hval, hrest⟩ := loaded_set (decodeHashSet_take hs hlen hq)
      refine ⟨?_, hrest⟩
      rw [Payload.objectType, hval]
      refine keeps_of_take (fun items => Value.set fun k => decide (k ∈ items)) hne fun h => ?_
      exact members_take_ne o (cutTexts_lt_number hne hq) (Value.set.inj h)

/-! ## A cut record -/

/-- The record of an entry without expiration. -/
def record (e : Key × ValueObject) : Bytes := snapshotEntry [] .new e.1 e.2.payload

/-- Where in a record a cut is. -/
inductive Place where
  /-- In front of the key. -/
  | head
  /-- In the key, of which these bytes are there. -/
  | key (there : Bytes)
  /-- In the value, behind so many of its bytes. -/
  | value (q : Nat)
  /-- Behind the value: the end flag is missing. -/
  | endFlag

/-- A cut of a sequence of records: the whole ones in front of it, the one it is
in, and the number of bytes that are there of that. -/
structure Cut where
  done : List (Key × ValueObject)
  entry : Key × ValueObject
  taken : Nat

/-- The cut of these records behind `n` bytes. -/
def cutRecords : List (Key × ValueObject) → Nat → Option Cut
  | [], _ => none
  | e :: es, n =>
      if n < (record e).length then some ⟨[], e, n⟩
      else (cutRecords es (n - (record e).length)).map fun c => { c with done := e :: c.done }

namespace Cut

variable (c : Cut)

/-- The key of the cut record. -/
def recordKey : Key := c.entry.1

/-- The value of the cut record. -/
def payload : Payload := c.entry.2.payload

def place : Place :=
  if c.taken < 3 then .head
  else if c.taken - 3 < c.recordKey.serialize.length then
    .key (c.recordKey.buf.take (c.taken - 3 - lengthSize c.recordKey.length))
  else if c.taken - 3 - c.recordKey.serialize.length < c.payload.serialize.length then
    .value (c.taken - 3 - c.recordKey.serialize.length)
  else .endFlag

/-- The loader can read the values in front of the cut, and does not take what
the cut leaves of a text for the end flag. A key that is cut is empty, and its
bytes are read as the value. -/
def InStep : Prop :=
  (∀ e ∈ c.done, e.2.payload.toValue.Loadable) ∧
    match c.place with
    | .head => True
    | .key there => (valueRest c.payload.objectType there).head? ≠ some 0xFE
    | .value q => c.payload.toValue.Loadable ∧ (c.payload.cutRest q).head? ≠ some 0xFE
    | .endFlag => c.payload.toValue.Loadable

/-- What is left of the record does no harm: nothing of it is read as a value,
or the value it is part of. -/
def Harmless (store : Store) : Prop :=
  match c.place with
  | .head => True
  | .key there => ∀ v, Cell.loaded c.payload.objectType there (storeOf c.done ⟨[]⟩) = some v →
      store ⟨[]⟩ = some v
  | .value q => c.payload.CutKeeps q
  | .endFlag => True

/-- What the cut record makes of a store. -/
def applied (store : Store) : Store :=
  match c.place with
  | .head => store
  | .key there =>
      Function.update store ⟨[]⟩ (Cell.loaded c.payload.objectType there (store ⟨[]⟩))
  | .value q =>
      Function.update store c.recordKey
        (Cell.loaded c.payload.objectType (c.payload.serialize.take q) (store c.recordKey))
  | .endFlag => Function.update store c.recordKey (some c.payload.toValue)

end Cut

theorem record_eq (e : Key × ValueObject) : record e
    = 0xFF :: e.2.payload.objectType :: 0 ::
      (e.1.serialize ++ (e.2.payload.serialize ++ [0xFE])) := by
  rw [record, ← List.append_nil (snapshotEntry [] .new e.1 e.2.payload), snapshotEntry_append]

theorem Cut.record_eq (c : Cut) : record c.entry
    = 0xFF :: c.payload.objectType :: 0 ::
        (c.recordKey.serialize ++ (c.payload.serialize ++ [0xFE])) := LiteKV.record_eq c.entry

/-- The four places of a cut, with the bytes of the record that are there. -/
theorem Cut.cases (c : Cut) (hlt : c.taken < (record c.entry).length) :
    (c.place = .head ∧ c.taken < 3) ∨
    (∃ i, c.place = .key (c.recordKey.buf.take (i - lengthSize c.recordKey.length)) ∧
      i < c.recordKey.serialize.length ∧
      (record c.entry).take c.taken
        = 0xFF :: c.payload.objectType :: 0 :: c.recordKey.serialize.take i) ∨
    (∃ q, c.place = .value q ∧ q < c.payload.serialize.length ∧
      (record c.entry).take c.taken
        = 0xFF :: c.payload.objectType :: 0 ::
          (c.recordKey.serialize ++ c.payload.serialize.take q)) ∨
    (c.place = .endFlag ∧
      (record c.entry).take c.taken
        = 0xFF :: c.payload.objectType :: 0 :: (c.recordKey.serialize ++ c.payload.serialize)) := by
  rw [c.record_eq] at hlt ⊢
  unfold Cut.place
  by_cases hhead : c.taken < 3
  · exact .inl ⟨if_pos hhead, hhead⟩
  obtain ⟨i, hi⟩ : ∃ i, c.taken = i + 3 := ⟨c.taken - 3, by omega⟩
  have hi' : c.taken - 3 = i := by omega
  simp only [List.length_cons, List.length_append, List.length_nil] at hlt
  rw [if_neg hhead, hi', hi, List.take_succ_cons, List.take_succ_cons, List.take_succ_cons]
  by_cases hkey : i < c.recordKey.serialize.length
  · refine .inr (.inl ⟨i, if_pos hkey, hkey, ?_⟩)
    rw [List.take_append_of_le_length (Nat.le_of_lt hkey)]
  obtain ⟨q, hq⟩ : ∃ q, i = c.recordKey.serialize.length + q :=
    ⟨i - c.recordKey.serialize.length, by omega⟩
  have hq' : i - c.recordKey.serialize.length = q := by omega
  rw [if_neg hkey, hq', hq, List.take_length_add_append]
  by_cases hval : q < c.payload.serialize.length
  · refine .inr (.inr (.inl ⟨q, if_pos hval, hval, ?_⟩))
    rw [List.take_append_of_le_length (Nat.le_of_lt hval)]
  · -- all of the value, and nothing of the end flag
    have hall : q = c.payload.serialize.length := by omega
    refine .inr (.inr (.inr ⟨if_neg hval, ?_⟩))
    rw [hall, List.take_append_of_le_length (Nat.le_refl _), List.take_length]

theorem clean_nil : (⟨[]⟩ : Key).Clean := List.not_mem_nil

/-- A record of which less than three bytes are there is not read. -/
theorem loadRecord_head (e : Key × ValueObject) {j : Nat} (hj : j < 3) (s : LoadState)
    (now len idx : Nat) : loadRecord now len idx s ((record e).take j) = (s, none) := by
  have htype := objectType_range e.2.payload
  rw [record_eq]
  obtain rfl | rfl | rfl : j = 0 ∨ j = 1 ∨ j = 2 := by omega
  · rfl
  · rfl
  · rw [List.take_succ_cons, List.take_succ_cons, List.take_zero, loadRecord,
      if_neg (by decide), if_neg htype]
    rfl

/-- A record that is cut is applied, and the loading ends. -/
theorem loadRecord_cut {s : LoadState} (hok : s.holder.Ok) {c : Cut} (hclean : c.recordKey.Clean)
    (hlen : c.recordKey.length < 2 ^ 64) (hfits : c.payload.Fits)
    (hfresh : s.holder.view c.recordKey = none) (hlt : c.taken < (record c.entry).length)
    (hstep : c.InStep) (now len idx : Nat) :
    ∃ h', loadRecord now len idx s ((record c.entry).take c.taken)
      = ({ s with holder := h' }, none) ∧
      h'.view = c.applied s.holder.view := by
  have hplace := hstep.2
  unfold Cut.applied
  rcases c.cases hlt with ⟨hp, h3⟩ | ⟨i, hp, hi, heq⟩ | ⟨q, hp, hq, heq⟩ | ⟨hp, heq⟩
  · exact ⟨s.holder, loadRecord_head c.entry h3 s now len idx, by rw [hp]⟩
  · rw [hp] at hplace ⊢
    have hdec : decodeStdString (c.recordKey.serialize.take i)
        = ((⟨[]⟩ : Key).buf, c.recordKey.buf.take (i - lengthSize c.recordKey.length)) :=
      decodeStdString_take hlen hi
    obtain ⟨h', hacts, -, hends⟩ := loadRecord_acts hok clean_nil hdec c.payload now len idx
    exact ⟨h', heq ▸ hends hplace, hacts.2⟩
  · rw [hp] at hplace ⊢
    have hdec : decodeStdString (c.recordKey.serialize ++ c.payload.serialize.take q)
        = (c.recordKey.buf, c.payload.serialize.take q) := decodeStdString_serialize hlen _
    obtain ⟨h', hacts, -, hends⟩ := loadRecord_acts hok hclean hdec c.payload now len idx
    rw [(loaded_cut hplace.1 hfits hq).2] at hends
    exact ⟨h', heq ▸ hends hplace.2, hacts.2⟩
  · rw [hp] at hplace ⊢
    have hdec : decodeStdString (c.recordKey.serialize ++ c.payload.serialize)
        = (c.recordKey.buf, c.payload.serialize) := decodeStdString_serialize hlen _
    obtain ⟨hval, hrest⟩ := loaded_serialize hplace hfits []
    rw [List.append_nil] at hval hrest
    obtain ⟨h', hacts, -, hends⟩ := loadRecord_acts hok hclean hdec c.payload now len idx
    refine ⟨h', heq ▸ hends (by rw [hrest]; decide), ?_⟩
    rw [hacts.2, hfresh, hval]

/-! ## A cut dump -/

/-- A cut falls into one record, and those in front of it are whole. -/
theorem cutRecords_spec (es : List (Key × ValueObject)) : ∀ {n : Nat},
    n < (es.flatMap record).length →
    ∃ c after, cutRecords es n = some c ∧ es = c.done ++ c.entry :: after ∧
      n = (c.done.flatMap record).length + c.taken ∧ c.taken < (record c.entry).length := by
  induction es with
  | nil => intro n hn; exact absurd hn (Nat.not_lt_zero n)
  | cons e es ih =>
    intro n hn
    rw [List.flatMap_cons, List.length_append] at hn
    rw [cutRecords]
    by_cases hcut : n < (record e).length
    · exact ⟨⟨[], e, n⟩, es, if_pos hcut, rfl, (Nat.zero_add n).symm, hcut⟩
    · obtain ⟨c, after, hc, hes, hn', hlt⟩ := ih (n := n - (record e).length) (by omega)
      refine ⟨{ c with done := e :: c.done }, after, ?_, ?_, ?_, hlt⟩
      · rw [if_neg hcut, hc]
        rfl
      · rw [hes]
        rfl
      · rw [List.flatMap_cons, List.length_append]
        simp only
        omega

/-- The whole records are read, then the one that is cut. -/
theorem loadRecords_cut {c : Cut} {after : List (Key × ValueObject)}
    (hnodup : (keys (c.done ++ c.entry :: after)).Nodup) (hdone : ∀ e ∈ c.done, Entry e)
    (hclean : c.recordKey.Clean) (hlen : c.recordKey.length < 2 ^ 64) (hfits : c.payload.Fits)
    (hlt : c.taken < (record c.entry).length) (hstep : c.InStep) (now len idx : Nat) :
    (loadRecords now len (c.done.length + (after.length + 1)) idx .new
        (c.done.flatMap record ++ (record c.entry).take c.taken)).1.holder.view
      = c.applied (storeOf c.done) := by
  rw [keys_append, List.nodup_append] at hnodup
  obtain ⟨h₁, hrun, hok₁, hview₁⟩ := loadRecords_entries .new now len (after.length + 1)
    ((record c.entry).take c.taken) c.done idx .new KVContainer.ok_new hnodup.1 hdone (by
      intro e _
      simp [LoadState.new])
  have hview₁' : h₁.view = storeOf c.done := by
    rw [hview₁]
    funext k
    simp [LoadState.new]
  have hfresh : h₁.view c.recordKey = none := by
    rw [hview₁', storeOf, Option.map_eq_none_iff, find?_eq_none]
    exact fun hk => hnodup.2.2 _ hk _ (by simp [Cut.recordKey]) rfl
  have hrun' := congrArg (fun r => r.1.holder.view) hrun
  refine Eq.trans hrun' ?_
  obtain ⟨h', hrec, hview'⟩ := loadRecord_cut
    (s := { LoadState.new with
      holder := h₁
      calls := LoadState.new.calls ++ (List.range' idx c.done.length).map fun i => (len, i) })
    hok₁ hclean hlen hfits hfresh hlt hstep now len (idx + c.done.length)
  rw [loadRecords, hrec]
  rw [← hview₁']
  exact hview'

section

variable {h : KVContainer} (order : IterationOrder h) (now : Nat)

/-- The cut of a dump behind `n` bytes. The header takes 10 bytes and the number
of the records 8; a cut in them is in no record. -/
def IterationOrder.cut (n : Nat) : Option Cut :=
  if n < 18 then none else cutRecords order.buckets.flatten (n - 18)

/-- Every key of the store that is loaded from the first `n` bytes of the dump
has the value it had. -/
def NeverInvents (n : Nat) : Prop :=
  ∀ k v, (liteKVLoad ((liteKVSave (h.snapshot order [] .new)).take n) now .new).1.holder.view k
      = some v → h.view k = some v

/-- A file without a whole header is not loaded. -/
theorem liteKVLoad_short {file : Bytes} (hshort : file.length < 18) (s : LoadState) :
    (liteKVLoad file now s).1 = s := by
  unfold liteKVLoad
  split
  · rfl
  split
  · rfl
  have hlt : (file.drop 10).length < 8 := by
    rw [List.length_drop]
    omega
  simp only [if_pos hlt]

theorem liteKVSave_eq : liteKVSave (h.snapshot order [] .new)
    = (magicHeader ++ encodeFixed64BitInteger (.ofNat h.numItems)) ++
        order.buckets.flatten.flatMap record := by
  rw [List.append_assoc]
  rfl

theorem length_header (n : Nat) :
    (magicHeader ++ encodeFixed64BitInteger (UInt64.ofNat n)).length = 18 := by
  have hhead : magicHeader.length = 10 := by decide
  have h8 : (encodeFixed64BitInteger (UInt64.ofNat n)).length = 8 := length_littleEndian 8 _
  rw [List.length_append, hhead, h8]

/-- What a dump with a cut gives: its whole records, with what the cut one makes
of them. -/
theorem load_cut (hok : h.Ok) (hfits : h.FitsSize) {n : Nat}
    (hn : n < (liteKVSave (h.snapshot order [] .new)).length)
    (hstep : ∀ c, order.cut n = some c → c.InStep) :
    (liteKVLoad ((liteKVSave (h.snapshot order [] .new)).take n) now .new).1.holder.view
      = (order.cut n).elim (fun _ => none) fun c => c.applied (storeOf c.done) := by
  unfold IterationOrder.cut at hstep ⊢
  rw [liteKVSave_eq] at hn ⊢
  have h18 := length_header h.numItems
  by_cases hhead : n < 18
  · rw [if_pos hhead, liteKVLoad_short now (by rw [List.length_take]; omega)]
    exact KVContainer.view_new
  · rw [if_neg hhead] at hstep ⊢
    obtain ⟨m, rfl⟩ : ∃ m, n = 18 + m := ⟨n - 18, by omega⟩
    rw [List.length_append, h18, Nat.add_lt_add_iff_left] at hn
    rw [Nat.add_sub_cancel_left] at hstep ⊢
    obtain ⟨c, after, hc, hes, hm, hlt⟩ := cutRecords_spec _ hn
    obtain ⟨hnodup, hmem, -⟩ := order.entries hok
    rw [hc, Option.elim_some]
    have hin := hstep c hc
    have hall : ∀ e ∈ c.done ++ c.entry :: after, e ∈ h.bucket.flatten := hes ▸ hmem
    have hentry := hall c.entry (by simp)
    rw [hes] at hnodup
    have hdone : ∀ e ∈ c.done, Entry e := by
      intro e he
      have he' := hall e (List.mem_append_left _ he)
      exact ⟨hok.clean e he', (hfits.2 e he').1, (hfits.2 e he').2, hin.1 e he⟩
    have htake : (order.buckets.flatten.flatMap record).take m
        = c.done.flatMap record ++ (record c.entry).take c.taken := by
      rw [hes, hm, List.flatMap_append, List.take_length_add_append, List.flatMap_cons,
        List.take_append_of_le_length (Nat.le_of_lt hlt)]
    have hnum : h.numItems = c.done.length + (after.length + 1) := by
      rw [numItems_eq order, hes, List.length_append, List.length_cons]
    rw [← h18, List.take_length_add_append, List.append_assoc, liteKVLoad_header hfits.1, htake,
      hnum, loadRecords_cut hnodup hdone (hok.clean c.entry hentry) (hfits.2 c.entry hentry).1
        (hfits.2 c.entry hentry).2 hlt hin]

/-- The cut of a dump is in its records. -/
theorem IterationOrder.cut_spec {n : Nat}
    (hn : n < (liteKVSave (h.snapshot order [] .new)).length) {c : Cut}
    (hc : order.cut n = some c) :
    ∃ after, order.buckets.flatten = c.done ++ c.entry :: after ∧
      c.taken < (record c.entry).length := by
  rw [liteKVSave_eq, List.length_append, length_header] at hn
  unfold IterationOrder.cut at hc
  by_cases hhead : n < 18
  · rw [if_pos hhead] at hc
    cases hc
  · rw [if_neg hhead] at hc
    obtain ⟨c', after, hc', hes, -, hlt⟩ :=
      cutRecords_spec order.buckets.flatten (n := n - 18) (by omega)
    rw [hc', Option.some.injEq] at hc
    subst hc
    exact ⟨after, hes, hlt⟩

end

/-- One key decides when the others are below already. -/
theorem update_below {s store : Store} (hs : ∀ k v, s k = some v → store k = some v) (k₀ : Key)
    (x : Cell) : (∀ k v, Function.update s k₀ x k = some v → store k = some v) ↔
      ∀ v, x = some v → store k₀ = some v := by
  constructor
  · intro h v hx
    exact h k₀ v (by rw [Function.update_self, hx])
  · intro h k v hk
    rw [Function.update_apply] at hk
    split at hk
    · rename_i heq
      rw [heq]
      exact h v hk
    · exact hs k v hk

/-- What a cut record makes of the records before it is in the store exactly
when the cut does no harm. -/
theorem Cut.applied_below {c : Cut} {after : List (Key × ValueObject)}
    (hnodup : (keys (c.done ++ c.entry :: after)).Nodup) (hfits : c.payload.Fits)
    (hlt : c.taken < (record c.entry).length) (hstep : c.InStep) :
    (∀ k v, c.applied (storeOf c.done) k = some v →
        storeOf (c.done ++ c.entry :: after) k = some v) ↔
      c.Harmless (storeOf (c.done ++ c.entry :: after)) := by
  have hdone : ∀ k v, storeOf c.done k = some v →
      storeOf (c.done ++ c.entry :: after) k = some v := by
    intro k v hv
    rw [storeOf, Option.map_eq_some_iff] at hv
    obtain ⟨obj, hobj, rfl⟩ := hv
    rw [storeOf, find?_append, hobj]
    rfl
  have hentry : storeOf (c.done ++ c.entry :: after) c.recordKey = some c.payload.toValue :=
    storeOf_mem hnodup (by simp)
  have hfresh : storeOf c.done c.recordKey = none := by
    rw [keys_append, List.nodup_append] at hnodup
    rw [storeOf, Option.map_eq_none_iff, find?_eq_none]
    exact fun hk => hnodup.2.2 _ hk _ (by simp [Cut.recordKey]) rfl
  have hplace := hstep.2
  unfold Cut.applied Cut.Harmless
  rcases c.cases hlt with ⟨hp, -⟩ | ⟨i, hp, -, -⟩ | ⟨q, hp, hq, -⟩ | ⟨hp, -⟩
  · rw [hp]
    exact ⟨fun _ => trivial, fun _ => hdone⟩
  · rw [hp]
    exact update_below hdone ⟨[]⟩ _
  · rw [hp] at hplace ⊢
    refine (update_below hdone c.recordKey _).trans ?_
    rw [hfresh, hentry]
    refine Iff.trans ?_ (loaded_cut hplace.1 hfits hq).1
    cases Cell.loaded c.payload.objectType (c.payload.serialize.take q) none with
    | none => simp
    | some w => simp [eq_comm]
  · rw [hp]
    exact ⟨fun _ => trivial, fun _ => (update_below hdone c.recordKey _).mpr fun v hv =>
      hentry.trans hv⟩

/-- A dump that is cut where the loader stays in step gives back nothing that
was not in the store exactly when the cut does no harm. -/
theorem truncated_load_iff {h : KVContainer} (hr : h.Reachable) (hfits : h.FitsSize)
    (order : IterationOrder h) (now : Nat) {n : Nat}
    (hn : n < (liteKVSave (h.snapshot order [] .new)).length)
    (hstep : ∀ c, order.cut n = some c → c.InStep) :
    NeverInvents order now n ↔ ∀ c, order.cut n = some c → c.Harmless h.view := by
  obtain ⟨hnodup, hmem, hstore⟩ := order.entries hr.ok
  unfold NeverInvents
  rw [load_cut order now hr.ok hfits hn hstep]
  cases hc : order.cut n with
  | none => simp
  | some c =>
      obtain ⟨after, hes, hlt⟩ := order.cut_spec hn hc
      have hfits' := (hfits.2 c.entry (hmem c.entry (by rw [hes]; simp))).2
      rw [hes] at hnodup hstore
      have hbelow := Cut.applied_below hnodup hfits' hlt (hstep c hc)
      rw [hstore] at hbelow
      rw [Option.elim_some, hbelow]
      exact ⟨fun hh c' hc' => Option.some.inj hc' ▸ hh, fun hh => hh c rfl⟩

/-- An integer that takes two bytes. -/
def numberStore : KVContainer :=
  [(KVContainer.Op.setInt [97] 300, 0)].foldl KVContainer.apply .new

theorem listStore_cut : ∃ c o, (IterationOrder.ofBuckets listStore).cut 25 = some c ∧
    c.done = [] ∧ c.place = .value 2 ∧ c.payload = .list o ∧ o.toList = [[120]] :=
  ⟨_, _, rfl, rfl, rfl, rfl, rfl⟩

theorem listStore_never_invents : NeverInvents (.ofBuckets listStore) 7 25 := by
  have hr : listStore.Reachable := ⟨_, rfl⟩
  have hfits : listStore.FitsSize := by decide +kernel
  have hn : 25 < (liteKVSave (listStore.snapshot (.ofBuckets listStore) [] .new)).length := by
    decide +kernel
  obtain ⟨c, o, hc, hdone, hplace, hpayload, ho⟩ := listStore_cut
  refine (truncated_load_iff hr hfits (.ofBuckets listStore) 7 hn ?_).mpr ?_
  · intro c' hc'
    obtain rfl : c = c' := Option.some.inj (hc.symm.trans hc')
    unfold Cut.InStep
    rw [hdone, hplace, hpayload]
    refine ⟨by simp, ?_, ?_⟩
    · exact ⟨by rw [ho]; simp, by rw [ho]; simp⟩
    · rw [Payload.cutRest, ho]
      decide
  · intro c' hc'
    obtain rfl : c = c' := Option.some.inj (hc.symm.trans hc')
    unfold Cut.Harmless
    rw [hplace, hpayload]
    show (cutTexts o.toList (2 - lengthSize o.toList.length)).1 = 0
    rw [ho]
    decide

/-- The first of its two bytes is another integer. -/
theorem truncated_load_invents : numberStore.Reachable ∧ numberStore.FitsSize ∧
    24 < (liteKVSave (numberStore.snapshot (.ofBuckets numberStore) [] .new)).length ∧
    ¬ NeverInvents (.ofBuckets numberStore) 7 24 := by
  refine ⟨⟨_, rfl⟩, by decide +kernel, by decide +kernel, fun hnever => ?_⟩
  have h300 : numberStore.view ⟨[97]⟩ = some (.int 300) := rfl
  have h44 : ((liteKVLoad ((liteKVSave (numberStore.snapshot (.ofBuckets numberStore) [] .new)).take
      24) 7 .new).1.holder.view ⟨[97]⟩).bind Value.asInt = some 44 := by decide +kernel
  obtain ⟨v, hv, hint⟩ := Option.bind_eq_some_iff.mp h44
  have hsame := hnever ⟨[97]⟩ v hv
  rw [h300, Option.some.injEq] at hsame
  rw [← hsame] at hint
  exact absurd hint (by decide)

end LiteKV
