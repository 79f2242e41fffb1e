/-
LiteKV.LkvdbTheorems — what a dump gives back.

The proof goes up the format. `decodeLoop_encodeVarLoop` reads a
variable-length integer back with anything behind it, and every decoder is
then shown to take exactly the bytes its encoder wrote and to leave the
rest: strings, the three collections, one record, all records. Two things
are needed on the way: a collection must not be empty, and none of its
strings may be empty, for the loader takes both as the end.

The converse needs no alignment at all. Whatever bytes `LiteKVLoad` reads,
it never stores an empty collection nor one with an empty string in it, so a
store that holds one cannot come back.
-/
import LiteKV.Lkvdb

namespace LiteKV

open Lib Lib.AssocList Lib.Buckets

/-! ## Integers -/

/-- Adding seven bits above the ones read so far. -/
theorem or_shiftLeft {valen shift x : Nat} (hv : valen < 2 ^ shift)
    (hx : valen + x * 2 ^ shift < 2 ^ 64) :
    valen ||| ((x <<< shift) % 2 ^ 64) = valen + x * 2 ^ shift := by
  have hlt : x <<< shift < 2 ^ 64 := by
    rw [Nat.shiftLeft_eq]
    omega
  rw [Nat.mod_eq_of_lt hlt, Nat.or_comm, ← Nat.shiftLeft_add_eq_or_of_lt hv, Nat.shiftLeft_eq,
    Nat.add_comm]

/-- A group that others follow. -/
theorem decodeLoop_group (n : Nat) {shift valen value : Nat} (hvalen : valen < 2 ^ shift)
    (hfit : valen + value * 2 ^ shift < 2 ^ 64) (rest : Bytes) :
    decodeLoop (n + 1) shift valen (UInt8.ofNat (value % 128 + 128) :: rest)
      = decodeLoop n (shift + 7) (valen + value % 128 * 2 ^ shift) rest ∧
    valen + value % 128 * 2 ^ shift < 2 ^ (shift + 7) ∧
    valen + value % 128 * 2 ^ shift + value / 128 * 2 ^ (shift + 7)
      = valen + value * 2 ^ shift := by
  have hb : (UInt8.ofNat (value % 128 + 128)).toNat = value % 128 + 128 := by
    rw [UInt8.toNat_ofNat']
    omega
  have hmod : (value % 128 + 128) % 128 = value % 128 := by omega
  have hpow : 2 ^ (shift + 7) = 128 * 2 ^ shift := by
    rw [Nat.pow_add]
    omega
  have hsplit : value * 2 ^ shift
      = (value % 128) * 2 ^ shift + (value / 128) * (128 * 2 ^ shift) := by
    rw [← Nat.mul_assoc, ← Nat.add_mul]
    congr 1
    omega
  have hgroup : (value % 128) * 2 ^ shift ≤ 127 * 2 ^ shift :=
    Nat.mul_le_mul_right _ (by omega)
  refine ⟨?_, by rw [hpow]; omega, by rw [hpow, hsplit, Nat.add_assoc]⟩
  rw [decodeLoop, hb, if_pos (by omega), hmod, or_shiftLeft hvalen (by omega)]

/-- What is left of a number behind its first group. -/
theorem div_lt_of_groups {n value : Nat} (h : value < 2 ^ (7 * (n + 1 + 1))) :
    value / 128 < 2 ^ (7 * (n + 1)) := by
  rw [Nat.div_lt_iff_lt_mul (by decide)]
  calc value < 2 ^ (7 * (n + 1 + 1)) := h
    _ = 2 ^ (7 * (n + 1)) * 128 := by
      rw [show 7 * (n + 1 + 1) = 7 * (n + 1) + 7 by omega, Nat.pow_add]

/-- The decoder reads back what the encoder wrote, and nothing behind it. -/
theorem decodeLoop_encodeVarLoop (n : Nat) : ∀ (shift valen value : Nat) (rest : Bytes),
    value < 2 ^ (7 * (n + 1)) → valen < 2 ^ shift → valen + value * 2 ^ shift < 2 ^ 64 →
    decodeLoop (n + 1) shift valen (encodeVarLoop n value ++ rest)
      = (valen + value * 2 ^ shift, rest) := by
  have hone : ∀ (n shift valen value : Nat) (rest : Bytes), value < 128 → valen < 2 ^ shift →
      valen + value * 2 ^ shift < 2 ^ 64 →
      decodeLoop (n + 1) shift valen (UInt8.ofNat value :: rest)
        = (valen + value * 2 ^ shift, rest) := by
    intro n shift valen value rest hv hvalen hfit
    have hb : (UInt8.ofNat value).toNat = value := by
      rw [UInt8.toNat_ofNat']
      omega
    rw [decodeLoop, hb, if_neg (by omega), or_shiftLeft hvalen hfit]
  induction n with
  | zero =>
    intro shift valen value rest hv hvalen hfit
    exact hone 0 shift valen value rest (by simpa using hv) hvalen hfit
  | succ n ih =>
    intro shift valen value rest hv hvalen hfit
    rw [encodeVarLoop_succ]
    split
    · rename_i hlt
      exact hone (n + 1) shift valen value rest hlt hvalen hfit
    · obtain ⟨hstep, hvalen', hsum⟩ :=
        decodeLoop_group (n + 1) hvalen hfit (encodeVarLoop n (value / 128) ++ rest)
      rw [List.cons_append, hstep,
        ih (shift + 7) _ (value / 128) rest (div_lt_of_groups hv) hvalen'
          (by rw [hsum]; exact hfit),
        hsum]

theorem decodeInteger_encode (value : UInt64) (rest : Bytes) :
    decodeInteger (encodeVarUnsignedInt64 value ++ rest) = (value.toNat, rest) := by
  have hlt := value.toNat_lt
  rw [decodeInteger, encodeVarUnsignedInt64,
    decodeLoop_encodeVarLoop 9 0 0 value.toNat rest (by omega) (by omega) (by omega)]
  simp

theorem decodeInteger_encodeSize {n : Nat} (hn : n < 2 ^ 64) (rest : Bytes) :
    decodeInteger (encodeSize n ++ rest) = (n, rest) := by
  rw [encodeSize, decodeInteger_encode, UInt64.toNat_ofNat', Nat.mod_eq_of_lt hn]

/-- A signed value comes back through the unsigned encoding. -/
theorem decodeInteger_encodeSigned (v : Int64) (rest : Bytes) :
    ∃ n, decodeInteger (encodeVarSignedInt64 v ++ rest) = (n, rest) ∧ Int64.ofNat n = v := by
  refine ⟨v.toUInt64.toNat, decodeInteger_encode v.toUInt64 rest, ?_⟩
  rw [← UInt64.toInt64_ofNat', UInt64.ofNat_toNat]
  rfl

/-! ## Strings and collections -/

theorem decodeStdString_serialize {data : Bytes} (hd : data.length < 2 ^ 64) (rest : Bytes) :
    decodeStdString (serializeCharBuf data ++ rest) = (data, rest) := by
  rw [serializeCharBuf]
  split
  · rename_i h0
    have hnil : data = [] := List.eq_nil_of_length_eq_zero h0
    have hz : decodeInteger (0 :: rest) = (0, rest) := rfl
    simp [decodeStdString, hz, hnil]
  · rename_i h0
    rw [decodeStdString, List.append_assoc, decodeInteger_encodeSize hd]
    have hlen : ¬ (data.length = 0 ∨ (data ++ rest).length < data.length) := by
      rw [List.length_append]
      omega
    simp only [if_neg hlen, List.take_left, List.drop_left]

/-- A string the loader takes for an element: not empty, and of a length that a
`size_t` holds. -/
def Element (s : Bytes) : Prop := s ≠ [] ∧ s.length < 2 ^ 64

theorem Element.decode {s : Bytes} (h : Element s) (rest : Bytes) :
    decodeStdString (serializeCharBuf s ++ rest) = (s, rest) ∧ s.isEmpty = false := by
  refine ⟨decodeStdString_serialize h.2 rest, ?_⟩
  rw [List.isEmpty_eq_false_iff]
  exact h.1

/-- A loop that takes a text in each turn and adds it, and breaks off at an empty
one: those of `DecodeDList` and `DecodeHashSet`. -/
structure TextLoop {α : Type} (loop : Nat → α → Bytes → α × Bytes) (add : α → Bytes → α) :
    Prop where
  done : ∀ ans bs, loop 0 ans bs = (ans, bs)
  turn : ∀ n ans bs, loop (n + 1) ans bs = if (decodeStdString bs).1.isEmpty
    then (ans, (decodeStdString bs).2)
    else loop n (add ans (decodeStdString bs).1) (decodeStdString bs).2

theorem decodeElems_loop : TextLoop decodeElems fun o s => o.push false s :=
  ⟨fun _ _ => rfl, fun _ _ _ => rfl⟩

theorem decodeMembers_loop : TextLoop decodeMembers fun o s => (o.insert s).1 :=
  ⟨fun _ _ => rfl, fun _ _ _ => rfl⟩

theorem KVContainer.insertAll_fst (l : List Bytes) (o : SetObject) :
    (KVContainer.insertAll o l).1 = l.foldl (fun o s => (o.insert s).1) o := by
  induction l generalizing o with
  | nil => rfl
  | cons s l ih => exact ih _

section

variable {α : Type} {loop : Nat → α → Bytes → α × Bytes} {add : α → Bytes → α}

theorem TextLoop.serialize (h : TextLoop loop add) (l : List Bytes) : ∀ (ans : α) (rest : Bytes),
    (∀ s ∈ l, Element s) →
    loop l.length ans (l.flatMap serializeCharBuf ++ rest) = (l.foldl add ans, rest) := by
  induction l with
  | nil => intro ans rest _; exact h.done ans rest
  | cons s l ih =>
    intro ans rest hl
    obtain ⟨hdec, hne⟩ := (hl s List.mem_cons_self).decode (l.flatMap serializeCharBuf ++ rest)
    rw [List.length_cons, h.turn, List.flatMap_cons, List.append_assoc]
    simp only [hdec, hne]
    exact ih _ rest fun s' hs' => hl s' (List.mem_cons_of_mem s hs')

/-- What adding a text that is not empty keeps, the loop keeps. -/
theorem TextLoop.keeps (h : TextLoop loop add) {P : α → Prop}
    (hadd : ∀ ans s, P ans → s ≠ [] → P (add ans s)) (count : Nat) :
    ∀ (ans : α) (bs : Bytes), P ans → P (loop count ans bs).1 := by
  induction count with
  | zero =>
      intro ans bs hans
      rw [h.done]
      exact hans
  | succ count ih =>
      intro ans bs hans
      rw [h.turn]
      split
      · exact hans
      · rename_i hne
        exact ih _ _ (hadd ans _ hans (by simpa using hne))

end

theorem decodeFields_serialize (l : List (Bytes × Bytes)) : ∀ (ans : DictObject) (rest : Bytes),
    (∀ e ∈ l, Element e.1 ∧ Element e.2) →
    decodeFields l.length ans
        ((l.flatMap fun e => serializeCharBuf e.1 ++ serializeCharBuf e.2) ++ rest)
      = (KVContainer.updateAll ans l, rest) := by
  induction l with
  | nil => intro ans rest _; rfl
  | cons e l ih =>
    intro ans rest hl
    obtain ⟨hk, hv⟩ := hl e List.mem_cons_self
    rw [List.length_cons, decodeFields, List.flatMap_cons, List.append_assoc, List.append_assoc]
    obtain ⟨hdec, hne⟩ := hk.decode (serializeCharBuf e.2 ++
      ((l.flatMap fun e => serializeCharBuf e.1 ++ serializeCharBuf e.2) ++ rest))
    obtain ⟨hdec', hne'⟩ := hv.decode
      ((l.flatMap fun e => serializeCharBuf e.1 ++ serializeCharBuf e.2) ++ rest)
    simp only [hdec, hne, hdec', hne']
    exact ih _ rest fun e' he' => hl e' (List.mem_cons_of_mem e he')

/-! ## Values -/

/-- A value the loader can store. -/
def Value.Loadable : Value → Prop
  | .int _ => True
  | .string _ => True
  | .list l => l ≠ [] ∧ ∀ s ∈ l, s ≠ []
  | .hash m => (∃ k, (m k).isSome) ∧ ∀ k v, m k = some v → k ≠ [] ∧ v ≠ []
  | .set m => (∃ k, m k = true) ∧ ∀ k, m k = true → k ≠ []

/-- The texts of a payload, in the order they are written. -/
def Payload.texts : Payload → List Bytes
  | .int _ => []
  | .string s => [s]
  | .list o => o.toList
  | .hash o => o.allEntries.flatMap fun e => [e.1, e.2]
  | .set o => o.allKeys

/-- The texts and their number are within a `size_t`. -/
def Payload.Fits (p : Payload) : Prop :=
  p.texts.length < 2 ^ 64 ∧ ∀ s ∈ p.texts, s.length < 2 ^ 64

theorem ListObject.serialize_eq {o : ListObject} (hne : o.toList ≠ []) :
    o.serialize = encodeSize o.toList.length ++ o.toList.flatMap serializeCharBuf := by
  have hlen : ¬ o.length = 0 := by
    rw [length_eq]
    exact fun h => hne (List.eq_nil_of_length_eq_zero h)
  rw [serialize, if_neg hlen, DList.elements_repr o.repr_toList, length_eq]
  simp only [List.flatMap_map]
  rfl

section

variable (items : List Bytes) (entries : List (Bytes × Bytes))

/-- Pushing elements one by one onto a key. -/
theorem foldl_push_cell (l : List Bytes) :
    items.foldl (fun c item => (Cell.push false [item] c).1) (some (.list l))
      = some (.list (l ++ items)) := by
  induction items generalizing l with
  | nil => simp
  | cons item items ih =>
    rw [List.foldl_cons]
    have hstep : (Cell.push false [item] (some (.list l))).1 = some (.list (l ++ [item])) := rfl
    rw [hstep, ih]
    simp

theorem foldl_push_fresh (hne : items ≠ []) :
    items.foldl (fun c item => (Cell.push false [item] c).1) none = some (.list items) := by
  obtain ⟨item, items, rfl⟩ := List.exists_cons_of_ne_nil hne
  rw [List.foldl_cons]
  have hstep : (Cell.push false [item] none).1 = some (.list [item]) := rfl
  rw [hstep, foldl_push_cell]
  rfl

/-- Updating fields one by one. -/
theorem foldl_update_cell (m : Bytes → Option Bytes) :
    entries.foldl (fun c e => (Cell.updateFields [e] c).1) (some (.hash m))
      = some (.hash (Cell.updated entries m)) := by
  induction entries generalizing m with
  | nil => rfl
  | cons e entries ih =>
    rw [List.foldl_cons]
    have hstep : (Cell.updateFields [e] (some (.hash m))).1
        = some (.hash (Function.update m e.1 (some e.2))) := rfl
    rw [hstep, ih]
    rfl

theorem foldl_update_fresh (hne : entries ≠ []) :
    entries.foldl (fun c e => (Cell.updateFields [e] c).1) none
      = some (.hash (Cell.updated entries fun _ => none)) := by
  obtain ⟨e, entries, rfl⟩ := List.exists_cons_of_ne_nil hne
  rw [List.foldl_cons]
  have hstep : (Cell.updateFields [e] none).1
      = some (.hash (Function.update (fun _ => none) e.1 (some e.2))) := rfl
  rw [hstep, foldl_update_cell]
  rfl

/-- Adding members one by one. -/
theorem foldl_add_cell (m : Bytes → Bool) :
    items.foldl (fun c item => (Cell.addMembers [item] c).1) (some (.set m))
      = some (.set fun k => decide (k ∈ items) || m k) := by
  induction items generalizing m with
  | nil => simp
  | cons item items ih =>
    rw [List.foldl_cons]
    have hstep : (Cell.addMembers [item] (some (.set m))).1
        = some (.set fun k => decide (k ∈ [item]) || m k) := rfl
    rw [hstep, ih]
    congr 2
    funext k
    by_cases hk : k = item
    · simp [hk]
    · simp [hk]

theorem foldl_add_fresh (hne : items ≠ []) :
    items.foldl (fun c item => (Cell.addMembers [item] c).1) none
      = some (.set fun k => decide (k ∈ items)) := by
  obtain ⟨item, items, rfl⟩ := List.exists_cons_of_ne_nil hne
  rw [List.foldl_cons]
  have hstep : (Cell.addMembers [item] none).1
      = some (.set fun k => decide (k ∈ [item]) || false) := rfl
  rw [hstep, foldl_add_cell]
  congr 2
  funext k
  by_cases hk : k = item
  · simp [hk]
  · simp [hk]

end

/-! ## What the decoders make of a value -/

/-- What the value of a record, read from these bytes, does to its key. -/
def Cell.loaded (type : UInt8) (bs : Bytes) (c : Cell) : Cell :=
  if type = 1 then some (.int (Int64.ofNat (decodeInteger bs).1))
  else if type = 2 then some (.string (decodeStdString bs).1)
  else if type = 3 then
    (decodeDList bs).1.toList.foldl (fun c item => (Cell.push false [item] c).1) c
  else if type = 4 then
    (decodeHashDict bs).1.allEntries.foldl (fun c e => (Cell.updateFields [e] c).1) c
  else (decodeHashSet bs).1.allKeys.foldl (fun c item => (Cell.addMembers [item] c).1) c

/-- The bytes the decoder of a value leaves behind. -/
def valueRest (type : UInt8) (bs : Bytes) : Bytes :=
  if type = 1 then (decodeInteger bs).2
  else if type = 2 then (decodeStdString bs).2
  else if type = 3 then (decodeDList bs).2
  else if type = 4 then (decodeHashDict bs).2
  else (decodeHashSet bs).2

theorem loadValue_rest (type : UInt8) (live : Bool) (now : Nat) (key : Key) (h : KVContainer)
    (bs : Bytes) : (loadValue type live now key h bs).2 = valueRest type bs := by
  unfold loadValue valueRest
  split
  · rfl
  split
  · rfl
  split
  · rfl
  split
  · rfl
  · rfl

theorem loadValue_acts {h : KVContainer} (hok : h.Ok) {key : Key} (hkey : key.Clean)
    (type : UInt8) (now : Nat) (bs : Bytes) :
    h.Acts key (Cell.loaded type bs) (loadValue type true now key h bs).1 := by
  unfold loadValue Cell.loaded
  split
  · exact KVContainer.put_acts hok key hkey ⟨.int _, now⟩
  split
  · exact KVContainer.put_acts hok key hkey ⟨.string _, now⟩
  split
  · exact KVContainer.acts_foldl key (fun h item => (h.listPush now key false [item]).1)
      (fun h item hok => (KVContainer.listPush_acts hok now key hkey false [item]).1) _ hok
  split
  · exact KVContainer.acts_foldl key (fun h item => (h.hashUpdateKV now key [item]).1)
      (fun h item hok => (KVContainer.hashUpdateKV_acts hok now key hkey [item]).1) _ hok
  · exact KVContainer.acts_foldl key (fun h item => (h.setAddItem now key [item]).1)
      (fun h item hok => (KVContainer.setAddItem_acts hok now key hkey [item]).1) _ hok

/-- A key without a value gets the elements that were decoded; none are nothing. -/
theorem loaded_list {bs : Bytes} {items : List Bytes} {rest : Bytes}
    (hdec : decodeDList bs = (items.foldl (fun o s => o.push false s) .new, rest)) :
    Cell.loaded 3 bs none = (if items = [] then none else some (.list items)) ∧
      valueRest 3 bs = rest := by
  have hlist : (items.foldl (fun o s => o.push false s) ListObject.new).toList = items := by
    have := KVContainer.toList_pushAll false items ListObject.new
    simpa [KVContainer.pushAll, Cell.pushed] using this
  refine ⟨?_, ?_⟩
  · rw [Cell.loaded, if_neg (by decide), if_neg (by decide), if_pos rfl, hdec, hlist]
    split
    · rename_i hnil
      rw [hnil]
      rfl
    · rename_i hne
      exact foldl_push_fresh items hne
  · rw [valueRest, if_neg (by decide), if_neg (by decide), if_pos rfl, hdec]

theorem loaded_hash {bs : Bytes} {es : List (Bytes × Bytes)} {rest : Bytes}
    (hdec : decodeHashDict bs = (KVContainer.updateAll .new es, rest)) :
    Cell.loaded 4 bs none
        = (if es = [] then none else some (.hash (Cell.updated es fun _ => none))) ∧
      valueRest 4 bs = rest := by
  have hlook : (KVContainer.updateAll .new es).lookup = Cell.updated es fun _ => none := by
    rw [KVContainer.lookup_updateAll, funext DictObject.lookup_new]
  refine ⟨?_, ?_⟩
  · rw [Cell.loaded, if_neg (by decide), if_neg (by decide), if_neg (by decide), if_pos rfl, hdec]
    split
    · rename_i hnil
      rw [hnil]
      rfl
    · rename_i hne
      have hne' : (KVContainer.updateAll .new es).allEntries ≠ [] := by
        intro hnil
        have hnone := (KVContainer.updateAll .new es).updated_entries
        rw [hnil, hlook] at hnone
        -- the last pair is in the dictionary
        obtain ⟨es', e, rfl⟩ := (List.eq_nil_or_concat' es).resolve_left hne
        have hlast := congrFun hnone e.1
        rw [Cell.updated, Cell.updated, List.foldl_append] at hlast
        simp at hlast
      rw [foldl_update_fresh _ hne', DictObject.updated_entries, hlook]
  · rw [valueRest, if_neg (by decide), if_neg (by decide), if_neg (by decide), if_pos rfl, hdec]

theorem loaded_set {bs : Bytes} {items : List Bytes} {rest : Bytes}
    (hdec : decodeHashSet bs = ((KVContainer.insertAll .new items).1, rest)) :
    Cell.loaded 5 bs none
        = (if items = [] then none else some (.set fun k => decide (k ∈ items))) ∧
      valueRest 5 bs = rest := by
  have hmem : ∀ k, k ∈ (KVContainer.insertAll .new items).1.allKeys ↔ k ∈ items := by
    intro k
    have h1 := (KVContainer.insertAll .new items).1.members_spec.2 k
    rw [KVContainer.contains_insertAll] at h1
    simpa using h1.symm
  refine ⟨?_, ?_⟩
  · rw [Cell.loaded, if_neg (by decide), if_neg (by decide), if_neg (by decide),
      if_neg (by decide), hdec]
    split
    · rename_i hnil
      rw [hnil]
      rfl
    · rename_i hne
      have hne' : (KVContainer.insertAll .new items).1.allKeys ≠ [] := by
        obtain ⟨k, hk⟩ := List.exists_mem_of_ne_nil _ hne
        exact List.ne_nil_of_mem ((hmem k).mpr hk)
      rw [foldl_add_fresh _ hne']
      congr 2
      funext k
      rw [Bool.eq_iff_iff, decide_eq_true_eq, decide_eq_true_eq]
      exact hmem k
  · rw [valueRest, if_neg (by decide), if_neg (by decide), if_neg (by decide),
      if_neg (by decide), hdec]

/-- A collection that was written is not empty, and the loader takes its texts
for elements. -/
theorem Payload.Fits.hash {o : DictObject} (hfits : (Payload.hash o).Fits)
    (hload : (Payload.hash o).toValue.Loadable) :
    o.allEntries ≠ [] ∧ (∀ e ∈ o.allEntries, Element e.1 ∧ Element e.2) ∧
      o.allEntries.length < 2 ^ 64 := by
  obtain ⟨⟨k, hk⟩, hall⟩ := hload
  obtain ⟨v, hv⟩ := Option.isSome_iff_exists.mp hk
  refine ⟨List.ne_nil_of_mem ((o.isMap.mem_entries k v).mpr hv), fun e he => ?_, ?_⟩
  · have h1 := hall e.1 e.2 ((o.isMap.mem_entries e.1 e.2).mp he)
    have ht : ∀ s ∈ [e.1, e.2], s ∈ (Payload.hash o).texts := fun s hs =>
      List.mem_flatMap.mpr ⟨e, he, hs⟩
    exact ⟨⟨h1.1, hfits.2 _ (ht _ (by simp))⟩, ⟨h1.2, hfits.2 _ (ht _ (by simp))⟩⟩
  · have hlen := hfits.1
    simp only [Payload.texts, List.length_flatMap, List.length_cons, List.length_nil,
      List.map_const', List.sum_replicate_nat] at hlen
    omega

theorem Payload.Fits.set {o : SetObject} (hfits : (Payload.set o).Fits)
    (hload : (Payload.set o).toValue.Loadable) :
    o.allKeys ≠ [] ∧ (∀ s ∈ o.allKeys, Element s) ∧ o.allKeys.length < 2 ^ 64 := by
  obtain ⟨⟨k, hk⟩, hall⟩ := hload
  have hmem := o.members_spec.2
  refine ⟨?_, fun s hs => ⟨hall s ?_, hfits.2 s hs⟩, hfits.1⟩
  · rw [hmem, decide_eq_true_eq] at hk
    exact List.ne_nil_of_mem hk
  · rw [hmem, decide_eq_true_eq]
    exact hs

theorem DictObject.serialize_eq {o : DictObject} (hne : o.allEntries ≠ []) :
    o.serialize = encodeSize o.allEntries.length ++
      o.allEntries.flatMap fun e => serializeCharBuf e.1 ++ serializeCharBuf e.2 := by
  have hcount := o.entries_spec.2.1
  have hc : ¬ o.count = 0 := by
    rw [hcount]
    exact fun h => hne (List.eq_nil_of_length_eq_zero h)
  rw [serialize, if_neg hc, hcount]

theorem SetObject.serialize_eq {o : SetObject} (hne : o.allKeys ≠ []) :
    o.serialize = encodeSize o.allKeys.length ++ o.allKeys.flatMap serializeCharBuf := by
  have hcount := o.members_spec.1
  have hc : ¬ o.count = 0 := by
    rw [hcount]
    exact fun h => hne (List.eq_nil_of_length_eq_zero h)
  rw [serialize, if_neg hc, hcount]

/-- A value is read back as what it is, with anything behind it. -/
theorem loaded_serialize {p : Payload} (hload : p.toValue.Loadable) (hfits : p.Fits)
    (rest : Bytes) : Cell.loaded p.objectType (p.serialize ++ rest) none = some p.toValue ∧
      valueRest p.objectType (p.serialize ++ rest) = rest := by
  cases p with
  | int v =>
      obtain ⟨n, hdec, hv⟩ := decodeInteger_encodeSigned v rest
      rw [Payload.objectType, Cell.loaded, if_pos rfl, valueRest, if_pos rfl, Payload.serialize,
        hdec, hv]
      exact ⟨rfl, rfl⟩
  | string s =>
      have hdec := decodeStdString_serialize (hfits.2 s (by simp [Payload.texts])) rest
      rw [Payload.objectType, Cell.loaded, if_neg (by decide), if_pos rfl, valueRest,
        if_neg (by decide), if_pos rfl, Payload.serialize, hdec]
      exact ⟨rfl, rfl⟩
  | list o =>
      have hlen : o.toList.length < 2 ^ 64 := hfits.1
      have hdec : decodeDList (o.serialize ++ rest)
          = (o.toList.foldl (fun o s => o.push false s) .new, rest) := by
        rw [ListObject.serialize_eq hload.1, List.append_assoc, decodeDList,
          decodeInteger_encodeSize hlen]
        exact decodeElems_loop.serialize o.toList .new rest fun s hs => ⟨hload.2 s hs, hfits.2 s hs⟩
      refine ⟨(loaded_list hdec).1.trans ?_, (loaded_list hdec).2⟩
      rw [if_neg hload.1]
      rfl
  | hash o =>
      obtain ⟨hne, hs, hlen⟩ := hfits.hash hload
      have hdec : decodeHashDict (o.serialize ++ rest)
          = (KVContainer.updateAll .new o.allEntries, rest) := by
        rw [DictObject.serialize_eq hne, List.append_assoc, decodeHashDict,
          decodeInteger_encodeSize hlen]
        exact decodeFields_serialize o.allEntries .new rest hs
      refine ⟨(loaded_hash hdec).1.trans ?_, (loaded_hash hdec).2⟩
      rw [if_neg hne, o.updated_entries]
      rfl
  | set o =>
      obtain ⟨hne, hs, hlen⟩ := hfits.set hload
      have hdec : decodeHashSet (o.serialize ++ rest)
          = ((KVContainer.insertAll .new o.allKeys).1, rest) := by
        rw [SetObject.serialize_eq hne, List.append_assoc, decodeHashSet,
          decodeInteger_encodeSize hlen, KVContainer.insertAll_fst]
        exact decodeMembers_loop.serialize o.allKeys .new rest hs
      have hcont : (fun k => decide (k ∈ o.allKeys)) = o.contains := by
        funext k
        rw [o.members_spec.2]
      refine ⟨(loaded_set hdec).1.trans ?_, (loaded_set hdec).2⟩
      rw [if_neg hne, hcont]
      rfl

/-! ## One record -/

theorem objectType_range (p : Payload) : ¬ (p.objectType < 1 ∨ 5 < p.objectType) := by
  cases p <;> simp only [Payload.objectType] <;> decide

theorem snapshotEntry_append (tev : TimeEventHolder) (key : Key) (p : Payload) (rest : Bytes) :
    snapshotEntry [] tev key p ++ rest
      = 0xFF :: p.objectType :: 0 :: (key.serialize ++ (p.serialize ++ (0xFE :: rest))) := by
  simp [snapshotEntry]

/-- The value of a record without expiration is applied to its key, whatever
stands behind it. -/
theorem loadRecord_acts {s : LoadState} (hok : s.holder.Ok) {key : Key} (hkey : key.Clean)
    {bs vbs : Bytes} (hdec : decodeStdString bs = (key.buf, vbs)) (p : Payload)
    (now len idx : Nat) :
    ∃ h', s.holder.Acts key (Cell.loaded p.objectType vbs) h' ∧
      (∀ rest, valueRest p.objectType vbs = 0xFE :: rest →
        loadRecord now len idx s (0xFF :: p.objectType :: 0 :: bs)
          = ({ s with holder := h', calls := s.calls ++ [(len, idx)] }, some rest)) ∧
      ((valueRest p.objectType vbs).head? ≠ some 0xFE →
        loadRecord now len idx s (0xFF :: p.objectType :: 0 :: bs)
          = ({ s with holder := h' }, none)) := by
  have hrest := loadValue_rest p.objectType true now key s.holder vbs
  have hstart : ¬ (0xFF : UInt8) ≠ 0xFF := by decide
  have hexp : loadExpiration (0 :: bs) = some (false, 0, bs) := rfl
  refine ⟨_, loadValue_acts hok hkey p.objectType now vbs, fun rest h => ?_, fun h => ?_⟩
  · rw [← hrest] at h
    rw [loadRecord, if_neg hstart, if_neg (objectType_range p), hexp]
    simp only [hdec, Bool.not_false, Bool.true_or, Bool.and_false, Bool.false_eq_true, if_false, h,
      ne_eq, not_true_eq_false]
  · rw [← hrest] at h
    rw [loadRecord, if_neg hstart, if_neg (objectType_range p), hexp]
    simp only [hdec, Bool.not_false, Bool.true_or, Bool.and_false, Bool.false_eq_true, if_false]
    split
    · rfl
    · rename_i endFlag bs' heq
      rw [heq, List.head?_cons, ne_eq, Option.some.injEq] at h
      rw [if_pos h]

/-- A record without expiration is read back, and the cursor is behind it. -/
theorem loadRecord_entry {s : LoadState} (hok : s.holder.Ok) {key : Key} (hkey : key.Clean)
    (hlen : key.length < 2 ^ 64) (hfresh : s.holder.view key = none) {p : Payload}
    (hload : p.toValue.Loadable) (hfits : p.Fits) (tev : TimeEventHolder) (now len idx : Nat)
    (rest : Bytes) :
    ∃ h', loadRecord now len idx s (snapshotEntry [] tev key p ++ rest)
        = ({ s with holder := h', calls := s.calls ++ [(len, idx)] }, some rest) ∧
      s.holder.Acts key (fun _ => some p.toValue) h' := by
  have hdec : decodeStdString (key.serialize ++ (p.serialize ++ (0xFE :: rest)))
      = (key.buf, p.serialize ++ (0xFE :: rest)) := decodeStdString_serialize hlen _
  obtain ⟨hloaded, hrest⟩ := loaded_serialize hload hfits (0xFE :: rest)
  obtain ⟨h', hacts, hgoes, -⟩ := loadRecord_acts hok hkey hdec p now len idx
  refine ⟨h', ?_, hacts.congr (by rw [hfresh, hloaded])⟩
  rw [snapshotEntry_append]
  exact hgoes rest hrest

/-! ## All records -/

/-- What holds of an entry that can be written and read back. -/
structure Entry (e : Key × ValueObject) : Prop where
  clean : e.1.Clean
  keyFits : e.1.length < 2 ^ 64
  fits : e.2.payload.Fits
  loadable : e.2.payload.toValue.Loadable

/-- The store a list of entries stands for. -/
def storeOf (es : List (Key × ValueObject)) : Store :=
  fun k => (AssocList.find? k es).map fun obj => obj.payload.toValue

/-- Whole records are read back one by one, and what follows them is next. -/
theorem loadRecords_entries (tev : TimeEventHolder) (now len todo : Nat) (rest : Bytes)
    (es : List (Key × ValueObject)) : ∀ (idx : Nat) (s : LoadState), s.holder.Ok →
    (keys es).Nodup → (∀ e ∈ es, Entry e) → (∀ e ∈ es, s.holder.view e.1 = none) →
    ∃ h', loadRecords now len (es.length + todo) idx s
          ((es.flatMap fun e => snapshotEntry [] tev e.1 e.2.payload) ++ rest)
        = loadRecords now len todo (idx + es.length)
            { s with
              holder := h'
              calls := s.calls ++ (List.range' idx es.length).map fun i => (len, i) } rest ∧
      h'.Ok ∧ h'.view = fun k => (storeOf es k).or (s.holder.view k) := by
  induction es with
  | nil =>
    intro idx s hok _ _ _
    exact ⟨s.holder, by simp, hok, by funext k; simp [storeOf]⟩
  | cons e es ih =>
    intro idx s hok hn hes hfresh
    rw [keys_cons, List.nodup_cons] at hn
    have he := hes e List.mem_cons_self
    obtain ⟨h₁, hrec, hok₁, hview₁⟩ := loadRecord_entry hok he.clean he.keyFits
      (hfresh e List.mem_cons_self) he.loadable he.fits tev now len idx
      ((es.flatMap fun e => snapshotEntry [] tev e.1 e.2.payload) ++ rest)
    -- the other keys are still free after this record
    obtain ⟨h', hrest, hok', hview'⟩ := ih (idx + 1)
      { s with holder := h₁, calls := s.calls ++ [(len, idx)] } hok₁ hn.2
      (fun e' he' => hes e' (List.mem_cons_of_mem e he')) (by
        intro e' he'
        have hne : e'.1 ≠ e.1 := fun h => hn.1 (h ▸ List.mem_map.mpr ⟨e', he', rfl⟩)
        simp only [hview₁, Function.update_of_ne hne]
        exact hfresh e' (List.mem_cons_of_mem e he'))
    refine ⟨h', ?_, hok', ?_⟩
    · rw [List.length_cons, List.flatMap_cons, List.append_assoc,
        show es.length + 1 + todo = es.length + todo + 1 by omega, loadRecords, hrec]
      simp only [hrest, List.range'_succ, List.map_cons, List.append_assoc, List.singleton_append,
        show idx + 1 + es.length = idx + (es.length + 1) by omega]
    · rw [hview']
      funext k
      simp only [storeOf, hview₁, find?_cons, Function.update_apply]
      by_cases hk : e.1 = k
      · have hnone : AssocList.find? k es = none := find?_eq_none.mpr (hk ▸ hn.1)
        simp [hk, hnone]
      · simp [hk, Ne.symm hk]

/-- Everything the dump stores the length or the number of fits a `size_t`. -/
def KVContainer.FitsSize (h : KVContainer) : Prop :=
  h.numItems < 2 ^ 64 ∧
    ∀ e ∈ h.bucket.flatten, e.1.length < 2 ^ 64 ∧ e.2.payload.Fits

/-- The number of records is read back, and the cursor is at the first one. -/
theorem liteKVLoad_header {n : Nat} (hn : n < 2 ^ 64) (records : Bytes) (now : Nat)
    (s : LoadState) :
    liteKVLoad (magicHeader ++ (encodeFixed64BitInteger (.ofNat n) ++ records)) now s
      = loadRecords now n n 1 s records := by
  have hhead : magicHeader.length = 10 := by decide
  have hmagic : magicHeader.take 6 = ascii "LITEKV" := by decide
  have h8 : (encodeFixed64BitInteger (UInt64.ofNat n)).length = 8 := length_littleEndian 8 _
  have hnum : (UInt64.ofNat n).toNat = n := by
    rw [UInt64.toNat_ofNat', Nat.mod_eq_of_lt hn]
  rw [liteKVLoad, if_neg (by rw [List.length_append, hhead]; omega),
    List.take_append_of_le_length (by rw [hhead]; omega), hmagic, if_neg (by simp),
    List.drop_left' hhead]
  simp only [decodeFixed64BitInteger_append, hnum, List.drop_left' h8]
  rw [if_neg (by rw [List.length_append, h8]; omega)]

section

variable {h : KVContainer} (order : IterationOrder h)

theorem IterationOrder.flatten_perm : order.buckets.flatten.Perm h.bucket.flatten :=
  List.Perm.flatten_congr order.perm

theorem numItems_eq : h.numItems = order.buckets.flatten.length := by
  rw [order.flatten_perm.length_eq, KVContainer.numItems, List.length_flatten]

/-- The entries of a dump have different keys, and are what the store holds. -/
theorem IterationOrder.entries (hok : h.Ok) : (keys order.buckets.flatten).Nodup ∧
    (∀ e ∈ order.buckets.flatten, e ∈ h.bucket.flatten) ∧
    storeOf order.buckets.flatten = h.view := by
  have hperm := order.flatten_perm
  have hn : (keys order.buckets.flatten).Nodup :=
    (hperm.map Prod.fst).nodup_iff.mpr hok.placed.nodup_flatten
  refine ⟨hn, fun e he => hperm.mem_iff.mp he, funext fun k => ?_⟩
  rw [storeOf, find?_perm hperm hn, ← hok.find_eq]
  rfl

theorem storeOf_mem {es : List (Key × ValueObject)} (hn : (keys es).Nodup)
    {e : Key × ValueObject} (he : e ∈ es) : storeOf es e.1 = some e.2.payload.toValue := by
  rw [storeOf, find?_of_mem hn he]
  rfl

/-- A dump of loadable values restores the store. -/
theorem load_snapshot (hok : h.Ok) (hfits : h.FitsSize)
    (hload : ∀ k v, h.view k = some v → v.Loadable) (tev : TimeEventHolder) (now : Nat) :
    ∃ h', liteKVLoad (liteKVSave (h.snapshot order [] tev)) now .new
        = (⟨h', [], .new, (List.range' 1 h.numItems).map fun i => (h.numItems, i)⟩, true) ∧
      h'.Ok ∧ h'.view = h.view := by
  obtain ⟨hn, hmem, hstore⟩ := order.entries hok
  have hes : ∀ e ∈ order.buckets.flatten, Entry e := by
    intro e he
    have hview : h.view e.1 = some e.2.payload.toValue := by rw [← hstore, storeOf_mem hn he]
    exact ⟨hok.clean e (hmem e he), (hfits.2 e (hmem e he)).1, (hfits.2 e (hmem e he)).2,
      hload e.1 _ hview⟩
  obtain ⟨h', hrun, hok', hview'⟩ := loadRecords_entries tev now h.numItems 0 []
    order.buckets.flatten 1 .new KVContainer.ok_new hn hes (by
      intro e _
      simp [LoadState.new])
  refine ⟨h', ?_, hok', ?_⟩
  · rw [liteKVSave, KVContainer.snapshot, liteKVLoad_header hfits.1]
    rw [List.append_nil, Nat.add_zero, ← numItems_eq order] at hrun
    rw [hrun]
    simp [LoadState.new, loadRecords]
  · rw [hview', hstore]
    funext k
    simp [LoadState.new]

end

/-! ## What the loader can store -/

/-- Every value in the buckets is loadable. Nothing is asked of the keys: a
file may hold any. -/
def AllLoadable (h : KVContainer) : Prop :=
  ∀ e ∈ h.bucket.flatten, e.2.payload.toValue.Loadable

theorem allLoadable_new : AllLoadable .new := by
  intro e he
  simp [KVContainer.new] at he

theorem mem_flatten_set {t : List (List (Key × ValueObject))} {i : Nat}
    {b : List (Key × ValueObject)} {e : Key × ValueObject} (he : e ∈ (t.set i b).flatten) :
    e ∈ t.flatten ∨ e ∈ b := by
  obtain ⟨c, hc, hec⟩ := List.mem_flatten.mp he
  rcases List.mem_or_eq_of_mem_set hc with hc | rfl
  · exact .inl (List.mem_flatten.mpr ⟨c, hc, hec⟩)
  · exact .inr hec

section

variable {h : KVContainer} (hl : AllLoadable h) (key : Key)

include hl

theorem AllLoadable.find {obj : ValueObject} (hf : h.find key = some obj) :
    obj.payload.toValue.Loadable := by
  rw [KVContainer.find, Option.map_eq_some_iff] at hf
  obtain ⟨e, he, rfl⟩ := hf
  exact hl e (mem_flatten.mpr ⟨_, List.mem_of_find?_eq_some he⟩)

theorem AllLoadable.insertNew {obj : ValueObject} (ho : obj.payload.toValue.Loadable) :
    AllLoadable (h.insertNew key obj) := by
  intro e he
  rcases mem_flatten_set he with he | he
  · exact hl e he
  · rcases List.mem_cons.mp he with rfl | he
    · exact ho
    · exact hl e (mem_flatten.mpr ⟨_, he⟩)

theorem AllLoadable.modify {obj : ValueObject} (ho : obj.payload.toValue.Loadable) :
    AllLoadable (h.modify key obj) := by
  intro e he
  rcases mem_flatten_set he with he | he
  · exact hl e he
  · obtain ⟨e', he', rfl⟩ := List.mem_map.mp he
    split
    · exact ho
    · exact hl e' (mem_flatten.mpr ⟨_, he'⟩)

theorem AllLoadable.put {obj : ValueObject} (ho : obj.payload.toValue.Loadable) :
    AllLoadable (h.put key obj) := by
  unfold KVContainer.put
  split
  · exact hl.insertNew key ho
  · exact hl.modify key ho

theorem AllLoadable.createOrOnType {α β : Type} {proj : Payload → Option α} {fresh : α} {now : Nat}
    {missing : β} {f : α → Payload × β} (hfresh : (f fresh).1.toValue.Loadable)
    (hf : ∀ p x, proj p = some x → p.toValue.Loadable → (f x).1.toValue.Loadable) :
    AllLoadable (h.createOrOnType proj fresh now key missing f).1 := by
  unfold KVContainer.createOrOnType
  split
  · exact hl.insertNew key hfresh
  · rename_i obj hobj
    have ho := hl.find key hobj
    cases hp : proj obj.payload with
    | none => simpa only [hp] using hl
    | some x =>
        simp only
        exact hl.modify key (hf _ x hp ho)

theorem AllLoadable.pushItem {item : Bytes} (hi : item ≠ []) (now : Nat) :
    AllLoadable (h.listPush now key false [item]).1 := by
  refine hl.createOrOnType key ?_ ?_
  · simp [KVContainer.toList_pushAll, Payload.toValue, Value.Loadable, Cell.pushed, hi]
  · intro p o hp hpl
    cases p <;> cases hp
    obtain ⟨-, hall⟩ := hpl
    refine ⟨?_, ?_⟩
    · simp [KVContainer.toList_pushAll, Cell.pushed]
    · intro s hs
      rw [KVContainer.toList_pushAll, Cell.pushed, if_neg (by decide), List.mem_append,
        List.mem_singleton] at hs
      rcases hs with hs | rfl
      · exact hall s hs
      · exact hi

theorem AllLoadable.updateField {e : Bytes × Bytes} (hk : e.1 ≠ []) (hv : e.2 ≠ []) (now : Nat) :
    AllLoadable (h.hashUpdateKV now key [e]).1 := by
  have hone : ∀ o : DictObject, (∀ k v, o.lookup k = some v → k ≠ [] ∧ v ≠ []) →
      (Payload.toValue (.hash (KVContainer.updateAll o [e]))).Loadable := by
    intro o ho
    have hup : (KVContainer.updateAll o [e]).lookup
        = Function.update o.lookup e.1 (some e.2) := KVContainer.lookup_updateAll [e] o
    refine ⟨⟨e.1, by rw [hup, Function.update_self]; rfl⟩, fun k v hkv => ?_⟩
    rw [hup, Function.update_apply] at hkv
    split at hkv
    · rename_i heq
      cases hkv
      exact ⟨heq ▸ hk, hv⟩
    · exact ho k v hkv
  refine hl.createOrOnType key (hone _ ?_) ?_
  · intro k v hkv
    rw [DictObject.lookup_new] at hkv
    cases hkv
  · intro p o hp hpl
    cases p <;> cases hp
    exact hone _ hpl.2

theorem AllLoadable.addItem {item : Bytes} (hi : item ≠ []) (now : Nat) :
    AllLoadable (h.setAddItem now key [item]).1 := by
  have hone : ∀ o : SetObject, (∀ k, o.contains k = true → k ≠ []) →
      (Payload.toValue (.set (KVContainer.insertAll o [item]).1)).Loadable := by
    intro o ho
    have hup := KVContainer.contains_insertAll [item] o
    refine ⟨⟨item, by rw [hup]; simp⟩, fun k hk => ?_⟩
    rw [hup] at hk
    by_cases hki : k = item
    · rw [hki]
      exact hi
    · exact ho k (by simpa [hki] using hk)
  refine hl.createOrOnType key (hone _ ?_) ?_
  · intro k hk
    rw [SetObject.contains_new] at hk
    cases hk
  · intro p o hp hpl
    cases p <;> cases hp
    exact hone _ hpl.2

end

/-- What a loop stores, item by item, is loadable when every item is. -/
theorem AllLoadable.foldl {ι : Type} {next : KVContainer → ι → KVContainer} (is : List ι) :
    ∀ {h : KVContainer}, AllLoadable h →
      (∀ h, ∀ i ∈ is, AllLoadable h → AllLoadable (next h i)) → AllLoadable (is.foldl next h) := by
  induction is with
  | nil => intro h hl _; exact hl
  | cons i is ih =>
    intro h hl hnext
    exact ih (hnext h i List.mem_cons_self hl) fun h i' hi' =>
      hnext h i' (List.mem_cons_of_mem i hi')

/-- The three decoders give no empty element. -/
theorem decodeElems_nonempty (count : Nat) (bs : Bytes) :
    ∀ s ∈ (decodeElems count .new bs).1.toList, s ≠ [] := by
  refine decodeElems_loop.keeps (P := fun o => ∀ s ∈ o.toList, s ≠ []) ?_ count .new bs (by simp)
  intro ans s h hne s' hs'
  rw [ListObject.toList_push, if_neg (by decide), List.mem_append, List.mem_singleton] at hs'
  rcases hs' with hs' | rfl
  · exact h s' hs'
  · exact hne

theorem decodeFields_nonempty (count : Nat) : ∀ (ans : DictObject) (bs : Bytes),
    (∀ k v, ans.lookup k = some v → k ≠ [] ∧ v ≠ []) →
    ∀ k v, (decodeFields count ans bs).1.lookup k = some v → k ≠ [] ∧ v ≠ [] := by
  induction count with
  | zero => intro ans bs h; exact h
  | succ count ih =>
    intro ans bs h
    unfold decodeFields
    dsimp only
    split
    · exact h
    · rename_i hk
      split
      · exact h
      · rename_i hv
        refine ih _ _ fun k v hkv => ?_
        rw [DictObject.lookup_update] at hkv
        split at hkv
        · rename_i heq
          cases hkv
          exact ⟨by simpa [heq] using hk, by simpa using hv⟩
        · exact h k v hkv

theorem decodeMembers_nonempty (count : Nat) (bs : Bytes) :
    ∀ k, (decodeMembers count .new bs).1.contains k = true → k ≠ [] := by
  refine decodeMembers_loop.keeps (P := fun o => ∀ k, o.contains k = true → k ≠ []) ?_ count .new bs
    (by simp)
  intro ans s h hne k hk
  rw [SetObject.contains_insert, Bool.or_eq_true, beq_iff_eq] at hk
  rcases hk with rfl | hk
  · exact hne
  · exact h k hk

/-- Whatever the bytes are, a value that is stored is loadable. -/
theorem AllLoadable.loadValue {h : KVContainer} (hl : AllLoadable h) (type : UInt8) (live : Bool)
    (now : Nat) (key : Key) (bs : Bytes) :
    AllLoadable (LiteKV.loadValue type live now key h bs).1 := by
  unfold LiteKV.loadValue
  cases live with
  | false =>
      simp only [Bool.false_eq_true, if_false]
      split
      · exact hl
      split
      · exact hl
      split
      · exact hl
      split
      · exact hl
      · exact hl
  | true =>
      simp only [if_true]
      split
      · exact hl.put key trivial
      split
      · exact hl.put key trivial
      split
      · refine AllLoadable.foldl _ hl fun h item hi hl => hl.pushItem key ?_ now
        exact decodeElems_nonempty _ _ item hi
      split
      · refine AllLoadable.foldl _ hl fun h item hi hl => ?_
        have hitem := decodeFields_nonempty _ _ _ (by simp) item.1 item.2
          (((decodeHashDict bs).1.isMap.mem_entries item.1 item.2).mp hi)
        exact hl.updateField key hitem.1 hitem.2 now
      · refine AllLoadable.foldl _ hl fun h item hi hl => hl.addItem key ?_ now
        have hc : (decodeHashSet bs).1.contains item = true := by
          rw [(decodeHashSet bs).1.members_spec.2, decide_eq_true_eq]
          exact hi
        exact decodeMembers_nonempty _ _ item hc

theorem AllLoadable.loadRecord {s : LoadState} (hl : AllLoadable s.holder) (now len idx : Nat)
    (bs : Bytes) : AllLoadable (LiteKV.loadRecord now len idx s bs).1.holder := by
  unfold LiteKV.loadRecord
  split
  · split
    · exact hl
    split
    · exact hl
    split
    · exact hl
    · rename_i expireFlag expTimestamp bs _
      have hv := fun type live key bs => hl.loadValue type live now key bs
      dsimp only
      split
      · split <;> exact hv _ _ _ _
      · split <;> split <;> exact hv _ _ _ _
  · exact hl

theorem AllLoadable.loadRecords (now len todo : Nat) : ∀ (idx : Nat) (s : LoadState) (bs : Bytes),
    AllLoadable s.holder → AllLoadable (LiteKV.loadRecords now len todo idx s bs).1.holder := by
  induction todo with
  | zero => intro idx s bs hl; exact hl
  | succ todo ih =>
    intro idx s bs hl
    have hr := hl.loadRecord now len idx bs
    unfold LiteKV.loadRecords
    split
    · rename_i heq
      rw [heq] at hr
      exact hr
    · rename_i heq
      rw [heq] at hr
      exact ih _ _ _ hr

/-- No file makes the loader store a value that is not loadable. -/
theorem load_allLoadable (file : Bytes) (now : Nat) :
    AllLoadable (liteKVLoad file now .new).1.holder := by
  unfold liteKVLoad
  split
  · exact allLoadable_new
  split
  · exact allLoadable_new
  dsimp only
  split
  · exact allLoadable_new
  · exact AllLoadable.loadRecords now _ _ 1 .new _ allLoadable_new

/-! ## Round trips -/

/-- Loading the dump into an empty container accepts every record and gives the
same map from keys to values. -/
def Restores (h : KVContainer) (order : IterationOrder h) (now : Nat) : Prop :=
  (liteKVLoad (liteKVSave (h.snapshot order [] .new)) now .new).2 = true ∧
    (liteKVLoad (liteKVSave (h.snapshot order [] .new)) now .new).1.holder.view = h.view

theorem Restores.loadable {h : KVContainer} {order : IterationOrder h} {now : Nat}
    (hr : Restores h order now) {k : Key} {v : Value} (hv : h.view k = some v) : v.Loadable := by
  rw [← hr.2, KVContainer.view, Option.map_eq_some_iff] at hv
  obtain ⟨obj, hobj, rfl⟩ := hv
  exact (load_allLoadable _ now).find k hobj

/-- Every value of the store is in some bucket. -/
theorem mem_of_view {h : KVContainer} {k : Key} {v : Value} (hv : h.view k = some v) :
    ∃ e ∈ h.bucket.flatten, e.2.payload.toValue = v := by
  rw [KVContainer.view, Option.map_eq_some_iff] at hv
  obtain ⟨obj, hobj, rfl⟩ := hv
  rw [KVContainer.find, Option.map_eq_some_iff] at hobj
  obtain ⟨e, he, rfl⟩ := hobj
  exact ⟨e, mem_flatten.mpr ⟨_, List.mem_of_find?_eq_some he⟩, rfl⟩

instance (p : Payload) : Decidable p.Fits := inferInstanceAs (Decidable (_ ∧ _))

instance (h : KVContainer) : Decidable h.FitsSize := inferInstanceAs (Decidable (_ ∧ _))

/-- A store of integers and strings comes back, with one call of the callback
for each entry. -/
theorem load_restores_scalars {h : KVContainer} (hr : h.Reachable)
    (hscalar : ∀ k v, h.view k = some v → (∃ n, v = .int n) ∨ ∃ s, v = .string s)
    (hfits : h.FitsSize) (order : IterationOrder h) (now : Nat) :
    Restores h order now ∧
      (liteKVLoad (liteKVSave (h.snapshot order [] .new)) now .new).1.calls
        = (List.range' 1 h.numItems).map fun i => (h.numItems, i) := by
  have hload : ∀ k v, h.view k = some v → v.Loadable := by
    intro k v hv
    rcases hscalar k v hv with ⟨n, rfl⟩ | ⟨s, rfl⟩
    · trivial
    · trivial
  obtain ⟨h', hrun, -, hview⟩ := load_snapshot order hr.ok hfits hload .new now
  exact ⟨⟨by rw [hrun], by rw [hrun]; exact hview⟩, by rw [hrun]⟩

/-- The least integer under a key, the empty string under the empty key, and a
string of flag bytes. -/
def scalarStore : KVContainer :=
  [(KVContainer.Op.setInt [97] (-9223372036854775808), 0), (.setString [] [], 0),
    (.setString [98] [0, 255, 254], 0)].foldl KVContainer.apply .new

theorem load_restores_scalarStore :
    Restores scalarStore (.ofBuckets scalarStore) 7 ∧
      (liteKVLoad
        (liteKVSave (scalarStore.snapshot (.ofBuckets scalarStore) [] .new)) 7 .new).1.calls
        = (List.range' 1 scalarStore.numItems).map fun i => (scalarStore.numItems, i) := by
  have hr : scalarStore.Reachable := ⟨_, rfl⟩
  have hfits : scalarStore.FitsSize := by decide +kernel
  refine load_restores_scalars hr ?_ hfits (.ofBuckets scalarStore) 7
  have hall : ∀ e ∈ scalarStore.bucket.flatten, e.2.payload.objectType ≤ 2 := by decide +kernel
  intro k v hv
  obtain ⟨e, he, rfl⟩ := mem_of_view hv
  have hty := hall e he
  cases hp : e.2.payload with
  | int n => exact .inl ⟨n, rfl⟩
  | string s => exact .inr ⟨s, rfl⟩
  | _ => rw [hp] at hty; exact absurd hty (by simp only [Payload.objectType]; decide)

/-- A store comes back exactly when none of its collections is empty and none
has an empty element, field, value or member. -/
theorem load_restores_iff {h : KVContainer} (hr : h.Reachable) (hfits : h.FitsSize)
    (order : IterationOrder h) (now : Nat) :
    Restores h order now ↔ ∀ k v, h.view k = some v → v.Loadable := by
  constructor
  · intro hrest k v hv
    exact hrest.loadable hv
  · intro hload
    obtain ⟨h', hrun, -, hview⟩ := load_snapshot order hr.ok hfits hload .new now
    exact ⟨by rw [hrun], by rw [hrun]; exact hview⟩

/-- A list of one element. -/
def listStore : KVContainer :=
  [(KVContainer.Op.listPush [108] false [[120]], 0)].foldl KVContainer.apply .new

theorem view_listStore : listStore.view
    = Function.update (fun _ => none) (.ofStdString [108]) (some (.list [[120]])) := by
  have h := KVContainer.listPush_acts KVContainer.ok_new 0 (.ofStdString [108])
    (StaticString.ofStdString_clean _) false [[120]]
  refine h.1.2.trans ?_
  rw [KVContainer.view_new]
  rfl

theorem load_restores_listStore : Restores listStore (.ofBuckets listStore) 7 := by
  have hr : listStore.Reachable := ⟨_, rfl⟩
  have hfits : listStore.FitsSize := by decide +kernel
  refine (load_restores_iff hr hfits (.ofBuckets listStore) 7).mpr ?_
  intro k v hv
  rw [view_listStore, Function.update_apply] at hv
  split at hv
  · cases hv
    exact ⟨by simp, by simp⟩
  · cases hv

/-- The same list after a pop. -/
def poppedStore : KVContainer :=
  [(KVContainer.Op.listPush [108] false [[120]], 0), (.listPop [108] false, 0)].foldl
    KVContainer.apply .new

/-- A list that became empty does not come back. -/
theorem load_loses_empty_list : poppedStore.Reachable ∧ poppedStore.FitsSize ∧
    ¬ Restores poppedStore (.ofBuckets poppedStore) 7 := by
  refine ⟨⟨_, rfl⟩, by decide +kernel, fun hr => ?_⟩
  have hok : listStore.Ok := KVContainer.Reachable.ok ⟨_, rfl⟩
  have hview : poppedStore.view (.ofStdString [108]) = some (.list []) := by
    have h := (KVContainer.listPop_acts hok 0 (.ofStdString [108]) false).1.2
    refine (congrFun h _).trans ?_
    rw [Function.update_self, view_listStore, Function.update_self]
    rfl
  exact (hr.loadable hview).1 rfl

end LiteKV
