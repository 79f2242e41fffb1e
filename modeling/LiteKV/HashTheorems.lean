/-
LiteKV.HashTheorems — the rehashed tables are finite maps.

A table is `Ok` when every entry is in the chain its hash selects, no key
is there twice and `count_` is the number of entries. A `Rehashable` is in
one of two phases: resting, with one table, or moving, with two tables that
share no key, the slots below `rehashing_idx_` of the first being empty.
The content in both phases is one map, `lookup`.

`rehash` is the only operation that changes the phase, and `rehash_spec`
says that it does not change the map. Every call begins with it and then
acts on one table, so `put_spec` and `erase_spec` need no further case on
how far the move has come.
-/
import LiteKV.Hash
import LiteKV.Lib.Run

namespace LiteKV

open Lib Lib.AssocList Lib.Buckets Lib.Run

variable {V : Type}

/-! ## One table -/

/-- What a key is stored with after it was added to a map that held `old`. -/
def DupPolicy.stored (p : DupPolicy V) (old : Option V) (val : V) : V :=
  match old with
  | none => val
  | some o => p.merge o val

/-- What adding answers. -/
def DupPolicy.answer (p : DupPolicy V) (old : Option V) : Added :=
  match old with
  | none => .newAdded
  | some _ => p.code

namespace HashStructBase

/-- Every entry in its chain, no key twice, and the right count. -/
structure Ok (t : HashStructBase V) : Prop where
  placed : Placed t.calculateSlotIndex t.table
  count : t.count = t.table.flatten.length

/-- The map a table stands for. -/
def lookup (t : HashStructBase V) (key : Bytes) : Option V := AssocList.find? key t.table.flatten

theorem ok_new {n : Nat} (h : 0 < n) : (new n : HashStructBase V).Ok := by
  refine ⟨placed_replicate fun k => ?_, by simp [new]⟩
  simp only [calculateSlotIndex, slotSize, new, List.length_replicate]
  exact Nat.mod_lt _ h

theorem lookup_new (n : Nat) (key : Bytes) : (new n : HashStructBase V).lookup key = none := by
  simp [lookup, new]

theorem Ok.findEntry {t : HashStructBase V} (h : t.Ok) (key : Bytes) :
    t.findEntry key = t.lookup key := (h.placed.find?_flatten key).symm

/-- Replacing the chain of a key's slot leaves the slots of all keys alone. -/
theorem Ok.set {t : HashStructBase V} (h : t.Ok) {i : Nat} (hi : i < t.slotSize)
    (chain : List (Bytes × V)) (n : Nat) (hb : ∀ e ∈ chain, t.calculateSlotIndex e.1 = i)
    (hn : (keys chain).Nodup) (hc : n + (bucketAt t.table i).length = t.count + chain.length) :
    Ok { t with table := t.table.set i chain, count := n } ∧
    ∀ key, lookup { t with table := t.table.set i chain, count := n } key
      = if t.calculateSlotIndex key = i then AssocList.find? key chain else t.lookup key := by
  have hslot : calculateSlotIndex { t with table := t.table.set i chain, count := n }
      = t.calculateSlotIndex := by
    funext key
    simp [calculateSlotIndex, slotSize]
  refine ⟨⟨?_, ?_⟩, fun key => h.placed.find?_set hi hb hn key⟩
  · rw [hslot]
    exact h.placed.set hi hb hn
  · have := length_flatten_set hi chain
    have := h.count
    simp only
    omega

theorem bucket_find {t : HashStructBase V} (h : t.Ok) (key : Bytes) :
    AssocList.find? key (bucketAt t.table (t.calculateSlotIndex key)) = t.lookup key :=
  (h.placed.find?_flatten key).symm

/-- Adding an entry to a table. -/
theorem place_spec (p : DupPolicy V) {t : HashStructBase V} (h : t.Ok) (key : Bytes) (val : V) :
    (t.place p key val).1.Ok ∧
    (∀ k, (t.place p key val).1.lookup k
      = if k = key then some (p.stored (t.lookup key) val) else t.lookup k) ∧
    (t.place p key val).2 = p.answer (t.lookup key) ∧
    (t.place p key val).1.rehashingIdx = t.rehashingIdx := by
  have hin := h.placed.inRange key
  have hmem := h.placed.placed (t.calculateSlotIndex key)
  have hnd := h.placed.nodup (t.calculateSlotIndex key)
  have hfind := bucket_find h key
  have hother : ∀ k, t.calculateSlotIndex k = t.calculateSlotIndex key →
      AssocList.find? k (bucketAt t.table (t.calculateSlotIndex key)) = t.lookup k := by
    intro k hk
    rw [← hk, bucket_find h k]
  rw [place, h.findEntry]
  cases hl : t.lookup key with
  | none =>
      rw [hl, find?_eq_none] at hfind
      have hset := h.set hin
        ((key, val) :: bucketAt t.table (t.calculateSlotIndex key)) (t.count + 1)
        (by
          intro e he
          rcases List.mem_cons.mp he with rfl | he
          · rfl
          · exact hmem e he)
        (by rw [keys_cons, List.nodup_cons]; exact ⟨hfind, hnd⟩)
        (by simp only [List.length_cons]; omega)
      refine ⟨hset.1, fun k => ?_, rfl, rfl⟩
      rw [hset.2 k, find?_cons]
      by_cases hk : k = key
      · simp [hk, DupPolicy.stored]
      · rw [if_neg hk, if_neg (Ne.symm hk)]
        split
        · rename_i hs; exact hother k hs
        · rfl
  | some old =>
      rw [hl] at hfind
      have hset := h.set hin
        (reset key (p.merge old val) (bucketAt t.table (t.calculateSlotIndex key))) t.count
        (by
          intro e he
          obtain ⟨e', he', rfl⟩ := List.mem_map.mp he
          rw [← hmem e' he']
          split <;> rfl)
        (by rw [keys_reset]; exact hnd)
        (by rw [length_reset])
      refine ⟨hset.1, fun k => ?_, rfl, rfl⟩
      rw [hset.2 k, find?_reset]
      by_cases hk : k = key
      · simp [hk, hfind, DupPolicy.stored]
      · rw [if_neg hk, if_neg hk]
        split
        · rename_i hs; exact hother k hs
        · rfl

/-- Erasing a key from a table. -/
theorem eraseKey_spec {t : HashStructBase V} (h : t.Ok) (key : Bytes) :
    (t.eraseKey key).1.Ok ∧
    (∀ k, (t.eraseKey key).1.lookup k = if k = key then none else t.lookup k) ∧
    (t.eraseKey key).2 = (t.lookup key).isSome ∧
    (t.eraseKey key).1.rehashingIdx = t.rehashingIdx ∧
    (∀ i, bucketAt t.table i = [] → bucketAt (t.eraseKey key).1.table i = []) := by
  have hin := h.placed.inRange key
  have hmem := h.placed.placed (t.calculateSlotIndex key)
  have hnd := h.placed.nodup (t.calculateSlotIndex key)
  have hfind := bucket_find h key
  rw [eraseKey, hfind]
  cases hl : t.lookup key with
  | none =>
      refine ⟨h, fun k => ?_, rfl, rfl, fun i hi => hi⟩
      by_cases hk : k = key
      · rw [if_pos hk, hk, hl]
      · rw [if_neg hk]
  | some old =>
      rw [hl] at hfind
      have hkey : key ∈ keys (bucketAt t.table (t.calculateSlotIndex key)) := by
        rw [← find?_isSome, hfind]; rfl
      have hlen := length_erase_of_mem hkey
      have hpos : 0 < (bucketAt t.table (t.calculateSlotIndex key)).length := by
        rw [← List.length_map (f := Prod.fst)]
        exact List.length_pos_of_mem hkey
      have hcount : (bucketAt t.table (t.calculateSlotIndex key)).length ≤ t.count := by
        rw [h.count]
        have := length_flatten_set hin ([] : List (Bytes × V))
        simp only [List.length_nil] at this
        omega
      have hset := h.set hin
        (AssocList.erase key (bucketAt t.table (t.calculateSlotIndex key))) (t.count - 1)
        (fun e he => hmem e (mem_of_mem_erase he))
        (nodup_erase hnd)
        (by rw [hlen]; omega)
      refine ⟨hset.1, fun k => ?_, rfl, rfl, fun i hi => ?_⟩
      · rw [hset.2 k, find?_erase hnd]
        by_cases hk : k = key
        · simp [hk]
        · rw [if_neg hk, if_neg hk]
          split
          · rename_i hs; rw [← hs, bucket_find h k]
          · rfl
      · rw [bucketAt_set hin]
        split
        · rename_i he
          rw [he] at hi
          simp [hi, AssocList.erase]
        · exact hi

/-- `place` fills no empty slot when the key is already there. -/
theorem place_keeps_empty (p : DupPolicy V) {t : HashStructBase V} (h : t.Ok) {key : Bytes}
    (hk : t.lookup key ≠ none) (val : V) {i : Nat} (hi : bucketAt t.table i = []) :
    bucketAt (t.place p key val).1.table i = [] := by
  have hin := h.placed.inRange key
  rw [place, h.findEntry]
  cases hl : t.lookup key with
  | none => exact absurd hl hk
  | some old =>
      simp only
      rw [bucketAt_set hin]
      split
      · rename_i he
        rw [he] at hi
        simp [hi, reset]
      · exact hi

/-- Where `StepRehashingIdx` goes: past empty slots only. -/
theorem stepRehashingIdx_spec (t : HashStructBase V)
    (hbelow : ∀ i < t.nextIdx, bucketAt t.table i = []) :
    (∀ j, t.stepRehashingIdx.rehashingIdx = some j →
      (∀ i < j, bucketAt t.table i = []) ∧ bucketAt t.table j ≠ [] ∧ j < t.slotSize) ∧
    (t.stepRehashingIdx.rehashingIdx = none → ∀ i, bucketAt t.table i = []) := by
  simp only [stepRehashingIdx]
  constructor
  · intro j hj
    obtain ⟨hp, hj', hlt⟩ := List.find?_range_eq_some.mp hj
    simp only [Bool.and_eq_true, decide_eq_true_eq, Bool.not_eq_true', List.isEmpty_eq_false_iff]
      at hp
    refine ⟨fun i hi => ?_, hp.2, by simpa using hj'⟩
    by_cases hf : i < t.nextIdx
    · exact hbelow i hf
    · have := hlt i hi
      simpa [show t.nextIdx ≤ i by omega] using this
  · intro hnone i
    by_cases hf : i < t.nextIdx
    · exact hbelow i hf
    · by_cases hi : i < t.slotSize
      · have := List.find?_range_eq_none.mp hnone i hi
        simpa [show t.nextIdx ≤ i by omega] using this
      · rw [bucketAt, List.getElem?_eq_none (by simpa [slotSize] using hi)]
        rfl

theorem ensureAllSlotsEmpty_of {t : HashStructBase V} (h : ∀ i, bucketAt t.table i = []) :
    t.ensureAllSlotsEmpty = true := by
  rw [ensureAllSlotsEmpty, List.all_eq_true]
  intro b hb
  obtain ⟨i, hi, rfl⟩ := List.getElem_of_mem hb
  have := h i
  rw [bucketAt, List.getElem?_eq_getElem hi, Option.getD_some] at this
  rw [this]
  rfl

theorem lookup_of_empty {t : HashStructBase V} (h : ∀ i, bucketAt t.table i = []) (key : Bytes) :
    t.lookup key = none := by
  rw [lookup, find?_eq_none]
  intro hk
  obtain ⟨e, he, -⟩ := List.mem_map.mp hk
  obtain ⟨i, hi⟩ := mem_flatten.mp he
  rw [h i] at hi
  simp at hi

/-- A key is found in slot `i` only if it belongs there. -/
theorem Ok.find_bucket {t : HashStructBase V} (h : t.Ok) (i : Nat) (key : Bytes) :
    AssocList.find? key (bucketAt t.table i)
      = if t.calculateSlotIndex key = i then t.lookup key else none := by
  split
  · rename_i hi
    rw [← hi, bucket_find h key]
  · rename_i hi
    rw [find?_eq_none]
    intro hk
    obtain ⟨e, he, rfl⟩ := List.mem_map.mp hk
    exact hi (h.placed.placed i e he)

/-- A detached slot is empty and takes its keys out of the map. -/
theorem Ok.detach {t : HashStructBase V} (h : t.Ok) {i : Nat} (hi : i < t.slotSize) :
    (t.detach i).Ok ∧
    (∀ key, (t.detach i).lookup key
      = if t.calculateSlotIndex key = i then none else t.lookup key) ∧
    (t.detach i).rehashingIdx = t.rehashingIdx ∧
    (∀ j, bucketAt (t.detach i).table j = if j = i then [] else bucketAt t.table j) := by
  have hlen : (bucketAt t.table i).length ≤ t.count := by
    have hf := length_flatten_set hi ([] : List (Bytes × V))
    rw [List.length_nil] at hf
    have := h.count
    omega
  obtain ⟨hok, hl⟩ := h.set hi [] (t.count - (bucketAt t.table i).length)
    (by simp) (by simp) (by simp only [List.length_nil]; omega)
  exact ⟨hok, hl, rfl, fun j => bucketAt_set hi [] j⟩

end HashStructBase

/-! ## Two tables -/

namespace Rehashable

open HashStructBase

/-- The map both tables stand for. -/
def lookup (h : Rehashable V) (key : Bytes) : Option V :=
  (h.cur.lookup key).or (h.backup.bind (·.lookup key))

/-- A rehash has moved the slots below `k` of `cur` to `b`. -/
structure Moving (cur b : HashStructBase V) (k : Nat) : Prop where
  curOk : cur.Ok
  backupOk : b.Ok
  idx : cur.rehashingIdx = some k
  backupIdx : b.rehashingIdx = none
  inRange : k < cur.slotSize
  below : ∀ i < k, bucketAt cur.table i = []
  disjoint : ∀ key, cur.lookup key ≠ none → b.lookup key = none

/-- The two phases. -/
inductive Ok : Rehashable V → Prop
  | resting {cur : HashStructBase V} (hcur : cur.Ok) (hidx : cur.rehashingIdx = none) :
      Ok ⟨cur, none⟩
  | moving {cur b : HashStructBase V} {k : Nat} (h : Moving cur b k) : Ok ⟨cur, some b⟩

theorem ok_new : (new : Rehashable V).Ok := .resting (HashStructBase.ok_new (by omega)) rfl

theorem lookup_new (key : Bytes) : (new : Rehashable V).lookup key = none := by
  simp [lookup, new, HashStructBase.lookup_new]

/-- Moving a chain adds its entries to the backup table. -/
theorem moveChain_spec (p : DupPolicy V) : ∀ (chain : List (Bytes × V)) {b : HashStructBase V},
    b.Ok → (keys chain).Nodup → (∀ k ∈ keys chain, b.lookup k = none) →
    (moveChain p b chain).Ok ∧
    (∀ k, (moveChain p b chain).lookup k = (AssocList.find? k chain).or (b.lookup k)) ∧
    (moveChain p b chain).rehashingIdx = b.rehashingIdx
  | [], _, hb, _, _ => ⟨hb, fun _ => by simp [moveChain], rfl⟩
  | e :: chain, b, hb, hn, habs => by
      rw [keys_cons, List.nodup_cons] at hn
      obtain ⟨hok, hl, -, hidx⟩ := place_spec p hb e.1 e.2
      have habs0 : b.lookup e.1 = none := habs e.1 (by simp)
      obtain ⟨hok', hl', hidx'⟩ := moveChain_spec p chain hok hn.2 (by
        intro k hk
        have hne : k ≠ e.1 := fun he => hn.1 (he ▸ hk)
        rw [hl k, if_neg hne]
        exact habs k (by simp [hk]))
      refine ⟨hok', fun k => ?_, hidx'.trans hidx⟩
      have hm : moveChain p b (e :: chain) = moveChain p (b.place p e.1 e.2).1 chain := rfl
      rw [hm, hl' k, hl k, find?_cons, habs0]
      by_cases hk : k = e.1
      · subst hk
        have hnone : AssocList.find? e.1 chain = none := find?_eq_none.mpr hn.1
        simp [hnone, DupPolicy.stored]
      · rw [if_neg hk, if_neg (Ne.symm hk)]

/-- One step of the move keeps the phase and the map. -/
theorem performRehash_spec (p : DupPolicy V) {h : Rehashable V} {k : Nat}
    (hm : Moving h.cur (h.backup.getD (HashStructBase.new (h.cur.slotSize * kGrowFactor))) k) :
    (h.performRehash p).1.Ok ∧
    ∀ key, (h.performRehash p).1.lookup key = (h.cur.lookup key).or
      ((h.backup.getD (HashStructBase.new (h.cur.slotSize * kGrowFactor))).lookup key) := by
  obtain ⟨hcur, hb, hidx, hbidx, hrange, hbelow, hdis⟩ := hm
  simp only [performRehash, hidx]
  generalize h.backup.getD (HashStructBase.new (h.cur.slotSize * kGrowFactor)) = b
    at hb hbidx hdis ⊢
  have hfind := hcur.find_bucket k
  obtain ⟨hbok, hblook, hbidx'⟩ := moveChain_spec p (bucketAt h.cur.table k) hb
    (hcur.placed.nodup k) (by
      intro key hk
      refine hdis key ?_
      rw [← find?_isSome, hfind] at hk
      split at hk
      · intro hnone; simp [hnone] at hk
      · simp at hk)
  obtain ⟨hcok, hclook, hidx', hbuckets⟩ := hcur.detach hrange
  generalize h.cur.detach k = cur' at hcok hclook hidx' hbuckets ⊢
  rw [hidx] at hidx'
  have hstep := stepRehashingIdx_spec cur' (by
    intro i hi
    rw [nextIdx, hidx'] at hi
    simp only [Option.map_some, Option.getD_some] at hi
    rw [hbuckets]
    split
    · rfl
    · exact hbelow i (by omega))
  have hmap : ∀ key, (cur'.lookup key).or ((moveChain p b (bucketAt h.cur.table k)).lookup key)
      = (h.cur.lookup key).or (b.lookup key) := by
    intro key
    rw [hclook key, hblook key, hfind key]
    split <;> simp
  have hsok : cur'.stepRehashingIdx.Ok := ⟨hcok.placed, hcok.count⟩
  cases hnext : cur'.stepRehashingIdx.rehashingIdx with
  | none =>
      have hempty := hstep.2 hnext
      rw [if_pos (by
        simp only [rehashDone, hnext, Option.isNone_none, Bool.true_and]
        exact ensureAllSlotsEmpty_of hempty)]
      refine ⟨.resting hbok (hbidx'.trans hbidx), fun key => ?_⟩
      rw [← hmap key, lookup_of_empty hempty key]
      simp [lookup]
  | some j =>
      obtain ⟨hj, -, hjlt⟩ := hstep.1 j hnext
      rw [if_neg (by simp [rehashDone, hnext])]
      refine ⟨.moving ⟨hsok, hbok, hnext, hbidx'.trans hbidx, hjlt, hj, fun key hk => ?_⟩,
        fun key => hmap key⟩
      have hk' : cur'.lookup key ≠ none := hk
      rw [hclook key] at hk'
      rw [hblook key, hfind key]
      split at hk'
      · simp at hk'
      · rename_i hs
        rw [if_neg hs, hdis key hk']
        rfl

/-- A table with more entries than slots has an occupied slot. -/
theorem start_moving {cur : HashStructBase V} (hcur : cur.Ok) (hidx : cur.rehashingIdx = none)
    (hfull : cur.count > cur.slotSize) : ∃ k, Moving cur.stepRehashingIdx
      (HashStructBase.new (cur.slotSize * kGrowFactor)) k := by
  have hstep := stepRehashingIdx_spec cur (by simp [nextIdx, hidx])
  have hsok : cur.stepRehashingIdx.Ok := ⟨hcur.placed, hcur.count⟩
  have hpos : 0 < cur.slotSize := Nat.lt_of_le_of_lt (Nat.zero_le _) (hcur.placed.inRange [])
  cases hnext : cur.stepRehashingIdx.rehashingIdx with
  | none =>
      have hnil : cur.table.flatten = [] := by
        rw [List.eq_nil_iff_forall_not_mem]
        intro e he
        obtain ⟨i, hi⟩ := mem_flatten.mp he
        rw [hstep.2 hnext i] at hi
        simp at hi
      have := hcur.count
      rw [hnil, List.length_nil] at this
      omega
  | some j =>
      obtain ⟨hj, -, hjlt⟩ := hstep.1 j hnext
      exact ⟨j, hsok, HashStructBase.ok_new (by rw [kGrowFactor]; omega), hnext, rfl, hjlt, hj,
        fun key _ => HashStructBase.lookup_new _ key⟩

/-- **Rehashing does not change the map.** -/
theorem rehash_spec (p : DupPolicy V) {h : Rehashable V} (hok : h.Ok) :
    (h.rehash p).Ok ∧ ∀ key, (h.rehash p).lookup key = h.lookup key := by
  cases hok with
  | @resting cur hcur hidx =>
      simp only [rehash, checkNeedRehash, hidx]
      by_cases hfull : cur.count > cur.slotSize
      · obtain ⟨k, hk⟩ := start_moving hcur hidx hfull
        rw [if_pos hfull]
        simp only [if_true]
        have hs := performRehash_spec p (h := ⟨cur.stepRehashingIdx, none⟩) (k := k) hk
        refine ⟨hs.1, fun key => ?_⟩
        rw [hs.2 key]
        simp only [Option.getD_none, HashStructBase.lookup_new]
        rfl
      · rw [if_neg hfull]
        exact ⟨.resting hcur hidx, fun _ => rfl⟩
  | @moving cur b k hm =>
      simp only [rehash, checkNeedRehash, hm.idx, if_true]
      have hs := performRehash_spec p (h := ⟨cur, some b⟩) (k := k) hm
      exact ⟨hs.1, fun key => hs.2 key⟩

/-- Adding an entry to the map. -/
theorem put_spec (p : DupPolicy V) {h : Rehashable V} (hok : h.Ok) (key : Bytes) (val : V) :
    (h.put p key val).1.Ok ∧
    (∀ k, (h.put p key val).1.lookup k
      = if k = key then some (p.stored (h.lookup key) val) else h.lookup k) ∧
    (h.put p key val).2 = p.answer (h.lookup key) := by
  obtain ⟨hr, hl⟩ := rehash_spec p hok
  simp only [put, ← hl]
  cases hr' : h.rehash p with
  | mk cur backup =>
  rw [hr'] at hr
  cases hr with
  | resting hcur hidx =>
      obtain ⟨hok', hlook, hans, hidx'⟩ := place_spec p hcur key val
      rw [if_pos (by simp [rehashDone, hidx])]
      exact ⟨.resting hok' (hidx'.trans hidx), by simpa [lookup] using hlook,
        by simpa [lookup] using hans⟩
  | @moving _ b k hm =>
      obtain ⟨hok', hlook, hans, hidx'⟩ := place_spec p hm.curOk key val
      obtain ⟨hbok', hblook, hbans, hbidx'⟩ := place_spec p hm.backupOk key val
      rw [if_neg (by simp [rehashDone, hm.idx]), hm.curOk.findEntry]
      cases hc : cur.lookup key with
      | some old =>
          have hbnone := hm.disjoint key (by simp [hc])
          refine ⟨.moving ⟨hok', hm.backupOk, hidx'.trans hm.idx, hm.backupIdx, ?_, ?_, ?_⟩, ?_, ?_⟩
          · simpa [place, hm.curOk.findEntry, hc, slotSize] using hm.inRange
          · exact fun i hi => place_keeps_empty p hm.curOk (by simp [hc]) val (hm.below i hi)
          · intro k' hk'
            rw [hlook k'] at hk'
            by_cases he : k' = key
            · rw [he]; exact hbnone
            · rw [if_neg he] at hk'
              exact hm.disjoint k' hk'
          · intro k'
            simp only [lookup, hlook k', Option.bind_some, hc, Option.some_or]
            split <;> rfl
          · simpa [lookup, hc] using hans
      | none =>
          refine ⟨.moving ⟨hm.curOk, hbok', hm.idx, hbidx'.trans hm.backupIdx, hm.inRange, hm.below,
            ?_⟩, ?_, ?_⟩
          · intro k' hk'
            have hne : k' ≠ key := fun he => hk' (he ▸ hc)
            rw [hblook k', if_neg hne]
            exact hm.disjoint k' hk'
          · intro k'
            simp only [lookup, hblook k', Option.bind_some, hc, Option.none_or]
            by_cases he : k' = key
            · subst he; simp [hc]
            · simp [he]
          · simpa [lookup, hc] using hbans

/-- Taking a key out of the map. -/
theorem erase_spec (p : DupPolicy V) {h : Rehashable V} (hok : h.Ok) (key : Bytes) :
    (h.erase p key).1.Ok ∧
    (∀ k, (h.erase p key).1.lookup k = if k = key then none else h.lookup k) ∧
    (h.erase p key).2 = (h.lookup key).isSome := by
  obtain ⟨hr, hl⟩ := rehash_spec p hok
  simp only [erase, ← hl]
  cases hr' : h.rehash p with
  | mk cur backup =>
  rw [hr'] at hr
  cases hr with
  | resting hcur hidx =>
      obtain ⟨hok', hlook, hans, hidx', -⟩ := eraseKey_spec hcur key
      cases hc : cur.lookup key with
      | some old =>
          rw [if_pos (by rw [hans, hc]; rfl)]
          exact ⟨.resting hok' (hidx'.trans hidx), by simpa [lookup] using hlook,
            by simp [lookup, hc]⟩
      | none =>
          rw [if_neg (by simp [hans, hc])]
          refine ⟨.resting hcur hidx, fun k => ?_, by simp [lookup, hc]⟩
          by_cases hk : k = key
          · simp [lookup, hk, hc]
          · rw [if_neg hk]
  | @moving _ b k hm =>
      obtain ⟨hok', hlook, hans, hidx', hkeep⟩ := eraseKey_spec hm.curOk key
      obtain ⟨hbok', hblook, hbans, hbidx', -⟩ := eraseKey_spec hm.backupOk key
      cases hc : cur.lookup key with
      | some old =>
          have hbnone := hm.disjoint key (by simp [hc])
          rw [if_pos (by rw [hans, hc]; rfl)]
          refine ⟨.moving ⟨hok', hm.backupOk, hidx'.trans hm.idx, hm.backupIdx, ?_, ?_, ?_⟩, ?_, ?_⟩
          · simpa [eraseKey, bucket_find hm.curOk, hc, slotSize] using hm.inRange
          · exact fun i hi => hkeep i (hm.below i hi)
          · intro k' hk'
            rw [hlook k'] at hk'
            by_cases he : k' = key
            · rw [he]; exact hbnone
            · rw [if_neg he] at hk'
              exact hm.disjoint k' hk'
          · intro k'
            simp only [lookup, hlook k', Option.bind_some]
            by_cases he : k' = key
            · subst he; simp [hbnone]
            · simp [he]
          · simp [lookup, hc]
      | none =>
          rw [if_neg (by simp [hans, hc])]
          refine ⟨.moving ⟨hm.curOk, hbok', hm.idx, hbidx'.trans hm.backupIdx, hm.inRange, hm.below,
            ?_⟩, ?_, ?_⟩
          · intro k' hk'
            rw [hblook k']
            split
            · rfl
            · exact hm.disjoint k' hk'
          · intro k'
            simp only [lookup, hblook k', Option.bind_some]
            by_cases he : k' = key
            · subst he; simp [hc]
            · simp [he]
          · simp only [hbans, lookup, hc, Option.none_or, Option.bind_some]

/-! ## Listing -/

/-- The entries of both tables. -/
def entries (h : Rehashable V) : List (Bytes × V) :=
  h.cur.table.flatten ++ (h.backup.map fun b => b.table.flatten).getD []

theorem lookup_eq_find? (h : Rehashable V) (key : Bytes) :
    h.lookup key = AssocList.find? key h.entries := by
  rw [lookup, entries, find?_append]
  cases h.backup <;> rfl

theorem table_lists {t : HashStructBase V} (h : t.Ok) :
    t.allEntries = t.table.flatten ∧ t.allKeys = keys t.table.flatten ∧
      t.allValues = t.table.flatten.map Prod.snd := by
  rw [HashStructBase.allEntries, HashStructBase.allKeys, HashStructBase.allValues]
  by_cases hc : t.count = 0
  · have hnil : t.table.flatten = [] := List.eq_nil_of_length_eq_zero (by rw [← h.count, hc])
    simp [hc, hnil]
  · simp [hc]

/-- The three listings read the same entries in the same order. -/
theorem lists {h : Rehashable V} (hok : h.Ok) :
    h.allEntries = h.entries ∧ h.allKeys = keys h.entries ∧
      h.allValues = h.entries.map Prod.snd ∧ h.count = h.entries.length := by
  cases hok with
  | @resting cur hcur _ =>
      obtain ⟨he, hk, hv⟩ := table_lists hcur
      have hc : count ⟨cur, none⟩ = (entries ⟨cur, none⟩).length := by
        simp [count, entries, hcur.count]
      refine ⟨?_, ?_, ?_, hc⟩ <;> by_cases h0 : count ⟨cur, none⟩ = 0
      all_goals
        first
        | (have hnil : entries ⟨cur, none⟩ = [] := List.eq_nil_of_length_eq_zero (hc ▸ h0)
           simp [Rehashable.allEntries, Rehashable.allKeys, Rehashable.allValues, h0, hnil])
        | simp [Rehashable.allEntries, Rehashable.allKeys, Rehashable.allValues, h0, he, hk, hv,
            entries]
  | @moving cur b k hm =>
      obtain ⟨he, hk, hv⟩ := table_lists hm.curOk
      obtain ⟨hbe, hbk, hbv⟩ := table_lists hm.backupOk
      have hc : count ⟨cur, some b⟩ = (entries ⟨cur, some b⟩).length := by
        simp [count, entries, hm.curOk.count, hm.backupOk.count]
      refine ⟨?_, ?_, ?_, hc⟩ <;> by_cases h0 : count ⟨cur, some b⟩ = 0
      all_goals
        first
        | (have hnil : entries ⟨cur, some b⟩ = [] := List.eq_nil_of_length_eq_zero (hc ▸ h0)
           simp [Rehashable.allEntries, Rehashable.allKeys, Rehashable.allValues, h0, hnil])
        | simp [Rehashable.allEntries, Rehashable.allKeys, Rehashable.allValues, h0, he, hk, hv,
            hbe, hbk, hbv, entries]

/-- No key is in both tables, and none is twice in one. -/
theorem nodup_entries {h : Rehashable V} (hok : h.Ok) : (keys h.entries).Nodup := by
  cases hok with
  | resting hcur _ => simpa [entries] using hcur.placed.nodup_flatten
  | @moving cur b k hm =>
      simp only [entries, Option.map_some, Option.getD_some, keys_append]
      rw [List.nodup_append']
      refine ⟨hm.curOk.placed.nodup_flatten, hm.backupOk.placed.nodup_flatten, fun key hk hkb => ?_⟩
      have hn := hm.disjoint key (by
        rw [HashStructBase.lookup, ne_eq, find?_eq_none]
        exact not_not_intro hk)
      exact find?_eq_none.mp hn hkb

theorem checkExists_eq {h : Rehashable V} (hok : h.Ok) (key : Bytes) :
    h.checkExists key = (h.lookup key).isSome := by
  cases hok with
  | @resting cur hcur _ =>
      simp [checkExists, HashStructBase.checkExists, lookup, hcur.findEntry]
  | @moving cur b k hm =>
      simp only [checkExists, HashStructBase.checkExists, lookup, hm.curOk.findEntry,
        hm.backupOk.findEntry, Option.map_some, Option.getD_some, Option.bind_some]
      cases cur.lookup key <;> simp

/-- Everything a rehashed table says about itself, against the map it should be. -/
structure IsMap (h : Rehashable V) (m : Bytes → Option V) : Prop where
  checkExists : ∀ key, h.checkExists key = (m key).isSome
  count : h.count = h.allKeys.length
  nodup : h.allKeys.Nodup
  mem_keys : ∀ key, key ∈ h.allKeys ↔ (m key).isSome
  mem_entries : ∀ key val, (key, val) ∈ h.allEntries ↔ m key = some val
  keys_aligned : h.allEntries.map Prod.fst = h.allKeys
  values_aligned : h.allEntries.map Prod.snd = h.allValues
  disjoint : ∀ b, h.backup = some b → ∀ key ∈ h.cur.allKeys, key ∉ b.allKeys

theorem isMap_of_ok {h : Rehashable V} (hok : h.Ok) : IsMap h h.lookup := by
  obtain ⟨he, hk, hv, hc⟩ := lists hok
  have hn := nodup_entries hok
  refine
    { checkExists := checkExists_eq hok
      count := by rw [hc, hk, keys, List.length_map]
      nodup := by rw [hk]; exact hn
      mem_keys := fun key => by rw [hk, lookup_eq_find?, find?_isSome]
      mem_entries := fun key val => ?_
      keys_aligned := by rw [he, hk]; rfl
      values_aligned := by rw [he, hv]
      disjoint := fun b hb key hkey hkb => ?_ }
  · rw [he, lookup_eq_find?]
    exact ⟨find?_of_mem hn, mem_of_find?⟩
  · cases hok with
    | resting => cases hb
    | @moving cur b' k hm =>
        obtain rfl : b' = b := by simpa using hb
        rw [(table_lists hm.curOk).2.1] at hkey
        rw [(table_lists hm.backupOk).2.1] at hkb
        have hnone := hm.disjoint key (by
          rw [HashStructBase.lookup, ne_eq, find?_eq_none]
          exact not_not_intro hkey)
        exact find?_eq_none.mp hnone hkb

end Rehashable

/-! ## Runs -/

namespace HashDict

/-- The operations. -/
inductive Op where
  | update (key val : Bytes)
  | erase (key : Bytes)
  | at_ (key : Bytes)
  | checkExists (key : Bytes)

/-- Their answers: a code, erased or not, a value or the exception, found or not. -/
inductive Out where
  | added (code : Added)
  | erased (b : Bool)
  | value (v : Option Bytes)
  | found (b : Bool)
  deriving DecidableEq

/-- One call. -/
def step (h : HashDict) : Op → HashDict × Out
  | .update k v => let r := h.update k v; (r.1, .added r.2)
  | .erase k => let r := HashDict.erase h k; (r.1, .erased r.2)
  | .at_ k => let r := h.at_ k; (r.1, .value r.2)
  | .checkExists k => (h, .found (Rehashable.checkExists h k))

/-- The same call on a finite map. -/
def mapStep (m : Bytes → Option Bytes) : Op → (Bytes → Option Bytes) × Out
  | .update k v => (fun k' => if k' = k then some v else m k',
      .added (if (m k).isSome then .updated else .newAdded))
  | .erase k => (fun k' => if k' = k then none else m k', .erased (m k).isSome)
  | .at_ k => (m, .value (m k))
  | .checkExists k => (m, .found (m k).isSome)

theorem at_spec {h : HashDict} (hok : h.Ok) (key : Bytes) :
    (h.at_ key).1.Ok ∧ (∀ k, (h.at_ key).1.lookup k = h.lookup k) ∧
      (h.at_ key).2 = h.lookup key := by
  obtain ⟨hr, hl⟩ := Rehashable.rehash_spec .dict hok
  refine ⟨hr, hl, ?_⟩
  simp only [HashDict.at_, ← hl key]
  cases hr' : Rehashable.rehash .dict h with
  | mk cur backup =>
  rw [hr'] at hr
  cases hr with
  | resting hcur _ => simp [Rehashable.lookup, hcur.findEntry]
  | moving hm => simp [Rehashable.lookup, hm.curOk.findEntry, hm.backupOk.findEntry]

theorem update_spec {h : HashDict} (hok : h.Ok) (key val : Bytes) :
    (h.update key val).1.Ok ∧
    (∀ k, (h.update key val).1.lookup k = if k = key then some val else h.lookup k) ∧
    (h.update key val).2 = if (h.lookup key).isSome then .updated else .newAdded := by
  obtain ⟨h1, h2, h3⟩ := Rehashable.put_spec .dict hok key val
  refine ⟨h1, fun k => ?_, ?_⟩
  · rw [update, h2 k]
    cases h.lookup key <;> rfl
  · rw [update, h3]
    cases h.lookup key <;> rfl

theorem step_simulates {h : HashDict} {m : Bytes → Option Bytes} (hok : h.Ok)
    (hm : ∀ k, h.lookup k = m k) (op : Op) :
    ((step h op).1.Ok ∧ ∀ k, (step h op).1.lookup k = (mapStep m op).1 k) ∧
      (step h op).2 = (mapStep m op).2 := by
  cases op with
  | update key val =>
      obtain ⟨h1, h2, h3⟩ := update_spec hok key val
      exact ⟨⟨h1, fun k => by rw [step, h2 k, hm k]; rfl⟩, by rw [step, h3, hm key]; rfl⟩
  | erase key =>
      obtain ⟨h1, h2, h3⟩ := Rehashable.erase_spec .dict hok key
      exact ⟨⟨h1, fun k => by rw [step, HashDict.erase, h2 k, hm k]; rfl⟩,
        by rw [step, HashDict.erase, h3, hm key]; rfl⟩
  | at_ key =>
      obtain ⟨h1, h2, h3⟩ := at_spec hok key
      exact ⟨⟨h1, fun k => by rw [step, h2 k, hm k]; rfl⟩, by rw [step, h3, hm key]; rfl⟩
  | checkExists key =>
      exact ⟨⟨hok, hm⟩, by rw [step, Rehashable.checkExists_eq hok, hm key]; rfl⟩

end HashDict

namespace HashSet

/-- The operations. -/
inductive Op where
  | insert (item : Bytes)
  | erase (item : Bytes)
  | checkExists (item : Bytes)

/-- Their answers. -/
inductive Out where
  | added (code : Added)
  | erased (b : Bool)
  | found (b : Bool)
  deriving DecidableEq

/-- One call. -/
def step (h : HashSet) : Op → HashSet × Out
  | .insert k => let r := HashSet.insert h k; (r.1, .added r.2)
  | .erase k => let r := HashSet.erase h k; (r.1, .erased r.2)
  | .checkExists k => (h, .found (Rehashable.checkExists h k))

/-- The same call on a finite set, given by its membership. -/
def setStep (m : Bytes → Bool) : Op → (Bytes → Bool) × Out
  | .insert k => (fun k' => k' == k || m k', .added (if m k then .existed else .newAdded))
  | .erase k => (fun k' => k' != k && m k', .erased (m k))
  | .checkExists k => (m, .found (m k))

theorem insert_spec {h : HashSet} (hok : h.Ok) (item : Bytes) :
    (HashSet.insert h item).1.Ok ∧
    (∀ k, (HashSet.insert h item).1.lookup k = if k = item then some () else h.lookup k) ∧
    (HashSet.insert h item).2 = if (h.lookup item).isSome then .existed else .newAdded := by
  obtain ⟨h1, h2, h3⟩ := Rehashable.put_spec .set hok item ()
  refine ⟨h1, fun k => ?_, ?_⟩
  · rw [HashSet.insert, h2 k]
  · rw [HashSet.insert, h3]
    cases h.lookup item <;> rfl

theorem step_simulates {h : HashSet} {m : Bytes → Bool} (hok : h.Ok)
    (hm : ∀ k, (h.lookup k).isSome = m k) (op : Op) :
    ((step h op).1.Ok ∧ ∀ k, ((step h op).1.lookup k).isSome = (setStep m op).1 k) ∧
      (step h op).2 = (setStep m op).2 := by
  cases op with
  | insert item =>
      obtain ⟨h1, h2, h3⟩ := insert_spec hok item
      refine ⟨⟨h1, fun k => ?_⟩, by rw [step, h3, hm item]; rfl⟩
      simp only [step, h2 k, setStep, ← hm k]
      by_cases hk : k = item <;> simp [hk]
  | erase item =>
      obtain ⟨h1, h2, h3⟩ := Rehashable.erase_spec .set hok item
      refine ⟨⟨h1, fun k => ?_⟩, by rw [step, HashSet.erase, h3, hm item]; rfl⟩
      simp only [step, HashSet.erase, h2 k, setStep, ← hm k]
      by_cases hk : k = item <;> simp [hk]
  | checkExists item =>
      exact ⟨⟨hok, hm⟩, by rw [step, Rehashable.checkExists_eq hok, hm item]; rfl⟩

end HashSet

/-- **The rehashed dictionary is a finite map and the rehashed set a finite
set**, after every sequence of calls and with the answers the map and the set
give. -/
theorem hash_finite_map :
    (∀ ops : List HashDict.Op,
      (trace HashDict.step Rehashable.new ops).2 = (trace HashDict.mapStep (fun _ => none) ops).2 ∧
      Rehashable.IsMap (trace HashDict.step Rehashable.new ops).1
        (trace HashDict.mapStep (fun _ => none) ops).1) ∧
    (∀ ops : List HashSet.Op,
      (trace HashSet.step Rehashable.new ops).2 = (trace HashSet.setStep (fun _ => false) ops).2 ∧
      Rehashable.IsMap (trace HashSet.step Rehashable.new ops).1
        (fun k => if (trace HashSet.setStep (fun _ => false) ops).1 k then some () else none)) := by
  constructor
  · intro ops
    obtain ⟨⟨hok, hm⟩, hout⟩ := trace_simulates HashDict.step HashDict.mapStep
      (fun h m => h.Ok ∧ ∀ k, h.lookup k = m k)
      (fun _ _ op h => HashDict.step_simulates h.1 h.2 op) ops Rehashable.new (fun _ => none)
      ⟨Rehashable.ok_new, Rehashable.lookup_new⟩
    rw [← funext hm]
    exact ⟨hout, Rehashable.isMap_of_ok hok⟩
  · intro ops
    obtain ⟨⟨hok, hm⟩, hout⟩ := trace_simulates HashSet.step HashSet.setStep
      (fun h m => h.Ok ∧ ∀ k, (h.lookup k).isSome = m k)
      (fun _ _ op h => HashSet.step_simulates h.1 h.2 op) ops Rehashable.new (fun _ => false)
      ⟨Rehashable.ok_new, fun k => by rw [Rehashable.lookup_new]; rfl⟩
    have hmap :
        (fun k => if (trace HashSet.setStep (fun _ => false) ops).1 k then some () else none)
          = (trace HashSet.step Rehashable.new ops).1.lookup := by
      funext k
      rw [← hm k]
      cases (trace HashSet.step Rehashable.new ops).1.lookup k <;> rfl
    rw [hmap]
    exact ⟨hout, Rehashable.isMap_of_ok hok⟩

end LiteKV
