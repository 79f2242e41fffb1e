/-
LiteKV.RehashTheorems — incremental rehashing keeps up with insertion.

Every call but `CheckExists` turns the rehash by one slot and then does its
own work, which changes neither the number of slots nor `rehashing_idx_`:
`put_outline` and `erase_outline`. So what a call does to the pace is what
`rehash` does (`rehash_turned`), and what it does to the size is read off
the map (`put_count`, `erase_count`).

`Pace` is the invariant. While tables are moved its bound is one entry for
each slot that is behind; at the last slot that is `2 * slots`, and the
bound of the larger table at rest is met again.
-/
import Mathlib.Data.Set.Card
import LiteKV.HashTheorems

namespace LiteKV

open Lib Lib.Run Lib.Buckets

variable {V : Type}

/-! ## What only a rehash changes -/

namespace HashStructBase

/-- The number of slots and where the rehash is. -/
def outline (t : HashStructBase V) : Nat × Option Nat := (t.slotSize, t.rehashingIdx)

theorem place_outline (p : DupPolicy V) (t : HashStructBase V) (key : Bytes) (val : V) :
    (t.place p key val).1.outline = t.outline := by
  rw [place]
  cases t.findEntry key <;> simp [outline, slotSize]

theorem eraseKey_outline (t : HashStructBase V) (key : Bytes) :
    (t.eraseKey key).1.outline = t.outline := by
  rw [eraseKey]
  cases AssocList.find? key (bucketAt t.table (t.calculateSlotIndex key)) <;>
    simp [outline, slotSize]

@[simp] theorem stepRehashingIdx_slotSize (t : HashStructBase V) :
    t.stepRehashingIdx.slotSize = t.slotSize := rfl

@[simp] theorem detach_slotSize (t : HashStructBase V) (i : Nat) :
    (t.detach i).slotSize = t.slotSize := by
  simp [detach, slotSize]

/-- `StepRehashingIdx` goes forward. -/
theorem stepRehashingIdx_lt {t : HashStructBase V} {i j : Nat} (hi : t.rehashingIdx = some i)
    (hj : t.stepRehashingIdx.rehashingIdx = some j) : i < j := by
  obtain ⟨hp, -, -⟩ := List.find?_range_eq_some.mp hj
  rw [Bool.and_eq_true, decide_eq_true_eq, nextIdx, hi] at hp
  exact hp.1

end HashStructBase

namespace Rehashable

open HashStructBase

theorem moveChain_outline (p : DupPolicy V) (b : HashStructBase V) (chain : List (Bytes × V)) :
    (moveChain p b chain).outline = b.outline := by
  induction chain generalizing b with
  | nil => rfl
  | cons e chain ih => exact (ih (b.place p e.1 e.2).1).trans (place_outline p b e.1 e.2)

/-- The outlines of both tables. -/
def outline (h : Rehashable V) : (Nat × Option Nat) × Option (Nat × Option Nat) :=
  (h.cur.outline, h.backup.map HashStructBase.outline)

/-- What `put` does after the rehash. -/
theorem put_outline (p : DupPolicy V) (h : Rehashable V) (key : Bytes) (val : V) :
    (h.put p key val).1.outline = (h.rehash p).outline := by
  rw [put]
  cases h.rehash p with
  | mk cur backup =>
  dsimp only
  split
  · rw [outline, place_outline]
    rfl
  · cases cur.findEntry key with
    | some old =>
        rw [outline, place_outline]
        rfl
    | none =>
        cases backup with
        | none => rfl
        | some b =>
            simp only [outline, Option.map_some, place_outline]

/-- What `Erase` does after the rehash. -/
theorem erase_outline (p : DupPolicy V) (h : Rehashable V) (key : Bytes) :
    (h.erase p key).1.outline = (h.rehash p).outline := by
  rw [erase]
  cases h.rehash p with
  | mk cur backup =>
  dsimp only
  split
  · rw [outline, eraseKey_outline]
    rfl
  · cases backup with
    | none => rfl
    | some b => simp only [outline, Option.map_some, eraseKey_outline]

/-! ## The size -/

/-- `Count()` is the size of the map. -/
theorem IsMap.count_eq_ncard {h : Rehashable V} {m : Bytes → Option V} (hm : IsMap h m) :
    {key | (m key).isSome = true}.Finite ∧ h.count = {key | (m key).isSome = true}.ncard := by
  have hkeys : {key | (m key).isSome = true} = ↑h.allKeys.toFinset := by
    ext key
    simp [hm.mem_keys]
  rw [hkeys, Set.ncard_coe_finset, List.toFinset_card_of_nodup hm.nodup]
  exact ⟨Finset.finite_toSet _, hm.count⟩

theorem rehash_count (p : DupPolicy V) {h : Rehashable V} (hok : h.Ok) :
    (h.rehash p).count = h.count := by
  obtain ⟨hok', hl⟩ := rehash_spec p hok
  rw [(isMap_of_ok hok').count_eq_ncard.2, (isMap_of_ok hok).count_eq_ncard.2, funext hl]

theorem put_count (p : DupPolicy V) {h : Rehashable V} (hok : h.Ok) (key : Bytes) (val : V) :
    (h.put p key val).1.count ≤ h.count + 1 := by
  obtain ⟨hok', hl, -⟩ := put_spec p hok key val
  have hfin := (isMap_of_ok hok).count_eq_ncard.1
  have hsub : {k | ((h.put p key val).1.lookup k).isSome = true}
      ⊆ insert key {k | (h.lookup k).isSome = true} := by
    intro k hk
    by_cases he : k = key
    · exact Set.mem_insert_iff.mpr (.inl he)
    · rw [Set.mem_ofPred_eq, hl k, if_neg he] at hk
      exact Set.mem_insert_of_mem key hk
  calc (h.put p key val).1.count
      = {k | ((h.put p key val).1.lookup k).isSome = true}.ncard :=
        (isMap_of_ok hok').count_eq_ncard.2
    _ ≤ (insert key {k | (h.lookup k).isSome = true}).ncard :=
        Set.ncard_le_ncard hsub (hfin.insert key)
    _ ≤ {k | (h.lookup k).isSome = true}.ncard + 1 := Set.ncard_insert_le _ _
    _ = h.count + 1 := by rw [(isMap_of_ok hok).count_eq_ncard.2]

theorem erase_count (p : DupPolicy V) {h : Rehashable V} (hok : h.Ok) (key : Bytes) :
    (h.erase p key).1.count ≤ h.count := by
  obtain ⟨hok', hl, -⟩ := erase_spec p hok key
  have hsub :
      {k | ((h.erase p key).1.lookup k).isSome = true} ⊆ {k | (h.lookup k).isSome = true} := by
    intro k hk
    rw [Set.mem_ofPred_eq, hl k] at hk
    split at hk
    · cases hk
    · exact hk
  rw [(isMap_of_ok hok').count_eq_ncard.2, (isMap_of_ok hok).count_eq_ncard.2]
  exact Set.ncard_le_ncard hsub (isMap_of_ok hok).count_eq_ncard.1

/-! ## One turn -/

/-- One table of so many slots and no rehash. -/
def AtRest (slots : Nat) (h : Rehashable V) : Prop := h.outline = ((slots, none), none)

/-- The rehash of a table with so many slots is past slot `i`. -/
def Past (slots i : Nat) (h : Rehashable V) : Prop :=
  ∃ j > i, h.outline = ((slots, some j), some (2 * slots, none))

theorem atRest_iff {slots : Nat} {h : Rehashable V} : AtRest slots h ↔
    h.cur.slotSize = slots ∧ h.cur.rehashingIdx = none ∧ h.backup = none := by
  simp [AtRest, outline, HashStructBase.outline, and_assoc]

theorem past_iff {slots i : Nat} {h : Rehashable V} : Past slots i h ↔
    ∃ j > i, h.cur.slotSize = slots ∧ h.cur.rehashingIdx = some j ∧
      ∃ b, h.backup = some b ∧ b.slotSize = 2 * slots ∧ b.rehashingIdx = none := by
  simp [Past, outline, HashStructBase.outline, and_assoc]

/-- One step of the move swaps the tables or goes to a later slot. -/
theorem performRehash_turned (p : DupPolicy V) {h : Rehashable V} {i : Nat}
    (hm : Moving h.cur (h.backup.getD (HashStructBase.new (h.cur.slotSize * kGrowFactor))) i)
    (hdouble : ∀ b, h.backup = some b → b.slotSize = 2 * h.cur.slotSize) :
    AtRest (2 * h.cur.slotSize) (h.performRehash p).1 ∨
    Past h.cur.slotSize i (h.performRehash p).1 := by
  have hok := (performRehash_spec p hm).1
  have hbackup : (h.backup.getD (HashStructBase.new (h.cur.slotSize * kGrowFactor))).outline
      = (2 * h.cur.slotSize, none) := by
    refine Prod.ext ?_ hm.backupIdx
    cases hb : h.backup with
    | none =>
        rw [Option.getD_none, Nat.mul_comm 2]
        exact List.length_replicate
    | some b => exact hdouble b hb
  simp only [performRehash, hm.idx] at hok ⊢
  generalize h.backup.getD (HashStructBase.new (h.cur.slotSize * kGrowFactor)) = b at hok hbackup ⊢
  have hmoved := (moveChain_outline p b (bucketAt h.cur.table i)).trans hbackup
  split
  · left
    rw [AtRest, outline, hmoved]
    rfl
  · rename_i hstay
    rw [if_neg hstay] at hok
    right
    -- a table left with a backup beside it is being moved
    cases hok with
    | @moving _ _ j hm' =>
        have hidx : (h.cur.detach i).rehashingIdx = some i := hm.idx
        refine ⟨j, stepRehashingIdx_lt hidx hm'.idx, ?_⟩
        rw [outline, Option.map_some, hmoved, HashStructBase.outline, hm'.idx]
        simp

/-! ## The invariant -/

/-- A table whose rehash is as far as its size asks for. -/
structure Pace (h : Rehashable V) : Prop where
  ok : h.Ok
  doubled : ∀ b, h.backup = some b → b.slotSize = 2 * h.cur.slotSize
  resting : h.cur.rehashingIdx = none → h.count ≤ h.cur.slotSize + 1
  moving : ∀ i, h.cur.rehashingIdx = some i → h.count ≤ h.cur.slotSize + 1 + i

theorem pace_new : (new : Rehashable V).Pace :=
  ⟨ok_new, nofun, fun _ => Nat.zero_le _, fun _ _ => Nat.zero_le _⟩

/-- A rehash is due: the resting table has more entries than slots. -/
def Due (h : Rehashable V) : Prop := h.cur.rehashingIdx = none ∧ h.cur.count > h.cur.slotSize

/-- What `rehash` does to the outline. -/
theorem Pace.rehash_turned {h : Rehashable V} (hp : h.Pace) (p : DupPolicy V) :
    (AtRest h.cur.slotSize h ∧ h.cur.count ≤ h.cur.slotSize ∧ h.rehash p = h) ∨
    (h.Due ∧ (AtRest (2 * h.cur.slotSize) (h.rehash p) ∨ Past h.cur.slotSize 0 (h.rehash p))) ∨
    ∃ i, h.cur.rehashingIdx = some i ∧
      (AtRest (2 * h.cur.slotSize) (h.rehash p) ∨ Past h.cur.slotSize i (h.rehash p)) := by
  obtain ⟨hok, hdouble, -, -⟩ := hp
  cases hok with
  | @resting cur hcur hidx =>
      by_cases hfull : cur.count > cur.slotSize
      · obtain ⟨k, hk⟩ := start_moving hcur hidx hfull
        have hrun : rehash p ⟨cur, none⟩ = (performRehash p ⟨cur.stepRehashingIdx, none⟩).1 := by
          simp only [rehash, checkNeedRehash, hidx, if_pos hfull, if_true]
        have hturn := performRehash_turned p (h := ⟨cur.stepRehashingIdx, none⟩) (i := k) hk (by
          intro b hb
          cases hb)
        rw [hrun]
        refine .inr (.inl ⟨⟨hidx, hfull⟩, hturn.imp_right fun hpast => ?_⟩)
        obtain ⟨j, hj, hout⟩ := hpast
        exact ⟨j, Nat.zero_lt_of_lt hj, hout⟩
      · refine .inl ⟨atRest_iff.mpr ⟨rfl, hidx, rfl⟩, Nat.le_of_not_lt hfull, ?_⟩
        simp only [rehash, checkNeedRehash, hidx, if_neg hfull, Bool.false_eq_true, if_false]
  | @moving cur b k hm =>
      refine .inr (.inr ⟨k, hm.idx, ?_⟩)
      simp only [rehash, checkNeedRehash, hm.idx, if_true]
      exact performRehash_turned p (h := ⟨cur, some b⟩) (i := k) hm hdouble

theorem Ok.slots_pos {h : Rehashable V} (hok : h.Ok) : 0 < h.cur.slotSize := by
  cases hok with
  | resting hcur _ => exact Nat.zero_lt_of_lt (hcur.placed.inRange [])
  | moving hm => exact Nat.zero_lt_of_lt hm.inRange

theorem Ok.idx_lt {h : Rehashable V} (hok : h.Ok) {i : Nat} (hi : h.cur.rehashingIdx = some i) :
    i < h.cur.slotSize := by
  cases hok with
  | resting _ hidx => rw [hidx] at hi; cases hi
  | moving hm =>
      obtain rfl : _ = i := Option.some.inj (hm.idx.symm.trans hi)
      exact hm.inRange

theorem pace_of_atRest {s : Nat} {h : Rehashable V} (hok : h.Ok) (hrest : AtRest s h)
    (hcount : h.count ≤ s + 1) : h.Pace := by
  obtain ⟨rfl, hidx, hbackup⟩ := atRest_iff.mp hrest
  refine ⟨hok, fun b hb => ?_, fun _ => hcount, fun j hj => ?_⟩
  · rw [hbackup] at hb
    cases hb
  · rw [hidx] at hj
    cases hj

theorem pace_of_past {s i : Nat} {h : Rehashable V} (hok : h.Ok) (hpast : Past s i h)
    (hcount : h.count ≤ s + 2 + i) : h.Pace := by
  obtain ⟨j, hj, hslots, hidx, b, hbackup, hdouble, -⟩ := past_iff.mp hpast
  refine ⟨hok, fun b' hb' => ?_, fun hnone => ?_, fun j' hj' => ?_⟩
  · obtain rfl : b = b' := Option.some.inj (hbackup.symm.trans hb')
    rw [hdouble, hslots]
  · rw [hidx] at hnone
    cases hnone
  · obtain rfl : j = j' := Option.some.inj (hidx.symm.trans hj')
    omega

/-- A call that turns the rehash and then adds at most one entry. -/
theorem Pace.call {h h' : Rehashable V} (hp : h.Pace) (p : DupPolicy V) (hok : h'.Ok)
    (hout : h'.outline = (h.rehash p).outline) (hcount : h'.count ≤ h.count + 1) :
    h'.Pace ∧
      (h.cur.rehashingIdx = none ∧ h.cur.count ≤ h.cur.slotSize ∧ AtRest h.cur.slotSize h' ∨
      h.Due ∧ (AtRest (2 * h.cur.slotSize) h' ∨ Past h.cur.slotSize 0 h') ∨
      ∃ i, h.cur.rehashingIdx = some i ∧
        (AtRest (2 * h.cur.slotSize) h' ∨ Past h.cur.slotSize i h')) := by
  have hpos := hp.ok.slots_pos
  -- a turned rehash leaves room for the entry of this call
  have hturned : ∀ i < h.cur.slotSize, h.count ≤ h.cur.slotSize + 1 + i →
      (AtRest (2 * h.cur.slotSize) (h.rehash p) ∨ Past h.cur.slotSize i (h.rehash p)) →
      h'.Pace ∧ (AtRest (2 * h.cur.slotSize) h' ∨ Past h.cur.slotSize i h') := by
    intro i hi hbound hturn
    rw [AtRest, Past, ← hout] at hturn
    refine ⟨?_, hturn⟩
    rcases hturn with hrest | hpast
    · exact pace_of_atRest hok hrest (by omega)
    · exact pace_of_past hok hpast (by omega)
  rcases hp.rehash_turned p with ⟨hrest, hroom, hstay⟩ | ⟨hdue, hturn⟩ | ⟨i, hi, hturn⟩
  · obtain ⟨-, hidx, hbackup⟩ := atRest_iff.mp hrest
    have hsize : h.count = h.cur.count := by rw [count, hbackup]; rfl
    have hrest' : AtRest h.cur.slotSize h' := by rw [AtRest, hout, hstay]; exact hrest
    exact ⟨pace_of_atRest hok hrest' (by omega), .inl ⟨hidx, hroom, hrest'⟩⟩
  · obtain ⟨hp', hturn'⟩ := hturned 0 hpos (hp.resting hdue.1) hturn
    exact ⟨hp', .inr (.inl ⟨hdue, hturn'⟩)⟩
  · obtain ⟨hp', hturn'⟩ := hturned i (hp.ok.idx_lt hi) (hp.moving i hi) hturn
    exact ⟨hp', .inr (.inr ⟨i, hi, hturn'⟩)⟩

/-! ## Runs -/

/-- What a table does that is rehashed in time, as the calls are made that turn
the rehash and those that do not. -/
structure KeepsUp {ι ω : Type} (step : Rehashable V → ι → Rehashable V × ω) (turns : ι → Bool)
    (h : Rehashable V) : Prop where
  /-- outside a rehash there is one table, with at most one entry too many -/
  resting : h.cur.rehashingIdx = none → h.backup = none ∧ h.count ≤ h.cur.slotSize + 1
  /-- during one there are two, the slots below the index are empty, and all fits the larger -/
  moving : ∀ i, h.cur.rehashingIdx = some i → (∀ j < i, bucketAt h.cur.table j = []) ∧
    ∃ b, h.backup = some b ∧ b.slotSize = 2 * h.cur.slotSize ∧ h.count ≤ b.slotSize
  /-- a rehash starts only outside a rehash -/
  starts : h.cur.rehashingIdx = none → ∀ op, turns op = true →
    AtRest h.cur.slotSize (step h op).1 ∨ h.cur.count > h.cur.slotSize ∧
      (AtRest (2 * h.cur.slotSize) (step h op).1 ∨ Past h.cur.slotSize 0 (step h op).1)
  /-- and goes on until the tables are swapped -/
  advances : ∀ i, h.cur.rehashingIdx = some i → ∀ op, turns op = true →
    AtRest (2 * h.cur.slotSize) (step h op).1 ∨ Past h.cur.slotSize i (step h op).1
  waits : ∀ op, turns op = false → (step h op).1 = h
  /-- which they are, counted from the call that starts it, within as many calls as
  there are slots -/
  ends : h.Due ∨ h.cur.rehashingIdx ≠ none → ∀ ops, h.cur.slotSize ≤ ops.countP turns →
    ∃ pre post, ops = pre ++ post ∧ AtRest (2 * h.cur.slotSize) (trace step h pre).1

section

variable {ι ω : Type} {step : Rehashable V → ι → Rehashable V × ω} {turns : ι → Bool}
  {p : DupPolicy V}

/-- What the calls have in common. -/
structure Turns (p : DupPolicy V) (step : Rehashable V → ι → Rehashable V × ω) (turns : ι → Bool) :
    Prop where
  ok : ∀ h op, h.Ok → (step h op).1.Ok
  count : ∀ h op, h.Ok → (step h op).1.count ≤ h.count + 1
  outline : ∀ h op, turns op = true → (step h op).1.outline = (h.rehash p).outline
  waits : ∀ h op, turns op = false → (step h op).1 = h

theorem Turns.call (ht : Turns p step turns) {h : Rehashable V} (hp : h.Pace) {op : ι}
    (hop : turns op = true) : (step h op).1.Pace ∧
      (h.cur.rehashingIdx = none ∧ h.cur.count ≤ h.cur.slotSize ∧
        AtRest h.cur.slotSize (step h op).1 ∨
      h.Due ∧ (AtRest (2 * h.cur.slotSize) (step h op).1 ∨ Past h.cur.slotSize 0 (step h op).1) ∨
      ∃ i, h.cur.rehashingIdx = some i ∧
        (AtRest (2 * h.cur.slotSize) (step h op).1 ∨ Past h.cur.slotSize i (step h op).1)) :=
  hp.call p (ht.ok h op hp.ok) (ht.outline h op hop) (ht.count h op hp.ok)

theorem Turns.pace (ht : Turns p step turns) (h : Rehashable V) (op : ι) (hp : h.Pace) :
    (step h op).1.Pace := by
  cases hop : turns op with
  | true => exact (ht.call hp hop).1
  | false =>
      rw [ht.waits h op hop]
      exact hp

/-- How far a rehash of so many slots has to go. -/
def left (slots : Nat) (h : Rehashable V) : Nat := slots - h.cur.rehashingIdx.getD 0

/-- A rehash that is due or going on, of so many slots. -/
def Going (slots : Nat) (h : Rehashable V) : Prop :=
  h.Pace ∧ h.cur.slotSize = slots ∧ (h.Due ∨ h.cur.rehashingIdx ≠ none)

theorem Going.left_pos {slots : Nat} {h : Rehashable V} (hg : Going slots h) :
    0 < left slots h := by
  obtain ⟨hp, rfl, -⟩ := hg
  have hpos := hp.ok.slots_pos
  cases hidx : h.cur.rehashingIdx with
  | none => simpa [left, hidx] using hpos
  | some i =>
      have := hp.ok.idx_lt hidx
      simp only [left, hidx, Option.getD_some]
      omega

/-- A call that turns the rehash ends it or leaves less of it. -/
theorem Turns.going (ht : Turns p step turns) {slots : Nat} {h : Rehashable V} (op : ι)
    (hg : Going slots h) : AtRest (2 * slots) (step h op).1 ∨
      Going slots (step h op).1 ∧
        left slots (step h op).1 + (if turns op then 1 else 0) ≤ left slots h := by
  cases hop : turns op with
  | false =>
      rw [ht.waits h op hop]
      exact .inr ⟨hg, Nat.le_refl _⟩
  | true =>
      have hleft := hg.left_pos
      obtain ⟨hp, rfl, hgoing⟩ := hg
      obtain ⟨hp', hturn⟩ := ht.call hp hop
      have hpast : ∀ i, h.cur.rehashingIdx.getD 0 = i →
          AtRest (2 * h.cur.slotSize) (step h op).1 ∨ Past h.cur.slotSize i (step h op).1 →
          AtRest (2 * h.cur.slotSize) (step h op).1 ∨
            Going h.cur.slotSize (step h op).1 ∧
              left h.cur.slotSize (step h op).1 + 1 ≤ left h.cur.slotSize h := by
        rintro i rfl (hrest | hpast)
        · exact .inl hrest
        · obtain ⟨j, hj, hslots, hidx, -⟩ := past_iff.mp hpast
          refine .inr ⟨⟨hp', hslots, .inr (by rw [hidx]; exact Option.some_ne_none j)⟩, ?_⟩
          simp only [left, hidx, Option.getD_some] at hleft ⊢
          omega
      rcases hturn with ⟨hidx, hroom, -⟩ | ⟨hdue, hturn⟩ | ⟨i, hi, hturn⟩
      · rcases hgoing with hdue | hidx'
        · exact absurd hdue.2 (Nat.not_lt_of_le hroom)
        · exact absurd hidx hidx'
      · exact hpast 0 (by rw [hdue.1]; rfl) hturn
      · exact hpast i (by rw [hi]; rfl) hturn

/-- Calls that turn the rehash keep it up. -/
theorem Turns.keepsUp (ht : Turns p step turns) {h : Rehashable V} (hp : h.Pace) :
    KeepsUp step turns h := by
  refine
    { resting := fun hidx => ?_
      moving := fun i hi => ?_
      starts := fun hidx op hop => ?_
      advances := fun i hi op hop => ?_
      waits := ht.waits h
      ends := fun hgoing ops hops => ?_ }
  · refine ⟨?_, hp.resting hidx⟩
    cases hp.ok with
    | resting => rfl
    | moving hm => rw [hm.idx] at hidx; cases hidx
  · have hbound := hp.moving i hi
    have hlt := hp.ok.idx_lt hi
    have hdouble := hp.doubled
    cases hp.ok with
    | resting _ hidx => rw [hidx] at hi; cases hi
    | @moving cur b k hm =>
        obtain rfl : k = i := Option.some.inj (hm.idx.symm.trans hi)
        have hslots : b.slotSize = 2 * cur.slotSize := hdouble b rfl
        refine ⟨hm.below, b, rfl, hslots, ?_⟩
        dsimp only at hbound hlt
        omega
  · rcases (ht.call hp hop).2 with ⟨-, -, hrest⟩ | ⟨hdue, hturn⟩ | ⟨i, hi, -⟩
    · exact .inl hrest
    · exact .inr ⟨hdue.2, hturn⟩
    · rw [hidx] at hi; cases hi
  · rcases (ht.call hp hop).2 with ⟨hidx, -⟩ | ⟨hdue, -⟩ | ⟨j, hj, hturn⟩
    · rw [hidx] at hi; cases hi
    · rw [hdue.1] at hi; cases hi
    · obtain rfl : j = i := Option.some.inj (hj.symm.trans hi)
      exact hturn
  · refine trace_reaches (P := Going h.cur.slotSize) (left h.cur.slotSize)
      (fun _ hg => hg.left_pos) (fun _ op hg => ht.going op hg) ops h ⟨hp, rfl, hgoing⟩ ?_
    exact Nat.le_trans (Nat.sub_le _ _) hops

end

end Rehashable

namespace HashDict

/-- All but `CheckExists` turn the rehash. -/
def Op.turns : Op → Bool
  | .checkExists _ => false
  | _ => true

theorem turns : Rehashable.Turns DupPolicy.dict step Op.turns where
  ok h op hok := (step_simulates hok (fun _ => rfl) op).1.1
  count h op hok := by
    cases op with
    | update key val => exact Rehashable.put_count .dict hok key val
    | erase key => exact Nat.le_succ_of_le (Rehashable.erase_count .dict hok key)
    | at_ key => exact Nat.le_succ_of_le (Nat.le_of_eq (Rehashable.rehash_count .dict hok))
    | checkExists key => exact Nat.le_succ _
  outline h op hop := by
    cases op with
    | update key val => exact Rehashable.put_outline .dict h key val
    | erase key => exact Rehashable.erase_outline .dict h key
    | at_ key => rfl
    | checkExists key => cases hop
  waits h op hop := by
    cases op with
    | checkExists key => rfl
    | _ => cases hop

end HashDict

namespace HashSet

/-- All but `CheckExists` turn the rehash. -/
def Op.turns : Op → Bool
  | .checkExists _ => false
  | _ => true

theorem turns : Rehashable.Turns DupPolicy.set step Op.turns where
  ok h op hok := (step_simulates hok (fun _ => rfl) op).1.1
  count h op hok := by
    cases op with
    | insert item => exact Rehashable.put_count .set hok item ()
    | erase item => exact Nat.le_succ_of_le (Rehashable.erase_count .set hok item)
    | checkExists item => exact Nat.le_succ _
  outline h op hop := by
    cases op with
    | insert item => exact Rehashable.put_outline .set h item ()
    | erase item => exact Rehashable.erase_outline .set h item
    | checkExists item => cases hop
  waits h op hop := by
    cases op with
    | checkExists item => rfl
    | _ => cases hop

end HashSet

/-- **Incremental rehashing keeps up with insertion**, in the dictionary and in
the set, after every sequence of calls. -/
theorem rehash_keeps_up :
    (∀ ops : List HashDict.Op, Rehashable.KeepsUp HashDict.step HashDict.Op.turns
      (trace HashDict.step Rehashable.new ops).1) ∧
    (∀ ops : List HashSet.Op, Rehashable.KeepsUp HashSet.step HashSet.Op.turns
      (trace HashSet.step Rehashable.new ops).1) :=
  ⟨fun ops => HashDict.turns.keepsUp
      (trace_invariant HashDict.turns.pace ops Rehashable.new Rehashable.pace_new),
    fun ops => HashSet.turns.keepsUp
      (trace_invariant HashSet.turns.pace ops Rehashable.new Rehashable.pace_new)⟩

end LiteKV
