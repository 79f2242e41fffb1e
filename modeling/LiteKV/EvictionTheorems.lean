/-
LiteKV.EvictionTheorems — what `KeyEviction` reports, how much it removes
and what `evict` replies.

`KVContainer.Removes` says which keys an eviction took out: its `victims`.
The LRU policy reports their names. The random policy reads each name through a reference
into the pool, after the pool was moved: it reports another key, or what is
left of the last one.

The random policy counts its turns, so it removes `min n m` keys. The LRU
loop compares `n` with a count nothing changes: it goes on until the store
is empty or 25 ms are over (`evictLru_le_iff`).
-/
import LiteKV.CoreTheorems
import LiteKV.NumTheorems
import LiteKV.Net.Commands

namespace LiteKV

open Lib Lib.AssocList

namespace KVContainer

/-! ## What is taken -/

/-- The keys the random policy takes: in each turn the one that is drawn. -/
def randomVictims (e : EvictionEnv) : (num : Nat) → (i : Nat) → KVContainer → List Key
  | 0, _, _ => []
  | num + 1, i, h =>
      match h.keysPool[e.draw i h.keysPool.length]? with
      | none => []
      | some key => key :: randomVictims e num (i + 1) (h.evictOne e i).1

/-- The keys the LRU policy takes: in each turn the least recently visited of
the ten that are drawn, until the store is empty or the time is up. -/
def lruVictims (e : EvictionEnv) : (fuel : Nat) → (i : Nat) → KVContainer → List Key
  | 0, _, _ => []
  | fuel + 1, i, h =>
      match h.leastVisited (h.lruCandidates e i) with
      | none => []
      | some key =>
          key :: if e.elapsed i > 25 then [] else lruVictims e fuel (i + 1) (h.evictLruOne e i).1

/-- The keys an eviction takes. -/
def victims (h : KVContainer) (policy : EvictionPolicy) (n : Nat) (e : EvictionEnv) : List Key :=
  match policy with
  | .lru => if n = 0 then [] else lruVictims e h.keysPool.length 0 h
  | .random => randomVictims e (min h.keysPool.length n) 0 h

theorem evictRandom_victims (e : EvictionEnv) (num : Nat) : ∀ (i : Nat) {h : KVContainer}, h.Ok →
    num ≤ h.keysPool.length → Removes h (randomVictims e num i h) (evictRandom e num i h).1 := by
  induction num with
  | zero =>
    intro i h hok _
    exact hok.removes_nil
  | succ num ih =>
    intro i h hok hnum
    have hne : h.keysPool ≠ [] := List.length_pos_iff.mp (by omega)
    obtain ⟨hone, -⟩ := evictOne_removes hok hne e i
    have hleft := hone.length_pool hok
    rw [List.length_singleton] at hleft
    simp only [randomVictims, evictRandom, List.getElem?_eq_getElem (draw_lt hne e i)]
    exact hone.trans hok (ih (i + 1) hone.ok (by omega))

theorem evictLru_victims (e : EvictionEnv) (fuel : Nat) : ∀ (i : Nat) {h : KVContainer}, h.Ok →
    h.keysPool.length = fuel → Removes h (lruVictims e fuel i h) (evictLru e fuel i h).1 := by
  induction fuel with
  | zero =>
    intro i h hok _
    exact hok.removes_nil
  | succ fuel ih =>
    intro i h hok hlen
    have hne : h.keysPool ≠ [] := List.length_pos_iff.mp (by omega)
    have hempty : h.keysPool.isEmpty = false := by simpa using hne
    obtain ⟨key, hleast, hone, -⟩ := evictLruOne_removes hok hne e i
    have hleft := hone.length_pool hok
    rw [List.length_singleton] at hleft
    simp only [lruVictims, evictLru, hempty, hleast, Bool.false_eq_true, if_false]
    split
    · exact hone
    · exact hone.trans hok (ih (i + 1) hone.ok (by omega))

/-- An eviction takes out its victims and nothing else. -/
theorem keyEviction_victims {h : KVContainer} (hok : h.Ok) (policy : EvictionPolicy) (n : Nat)
    (e : EvictionEnv) : Removes h (h.victims policy n e) (h.keyEviction policy n e).1 := by
  unfold keyEviction victims
  cases policy with
  | random =>
      dsimp only
      split
      · rename_i hempty
        rw [List.isEmpty_iff.mp hempty, List.length_nil, Nat.zero_min]
        exact hok.removes_nil
      · exact evictRandom_victims e _ 0 hok (Nat.min_le_left _ n)
  | lru =>
      dsimp only
      by_cases hn : n = 0
      · rw [if_pos hn, if_pos hn, ite_self]
        exact hok.removes_nil
      · rw [if_neg hn, if_neg hn]
        split
        · rename_i hempty
          rw [List.isEmpty_iff.mp hempty, List.length_nil]
          exact hok.removes_nil
        · exact evictLru_victims e _ 0 hok rfl

/-! ## What is reported -/

/-- An eviction of `h` reports, once each, the names of the keys it removed; all
other keys keep their objects, and deleting the reported names from a
container with the same content removes the same keys. -/
structure ReportsExactly (h : KVContainer) (r : KVContainer × List Bytes) : Prop where
  once : r.2.Nodup
  names : ∀ name, name ∈ r.2 ↔
    ∃ k : Key, k.toStdString = name ∧ h.keyExists k = true ∧ r.1.keyExists k = false
  others : ∀ k, r.1.keyExists k = true → r.1.find k = h.find k
  replay : ∀ h₂ : KVContainer, h₂.Ok → h₂.view = h.view → (h₂.deleteAll r.2).1.view = r.1.view

theorem Removes.reportsExactly {h h' : KVContainer} {ks : List Key} (hok : h.Ok)
    (hr : Removes h ks h') : ReportsExactly h (h', ks.map StaticString.toStdString) := by
  have hgone : ∀ k, h.keyExists k = true ∧ h'.keyExists k = false ↔ k ∈ ks := by
    intro k
    rw [keyExists, keyExists, hr.find, hok.find_isSome]
    constructor
    · rintro ⟨hk, hf⟩
      by_contra hm
      rw [if_neg hm, ← Bool.not_eq_true, hok.find_isSome] at hf
      exact hf hk
    · intro hk
      exact ⟨hr.present k hk, by rw [if_pos hk]; rfl⟩
  refine ⟨?_, fun name => ?_, fun k hk => ?_, fun h₂ hok₂ hview => ?_⟩
  · refine List.Nodup.of_map StaticString.ofStdString ?_
    rw [hr.map_names hok]
    exact hr.nodup
  · rw [List.mem_map]
    constructor
    · rintro ⟨k, hk, hname⟩
      exact ⟨k, hname, (hgone k).mpr hk⟩
    · rintro ⟨k, hname, hk⟩
      exact ⟨k, (hgone k).mp hk, hname⟩
  · rw [keyExists, hr.find] at hk
    rw [hr.find]
    split
    · rename_i hm; simp [hm] at hk
    · rfl
  · rw [(deleteAll_spec hok₂ _).2, hr.map_names hok, hr.view, hview]

/-- The numbers and the stale memory that show the defect: the last key is
drawn, and what is left of it reads as `stale`. -/
def drawsLast (h : KVContainer) (stale : Bytes) : EvictionEnv :=
  ⟨fun _ => h.keysPool.length - 1, fun _ => stale, fun _ => 0⟩

/-- A name longer than every name of the store. -/
def freshName (h : KVContainer) : Bytes :=
  (h.keysPool.map StaticString.toStdString).flatten ++ [97]

theorem freshName_ne {h : KVContainer} {k : Key} (hk : k ∈ h.keysPool) :
    k.toStdString ≠ h.freshName := by
  intro heq
  have hsub : (k.toStdString).length ≤ ((h.keysPool.map StaticString.toStdString).flatten).length :=
    (List.sublist_flatten_of_mem (List.mem_map_of_mem hk)).length_le
  rw [heq, freshName, List.length_append, List.length_singleton] at hsub
  omega

theorem evictOne_drawsLast {h : KVContainer} (hok : h.Ok) (hne : h.keysPool ≠ []) (stale : Bytes) :
    (h.evictOne (h.drawsLast stale) 0).2 = [stale] := by
  have hpos : 0 < h.keysPool.length := List.length_pos_iff.mpr hne
  have hidx : (h.drawsLast stale).draw 0 h.keysPool.length = h.keysPool.length - 1 :=
    Nat.mod_eq_of_lt (by simp only [drawsLast]; omega)
  have hlt : h.keysPool.length - 1 < h.keysPool.length := by omega
  have hmem : h.keysPool[h.keysPool.length - 1] ∈ h.keysPool := List.getElem_mem hlt
  have hdel : (h.delete h.keysPool[h.keysPool.length - 1]).2 = true := by
    rw [(delete_spec hok _).2.1, hok.find_isSome]
    exact hmem
  have hleft := (delete_removes hok hmem).length_pool hok
  rw [List.length_singleton] at hleft
  -- one key is gone, so nothing is left at the drawn position
  have hnone :
      (h.delete h.keysPool[h.keysPool.length - 1]).1.keysPool[h.keysPool.length - 1]? = none :=
    List.getElem?_eq_none (by omega)
  simp only [evictOne, hidx, List.getElem?_eq_getElem hlt, hdel, if_true, hnone, Option.map_none,
    Option.getD_none]
  rfl

/-- **`KeyEviction` reports what it removed exactly under the LRU policy**, or
when there is nothing to remove. -/
theorem reportsExactly_iff {h : KVContainer} (hr : h.Reachable) (policy : EvictionPolicy)
    (n : Nat) :
    (∀ e : EvictionEnv, ReportsExactly h (h.keyEviction policy n e)) ↔
      policy = .lru ∨ n = 0 ∨ h.keysPool = [] := by
  have hok := hr.ok
  have hnothing : ReportsExactly h (h, []) := hok.removes_nil.reportsExactly hok
  constructor
  · intro hall
    by_contra hcon
    obtain ⟨hpol, hn, hne⟩ : policy ≠ .lru ∧ n ≠ 0 ∧ h.keysPool ≠ [] := by
      simpa only [not_or] using hcon
    obtain rfl : policy = .random := by
      cases policy with
      | random => rfl
      | lru => exact absurd rfl hpol
    have hpos : 0 < h.keysPool.length := List.length_pos_iff.mpr hne
    obtain ⟨k, hk⟩ : ∃ k, min h.keysPool.length n = k + 1 := ⟨min h.keysPool.length n - 1, by omega⟩
    have hmem : h.freshName ∈ (h.keyEviction .random n (h.drawsLast h.freshName)).2 := by
      have hempty : h.keysPool.isEmpty = false := by simpa using hne
      simp only [keyEviction, hempty, Bool.false_eq_true, if_false, hk, evictRandom,
        evictOne_drawsLast hok hne]
      exact List.mem_cons_self
    obtain ⟨key, hname, hex, -⟩ := ((hall _).names _).mp hmem
    exact freshName_ne ((hok.find_isSome key).mp hex) hname
  · intro hcond e
    unfold keyEviction
    split
    · exact hnothing
    · rename_i hne
      cases policy with
      | lru =>
          dsimp only
          split
          · exact hnothing
          · obtain ⟨ks, hks, hnames⟩ := evictLru_removes e h.keysPool.length 0 hok
            have := hks.reportsExactly hok
            rwa [← hnames] at this
      | random =>
          rcases hcond with hpol | rfl | hnil
          · cases hpol
          · rw [Nat.min_zero]
            exact hnothing
          · simp [hnil] at hne

/-- Two keys, the second visited first. -/
def twoKeys : KVContainer :=
  [(Op.setInt [97] 1, 2), (.setInt [98] 2, 1)].foldl apply new

theorem reportsExactly_twoKeys :
    twoKeys.Reachable ∧
    ((∀ e : EvictionEnv, ReportsExactly twoKeys (twoKeys.keyEviction .lru 1 e)) ↔
      EvictionPolicy.lru = .lru ∨ 1 = 0 ∨ twoKeys.keysPool = []) :=
  ⟨⟨_, rfl⟩, reportsExactly_iff ⟨_, rfl⟩ .lru 1⟩

/-- The first of two keys is drawn: it is removed, and the second is reported. -/
theorem random_reports_another_key :
    twoKeys.Reachable ∧
      ¬ ReportsExactly twoKeys
        (twoKeys.keyEviction .random 1 ⟨fun _ => 0, fun _ => [], fun _ => 0⟩) := by
  refine ⟨⟨_, rfl⟩, fun hrep => ?_⟩
  have hmem := (hrep.names [97]).mpr ⟨⟨[97]⟩, by decide, by decide +kernel, by decide +kernel⟩
  revert hmem
  decide +kernel

/-! ## How much is removed -/

/-- The LRU loop ends within `n` turns only when the store does, or the time. -/
theorem evictLru_le_iff (e : EvictionEnv) (fuel : Nat) : ∀ (i n : Nat) {h : KVContainer}, h.Ok →
    h.keysPool.length = fuel →
    ((evictLru e fuel i h).2.length ≤ n ↔ fuel ≤ n ∨ ∃ j < n, 25 < e.elapsed (i + j)) := by
  induction fuel with
  | zero =>
    intro i n h _ _
    simp [evictLru]
  | succ fuel ih =>
    intro i n h hok hlen
    have hne : h.keysPool ≠ [] := List.length_pos_iff.mp (by omega)
    obtain ⟨key, -, hone, hname⟩ := evictLruOne_removes hok hne e i
    have hleft := hone.length_pool hok
    rw [List.length_singleton] at hleft
    have hempty : h.keysPool.isEmpty = false := by simpa using hne
    simp only [evictLru, hempty, Bool.false_eq_true, if_false]
    by_cases htime : 25 < e.elapsed i
    · rw [if_pos htime, hname, List.length_singleton]
      constructor
      · intro hn
        exact Or.inr ⟨0, by omega, htime⟩
      · rintro (hn | ⟨j, hj, -⟩) <;> omega
    · rw [if_neg htime, hname]
      cases n with
      | zero => simp
      | succ n =>
        have ihn := ih (i + 1) n hone.ok (by omega)
        simp only [List.singleton_append, List.length_cons, Nat.add_le_add_iff_right, ihn]
        refine or_congr_right ⟨?_, ?_⟩
        · rintro ⟨j, hj, ht⟩
          exact ⟨j + 1, by omega, by rwa [← Nat.add_right_comm, Nat.add_assoc] at ht⟩
        · rintro ⟨j, hj, ht⟩
          cases j with
          | zero => exact absurd ht htime
          | succ j => exact ⟨j, by omega, by rwa [Nat.add_right_comm, Nat.add_assoc]⟩

/-- The number of keys an eviction removes. -/
def removed (h : KVContainer) (policy : EvictionPolicy) (n : Nat) (e : EvictionEnv) : Nat :=
  h.numItems - (h.keyEviction policy n e).1.numItems

/-- As many as it reports names. -/
theorem removed_eq {h : KVContainer} (hok : h.Ok) (policy : EvictionPolicy) (n : Nat)
    (e : EvictionEnv) : h.removed policy n e = (h.keyEviction policy n e).2.length := by
  obtain ⟨ks, hks, hlen⟩ := keyEviction_removes hok policy n e
  have hpool := hks.length_pool hok
  rw [removed, hok.numItems_eq, hks.ok.numItems_eq, hlen]
  omega

theorem removed_random {h : KVContainer} (hok : h.Ok) (n : Nat) (e : EvictionEnv) :
    h.removed .random n e = min n h.numItems := by
  rw [removed_eq hok, hok.numItems_eq, keyEviction]
  split
  · rename_i hempty
    rw [List.isEmpty_iff.mp hempty]
    simp
  · obtain ⟨ks, -, -, hnames⟩ := evictRandom_removes e _ 0 hok (Nat.min_le_left _ n)
    rw [hnames, Nat.min_comm]

/-- The LRU policy removes at most `k` keys when it is asked for none, when
there are no more, or when the time is over by then. -/
theorem removed_lru_le_iff {h : KVContainer} (hok : h.Ok) (n k : Nat) (e : EvictionEnv) :
    h.removed .lru n e ≤ k ↔ n = 0 ∨ h.numItems ≤ k ∨ ∃ j < k, 25 < e.elapsed j := by
  rw [removed_eq hok, hok.numItems_eq, keyEviction]
  split
  · rename_i hempty
    rw [List.isEmpty_iff.mp hempty]
    simp
  · split
    · rename_i hn
      simp [hn]
    · rename_i hn
      rw [evictLru_le_iff e _ 0 k hok rfl]
      simp [hn]

end KVContainer

/-! ## `evict` -/

/-- `evict` replies `(int)ans.size() - 1`, with `del` in `ans` when the command
is logged. -/
theorem evictCommand_reply {s : Engine} (hok : s.holder.Ok) (ctx : Ctx) {word : Bytes} {n : Nat}
    (hn : canConvertToUInt64 word = some n) :
    (evictCommand ctx s [ascii "evict", word]).2
      = .ok (packIntReply (DList.toInt32 (s.holder.removed ctx.policy n ctx.evict
          + if ctx.sync then 1 else 0) - 1)) := by
  have hlen := KVContainer.removed_eq hok ctx.policy n ctx.evict
  have harg : arg [ascii "evict", word] 1 = word := rfl
  have hsyn : checkSyntax [ascii "evict", word] 1 0 false = true := by simp [checkSyntax]
  simp only [evictCommand, checkSyntaxHelper, hsyn, if_true, harg, hn, hlen]
  cases ctx.sync <;> simp

theorem packIntReply_injective {v w : Int} (h : packIntReply v = packIntReply w) : v = w := by
  rw [packIntReply, packIntReply, List.append_assoc, List.append_assoc] at h
  exact intToString_injective (List.append_cancel_right (List.append_cancel_left h))

/-- An eviction stays within its quota, the random one uses it up, and `evict`
replies with the number of keys that are gone. -/
def EvictsAsAsked (s : Engine) (ctx : Ctx) (word : Bytes) (n : Nat) : Prop :=
  let gone := s.holder.removed ctx.policy n ctx.evict
  gone ≤ n ∧ (ctx.policy = .random → gone = min n s.holder.numItems) ∧
    (evictCommand ctx s [ascii "evict", word]).2 = .ok (packIntReply gone)

/-- The command is logged (`sync && appendable`), the number of removed keys
and one more fit an `int`, and an LRU eviction of some keys ends in time:
the store has no more than `n` keys, or 25 ms are over within `n` turns. -/
def EvictionFits (s : Engine) (ctx : Ctx) (n : Nat) : Prop :=
  ctx.sync = true ∧
    match ctx.policy with
    | .random => min n s.holder.numItems < 2 ^ 31 - 1
    | .lru => n = 0 ∨
        (s.holder.numItems ≤ n ∨ ∃ j < n, 25 < ctx.evict.elapsed j) ∧
          (s.holder.numItems ≤ 2 ^ 31 - 2 ∨ ∃ j < 2 ^ 31 - 2, 25 < ctx.evict.elapsed j)

/-- **`evict` does what it is asked exactly when the eviction fits.** -/
theorem evictsAsAsked_iff {s : Engine} (hr : s.holder.Reachable) (ctx : Ctx) {word : Bytes}
    {n : Nat} (hn : canConvertToUInt64 word = some n) :
    EvictsAsAsked s ctx word n ↔ EvictionFits s ctx n := by
  have hok := hr.ok
  have hreply : (evictCommand ctx s [ascii "evict", word]).2
      = .ok (packIntReply (s.holder.removed ctx.policy n ctx.evict)) ↔
      ctx.sync = true ∧ s.holder.removed ctx.policy n ctx.evict ≤ 2 ^ 31 - 2 := by
    rw [evictCommand_reply hok ctx hn]
    generalize s.holder.removed ctx.policy n ctx.evict = gone
    constructor
    · intro heq
      have hint := packIntReply_injective (Except.ok.inj heq)
      cases hs : ctx.sync with
      | false =>
          simp only [hs, DList.toInt32, Bool.false_eq_true, if_false] at hint
          omega
      | true =>
          simp only [hs, DList.toInt32, if_true] at hint
          exact ⟨rfl, by omega⟩
    · rintro ⟨hs, hle⟩
      have hint : DList.toInt32 (gone + 1) - 1 = gone := by
        simp only [DList.toInt32]
        omega
      simp only [hs, if_true, hint]
  simp only [EvictsAsAsked, EvictionFits, hreply]
  cases hp : ctx.policy with
  | random =>
      simp only [KVContainer.removed_random hok]
      constructor
      · rintro ⟨-, -, hs, hle⟩
        exact ⟨hs, by omega⟩
      · rintro ⟨hs, hlt⟩
        exact ⟨Nat.min_le_left _ _, fun _ => trivial, hs, by omega⟩
  | lru =>
      simp only [KVContainer.removed_lru_le_iff hok, reduceCtorEq, false_imp_iff, true_and]
      constructor
      · rintro ⟨hq, hs, hi⟩
        refine ⟨hs, ?_⟩
        rcases hq with h0 | hq
        · exact Or.inl h0
        · rcases hi with h0 | hi
          · exact Or.inl h0
          · exact Or.inr ⟨hq, hi⟩
      · rintro ⟨hs, h0 | ⟨hq, hi⟩⟩
        · exact ⟨Or.inl h0, hs, Or.inl h0⟩
        · exact ⟨Or.inr hq, hs, Or.inr hi⟩

/-- A process with two keys. -/
def twoKeysEngine : Engine := { Engine.new with holder := KVContainer.twoKeys }

/-- The first key is drawn and the clock does not move. -/
def drawsFirst (policy : KVContainer.EvictionPolicy) (sync : Bool) : Ctx :=
  ⟨1000, sync, policy, ⟨fun _ => 0, fun _ => [], fun _ => 0⟩, none, fun _ => []⟩

theorem evictsAsAsked_twoKeys :
    twoKeysEngine.holder.Reachable ∧ canConvertToUInt64 (ascii "1") = some 1 ∧
      (EvictsAsAsked twoKeysEngine (drawsFirst .random true) (ascii "1") 1 ↔
        EvictionFits twoKeysEngine (drawsFirst .random true) 1) :=
  have hr : twoKeysEngine.holder.Reachable := ⟨_, rfl⟩
  have hn : canConvertToUInt64 (ascii "1") = some 1 := by decide +kernel
  ⟨hr, hn, evictsAsAsked_iff hr (drawsFirst .random true) hn⟩

/-- `evict 1` under the LRU policy removes both keys; `evict 1` without an AOF
removes one and replies 0. -/
theorem evict_exceeds_quota_and_misreports :
    twoKeysEngine.holder.Reachable ∧
      ¬ EvictsAsAsked twoKeysEngine (drawsFirst .lru true) (ascii "1") 1 ∧
      ¬ EvictsAsAsked twoKeysEngine (drawsFirst .random false) (ascii "1") 1 := by
  refine ⟨⟨_, rfl⟩, fun h => ?_, fun h => ?_⟩
  · have hquota := h.1
    revert hquota
    decide +kernel
  · have hreply := h.2.2
    revert hreply
    decide +kernel

end LiteKV
