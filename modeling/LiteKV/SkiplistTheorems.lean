/-
LiteKV.SkiplistTheorems — the skiplist is a sorted set.

The comparator is the comparison of a key in a linear order: the score, the
bytes in front of the first NUL, the length. From there on only keys are
compared.

`Sorted` gives the nodes in order and says that the chain of every level
goes through exactly the nodes above it. A search for a position walks each
level to the last node in front of it, `before l xs`, because the levels
below only add nodes. So the recorded path is what the two changes of a
linked list need at every level at once: `Spliced` and `Unlinked` describe
the links after the loops of `Insert` and `Remove`, and keep `Sorted`.

`setStep` is the set itself. The skiplist returns what the set returns, in
every run.
-/
import LiteKV.Skiplist
import LiteKV.Lib.Chain
import LiteKV.Lib.Run
import Mathlib.Data.List.Lex
import Mathlib.Data.List.Perm.Subperm
import Mathlib.Data.Prod.Lex
import Mathlib.Data.Set.Insert

namespace LiteKV

open Lib

/-! ## The order of the elements -/

/-- What `strncmp` and the lengths see of some data: the bytes in front of the
first NUL, and the length. -/
def dataKey (d : Bytes) : List Nat ×ₗ Nat := toLex ((cStr d).map UInt8.toNat, d.length)

/-- What the comparator sees of an element. -/
def SKElem.key (e : SKElem) : Int ×ₗ List Nat ×ₗ Nat :=
  toLex (e.score.toInt, dataKey e.data.toStdString)

theorem cStr_cons (x : UInt8) (d : Bytes) : cStr (x :: d) = if x = 0 then [] else x :: cStr d := by
  unfold cStr
  rw [List.takeWhile_cons]
  by_cases hx : x = 0 <;> simp [hx]

theorem dataKey_lt_iff {a b : Bytes} : dataKey a < dataKey b ↔
    (cStr a).map UInt8.toNat < (cStr b).map UInt8.toNat ∨
      (cStr a).map UInt8.toNat = (cStr b).map UInt8.toNat ∧ a.length < b.length :=
  Prod.Lex.toLex_lt_toLex

theorem dataKey_eq_iff {a b : Bytes} : dataKey a = dataKey b ↔
    (cStr a).map UInt8.toNat = (cStr b).map UInt8.toNat ∧ a.length = b.length := by
  rw [dataKey, dataKey, toLex_inj, Prod.mk.injEq]

/-- `strncmp` and the lengths compare the keys of the data. -/
theorem strncmp_spec : ∀ a b : Bytes,
    (strncmp (min a.length b.length) a b < 0 ∨
        strncmp (min a.length b.length) a b = 0 ∧ a.length < b.length ↔ dataKey a < dataKey b) ∧
    (strncmp (min a.length b.length) a b = 0 ∧ a.length = b.length ↔ dataKey a = dataKey b)
  | [], [] => by decide
  | [], y :: b => by
      rw [dataKey_lt_iff, dataKey_eq_iff]
      rw [cStr_cons]
      split <;> simp [strncmp, cStr]
  | x :: a, [] => by
      rw [dataKey_lt_iff, dataKey_eq_iff]
      rw [cStr_cons]
      split <;> simp [strncmp, cStr]
  | x :: a, y :: b => by
      obtain ⟨hlt, heq⟩ := strncmp_spec a b
      rw [dataKey_lt_iff] at hlt ⊢
      rw [dataKey_eq_iff] at heq ⊢
      have hmin : min (x :: a).length (y :: b).length = min a.length b.length + 1 := by
        simp only [List.length_cons]
        omega
      rw [hmin, strncmp, cStr_cons, cStr_cons]
      simp only [List.headD_cons, List.tail_cons, List.length_cons]
      by_cases hxy : x = y
      · subst hxy
        by_cases hx : x = 0
        · -- both end here
          subst hx
          simp
        · simp only [ne_eq, not_true_eq_false, if_false, hx, List.map_cons, List.cons_lt_cons_iff,
            lt_irrefl, true_and, false_or, List.cons.injEq, Nat.add_lt_add_iff_right,
            Nat.add_right_cancel_iff]
          exact ⟨hlt, heq⟩
      · have hne : x.toNat ≠ y.toNat := fun h => hxy (UInt8.toNat_inj.mp h)
        have hsub : ((x.toNat : Int) - y.toNat < 0 ↔ x.toNat < y.toNat) ∧
            ¬ (x.toNat : Int) - y.toNat = 0 := by omega
        simp only [ne_eq, hxy, not_false_eq_true, if_true, hsub.1, hsub.2, false_and, or_false]
        by_cases hx : x = 0
        · have hy : ¬ y = 0 := fun hy => hxy (hx.trans hy.symm)
          have hpos : 0 < y.toNat := Nat.pos_of_ne_zero fun h => hy (UInt8.toNat_inj.mp h)
          simp [hx, hy, hpos]
        · by_cases hy : y = 0
          · simp [hx, hy]
          · simp [hx, hy, List.cons_lt_cons_iff, hne]

/-- The sign of a comparison. -/
def signOf {K : Type} [LinearOrder K] (x y : K) : Int :=
  if x < y then -1 else if x = y then 0 else 1

/-- **The comparator compares the keys.** -/
theorem skComparator_eq (a b : SKElem) : skComparator a b = signOf a.key b.key := by
  obtain ⟨hlt, heq⟩ := strncmp_spec a.data.toStdString b.data.toStdString
  have hkey : a.key < b.key ↔ a.score.toInt < b.score.toInt ∨ a.score.toInt = b.score.toInt ∧
      dataKey a.data.toStdString < dataKey b.data.toStdString := Prod.Lex.toLex_lt_toLex
  have hkeys : a.key = b.key ↔ a.score.toInt = b.score.toInt ∧
      dataKey a.data.toStdString = dataKey b.data.toStdString := by
    rw [SKElem.key, SKElem.key, toLex_inj, Prod.mk.injEq]
  have hscore : a.score = b.score ↔ a.score.toInt = b.score.toInt := Int64.toInt_inj.symm
  have hscores : a.score < b.score ↔ a.score.toInt < b.score.toInt := Int64.lt_iff_toInt_lt
  unfold skComparator signOf
  simp only [hkey, hkeys, ← hlt, ← heq, hscore, hscores]
  by_cases h : a.score.toInt = b.score.toInt
  · simp only [h, if_true, lt_irrefl, false_or, true_and]
    generalize strncmp _ _ _ = r
    split_ifs <;> omega
  · simp only [h, if_false, false_and, or_false]

theorem signOf_pos {K : Type} [LinearOrder K] {x y : K} : signOf x y > 0 ↔ y < x := by
  unfold signOf
  split_ifs with h1 h2
  · simpa using h1.le
  · simp [h2]
  · simpa using lt_of_le_of_ne (not_lt.mp h1) (Ne.symm h2)

theorem signOf_zero {K : Type} [LinearOrder K] {x y : K} : signOf x y = 0 ↔ x = y := by
  unfold signOf
  split_ifs with h1 h2
  · simpa using h1.ne
  · simpa using h2
  · simpa using h2

namespace Skiplist

/-! ## Reading the heap -/

/-- The link of a place at a level. -/
def nextOf (s : Skiplist) (l : Nat) (p : SKPtr) : Option SKPtr :=
  (s.heap p).bind fun n => n.nexts[l]?.join

/-- The link back. -/
def prevOf (s : Skiplist) (p : SKPtr) : Option SKPtr := (s.heap p).bind SKNode.prev

/-- The level of a node. -/
def levelOf (s : Skiplist) (p : SKPtr) : Nat := ((s.heap p).map SKNode.level).getD 0

/-- The element of a node. -/
def elemOf (s : Skiplist) (p : SKPtr) : SKElem := ((s.heap p).map SKNode.elem).getD ⟨0, none⟩

/-- The key of a node. -/
def keyOf (s : Skiplist) (p : SKPtr) : Int ×ₗ List Nat ×ₗ Nat := (s.elemOf p).key

/-- The nodes of a list that have links at a level. -/
def above (s : Skiplist) (l : Nat) (order : List SKPtr) : List SKPtr :=
  order.filter fun p => l < s.levelOf p

/-- A node with a link for each of its levels. -/
structure Live (s : Skiplist) (p : SKPtr) : Prop where
  old : p < s.fresh
  links : ∃ n, s.heap p = some n ∧ n.nexts.length = n.level

section

variable {s : Skiplist} {p : SKPtr}

theorem Live.node (h : s.Live p) : ∃ n, s.node p = .ok n ∧ n.elem = s.elemOf p ∧
    n.level = s.levelOf p := by
  obtain ⟨n, hn, -⟩ := h.links
  refine ⟨n, ?_, ?_, ?_⟩
  · rw [Skiplist.node, hn]
  · rw [elemOf, hn]
    rfl
  · rw [levelOf, hn]
    rfl

theorem Live.next (h : s.Live p) {l : Nat} (hl : l < s.levelOf p) :
    s.next p l = .ok (s.nextOf l p) := by
  obtain ⟨n, hn, hlen⟩ := h.links
  have hlt : l < n.nexts.length := by
    rw [levelOf, hn] at hl
    rw [hlen]
    exact hl
  simp only [Skiplist.next, Skiplist.node, nextOf, hn, Run.ok_bind, Option.bind_some,
    List.getElem?_eq_getElem hlt, Option.join_some]

theorem Live.compareAt (h : s.Live p) (e : SKElem) :
    s.compareAt e p = .ok (signOf e.key (s.elemOf p).key) := by
  obtain ⟨n, hn, he, -⟩ := h.node
  rw [Skiplist.compareAt, hn, Run.ok_bind, skComparator_eq, he]

end

theorem isTarget_eq {s : Skiplist} {p : Option SKPtr} (hp : ∀ q ∈ p, s.Live q) (e : SKElem) :
    s.isTarget e p = .ok (decide (∃ q ∈ p, s.keyOf q = e.key)) := by
  cases p with
  | none => simp [isTarget]
  | some q =>
      have hsign :
          (signOf e.key (s.elemOf q).key == 0) = decide (∃ r ∈ some q, s.keyOf r = e.key) := by
        rw [Bool.eq_iff_iff, beq_iff_eq, signOf_zero, decide_eq_true_eq]
        simp only [Option.mem_some_iff, exists_eq_left', keyOf, eq_comm]
      show (do .ok ((← s.compareAt e q) == 0)) = _
      rw [(hp q rfl).compareAt e, Run.ok_bind, hsign]

/-! ## Changing a link -/

/-- Only links were changed. -/
structure Relinks (s s' : Skiplist) : Prop where
  level : s'.levelOf = s.levelOf
  elem : s'.elemOf = s.elemOf
  live : ∀ p, s.Live p → s'.Live p
  fresh : s'.fresh = s.fresh
  head : s'.head = s.head
  count : s'.count = s.count
  curMaxLevel : s'.curMaxLevel = s.curMaxLevel

theorem Relinks.refl (s : Skiplist) : Relinks s s := ⟨rfl, rfl, fun _ h => h, rfl, rfl, rfl, rfl⟩

theorem Relinks.trans {s s₁ s₂ : Skiplist} (h₁ : Relinks s s₁) (h₂ : Relinks s₁ s₂) :
    Relinks s s₂ :=
  ⟨h₂.level.trans h₁.level, h₂.elem.trans h₁.elem, fun p h => h₂.live p (h₁.live p h),
    h₂.fresh.trans h₁.fresh, h₂.head.trans h₁.head, h₂.count.trans h₁.count,
    h₂.curMaxLevel.trans h₁.curMaxLevel⟩

theorem Relinks.above {s s' : Skiplist} (h : Relinks s s') (l : Nat) (order : List SKPtr) :
    s'.above l order = s.above l order := by rw [Skiplist.above, Skiplist.above, h.level]

/-- A write that keeps the element, the level and the number of links. -/
theorem write_relinks {s : Skiplist} {p : SKPtr} {n n' : SKNode} (hn : s.heap p = some n)
    (he : n'.elem = n.elem) (hl : n'.level = n.level) (hw : n'.nexts.length = n.nexts.length) :
    Relinks s (s.write p n') := by
  refine ⟨funext fun q => ?_, funext fun q => ?_, fun q hq => ⟨hq.old, ?_⟩, rfl, rfl, rfl, rfl⟩
  · simp only [levelOf, write, Function.update_apply]
    split
    · rename_i h
      rw [h, hn]
      exact hl
    · rfl
  · simp only [elemOf, write, Function.update_apply]
    split
    · rename_i h
      rw [h, hn]
      exact he
    · rfl
  · obtain ⟨m, hm, hlen⟩ := hq.links
    simp only [write, Function.update_apply]
    split
    · rename_i h
      rw [h, hn] at hm
      cases hm
      exact ⟨n', rfl, by rw [hw, hl, hlen]⟩
    · exact ⟨m, hm, hlen⟩

theorem setNext_spec {s : Skiplist} {p : SKPtr} (h : s.Live p) {l : Nat} (hl : l < s.levelOf p)
    (q : Option SKPtr) : ∃ s', s.setNext p l q = .ok s' ∧ Relinks s s' ∧ s'.prevOf = s.prevOf ∧
      ∀ l' p', s'.nextOf l' p' = if l' = l ∧ p' = p then q else s.nextOf l' p' := by
  obtain ⟨n, hn, hlen⟩ := h.links
  have hlt : l < n.nexts.length := by
    rw [levelOf, hn] at hl
    rw [hlen]
    exact hl
  refine ⟨s.write p { n with nexts := n.nexts.set l q }, ?_, ?_, funext fun p' => ?_,
    fun l' p' => ?_⟩
  · simp only [setNext, node, hn, Run.ok_bind, if_pos hlt]
  · exact write_relinks hn rfl rfl List.length_set
  · simp only [prevOf, write, Function.update_apply]
    split
    · rename_i hp
      rw [hp, hn]
      rfl
    · rfl
  · simp only [nextOf, write, Function.update_apply]
    by_cases hp : p' = p
    · subst hp
      rw [if_pos rfl, hn, Option.bind_some, Option.bind_some, List.getElem?_set]
      by_cases hl' : l' = l
      · subst hl'
        simp [hlt]
      · simp [hl', Ne.symm hl']
    · simp [hp]

theorem setPrev_spec {s : Skiplist} {p : SKPtr} (h : s.Live p) (q : SKPtr) :
    ∃ s', s.setPrev p q = .ok s' ∧ Relinks s s' ∧ s'.nextOf = s.nextOf ∧
      ∀ p', s'.prevOf p' = if p' = p then some q else s.prevOf p' := by
  obtain ⟨n, hn, hlen⟩ := h.links
  refine ⟨s.write p { n with prev := some q }, ?_, ?_, funext fun l => funext fun p' => ?_,
    fun p' => ?_⟩
  · simp only [setPrev, node, hn, Run.ok_bind]
  · exact write_relinks hn rfl rfl rfl
  · simp only [nextOf, write, Function.update_apply]
    split
    · rename_i hp
      rw [hp, hn]
      rfl
    · rfl
  · simp only [prevOf, write, Function.update_apply]
    split
    · rename_i hp
      rfl
    · rfl

theorem setPrevOf_spec {s : Skiplist} {p : Option SKPtr} (h : ∀ a ∈ p, s.Live a) (q : SKPtr) :
    ∃ s', s.setPrevOf p q = .ok s' ∧ Relinks s s' ∧ s'.nextOf = s.nextOf ∧
      ∀ p', s'.prevOf p' = if p' ∈ p then some q else s.prevOf p' := by
  cases p with
  | none => exact ⟨s, rfl, .refl s, rfl, fun p' => by rw [if_neg (by simp)]⟩
  | some a =>
      obtain ⟨s', hs', hrel, hnext, hprev⟩ := setPrev_spec (h a rfl) q
      refine ⟨s', hs', hrel, hnext, fun p' => ?_⟩
      rw [hprev]
      simp only [Option.mem_some_iff, eq_comm]

/-! ## The invariant -/

/-- The largest level of some nodes, 0 for none. -/
def maxLevel (s : Skiplist) (order : List SKPtr) : Nat := (order.map s.levelOf).foldr max 0

/-- The skiplist has the nodes `order`, from the first to the last. -/
structure Sorted (s : Skiplist) (order : List SKPtr) : Prop where
  nodup : (s.head :: order).Nodup
  live : ∀ p ∈ s.head :: order, s.Live p
  levels : ∀ p ∈ order, 1 ≤ s.levelOf p ∧ s.levelOf p ≤ kMaxLevel
  headLevel : s.levelOf s.head = kMaxLevel
  /-- the chain of a level goes through the nodes above it -/
  chain : ∀ l < kMaxLevel, Chain (s.nextOf l) s.head (s.above l order)
  back : Back s.prevOf s.head order
  increasing : order.Pairwise fun p q => s.keyOf p < s.keyOf q
  count : s.count = order.length
  curMaxLevel : s.curMaxLevel = s.maxLevel order

theorem sorted_new : new.Sorted [] := by
  have hlive : new.Live 0 := ⟨by decide, _, rfl, rfl⟩
  refine ⟨by simp, fun p hp => ?_, (fun p hp => nomatch hp), rfl, fun l hl => ?_, trivial, .nil,
    rfl, rfl⟩
  · rw [List.mem_singleton.mp hp]
    exact hlive
  · show new.nextOf l 0 = none
    rw [nextOf, show new.heap 0 = some (SKNode.new ⟨Int64.minValue, some []⟩ kMaxLevel) from rfl,
      Option.bind_some, SKNode.new, List.getElem?_replicate, if_pos hl]
    rfl

section

variable {s : Skiplist} {order : List SKPtr} (h : s.Sorted order)

include h

theorem Sorted.mem_above {l : Nat} {p : SKPtr} (hl : l < kMaxLevel)
    (hp : p ∈ s.head :: s.above l order) : s.Live p ∧ l < s.levelOf p := by
  rcases List.mem_cons.mp hp with rfl | hp
  · exact ⟨h.live _ List.mem_cons_self, by rw [h.headLevel]; exact hl⟩
  · obtain ⟨hp, hlt⟩ := List.mem_filter.mp hp
    exact ⟨h.live p (List.mem_cons_of_mem _ hp), of_decide_eq_true hlt⟩

theorem Sorted.above_zero : s.above 0 order = order := by
  rw [above, List.filter_eq_self]
  intro p hp
  have := h.levels p hp
  exact decide_eq_true (by omega)

/-- There are not more nodes than were allocated. -/
theorem Sorted.length_lt : order.length < s.fresh := by
  have hsub : (s.head :: order) ⊆ List.range s.fresh := fun p hp =>
    List.mem_range.mpr (h.live p hp).old
  have hlen := (List.Nodup.subperm h.nodup hsub).length_le
  rw [List.length_cons, List.length_range] at hlen
  exact hlen

/-- The nodes from a key on. -/
theorem Sorted.split_at (k : Int ×ₗ List Nat ×ₗ Nat) : ∃ xs ys, order = xs ++ ys ∧
    (∀ p ∈ xs, s.keyOf p < k) ∧ ∀ p ∈ ys, k ≤ s.keyOf p := by
  have hsorted := h.increasing
  clear h
  induction order with
  | nil => exact ⟨[], [], rfl, (fun _ hp => nomatch hp), fun _ hp => nomatch hp⟩
  | cons p order ih =>
      rw [List.pairwise_cons] at hsorted
      by_cases hp : s.keyOf p < k
      · obtain ⟨xs, ys, rfl, hxs, hys⟩ := ih hsorted.2
        refine ⟨p :: xs, ys, rfl, fun q hq => ?_, hys⟩
        rcases List.mem_cons.mp hq with rfl | hq
        · exact hp
        · exact hxs q hq
      · refine ⟨[], p :: order, rfl, (fun _ hq => nomatch hq), fun q hq => ?_⟩
        rcases List.mem_cons.mp hq with rfl | hq
        · exact not_lt.mp hp
        · exact (not_lt.mp hp).trans (hsorted.1 q hq).le

end

theorem above_append (s : Skiplist) (l : Nat) (xs ys : List SKPtr) :
    s.above l (xs ++ ys) = s.above l xs ++ s.above l ys := List.filter_append ..

theorem above_mono {s : Skiplist} {xs : List SKPtr} {l : Nat} {p : SKPtr}
    (hp : p ∈ s.head :: s.above (l + 1) xs) :
    p ∈ s.head :: s.above l xs := by
  rcases List.mem_cons.mp hp with rfl | hp
  · exact List.mem_cons_self
  · obtain ⟨hp, hlt⟩ := List.mem_filter.mp hp
    have hlt := of_decide_eq_true hlt
    exact List.mem_cons_of_mem _ (List.mem_filter.mpr ⟨hp, decide_eq_true (by omega)⟩)

/-- The last node in front of a position, at a level. -/
def before (s : Skiplist) (l : Nat) (xs : List SKPtr) : SKPtr := (s.above l xs).getLastD s.head

/-! ## Searching -/

/-- One level of a search: it goes through the nodes `suf` and stops in front of
the others. -/
theorem walk_spec {s : Skiplist} {go : SKElem → Bool} {l : Nat} {ys : List SKPtr} :
    ∀ (suf : List SKPtr) (fuel : Nat) (cur : SKPtr), Chain (s.nextOf l) cur (suf ++ ys) →
      (∀ p ∈ cur :: (suf ++ ys), s.Live p ∧ l < s.levelOf p) →
      (∀ p ∈ suf, go (s.elemOf p) = true) → (∀ y ∈ ys, go (s.elemOf y) = false) →
      suf.length < fuel → s.walk go l fuel cur = .ok (suf.getLastD cur)
  | _, 0, _, _, _, _, _, hfuel => by omega
  | [], fuel + 1, cur, hchain, hlive, _, hstop, _ => by
      have hcur := hlive cur List.mem_cons_self
      rw [walk, hcur.1.next hcur.2, Run.ok_bind]
      cases ys with
      | nil =>
          rw [show s.nextOf l cur = none from hchain]
          rfl
      | cons y ys =>
          rw [show s.nextOf l cur = some y from hchain.1]
          obtain ⟨n, hn, he, -⟩ :=
            (hlive y (List.mem_cons_of_mem cur List.mem_cons_self)).1.node
          simp only [hn, Run.ok_bind, he, hstop y List.mem_cons_self, Bool.false_eq_true, if_false]
          rfl
  | q :: suf, fuel + 1, cur, hchain, hlive, hgo, hstop, hfuel => by
      have hcur := hlive cur List.mem_cons_self
      rw [walk, hcur.1.next hcur.2, Run.ok_bind, hchain.1]
      obtain ⟨n, hn, he, -⟩ := (hlive q (List.mem_cons_of_mem cur List.mem_cons_self)).1.node
      simp only [hn, Run.ok_bind, he, hgo q List.mem_cons_self, if_true]
      rw [List.getLastD_cons]
      exact walk_spec suf fuel q hchain.2 (fun p hp => hlive p (List.mem_cons_of_mem cur hp))
        (fun p hp => hgo p (List.mem_cons_of_mem q hp)) hstop
        (Nat.lt_of_succ_lt_succ hfuel)

section

variable {s : Skiplist} {order xs ys : List SKPtr} (h : s.Sorted order) (horder : order = xs ++ ys)
  {go : SKElem → Bool} (hgo : ∀ p ∈ xs, go (s.elemOf p) = true)
  (hstop : ∀ p ∈ ys, go (s.elemOf p) = false)

include h horder hgo hstop

theorem walk_level {l : Nat} (hl : l < kMaxLevel) {cur : SKPtr}
    (hcur : cur ∈ s.head :: s.above l xs) :
    s.walk go l (s.fresh + 1) cur = .ok (s.before l xs) := by
  have hchain := h.chain l hl
  rw [horder, above_append] at hchain
  obtain ⟨suf, hsuf, hfrom, hlast⟩ := hchain.from_mem hcur
  have hlen : suf.length ≤ order.length := by
    have h1 := hsuf.length_le
    have h2 : (s.above l xs).length ≤ xs.length := List.length_filter_le _ _
    rw [horder, List.length_append]
    omega
  have hfresh := h.length_lt
  rw [before, ← hlast]
  refine walk_spec suf _ cur hfrom (fun p hp => h.mem_above hl ?_) (fun p hp => ?_) (fun y hy => ?_)
    (by omega)
  · rw [horder, above_append]
    rcases List.mem_cons.mp hp with rfl | hp
    · rcases List.mem_cons.mp hcur with rfl | hcur
      · exact List.mem_cons_self
      · exact List.mem_cons_of_mem _ (List.mem_append_left _ hcur)
    · refine List.mem_cons_of_mem _ ?_
      rcases List.mem_append.mp hp with hp | hp
      · exact List.mem_append_left _ (hsuf.subset hp)
      · exact List.mem_append_right _ hp
  · exact hgo p (List.mem_of_mem_filter (hsuf.subset hp))
  · exact hstop y (List.mem_of_mem_filter hy)

/-- All levels of a search. -/
theorem descend_spec : ∀ (levels : Nat) (cur : SKPtr) (path : SKPath), levels ≤ kMaxLevel →
    path.length = kMaxLevel → (∀ l, levels = l + 1 → cur ∈ s.head :: s.above l xs) →
    ∃ path', s.descend go levels cur path = .ok (if levels = 0 then cur else s.before 0 xs, path') ∧
      (∀ l < levels, path'[l]? = some (some (s.before l xs))) ∧
      ∀ l, levels ≤ l → path'[l]? = path[l]?
  | 0, cur, path, _, _, _ => ⟨path, rfl, (fun l hl => by omega), fun _ _ => rfl⟩
  | l + 1, cur, path, hle, hlen, hcur => by
      have hmem : s.before l xs ∈ s.head :: s.above l xs := Chain.getLastD_mem _ _
      obtain ⟨path', hres, hset, hkeep⟩ := descend_spec l (s.before l xs)
        (path.set l (some (s.before l xs))) (by omega) (by rw [List.length_set, hlen]) (by
          rintro l' rfl
          exact above_mono hmem)
      refine ⟨path', ?_, fun l' hl' => ?_, fun l' hl' => ?_⟩
      · rw [descend, walk_level h horder hgo hstop (by omega) (hcur l rfl), Run.ok_bind, hres,
          if_neg (Nat.succ_ne_zero l)]
        split
        · rename_i hl
          rw [hl]
        · rfl
      · by_cases hll : l' < l
        · exact hset l' hll
        · obtain rfl : l' = l := by omega
          rw [hkeep l' (Nat.le_refl _), List.getElem?_set_self (by omega)]
      · rw [hkeep l' (by omega), List.getElem?_set_ne (by omega)]

end

section

variable {s : Skiplist} {order xs ys : List SKPtr} (h : s.Sorted order) (horder : order = xs ++ ys)

include h horder

/-- The link behind a position. -/
theorem Sorted.next_before {l : Nat} (hl : l < kMaxLevel) :
    s.nextOf l (s.before l xs) = (s.above l ys).head? := by
  have hchain := h.chain l hl
  rw [horder, above_append] at hchain
  exact hchain.behind.next_start

theorem Sorted.before_mem (l : Nat) (hl : l < kMaxLevel) :
    s.before l xs ∈ s.head :: order ∧ s.Live (s.before l xs) ∧ l < s.levelOf (s.before l xs) := by
  have hmem : s.before l xs ∈ s.head :: s.above l xs := Chain.getLastD_mem _ _
  have hmem' : s.before l xs ∈ s.head :: s.above l order := by
    rcases List.mem_cons.mp hmem with heq | hin
    · exact heq ▸ List.mem_cons_self
    · refine List.mem_cons_of_mem _ ?_
      rw [horder, above_append]
      exact List.mem_append_left _ hin
  refine ⟨?_, h.mem_above hl hmem'⟩
  rcases List.mem_cons.mp hmem' with heq | hin
  · exact heq ▸ List.mem_cons_self
  · exact List.mem_cons_of_mem _ (List.mem_of_mem_filter hin)

theorem Sorted.above_zero_right : s.above 0 ys = ys := by
  rw [above, List.filter_eq_self]
  intro p hp
  have := h.levels p (horder ▸ List.mem_append_right xs hp)
  exact decide_eq_true (by omega)

theorem Sorted.above_zero_left : s.above 0 xs = xs := by
  rw [above, List.filter_eq_self]
  intro p hp
  have := h.levels p (horder ▸ List.mem_append_left ys hp)
  exact decide_eq_true (by omega)

/-- `Find` stops in front of the elements that are not less than the target. -/
theorem Sorted.find_spec {e : SKElem} (hxs : ∀ p ∈ xs, s.keyOf p < e.key)
    (hys : ∀ p ∈ ys, e.key ≤ s.keyOf p) {levels : Nat} (hpos : 0 < levels)
    (hle : levels ≤ kMaxLevel) :
    ∃ path, s.find e levels = .ok (s.before 0 xs, path) ∧
      ∀ l < levels, path[l]? = some (some (s.before l xs)) := by
  have hgo : ∀ p ∈ xs, decide (skComparator e (s.elemOf p) > 0) = true := by
    intro p hp
    rw [decide_eq_true_eq, skComparator_eq, signOf_pos]
    exact hxs p hp
  have hstop : ∀ p ∈ ys, decide (skComparator e (s.elemOf p) > 0) = false := by
    intro p hp
    rw [decide_eq_false_iff_not, skComparator_eq, signOf_pos]
    exact not_lt.mpr (hys p hp)
  obtain ⟨path, hres, hpath, -⟩ := @descend_spec s order xs ys h horder
    (fun x => decide (skComparator e x > 0)) hgo hstop levels s.head
    (List.replicate kMaxLevel none) hle List.length_replicate fun _ _ => List.mem_cons_self
  rw [if_neg (by omega)] at hres
  exact ⟨path, hres, hpath⟩

/-- The node behind the position is the only one that can be the target. -/
theorem Sorted.isTarget_spec {e : SKElem} (hxs : ∀ p ∈ xs, s.keyOf p < e.key)
    (hys : ∀ p ∈ ys, e.key ≤ s.keyOf p) :
    s.isTarget e ys.head? = .ok (decide (∃ p ∈ order, s.keyOf p = e.key)) := by
  have hmem : ∀ q ∈ ys.head?, q ∈ order := fun q hq =>
    horder ▸ List.mem_append_right xs (List.mem_of_mem_head? hq)
  have hiff : (∃ q ∈ ys.head?, s.keyOf q = e.key) ↔ ∃ p ∈ order, s.keyOf p = e.key := by
    constructor
    · rintro ⟨q, hq, hkey⟩
      exact ⟨q, hmem q hq, hkey⟩
    · rintro ⟨p, hp, hkey⟩
      rw [horder] at hp
      rcases List.mem_append.mp hp with hp | hp
      · exact absurd hkey (hxs p hp).ne
      · -- a node behind the first one has a larger key
        cases ys with
        | nil => exact nomatch hp
        | cons y ys =>
            have hinc := (List.pairwise_append.mp (horder ▸ h.increasing)).2.1
            rcases List.mem_cons.mp hp with rfl | hp
            · exact ⟨p, rfl, hkey⟩
            · have hlt := (List.pairwise_cons.mp hinc).1 p hp
              exact absurd (hys y List.mem_cons_self) (not_le.mpr (hkey ▸ hlt))
  rw [isTarget_eq (fun q hq => h.live q (List.mem_cons_of_mem _ (hmem q hq)))]
  simp only [hiff]

/-- The node behind a position. -/
theorem Sorted.next_zero : s.next (s.before 0 xs) 0 = .ok ys.head? := by
  obtain ⟨-, hlive, hlevel⟩ := h.before_mem horder 0 (by decide)
  rw [hlive.next hlevel, h.next_before horder (by decide), h.above_zero_right horder]

end

/-! ## A new node -/

section

variable {s : Skiplist} {order : List SKPtr} (e : SKElem) (level : Nat)

theorem alloc_heap (p : SKPtr) : (s.alloc e level).heap p
    = if p = s.fresh then some (.new e level) else s.heap p := Function.update_apply ..

theorem alloc_live {p : SKPtr} (hp : s.Live p) : (s.alloc e level).Live p := by
  obtain ⟨n, hn, hlen⟩ := hp.links
  refine ⟨Nat.lt_succ_of_lt hp.old, n, ?_, hlen⟩
  rw [alloc_heap, if_neg (Nat.ne_of_lt hp.old), hn]

theorem alloc_live_fresh : (s.alloc e level).Live s.fresh :=
  ⟨Nat.lt_succ_self _, _, by rw [alloc_heap, if_pos rfl], List.length_replicate⟩

theorem alloc_levelOf (p : SKPtr) : (s.alloc e level).levelOf p
    = if p = s.fresh then level else s.levelOf p := by
  rw [levelOf, alloc_heap]
  split <;> rfl

theorem alloc_elemOf (p : SKPtr) : (s.alloc e level).elemOf p
    = if p = s.fresh then e else s.elemOf p := by
  rw [elemOf, alloc_heap]
  split <;> rfl

theorem alloc_prevOf (p : SKPtr) : (s.alloc e level).prevOf p
    = if p = s.fresh then none else s.prevOf p := by
  rw [prevOf, alloc_heap]
  split <;> rfl

theorem alloc_nextOf (l : Nat) (p : SKPtr) : (s.alloc e level).nextOf l p
    = if p = s.fresh then none else s.nextOf l p := by
  rw [nextOf, alloc_heap]
  split
  · simp only [SKNode.new, Option.bind_some, List.getElem?_replicate]
    split <;> rfl
  · rfl

end

section

variable {s : Skiplist} {order : List SKPtr} (h : s.Sorted order)

include h

theorem Sorted.ne_fresh {p : SKPtr} (hp : p ∈ s.head :: order) : p ≠ s.fresh :=
  Nat.ne_of_lt (h.live p hp).old

/-- A node that is not linked yet. -/
theorem alloc_sorted (e : SKElem) (level : Nat) : (s.alloc e level).Sorted order := by
  have hne : ∀ p ∈ order, p ≠ s.fresh := fun p hp => h.ne_fresh (List.mem_cons_of_mem _ hp)
  have hlevel : ∀ p ∈ order, (s.alloc e level).levelOf p = s.levelOf p := fun p hp => by
    rw [alloc_levelOf, if_neg (hne p hp)]
  have hkey : ∀ p ∈ order, (s.alloc e level).keyOf p = s.keyOf p := fun p hp => by
    rw [keyOf, alloc_elemOf, if_neg (hne p hp), keyOf]
  have habove : ∀ l, (s.alloc e level).above l order = s.above l order := fun l =>
    List.filter_congr fun p hp => by rw [hlevel p hp]
  refine ⟨h.nodup, fun p hp => alloc_live e level (h.live p hp), fun p hp => ?_, ?_, fun l hl => ?_,
    ?_, ?_, h.count, ?_⟩
  · rw [hlevel p hp]
    exact h.levels p hp
  · rw [alloc_levelOf]
    exact (if_neg (h.ne_fresh List.mem_cons_self)).trans h.headLevel
  · rw [habove]
    refine (h.chain l hl).congr fun p hp => ?_
    rw [alloc_nextOf, if_neg]
    rcases List.mem_cons.mp hp with rfl | hp
    · exact h.ne_fresh List.mem_cons_self
    · exact hne p (List.mem_of_mem_filter hp)
  · refine h.back.congr fun p hp => ?_
    rw [alloc_prevOf, if_neg (hne p hp)]
  · refine h.increasing.imp_of_mem fun hp hq hlt => ?_
    rw [hkey _ hp, hkey _ hq]
    exact hlt
  · exact h.curMaxLevel.trans (congrArg (List.foldr max 0)
      (List.map_congr_left fun p hp => (hlevel p hp).symm))

end

/-- The largest level. -/
theorem maxLevel_iff (s : Skiplist) : ∀ (order : List SKPtr) (m : Nat), s.maxLevel order = m ↔
    (∀ p ∈ order, s.levelOf p ≤ m) ∧ (m = 0 ∨ ∃ p ∈ order, s.levelOf p = m)
  | [], m => by
      rw [maxLevel, List.map_nil, List.foldr_nil]
      simp [eq_comm]
  | q :: order, m => by
      have ih := maxLevel_iff s order
      have hcons : s.maxLevel (q :: order) = max (s.levelOf q) (s.maxLevel order) := rfl
      obtain ⟨hle, hmax⟩ := (ih _).mp rfl
      rw [hcons]
      constructor
      · rintro rfl
        refine ⟨fun p hp => ?_, ?_⟩
        · rcases List.mem_cons.mp hp with rfl | hp
          · exact le_max_left _ _
          · exact (hle p hp).trans (le_max_right _ _)
        · rcases le_total (s.maxLevel order) (s.levelOf q) with hq | hq
          · exact Or.inr ⟨q, List.mem_cons_self, (max_eq_left hq).symm⟩
          · rw [max_eq_right hq]
            exact hmax.imp id fun ⟨p, hp, hpm⟩ => ⟨p, List.mem_cons_of_mem q hp, hpm⟩
      · rintro ⟨hall, hsome⟩
        have hq := hall q List.mem_cons_self
        have hrest : s.maxLevel order ≤ m := by
          rcases hmax with h0 | ⟨p, hp, hpm⟩
          · omega
          · rw [← hpm]
            exact hall p (List.mem_cons_of_mem q hp)
        rcases hsome with rfl | ⟨p, hp, rfl⟩
        · omega
        · rcases List.mem_cons.mp hp with rfl | hp
          · exact max_eq_left hrest
          · exact le_antisymm (max_le hq hrest) ((hle p hp).trans (le_max_right _ _))

/-! ## Insertion -/

/-- The loop of `Insert`. -/
theorem linkLevels_spec {s : Skiplist} {p : SKPtr} (hp : s.Live p) {path : SKPath}
    {b : Nat → SKPtr} : ∀ (k : Nat), k ≤ s.levelOf p →
    (∀ l < k, path[l]? = some (some (b l)) ∧ s.Live (b l) ∧ l < s.levelOf (b l) ∧ b l ≠ p) →
    ∃ s', (List.range k).foldlM (linkLevel path p) s = .ok s' ∧ Relinks s s' ∧
      s'.prevOf = s.prevOf ∧ ∀ l q, s'.nextOf l q = if l < k then
        if q = p then s.nextOf l (b l) else if q = b l then some p else s.nextOf l q
      else s.nextOf l q
  | 0, _, _ => ⟨s, rfl, .refl s, rfl, fun l q => by rw [if_neg (Nat.not_lt_zero l)]⟩
  | k + 1, hk, hb => by
      obtain ⟨s₁, hs₁, hrel₁, hprev₁, hnext₁⟩ := linkLevels_spec hp k (by omega) fun l hl =>
        hb l (by omega)
      obtain ⟨hpath, hlive, hlevel, hne⟩ := hb k (by omega)
      have hlevel₁ : k < s₁.levelOf (b k) := by
        rw [hrel₁.level]
        exact hlevel
      have hread : s₁.next (b k) k = .ok (s.nextOf k (b k)) := by
        rw [(hrel₁.live _ hlive).next hlevel₁, hnext₁, if_neg (Nat.lt_irrefl k)]
      have hlevelp : k < s₁.levelOf p := by
        rw [hrel₁.level]
        omega
      obtain ⟨s₂, hs₂, hrel₂, hprev₂, hnext₂⟩ :=
        setNext_spec (hrel₁.live p hp) hlevelp (s.nextOf k (b k))
      obtain ⟨s₃, hs₃, hrel₃, hprev₃, hnext₃⟩ :=
        setNext_spec (hrel₂.live _ (hrel₁.live _ hlive)) (by rw [hrel₂.level]; exact hlevel₁)
          (some p)
      refine ⟨s₃, ?_, (hrel₁.trans hrel₂).trans hrel₃, by rw [hprev₃, hprev₂, hprev₁],
        fun l q => ?_⟩
      · rw [List.range_succ, List.foldlM_append, hs₁, Run.ok_bind, List.foldlM_cons, linkLevel,
          hpath]
        simp only [hread, Run.ok_bind, hs₂, hs₃, List.foldlM_nil, Run.pure_eq_ok]
      · rw [hnext₃, hnext₂, hnext₁]
        by_cases hl : l = k
        · subst hl
          by_cases hq : q = p
          · subst hq
            simp [Ne.symm hne]
          · by_cases hqb : q = b l <;> simp [hq, hqb, hne]
        · have hlk : l < k + 1 ↔ l < k := by omega
          simp only [hl, false_and, if_false, hlk]

/-- A node linked in at a position. -/
structure Spliced (s s' : Skiplist) (xs ys : List SKPtr) (p : SKPtr) : Prop where
  relinks : Relinks s s'
  next : ∀ l q, s'.nextOf l q = if l < s.levelOf p then
      if q = p then s.nextOf l (s.before l xs)
      else if q = s.before l xs then some p else s.nextOf l q
    else s.nextOf l q
  prev : ∀ q, s'.prevOf q = if q = p then some (s.before 0 xs)
    else if q ∈ ys.head? then some p else s.prevOf q

section

variable {s s' : Skiplist} {xs ys : List SKPtr} {p : SKPtr} (hsp : Spliced s s' xs ys p)
  (h : s.Sorted (xs ++ ys)) (hnew : p ∉ s.head :: (xs ++ ys))

include hsp h hnew

theorem Spliced.chain {l : Nat} (hl : l < kMaxLevel) :
    Chain (s'.nextOf l) s'.head (s'.above l (xs ++ p :: ys)) := by
  have hrel := hsp.relinks
  have hchain := h.chain l hl
  have hsub : ∀ q ∈ s.head :: s.above l (xs ++ ys), q ≠ p := by
    rintro q hq rfl
    refine hnew ?_
    rcases List.mem_cons.mp hq with heq | hq
    · exact heq ▸ List.mem_cons_self
    · exact List.mem_cons_of_mem _ (List.mem_of_mem_filter hq)
  have hnodupl : (s.head :: s.above l (xs ++ ys)).Nodup :=
    h.nodup.sublist (List.Sublist.cons_cons _ List.filter_sublist)
  rw [above_append] at hchain hnodupl hsub
  rw [hrel.above, hrel.head, above_append]
  by_cases hlp : l < s.levelOf p
  · have habove : s.above l (p :: ys) = p :: s.above l ys :=
      List.filter_cons_of_pos (by simpa using hlp)
    rw [habove]
    refine hchain.splice hnodupl ?_ ?_ fun q hq hne => ?_
    · rw [hsp.next, if_pos hlp, if_pos rfl]
      rfl
    · have hne : s.before l xs ≠ p :=
        hsub _ (List.mem_cons.mpr ((List.mem_cons.mp (Chain.getLastD_mem _ _)).imp_right
          (List.mem_append_left _)))
      rw [hsp.next, if_pos hlp]
      exact (if_neg hne).trans (if_pos rfl)
    · rw [hsp.next, if_pos hlp, if_neg (hsub q hq)]
      exact if_neg hne
  · have habove : s.above l (p :: ys) = s.above l ys := List.filter_cons_of_neg (by simpa using hlp)
    rw [habove]
    refine hchain.congr fun q hq => ?_
    rw [hsp.next, if_neg hlp]

theorem Spliced.back : Back s'.prevOf s'.head (xs ++ p :: ys) := by
  have hne : ∀ q ∈ xs ++ ys, q ≠ p := by
    rintro q hq rfl
    exact hnew (List.mem_cons_of_mem _ hq)
  rw [hsp.relinks.head]
  refine h.back.splice (List.nodup_cons.mp h.nodup).2 ?_ (fun y hy => ?_) fun q hq hhead => ?_
  · rw [hsp.prev, if_pos rfl, before, h.above_zero_left rfl]
  · have hy' : y ∈ xs ++ ys := List.mem_append_right _ (List.mem_of_mem_head? hy)
    rw [hsp.prev, if_neg (hne y hy'), if_pos hy]
  · rw [hsp.prev, if_neg (hne q hq), if_neg hhead]

end

/-- The largest level, with one more node. -/
theorem maxLevel_middle (s : Skiplist) (xs ys : List SKPtr) (p : SKPtr) :
    s.maxLevel (xs ++ p :: ys) = max (s.maxLevel (xs ++ ys)) (s.levelOf p) := by
  have hmem : ∀ q, q ∈ xs ++ p :: ys ↔ q = p ∨ q ∈ xs ++ ys := fun q => by
    simp only [List.mem_append, List.mem_cons, or_left_comm]
  obtain ⟨hle, hsome⟩ := (maxLevel_iff s _ _).mp rfl
  rw [maxLevel_iff]
  refine ⟨fun q hq => ?_, ?_⟩
  · rcases (hmem q).mp hq with rfl | hq
    · exact le_max_right _ _
    · exact (hle q hq).trans (le_max_left _ _)
  · rcases le_total (s.maxLevel (xs ++ ys)) (s.levelOf p) with hmp | hmp
    · exact Or.inr ⟨p, (hmem p).mpr (Or.inl rfl), (max_eq_right hmp).symm⟩
    · rw [max_eq_left hmp]
      rcases hsome with h0 | ⟨q, hq, hqm⟩
      · exact Or.inl h0
      · exact Or.inr ⟨q, (hmem q).mpr (Or.inr hq), hqm⟩

theorem Spliced.sorted {s s' : Skiplist} {xs ys : List SKPtr} {p : SKPtr}
    (hsp : Spliced s s' xs ys p) (h : s.Sorted (xs ++ ys)) (hp : s.Live p)
    (hlevel : 1 ≤ s.levelOf p ∧ s.levelOf p ≤ kMaxLevel) (hnew : p ∉ s.head :: (xs ++ ys))
    (hxs : ∀ q ∈ xs, s.keyOf q < s.keyOf p) (hys : ∀ q ∈ ys, s.keyOf p < s.keyOf q)
    {m : Nat} (hm : m = max s.curMaxLevel (s.levelOf p)) :
    ({ s' with curMaxLevel := m, count := s'.count + 1 } : Skiplist).Sorted (xs ++ p :: ys) := by
  have hrel := hsp.relinks
  have hmem : ∀ q, q ∈ xs ++ p :: ys ↔ q = p ∨ q ∈ xs ++ ys := fun q => by
    simp only [List.mem_append, List.mem_cons, or_left_comm]
  have hnodup : (s.head :: (xs ++ p :: ys)).Nodup := by
    rw [← List.cons_append, List.nodup_middle]
    exact List.nodup_cons.mpr ⟨hnew, h.nodup⟩
  refine ⟨?_, fun q hq => ?_, fun q hq => ?_, ?_, fun l hl => hsp.chain h hnew hl,
    hsp.back h hnew, ?_, ?_, ?_⟩
  · exact hrel.head ▸ hnodup
  · have hlive : s'.Live q := by
      refine hrel.live q ?_
      rcases List.mem_cons.mp hq with rfl | hq
      · rw [hrel.head]
        exact h.live _ List.mem_cons_self
      · rcases (hmem q).mp hq with rfl | hq
        · exact hp
        · exact h.live q (List.mem_cons_of_mem _ hq)
    exact ⟨hlive.old, hlive.links⟩
  · show 1 ≤ s'.levelOf q ∧ s'.levelOf q ≤ kMaxLevel
    rw [hrel.level]
    rcases (hmem q).mp hq with rfl | hq
    · exact hlevel
    · exact h.levels q hq
  · show s'.levelOf s'.head = kMaxLevel
    rw [hrel.level, hrel.head, h.headLevel]
  · show (xs ++ p :: ys).Pairwise fun p q => s'.keyOf p < s'.keyOf q
    have hkey : s'.keyOf = s.keyOf := funext fun q => by rw [keyOf, keyOf, hrel.elem]
    rw [hkey]
    have hinc := List.pairwise_append.mp h.increasing
    refine List.pairwise_append.mpr ⟨hinc.1, List.pairwise_cons.mpr ⟨hys, hinc.2.1⟩, ?_⟩
    intro a ha c hc
    rcases List.mem_cons.mp hc with rfl | hc
    · exact hxs a ha
    · exact hinc.2.2 a ha c hc
  · show s'.count + 1 = (xs ++ p :: ys).length
    rw [hrel.count, h.count]
    simp only [List.length_append, List.length_cons]
    omega
  · show m = s'.maxLevel (xs ++ p :: ys)
    have hmax : s'.maxLevel = s.maxLevel := funext fun o => by rw [maxLevel, maxLevel, hrel.level]
    rw [hmax, maxLevel_middle, hm, h.curMaxLevel]

theorem Sorted.next_head {s : Skiplist} {order : List SKPtr} (h : s.Sorted order) :
    s.next s.head 0 = .ok order.head? := h.next_zero (List.nil_append order).symm

/-- The elements, in order. -/
def elems (s : Skiplist) (order : List SKPtr) : List SKElem := order.map s.elemOf

/-- The element is there already. -/
theorem insert_present {s : Skiplist} {order : List SKPtr} (h : s.Sorted order) {e : SKElem}
    {level : Nat} (hpos : 0 < level) (hle : level ≤ kMaxLevel)
    (hpres : ∃ p ∈ order, s.keyOf p = e.key) : s.insert e level = .ok (s, false) := by
  obtain ⟨xs, ys, horder, hxs, hys⟩ := h.split_at e.key
  obtain ⟨path, hfind, -⟩ := h.find_spec horder hxs hys hpos hle
  cases order with
  | nil =>
      obtain ⟨p, hp, -⟩ := hpres
      exact nomatch hp
  | cons o order =>
      have htarget := h.isTarget_spec horder hxs hys
      rw [decide_eq_true hpres] at htarget
      rw [insert, h.next_head, Run.ok_bind]
      simp only [List.head?_cons, hfind, Run.ok_bind, h.next_zero horder, htarget, if_true]

/-- A new node that is linked in at its place. -/
theorem inserted_sorted {s s' : Skiplist} {xs ys : List SKPtr} (h : s.Sorted (xs ++ ys))
    {e : SKElem} {level : Nat} (hlevel : 1 ≤ level ∧ level ≤ kMaxLevel)
    (hxs : ∀ p ∈ xs, s.keyOf p < e.key) (hys : ∀ p ∈ ys, e.key < s.keyOf p)
    (hsp : Spliced (s.alloc e level) s' xs ys s.fresh) {m : Nat}
    (hm : m = max s.curMaxLevel level) :
    ({ s' with curMaxLevel := m, count := s'.count + 1 } : Skiplist).Sorted (xs ++ s.fresh :: ys) ∧
      (({ s' with curMaxLevel := m, count := s'.count + 1 } : Skiplist).elems
        (xs ++ s.fresh :: ys)).Perm (e :: s.elems (xs ++ ys)) := by
  have hne : ∀ p ∈ xs ++ ys, p ≠ s.fresh := fun p hp => h.ne_fresh (List.mem_cons_of_mem _ hp)
  have hfresh : (s.alloc e level).levelOf s.fresh = level := by rw [alloc_levelOf, if_pos rfl]
  have helem : (s.alloc e level).elemOf s.fresh = e := by rw [alloc_elemOf, if_pos rfl]
  have hkey : ∀ p ∈ xs ++ ys, (s.alloc e level).keyOf p = s.keyOf p := fun p hp => by
    rw [keyOf, alloc_elemOf, if_neg (hne p hp), keyOf]
  have hkeyp : (s.alloc e level).keyOf s.fresh = e.key := congrArg SKElem.key helem
  constructor
  · refine hsp.sorted (alloc_sorted h e level) (alloc_live_fresh e level) ?_ ?_ (fun q hq => ?_)
      (fun q hq => ?_) ?_
    · rw [hfresh]
      exact hlevel
    · exact fun hp => h.ne_fresh hp rfl
    · rw [hkey q (List.mem_append_left _ hq), hkeyp]
      exact hxs q hq
    · rw [hkey q (List.mem_append_right _ hq), hkeyp]
      exact hys q hq
    · rw [hfresh]
      exact hm
  · show ((xs ++ s.fresh :: ys).map s'.elemOf).Perm (e :: (xs ++ ys).map s.elemOf)
    have hold : (xs ++ ys).map (s.alloc e level).elemOf = (xs ++ ys).map s.elemOf :=
      List.map_congr_left fun p hp => by rw [alloc_elemOf, if_neg (hne p hp)]
    have hperm : ((xs ++ s.fresh :: ys).map (s.alloc e level).elemOf).Perm
        ((s.fresh :: (xs ++ ys)).map (s.alloc e level).elemOf) := List.perm_middle.map _
    rw [hsp.relinks.elem]
    rwa [List.map_cons, helem, hold] at hperm

theorem alloc_before {s : Skiplist} {xs ys : List SKPtr} (h : s.Sorted (xs ++ ys)) (e : SKElem)
    (level l : Nat) : (s.alloc e level).before l xs = s.before l xs := by
  have habove : (s.alloc e level).above l xs = s.above l xs := List.filter_congr fun p hp => by
    rw [alloc_levelOf, if_neg (h.ne_fresh (List.mem_cons_of_mem _ (List.mem_append_left ys hp)))]
  rw [before, before, habove]
  rfl

/-- The first element. -/
theorem insert_first {s : Skiplist} (h : s.Sorted []) (e : SKElem) (level : Nat) :
    ∃ s' order', s.insert e level = .ok (s', true) ∧ s'.Sorted order' ∧
      (s'.elems order').Perm [e] := by
  have hnone : s.nextOf 0 s.head = none := h.chain 0 (by decide)
  have hne : s.head ≠ s.fresh := h.ne_fresh List.mem_cons_self
  have hlive := alloc_live e 1 (h.live s.head List.mem_cons_self)
  have hlevel : 0 < (s.alloc e 1).levelOf s.head := by
    rw [alloc_levelOf, if_neg hne, h.headLevel]
    decide
  obtain ⟨s₂, hs₂, hrel₂, hprev₂, hnext₂⟩ := setNext_spec hlive hlevel (some s.fresh)
  obtain ⟨s₃, hs₃, hrel₃, hnext₃, hprev₃⟩ :=
    setPrev_spec (hrel₂.live _ (alloc_live_fresh e 1)) s.head
  have hsp : Spliced (s.alloc e 1) s₃ [] [] s.fresh := by
    refine ⟨hrel₂.trans hrel₃, fun l q => ?_, fun q => ?_⟩
    · have hbefore : (s.alloc e 1).before l [] = s.head := rfl
      rw [hnext₃, hnext₂, alloc_levelOf, if_pos rfl, hbefore]
      by_cases hl : l = 0
      · subst hl
        by_cases hq : q = s.fresh
        · subst hq
          simp [Ne.symm hne, alloc_nextOf, hne, hnone]
        · simp [hq]
      · have hl' : ¬ l < 1 := by omega
        simp [hl]
    · rw [hprev₃, hprev₂]
      simp only [List.head?_nil, Option.not_mem_none, if_false]
      rfl
  have hm : 1 = max s.curMaxLevel 1 := by
    rw [h.curMaxLevel]
    rfl
  have hnil : s.Sorted ([] ++ []) := h
  obtain ⟨hsorted, hperm⟩ := inserted_sorted hnil (by decide) (fun _ hp => nomatch hp)
    (fun _ hp => nomatch hp) hsp hm
  refine ⟨_, _, ?_, hsorted, hperm⟩
  rw [insert, h.next_head, Run.ok_bind]
  have hhead : (s.alloc e 1).head = s.head := rfl
  simp only [List.head?_nil, hhead, hs₂, Run.ok_bind, hrel₂.head, hs₃]

/-- The element is new. -/
theorem insert_absent {s : Skiplist} {order : List SKPtr} (h : s.Sorted order) {e : SKElem}
    {level : Nat} (hpos : 0 < level) (hle : level ≤ kMaxLevel)
    (habs : ¬ ∃ p ∈ order, s.keyOf p = e.key) :
    ∃ s' order', s.insert e level = .ok (s', true) ∧ s'.Sorted order' ∧
      (s'.elems order').Perm (e :: s.elems order) := by
  by_cases hne : order = []
  · subst hne
    exact insert_first h e level
  obtain ⟨xs, ys, rfl, hxs, hys⟩ := h.split_at e.key
  obtain ⟨path, hfind, hpath⟩ := h.find_spec rfl hxs hys hpos hle
  have htarget := h.isTarget_spec rfl hxs hys
  rw [decide_eq_false habs] at htarget
  have hgt : ∀ p ∈ ys, e.key < s.keyOf p := fun p hp => lt_of_le_of_ne (hys p hp) fun heq =>
    habs ⟨p, List.mem_append_right xs hp, heq.symm⟩
  have h₁ := alloc_sorted h e level
  have hlevelp : (s.alloc e level).levelOf s.fresh = level := by rw [alloc_levelOf, if_pos rfl]
  -- the path is the one that the new node needs
  have hpath₁ : ∀ l < level, path[l]? = some (some ((s.alloc e level).before l xs)) ∧
      (s.alloc e level).Live ((s.alloc e level).before l xs) ∧
      l < (s.alloc e level).levelOf ((s.alloc e level).before l xs) ∧
      (s.alloc e level).before l xs ≠ s.fresh := by
    intro l hl
    obtain ⟨hmem, hlive, hlevel⟩ := h₁.before_mem rfl l (by omega)
    refine ⟨?_, hlive, hlevel, h.ne_fresh hmem⟩
    rw [alloc_before h, hpath l hl]
  obtain ⟨s₂, hs₂, hrel₂, hprev₂, hnext₂⟩ := linkLevels_spec (alloc_live_fresh e level) level
    (by rw [hlevelp]) hpath₁
  obtain ⟨s₃, hs₃, hrel₃, hnext₃, hprev₃⟩ := setPrevOf_spec (s := s₂) (p := ys.head?) (fun a ha =>
    hrel₂.live a (h₁.live a (List.mem_cons_of_mem _
      (List.mem_append_right xs (List.mem_of_mem_head? ha))))) s.fresh
  obtain ⟨s₄, hs₄, hrel₄, hnext₄, hprev₄⟩ :=
    setPrev_spec (hrel₃.live _ (hrel₂.live _ (alloc_live_fresh e level))) (s.before 0 xs)
  have hsp : Spliced (s.alloc e level) s₄ xs ys s.fresh := by
    refine ⟨(hrel₂.trans hrel₃).trans hrel₄, fun l q => ?_, fun q => ?_⟩
    · rw [hnext₄, hnext₃, hnext₂, hlevelp]
    · rw [hprev₄, hprev₃, hprev₂, alloc_before h]
  have hmax : s₄.curMaxLevel = s.curMaxLevel := ((hrel₂.trans hrel₃).trans hrel₄).curMaxLevel
  obtain ⟨hsorted, hperm⟩ := inserted_sorted h ⟨hpos, hle⟩ hxs hgt hsp rfl
  refine ⟨_, _, ?_, hsorted, hperm⟩
  obtain ⟨o, os, hcons⟩ := List.exists_cons_of_ne_nil hne
  rw [insert, h.next_head, Run.ok_bind, hcons]
  simp only [List.head?_cons, hfind, Run.ok_bind, h.next_zero rfl, htarget, Bool.false_eq_true,
    if_false, hs₂, hs₃, hs₄, hmax]

/-! ## Removal -/

/-- The loop of `Remove`: the links to `d` are bent behind it. -/
theorem unlinkLevels_spec {e : SKElem} {path : SKPath} {d : SKPtr} {b : Nat → SKPtr} :
    ∀ (ls : List Nat) (s : Skiplist), ls.Nodup → s.Live d →
    (∀ l ∈ ls, path[l]? = some (some (b l)) ∧ s.Live (b l) ∧ l < s.levelOf (b l) ∧
      (∀ q ∈ s.nextOf l (b l), s.Live q) ∧
      ((∃ q ∈ s.nextOf l (b l), s.keyOf q = e.key) ↔ l < s.levelOf d)) →
    ∃ s', ls.foldlM (unlinkLevel e path d) s = .ok s' ∧ Relinks s s' ∧ s'.prevOf = s.prevOf ∧
      ∀ l q, s'.nextOf l q = if l ∈ ls ∧ l < s.levelOf d ∧ q = b l then s.nextOf l d
        else s.nextOf l q
  | [], s, _, _, _ => ⟨s, rfl, .refl s, rfl, fun l q => by simp⟩
  | l :: ls, s, hnodup, hd, hb => by
      obtain ⟨hpath, hlive, hlevel, hlink, htarget⟩ := hb l List.mem_cons_self
      obtain ⟨hl, hls⟩ := List.nodup_cons.mp hnodup
      -- one level
      obtain ⟨s₁, hs₁, hrel₁, hprev₁, hnext₁⟩ : ∃ s₁, unlinkLevel e path d s l = .ok s₁ ∧
          Relinks s s₁ ∧ s₁.prevOf = s.prevOf ∧ ∀ l' q, s₁.nextOf l' q =
            if l' = l ∧ l < s.levelOf d ∧ q = b l then s.nextOf l d else s.nextOf l' q := by
        rw [unlinkLevel, hpath]
        simp only [hlive.next hlevel, Run.ok_bind, isTarget_eq hlink, decide_eq_true_eq]
        by_cases hld : l < s.levelOf d
        · obtain ⟨s₁, hs₁, hrel₁, hprev₁, hnext₁⟩ := setNext_spec hlive hlevel (s.nextOf l d)
          refine ⟨s₁, ?_, hrel₁, hprev₁, fun l' q => ?_⟩
          · rw [if_pos (htarget.mpr hld), hd.next hld, Run.ok_bind, hs₁]
          · rw [hnext₁]
            simp only [hld, true_and]
        · refine ⟨s, if_neg (fun hex => hld (htarget.mp hex)), .refl s, rfl, fun l' q => ?_⟩
          simp only [hld, false_and, and_false, if_false]
      have hkeep : ∀ l' ∈ ls, ∀ q, s₁.nextOf l' q = s.nextOf l' q := by
        intro l' hl' q
        rw [hnext₁, if_neg]
        rintro ⟨rfl, -⟩
        exact hl hl'
      have hkey₁ : s₁.keyOf = s.keyOf := funext fun q => by rw [keyOf, keyOf, hrel₁.elem]
      obtain ⟨s₂, hs₂, hrel₂, hprev₂, hnext₂⟩ := unlinkLevels_spec ls s₁ hls (hrel₁.live d hd)
        fun l' hl' => by
          obtain ⟨hpath', hlive', hlevel', hlink', htarget'⟩ := hb l' (List.mem_cons_of_mem l hl')
          rw [hkeep l' hl', hrel₁.level, hkey₁]
          exact ⟨hpath', hrel₁.live _ hlive', hlevel', fun q hq => hrel₁.live q (hlink' q hq),
            htarget'⟩
      refine ⟨s₂, ?_, hrel₁.trans hrel₂, hprev₂.trans hprev₁, fun l' q => ?_⟩
      · rw [List.foldlM_cons, hs₁, Run.ok_bind, hs₂]
      · rw [hnext₂, hrel₁.level]
        by_cases hl' : l' ∈ ls
        · have hne : l' ≠ l := by
            rintro rfl
            exact hl hl'
          simp only [hkeep l' hl', hl', List.mem_cons, hne, false_or]
        · rw [if_neg (fun hc => hl' hc.1), hnext₁]
          by_cases hll : l' = l
          · subst hll
            simp
          · simp [hl', hll]

/-- A node that no link leads to. -/
structure Unlinked (s s' : Skiplist) (xs ys : List SKPtr) (d : SKPtr) : Prop where
  relinks : Relinks s s'
  next : ∀ l q, s'.nextOf l q =
    if l < s.levelOf d ∧ q = s.before l xs then s.nextOf l d else s.nextOf l q
  prev : ∀ q, s'.prevOf q = if q ∈ ys.head? then some (s.before 0 xs) else s.prevOf q

/-- The skiplist without a node. -/
def free (s : Skiplist) (d : SKPtr) (level : Nat) : Skiplist :=
  { s with heap := Function.update s.heap d none, curMaxLevel := level, count := s.count - 1 }

theorem free_heap (s : Skiplist) {d p : SKPtr} (level : Nat) (hne : p ≠ d) :
    (s.free d level).heap p = s.heap p := Function.update_of_ne hne _ _

theorem free_same (s : Skiplist) {d p : SKPtr} (level : Nat) (hne : p ≠ d) :
    (s.free d level).levelOf p = s.levelOf p ∧ (s.free d level).elemOf p = s.elemOf p ∧
      (s.free d level).prevOf p = s.prevOf p ∧
      ∀ l, (s.free d level).nextOf l p = s.nextOf l p := by
  simp only [levelOf, elemOf, prevOf, nextOf, free_heap s level hne, implies_true, and_self]

theorem Sorted.ne_removed {s : Skiplist} {xs ys : List SKPtr} {d : SKPtr}
    (h : s.Sorted (xs ++ d :: ys)) : ∀ p ∈ s.head :: (xs ++ ys), p ≠ d := by
  have hnodup := h.nodup
  rw [← List.cons_append, List.nodup_middle] at hnodup
  rintro p hp rfl
  exact (List.nodup_cons.mp hnodup).1 hp

section

variable {s s' : Skiplist} {xs ys : List SKPtr} {d : SKPtr} (hun : Unlinked s s' xs ys d)
  (h : s.Sorted (xs ++ d :: ys)) (m : Nat)

include hun h

theorem Unlinked.levelOf {q : SKPtr} (hq : q ∈ xs ++ ys) :
    (s'.free d m).levelOf q = s.levelOf q := by
  rw [(free_same s' m (h.ne_removed q (List.mem_cons_of_mem _ hq))).1, hun.relinks.level]

theorem Unlinked.chain {l : Nat} (hl : l < kMaxLevel) :
    Chain ((s'.free d m).nextOf l) s'.head ((s'.free d m).above l (xs ++ ys)) := by
  have habove : (s'.free d m).above l (xs ++ ys) = s.above l (xs ++ ys) :=
    List.filter_congr fun q hq => by rw [hun.levelOf h m hq]
  have hchain := h.chain l hl
  have hnodupl : (s.head :: s.above l (xs ++ d :: ys)).Nodup :=
    h.nodup.sublist (List.Sublist.cons_cons _ List.filter_sublist)
  have hnext : ∀ q ∈ s.head :: s.above l (xs ++ ys), (s'.free d m).nextOf l q =
      if l < s.levelOf d ∧ q = s.before l xs then s.nextOf l d else s.nextOf l q := fun q hq => by
    have hq' : q ∈ s.head :: (xs ++ ys) := List.mem_cons.mpr
      ((List.mem_cons.mp hq).imp_right List.mem_of_mem_filter)
    rw [(free_same s' m (h.ne_removed q hq')).2.2.2, hun.next]
  rw [habove, hun.relinks.head]
  rw [above_append] at hchain hnodupl hnext ⊢
  by_cases hld : l < s.levelOf d
  · have hcons : s.above l (d :: ys) = d :: s.above l ys :=
      List.filter_cons_of_pos (by simpa using hld)
    rw [hcons] at hchain hnodupl
    refine hchain.unlink hnodupl ?_ fun q hq hneq => ?_
    · have hmem : s.before l xs ∈ s.head :: (s.above l xs ++ s.above l ys) := List.mem_cons.mpr
        ((List.mem_cons.mp (Chain.getLastD_mem _ _)).imp_right (List.mem_append_left _))
      exact (hnext _ hmem).trans (if_pos ⟨hld, rfl⟩)
    · exact (hnext q hq).trans (if_neg fun hc => hneq hc.2)
  · have hcons : s.above l (d :: ys) = s.above l ys := List.filter_cons_of_neg (by simpa using hld)
    rw [hcons] at hchain
    exact hchain.congr fun q hq => (hnext q hq).trans (if_neg fun hc => hld hc.1)

theorem Unlinked.back : Back (s'.free d m).prevOf s'.head (xs ++ ys) := by
  have hprev : ∀ q ∈ xs ++ ys, (s'.free d m).prevOf q =
      if q ∈ ys.head? then some (s.before 0 xs) else s.prevOf q := fun q hq => by
    rw [(free_same s' m (h.ne_removed q (List.mem_cons_of_mem _ hq))).2.2.1, hun.prev]
  rw [hun.relinks.head]
  refine h.back.unlink (List.nodup_cons.mp h.nodup).2 (fun y hy => ?_) fun q hq hhead => ?_
  · rw [hprev y (List.mem_append_right _ (List.mem_of_mem_head? hy)), if_pos hy, before,
      h.above_zero_left rfl]
  · rw [hprev q hq, if_neg hhead]

end

theorem Unlinked.sorted {s s' : Skiplist} {xs ys : List SKPtr} {d : SKPtr}
    (hun : Unlinked s s' xs ys d) (h : s.Sorted (xs ++ d :: ys)) {m : Nat}
    (hm : s.maxLevel (xs ++ ys) = m) : (s'.free d m).Sorted (xs ++ ys) := by
  have hrel := hun.relinks
  have hnodup := h.nodup
  have hne := h.ne_removed
  have hsub : (xs ++ ys).Sublist (xs ++ d :: ys) :=
    List.Sublist.append_left (List.sublist_cons_self d ys) xs
  have hlevel : ∀ q ∈ xs ++ ys, (s'.free d m).levelOf q = s.levelOf q := fun q hq =>
    hun.levelOf h m hq
  have hkey : ∀ q ∈ xs ++ ys, (s'.free d m).keyOf q = s.keyOf q := fun q hq => by
    rw [keyOf, (free_same s' m (hne q (List.mem_cons_of_mem _ hq))).2.1, hrel.elem, keyOf]
  refine ⟨?_, fun q hq => ?_, fun q hq => ?_, ?_, fun l hl => hun.chain h m hl, hun.back h m,
    ?_, ?_, ?_⟩
  · exact hrel.head ▸ hnodup.sublist (List.Sublist.cons_cons _ hsub)
  · have hq' : q ∈ s.head :: (xs ++ ys) := hrel.head ▸ hq
    have hlive : s'.Live q := hrel.live q (h.live q ((List.Sublist.cons_cons _ hsub).subset hq'))
    refine ⟨hlive.old, ?_⟩
    rw [free_heap s' m (hne q hq')]
    exact hlive.links
  · rw [hlevel q hq]
    exact h.levels q (hsub.subset hq)
  · show (s'.free d m).levelOf s'.head = kMaxLevel
    rw [hrel.head, (free_same s' m (hne _ List.mem_cons_self)).1, hrel.level, h.headLevel]
  · refine (h.increasing.sublist hsub).imp_of_mem fun hp hq hlt => ?_
    rw [hkey _ hp, hkey _ hq]
    exact hlt
  · show s'.count - 1 = (xs ++ ys).length
    rw [hrel.count, h.count]
    simp only [List.length_append, List.length_cons]
    omega
  · show m = (s'.free d m).maxLevel (xs ++ ys)
    rw [← hm, maxLevel, maxLevel]
    exact congrArg (List.foldr max 0) (List.map_congr_left fun q hq => (hlevel q hq).symm)

/-- The loop that lowers `cur_max_level_` ends at the largest level of the nodes
that are left, whatever stands in front of the array. -/
theorem lowerLevel_spec {s : Skiplist} (hhead : s.Live s.head)
    (hlevel : s.levelOf s.head = kMaxLevel)
    {rest : List SKPtr}
    (hempty : ∀ l < kMaxLevel, s.nextOf l s.head = none ↔ ∀ p ∈ rest, s.levelOf p ≤ l)
    (outside : Option SKPtr) : ∀ (fuel level : Nat), level < fuel → level ≤ kMaxLevel →
    (∀ p ∈ rest, s.levelOf p ≤ level) → s.lowerLevel outside fuel level = .ok (s.maxLevel rest)
  | 0, _, hfuel, _, _ => by omega
  | fuel + 1, 0, _, _, hall => by
      have hmax : s.maxLevel rest = 0 := (maxLevel_iff s rest 0).mpr ⟨hall, Or.inl rfl⟩
      simp [lowerLevel, headBelow, hmax]
  | fuel + 1, l + 1, hfuel, hle, hall => by
      have hread : s.headBelow outside (l + 1) = .ok (s.nextOf l s.head) :=
        hhead.next (by rw [hlevel]; omega)
      rw [lowerLevel, hread, Run.ok_bind]
      by_cases hnone : s.nextOf l s.head = none
      · rw [hnone]
        simp only [Option.isNone_none, Nat.zero_lt_succ, decide_true, Bool.and_self, if_true,
          Nat.add_sub_cancel, gt_iff_lt]
        exact lowerLevel_spec hhead hlevel hempty outside fuel l (by omega) (by omega)
          ((hempty l (by omega)).mp hnone)
      · -- a node of this level is left
        have hmax : s.maxLevel rest = l + 1 := by
          refine (maxLevel_iff s rest _).mpr ⟨hall, Or.inr ?_⟩
          by_contra hno
          refine hnone ((hempty l (by omega)).mpr fun p hp => ?_)
          have hp1 := hall p hp
          have hp2 : s.levelOf p ≠ l + 1 := fun heq => hno ⟨p, hp, heq⟩
          omega
        obtain ⟨q, hq⟩ := Option.ne_none_iff_exists'.mp hnone
        rw [hq, hmax]
        rfl

section

variable {s : Skiplist} {order : List SKPtr} (h : s.Sorted order)

include h

theorem Sorted.curMaxLevel_le : s.curMaxLevel ≤ kMaxLevel := by
  rcases ((maxLevel_iff s order _).mp h.curMaxLevel.symm).2 with h0 | ⟨p, hp, hpm⟩
  · omega
  · rw [← hpm]
    exact (h.levels p hp).2

theorem Sorted.level_le_curMaxLevel {p : SKPtr} (hp : p ∈ order) : s.levelOf p ≤ s.curMaxLevel :=
  ((maxLevel_iff s order _).mp h.curMaxLevel.symm).1 p hp

theorem Sorted.curMaxLevel_pos (hne : order ≠ []) : 0 < s.curMaxLevel := by
  obtain ⟨p, ps, rfl⟩ := List.exists_cons_of_ne_nil hne
  have h1 := (h.levels p List.mem_cons_self).1
  have h2 := h.level_le_curMaxLevel (p := p) List.mem_cons_self
  omega

theorem Sorted.head_level (l : Nat) (hl : l < kMaxLevel) :
    s.nextOf l s.head = none ↔ ∀ p ∈ order, s.levelOf p ≤ l := by
  rw [(h.chain l hl).next_start, List.head?_eq_none_iff, above, List.filter_eq_nil_iff]
  simp only [decide_eq_true_eq, not_lt]

/-- The largest level without one node. -/
theorem Sorted.maxLevel_rest {xs ys : List SKPtr} {d : SKPtr} (horder : order = xs ++ d :: ys)
    (hd : s.levelOf d ≠ s.curMaxLevel) : s.maxLevel (xs ++ ys) = s.curMaxLevel := by
  obtain ⟨hall, hsome⟩ := (maxLevel_iff s order _).mp h.curMaxLevel.symm
  have hmem : ∀ q, q ∈ order ↔ q = d ∨ q ∈ xs ++ ys := fun q => by
    rw [horder]
    simp only [List.mem_append, List.mem_cons, or_left_comm]
  refine (maxLevel_iff s _ _).mpr ⟨fun p hp => hall p ((hmem p).mpr (Or.inr hp)), ?_⟩
  refine hsome.imp_right fun ⟨p, hp, hpm⟩ => ?_
  rcases (hmem p).mp hp with rfl | hp
  · exact absurd hpm hd
  · exact ⟨p, hp, hpm⟩

omit h in
/-- The largest level of the nodes that are left. -/
theorem Unlinked.levelWithout {s' : Skiplist} {xs ys : List SKPtr} {d : SKPtr}
    (hun : Unlinked s s' xs ys d) (h : s.Sorted (xs ++ d :: ys))
    (hsorted : (s'.free d (s.maxLevel (xs ++ ys))).Sorted (xs ++ ys)) (outside : Option SKPtr) :
    s'.levelWithout outside (s'.levelOf d) = .ok (s.maxLevel (xs ++ ys)) := by
  have hrel := hun.relinks
  have hmax : s'.maxLevel (xs ++ ys) = s.maxLevel (xs ++ ys) := by
    rw [maxLevel, maxLevel, hrel.level]
  rw [Skiplist.levelWithout, hrel.level, hrel.curMaxLevel]
  split
  · have hhead : s'.Live s'.head := by
      rw [hrel.head]
      exact hrel.live _ (h.live _ List.mem_cons_self)
    have hheadLevel : s'.levelOf s'.head = kMaxLevel := by
      rw [hrel.level, hrel.head, h.headLevel]
    have hempty : ∀ l < kMaxLevel, s'.nextOf l s'.head = none ↔
        ∀ p ∈ xs ++ ys, s'.levelOf p ≤ l := by
      intro l hl
      have hfree := hsorted.head_level l hl
      rw [show (s'.free d (s.maxLevel (xs ++ ys))).head = s.head from hrel.head,
        (free_same s' _ (h.ne_removed _ List.mem_cons_self)).2.2.2] at hfree
      rw [hrel.head, hfree]
      refine forall₂_congr fun p hp => ?_
      rw [(free_same s' _ (h.ne_removed p (List.mem_cons_of_mem _ hp))).1]
    have hall : ∀ p ∈ xs ++ ys, s'.levelOf p ≤ s.curMaxLevel := by
      intro p hp
      rw [hrel.level]
      exact h.level_le_curMaxLevel
        ((List.Sublist.append_left (List.sublist_cons_self d ys) xs).subset hp)
    rw [lowerLevel_spec hhead hheadLevel hempty outside _ _ (Nat.lt_succ_self _) h.curMaxLevel_le
      hall, hmax]
  · rename_i hne
    rw [h.maxLevel_rest rfl hne]

/-- The element is not there: neither of the loops is reached. -/
theorem removeWith_absent {e : SKElem} (habs : ¬ ∃ p ∈ order, s.keyOf p = e.key)
    (unlink : SKPath → SKPtr → Skiplist → Nat → Except SKError Skiplist)
    (without : Skiplist → Nat → Except SKError Nat) :
    s.removeWith unlink without e = .ok (s, false) := by
  rw [removeWith, h.next_head, Run.ok_bind]
  by_cases hne : order = []
  · rw [hne]
    rfl
  obtain ⟨xs, ys, horder, hxs, hys⟩ := h.split_at e.key
  obtain ⟨path, hfind, -⟩ := h.find_spec horder hxs hys (h.curMaxLevel_pos hne) h.curMaxLevel_le
  obtain ⟨o, os, hcons⟩ := List.exists_cons_of_ne_nil hne
  rw [hcons]
  simp only [List.head?_cons, hfind, Run.ok_bind, h.next_zero horder]
  cases ys with
  | nil => rfl
  | cons y ys =>
      have hy : y ∈ order := horder ▸ List.mem_append_right xs List.mem_cons_self
      have hsign : signOf e.key (s.elemOf y).key ≠ 0 := fun h0 =>
        habs ⟨y, hy, (signOf_zero.mp h0).symm⟩
      simp only [List.head?_cons, (h.live y (List.mem_cons_of_mem _ hy)).compareAt e, Run.ok_bind,
        if_pos hsign]

theorem remove_absent {e : SKElem} (habs : ¬ ∃ p ∈ order, s.keyOf p = e.key)
    (outside : Option SKPtr) : s.remove e outside = .ok (s, false) :=
  removeWith_absent h habs (unlinkLevel e) fun s => s.levelWithout outside

/-- The node of an element that is there. -/
theorem Sorted.split_present {e : SKElem} (hpres : ∃ p ∈ order, s.keyOf p = e.key) :
    ∃ xs d ys, order = xs ++ d :: ys ∧ s.keyOf d = e.key ∧ (∀ p ∈ xs, s.keyOf p < e.key) ∧
      ∀ p ∈ ys, e.key < s.keyOf p := by
  obtain ⟨d, hd, hkey⟩ := hpres
  obtain ⟨xs, ys, rfl⟩ := List.append_of_mem hd
  have hinc := List.pairwise_append.mp h.increasing
  refine ⟨xs, d, ys, rfl, hkey, fun p hp => ?_, fun p hp => ?_⟩
  · rw [← hkey]
    exact hinc.2.2 p hp d List.mem_cons_self
  · rw [← hkey]
    exact (List.pairwise_cons.mp hinc.2.1).1 p hp

omit h in
/-- At every level the link that is followed last leads to the node of the
element, if it has this level, and behind it otherwise. -/
theorem Sorted.target_level {xs ys : List SKPtr} {d : SKPtr} (h : s.Sorted (xs ++ d :: ys))
    {e : SKElem} (hkey : s.keyOf d = e.key) (hys : ∀ p ∈ ys, e.key < s.keyOf p) {l : Nat}
    (hl : l < kMaxLevel) : (∀ q ∈ s.nextOf l (s.before l xs), s.Live q) ∧
      ((∃ q ∈ s.nextOf l (s.before l xs), s.keyOf q = e.key) ↔ l < s.levelOf d) := by
  rw [h.next_before rfl hl]
  refine ⟨fun q hq => h.live q (List.mem_cons_of_mem _ (List.mem_append_right xs
    (List.mem_of_mem_filter (List.mem_of_mem_head? hq)))), ?_⟩
  constructor
  · rintro ⟨q, hq, hqk⟩
    obtain ⟨hmem, hlt⟩ := List.mem_filter.mp (List.mem_of_mem_head? hq)
    rcases List.mem_cons.mp hmem with rfl | hmem
    · exact of_decide_eq_true hlt
    · exact absurd hqk (hys q hmem).ne'
  · intro hlt
    refine ⟨d, ?_, hkey⟩
    rw [above, List.filter_cons_of_pos (by simpa using hlt)]
    rfl

omit h in
/-- The node behind a node. -/
theorem Sorted.next_zero_of {xs ys : List SKPtr} {d : SKPtr} (h : s.Sorted (xs ++ d :: ys)) :
    s.nextOf 0 d = ys.head? := by
  have horder : xs ++ d :: ys = (xs ++ [d]) ++ ys := by rw [List.append_assoc]; rfl
  have hbefore : s.before 0 (xs ++ [d]) = d := by
    rw [before, h.above_zero_left horder, List.getLastD_concat]
  have hnext := h.next_before horder (l := 0) (by decide)
  rwa [hbefore, h.above_zero_right horder] at hnext

omit h in
/-- What `Remove` does before it lowers `cur_max_level_`. -/
theorem Sorted.unlink_target {xs ys : List SKPtr} {d : SKPtr} (h : s.Sorted (xs ++ d :: ys))
    {e : SKElem} (hkey : s.keyOf d = e.key) (hxs : ∀ p ∈ xs, s.keyOf p < e.key)
    (hys : ∀ p ∈ ys, e.key < s.keyOf p) :
    ∃ path s₁ s₂ n, s.find e s.curMaxLevel = .ok (s.before 0 xs, path) ∧
      (∀ l < s.curMaxLevel, path[l]? = some (some (s.before l xs))) ∧
      (List.range s.curMaxLevel).reverse.foldlM (unlinkLevel e path d) s = .ok s₁ ∧
      s₁.next d 0 = .ok ys.head? ∧ s₁.setPrevOf ys.head? (s.before 0 xs) = .ok s₂ ∧
      s₂.node d = .ok n ∧ n.level = s₂.levelOf d ∧ Unlinked s s₂ xs ys d := by
  have hmem : d ∈ xs ++ d :: ys := List.mem_append_right xs List.mem_cons_self
  have hd : s.Live d := h.live d (List.mem_cons_of_mem _ hmem)
  have hge : ∀ p ∈ d :: ys, e.key ≤ s.keyOf p := by
    intro p hp
    rcases List.mem_cons.mp hp with rfl | hp
    · exact hkey.ge
    · exact (hys p hp).le
  have hmax := h.curMaxLevel_le
  obtain ⟨path, hfind, hpath⟩ :=
    h.find_spec rfl hxs hge (h.curMaxLevel_pos (List.ne_nil_of_mem hmem)) hmax
  -- the links
  have hready : ∀ l ∈ (List.range s.curMaxLevel).reverse, path[l]? = some (some (s.before l xs)) ∧
      s.Live (s.before l xs) ∧ l < s.levelOf (s.before l xs) ∧
      (∀ q ∈ s.nextOf l (s.before l xs), s.Live q) ∧
      ((∃ q ∈ s.nextOf l (s.before l xs), s.keyOf q = e.key) ↔ l < s.levelOf d) := by
    intro l hl
    have hl' : l < s.curMaxLevel := List.mem_range.mp (List.mem_reverse.mp hl)
    obtain ⟨-, hlive, hlevel⟩ := h.before_mem rfl l (by omega)
    obtain ⟨hlink, htarget⟩ := h.target_level hkey hys (l := l) (by omega)
    exact ⟨hpath l hl', hlive, hlevel, hlink, htarget⟩
  obtain ⟨s₁, hs₁, hrel₁, hprev₁, hnext₁⟩ := unlinkLevels_spec (List.range s.curMaxLevel).reverse s
    (List.nodup_reverse.mpr List.nodup_range) hd hready
  have hafter : s₁.next d 0 = .ok ys.head? := by
    have hlevel : 0 < s₁.levelOf d := by
      rw [hrel₁.level]
      exact (h.levels d hmem).1
    rw [(hrel₁.live d hd).next hlevel, hnext₁, ite_self, h.next_zero_of]
  have hyslive : ∀ a ∈ ys.head?, s₁.Live a := fun a ha => hrel₁.live a (h.live a
    (List.mem_cons_of_mem _ (List.mem_append_right xs
      (List.mem_cons_of_mem d (List.mem_of_mem_head? ha)))))
  obtain ⟨s₂, hs₂, hrel₂, hnext₂, hprev₂⟩ := setPrevOf_spec hyslive (s.before 0 xs)
  have hrel := hrel₁.trans hrel₂
  obtain ⟨n, hnode, -, hnlevel⟩ := (hrel.live d hd).node
  refine ⟨path, s₁, s₂, n, hfind, hpath, hs₁, hafter, hs₂, hnode, hnlevel, hrel, fun l q => ?_,
    fun q => ?_⟩
  · rw [hnext₂, hnext₁]
    have hiff : (l ∈ (List.range s.curMaxLevel).reverse ∧ l < s.levelOf d ∧ q = s.before l xs) ↔
        l < s.levelOf d ∧ q = s.before l xs := by
      rw [and_iff_right_of_imp]
      intro hlq
      have := h.level_le_curMaxLevel hmem
      exact List.mem_reverse.mpr (List.mem_range.mpr (by omega))
    simp only [hiff]
  · rw [hprev₂, hprev₁]

omit h in
/-- The element is there: what the loops are run on, and what is left to do after them. -/
theorem removeWith_present {xs ys : List SKPtr} {d : SKPtr} (h : s.Sorted (xs ++ d :: ys))
    {e : SKElem} (hkey : s.keyOf d = e.key) {path : SKPath} {s₁ s₂ : Skiplist} {n : SKNode}
    (hfind : s.find e s.curMaxLevel = .ok (s.before 0 xs, path))
    (hafter : s₁.next d 0 = .ok ys.head?)
    (hs₂ : s₁.setPrevOf ys.head? (s.before 0 xs) = .ok s₂) (hnode : s₂.node d = .ok n)
    {unlink : SKPath → SKPtr → Skiplist → Nat → Except SKError Skiplist}
    (hs₁ : (List.range s.curMaxLevel).reverse.foldlM (unlink path d) s = .ok s₁)
    (without : Skiplist → Nat → Except SKError Nat) :
    s.removeWith unlink without e
      = without s₂ n.level >>= fun level => .ok (s₂.free d level, true) := by
  have hmem : d ∈ xs ++ d :: ys := List.mem_append_right xs List.mem_cons_self
  obtain ⟨o, os, hcons⟩ := List.exists_cons_of_ne_nil (List.ne_nil_of_mem hmem)
  have hsign : signOf e.key (s.elemOf d).key = 0 := signOf_zero.mpr hkey.symm
  rw [removeWith, h.next_head, Run.ok_bind, hcons]
  simp only [List.head?_cons, hfind, Run.ok_bind, h.next_zero rfl,
    (h.live d (List.mem_cons_of_mem _ hmem)).compareAt e, hsign, ne_eq, not_true_eq_false, if_false,
    hs₁, hafter, hs₂, hnode]
  rfl

/-- The element is there: its node goes, and no other. -/
theorem remove_present {e : SKElem} (hpres : ∃ p ∈ order, s.keyOf p = e.key)
    (outside : Option SKPtr) : ∃ s' order', s.remove e outside = .ok (s', true) ∧
      s'.Sorted order' ∧ (∀ x ∈ s'.elems order', x.key ≠ e.key) ∧
      ∃ x, x.key = e.key ∧ (s.elems order).Perm (x :: s'.elems order') := by
  obtain ⟨xs, d, ys, rfl, hkey, hxs, hys⟩ := h.split_present hpres
  obtain ⟨path, s₁, s₂, n, hfind, -, hs₁, hafter, hs₂, hnode, hnlevel, hun⟩ :=
    h.unlink_target hkey hxs hys
  have hsorted := hun.sorted h rfl
  have hlevel := hun.levelWithout h hsorted outside
  have hsame : (s₂.free d (s.maxLevel (xs ++ ys))).elems (xs ++ ys) = s.elems (xs ++ ys) := by
    refine List.map_congr_left fun p hp => ?_
    rw [(free_same s₂ _ (h.ne_removed p (List.mem_cons_of_mem _ hp))).2.1, hun.relinks.elem]
  refine ⟨s₂.free d (s.maxLevel (xs ++ ys)), xs ++ ys, ?_, hsorted, fun x hx => ?_, s.elemOf d,
    hkey, ?_⟩
  · have hremove :=
      removeWith_present h hkey hfind hafter hs₂ hnode hs₁ fun s => s.levelWithout outside
    rw [hnlevel, hlevel, Run.ok_bind] at hremove
    exact hremove
  · rw [hsame] at hx
    obtain ⟨p, hp, rfl⟩ := List.mem_map.mp hx
    rcases List.mem_append.mp hp with hp | hp
    · exact (hxs p hp).ne
    · exact (hys p hp).ne'
  · rw [hsame]
    exact List.perm_middle.map s.elemOf

/-! ## The other operations -/

theorem contains_spec (e : SKElem) :
    s.contains e = .ok (decide (∃ p ∈ order, s.keyOf p = e.key)) := by
  rw [contains, h.next_head, Run.ok_bind]
  by_cases hne : order = []
  · subst hne
    simp
  obtain ⟨xs, ys, horder, hxs, hys⟩ := h.split_at e.key
  obtain ⟨path, hfind, -⟩ := h.find_spec horder hxs hys (h.curMaxLevel_pos hne) h.curMaxLevel_le
  have htarget := h.isTarget_spec horder hxs hys
  obtain ⟨o, os, hcons⟩ := List.exists_cons_of_ne_nil hne
  rw [show order.head? = some o by rw [hcons]; rfl]
  simp only [hfind, Run.ok_bind, h.next_zero horder, htarget]

theorem begin_spec : s.begin_ = .ok order.head? := h.next_head

theorem end_spec : s.end_ = .ok order.getLast? := by
  rw [end_, h.next_head, Run.ok_bind]
  cases order with
  | nil => rfl
  | cons o os =>
      have hgo : ∀ p ∈ o :: os, (fun _ => true : SKElem → Bool) (s.elemOf p) = true :=
        fun _ _ => rfl
      obtain ⟨path, hres, -⟩ := @descend_spec s (o :: os) (o :: os) [] h (List.append_nil _).symm
        (fun _ => true) hgo (fun _ hp => nomatch hp) kMaxLevel s.head
          (List.replicate kMaxLevel none)
        (Nat.le_refl _) List.length_replicate fun _ _ => List.mem_cons_self
      rw [if_neg (by decide)] at hres
      have hlast : s.before 0 (o :: os) = os.getLastD o := by
        rw [before, h.above_zero, List.getLastD_cons]
      simp only [List.head?_cons, hres, Run.ok_bind, hlast, List.getLast?_cons,
        List.getLastD_eq_getLast?]

omit h in
theorem gatherFrom_spec : ∀ (l : List SKPtr) (fuel : Nat) (a : SKPtr), Chain (s.nextOf 0) a l →
    (∀ p ∈ l, s.Live p ∧ 0 < s.levelOf p) → l.length ≤ fuel →
    s.gatherFrom fuel l.head? = .ok l
  | [], fuel, _, _, _, _ => by cases fuel <;> rfl
  | p :: l, 0, _, _, _, hfuel => by
      rw [List.length_cons] at hfuel
      omega
  | p :: l, fuel + 1, _, hchain, hlive, hfuel => by
      have hp := hlive p List.mem_cons_self
      have htail : Chain (s.nextOf 0) p l := hchain.2
      have ih := gatherFrom_spec l fuel p htail (fun q hq => hlive q (List.mem_cons_of_mem p hq))
        (Nat.le_of_succ_le_succ hfuel)
      simp only [List.head?_cons, gatherFrom, hp.1.next hp.2, Run.ok_bind, htail.next_start, ih]

theorem gatherAllNodes_spec : s.gatherAllNodes = .ok order := by
  have hchain := h.chain 0 (by decide)
  rw [h.above_zero] at hchain
  rw [gatherAllNodes, h.next_head, Run.ok_bind]
  refine gatherFrom_spec order s.fresh s.head hchain (fun p hp => ?_) h.length_lt.le
  exact ⟨h.live p (List.mem_cons_of_mem _ hp), (h.levels p hp).1⟩

theorem clear_spec : ∃ s', s.clear = .ok s' ∧ s'.Sorted [] := by
  rw [clear, h.count]
  by_cases hlen : order.length = 0
  · obtain rfl : order = [] := List.length_eq_zero_iff.mp hlen
    exact ⟨s, if_pos hlen, h⟩
  · obtain ⟨n, hn, hwidth⟩ := (h.live s.head List.mem_cons_self).links
    have hheap : (if s.head ∈ order then none else s.heap s.head) = some n := by
      rw [if_neg (List.nodup_cons.mp h.nodup).1, hn]
    have hnlevel : n.level = kMaxLevel := by
      have := h.headLevel
      rwa [levelOf, hn] at this
    rw [if_neg hlen, gatherAllNodes_spec h, Run.ok_bind]
    simp only [node, hheap, Run.ok_bind]
    refine ⟨_, rfl, by simp [write], fun p hp => ?_, (fun p hp => nomatch hp), ?_, fun l hl => ?_,
      trivial, .nil, rfl, rfl⟩
    · rw [List.mem_singleton.mp hp]
      refine ⟨(h.live s.head List.mem_cons_self).old,
        { n with nexts := n.nexts.map fun _ => none }, ?_, ?_⟩
      · simp [write]
      · rw [List.length_map, hwidth]
    · simp [levelOf, write, hnlevel]
    · show nextOf _ l s.head = none
      simp only [nextOf, write, Function.update_self, Option.bind_some, List.getElem?_map]
      cases n.nexts[l]? <;> rfl

end

/-! ## Runs -/

open Classical in
/-- A set of elements, in which no two are equal for the comparator. -/
noncomputable def setStep (S : Set SKElem) : Op → Set SKElem × Option Bool
  | .insert e _ =>
      if ∃ x ∈ S, skComparator e x = 0 then (S, some false) else (S ∪ {e}, some true)
  | .remove e _ =>
      if ∃ x ∈ S, skComparator e x = 0 then ({x ∈ S | skComparator e x ≠ 0}, some true)
      else (S, some false)
  | .contains e => (S, some (decide (∃ x ∈ S, skComparator e x = 0)))
  | .clear => (∅, none)

/-- The skiplist has the elements of the set. -/
def Represents (s : Skiplist) (S : Set SKElem) : Prop :=
  ∃ order, s.Sorted order ∧ ∀ x, x ∈ S ↔ x ∈ s.elems order

theorem present_iff {s : Skiplist} {order : List SKPtr} {S : Set SKElem}
    (hS : ∀ x, x ∈ S ↔ x ∈ s.elems order) (e : SKElem) :
    (∃ p ∈ order, s.keyOf p = e.key) ↔ ∃ x ∈ S, skComparator e x = 0 := by
  simp only [hS, elems, List.mem_map, skComparator_eq, signOf_zero]
  constructor
  · rintro ⟨p, hp, hkey⟩
    exact ⟨_, ⟨p, hp, rfl⟩, hkey.symm⟩
  · rintro ⟨_, ⟨p, hp, rfl⟩, hkey⟩
    exact ⟨p, hp, hkey.symm⟩

theorem step_represents {s : Skiplist} {S : Set SKElem} (h : s.Represents S) (op : Op) :
    ∃ s', s.step op = .ok (s', (setStep S op).2) ∧ s'.Represents (setStep S op).1 := by
  classical
  obtain ⟨order, hsorted, hS⟩ := h
  cases op with
  | insert e level =>
      obtain ⟨level, hpos, hle⟩ := level
      have hiff := present_iff hS e
      by_cases hpres : ∃ x ∈ S, skComparator e x = 0
      · refine ⟨s, ?_, order, hsorted, ?_⟩
        · simp only [step, insert_present hsorted hpos hle (hiff.mpr hpres), Run.ok_bind, setStep,
            if_pos hpres]
        · simpa only [setStep, if_pos hpres] using hS
      · obtain ⟨s', order', hins, hsorted', hperm⟩ :=
          insert_absent hsorted hpos hle fun hp => hpres (hiff.mp hp)
        refine ⟨s', ?_, order', hsorted', fun x => ?_⟩
        · simp only [step, hins, Run.ok_bind, setStep, if_neg hpres]
        · simp only [setStep, if_neg hpres, Set.mem_union, Set.mem_singleton_iff, hperm.mem_iff,
            List.mem_cons]
          rw [hS, or_comm]
  | remove e outside =>
      have hiff := present_iff hS e
      by_cases hpres : ∃ x ∈ S, skComparator e x = 0
      · obtain ⟨s', order', hrem, hsorted', hothers, y, hkey, hperm⟩ :=
          remove_present hsorted (hiff.mpr hpres) outside
        refine ⟨s', ?_, order', hsorted', fun x => ?_⟩
        · simp only [step, hrem, Run.ok_bind, setStep, if_pos hpres]
        · simp only [setStep, if_pos hpres, Set.mem_ofPred_eq]
          rw [hS, hperm.mem_iff, List.mem_cons, skComparator_eq, ne_eq, signOf_zero]
          constructor
          · rintro ⟨rfl | hx, hne⟩
            · exact absurd hkey.symm hne
            · exact hx
          · intro hx
            exact ⟨Or.inr hx, fun heq => hothers x hx heq.symm⟩
      · refine ⟨s, ?_, order, hsorted, ?_⟩
        · simp only [step, remove_absent hsorted (fun hp => hpres (hiff.mp hp)) outside,
            Run.ok_bind, setStep, if_neg hpres]
        · simpa only [setStep, if_neg hpres] using hS
  | contains e =>
      refine ⟨s, ?_, order, hsorted, hS⟩
      simp only [step, contains_spec hsorted, Run.ok_bind, setStep, present_iff hS e]
  | clear =>
      obtain ⟨s', hclear, hsorted'⟩ := clear_spec hsorted
      refine ⟨s', ?_, [], hsorted', fun x => ?_⟩
      · simp only [step, hclear, Run.ok_bind, setStep]
      · simp only [setStep, elems, List.map_nil, List.not_mem_nil, Set.mem_empty_iff_false]

theorem run_represents (ops : List Op) : ∃ s,
    Run.traceE step new ops = .ok (s, (Run.trace setStep ∅ ops).2) ∧
      s.Represents (Run.trace setStep ∅ ops).1 := by
  have hnew : new.Represents ∅ := ⟨[], sorted_new, fun x => by
    rw [elems, List.map_nil]
    exact ⟨(fun hx => nomatch hx), fun hx => nomatch hx⟩⟩
  exact Run.traceE_simulates Represents (fun _ _ op h _ => step_represents h op) ops new ∅ hnew
    (Run.guardedE_of_forall fun _ _ _ => trivial)

section

variable {s : Skiplist} {order : List SKPtr} (h : s.Sorted order)

include h

/-- Strictly increasing for the comparator. -/
theorem Sorted.increasing_comparator :
    order.Pairwise fun p q => skComparator (s.elemOf p) (s.elemOf q) < 0 := by
  refine h.increasing.imp fun {p q} hlt => ?_
  have hkeys : (s.elemOf p).key < (s.elemOf q).key := hlt
  rw [skComparator_eq, signOf, if_pos hkeys]
  decide

/-- The first element is the least. -/
theorem Sorted.head_least {p : SKPtr} (hp : p ∈ order.head?) {x : SKElem} (hx : x ∈ s.elems order) :
    skComparator (s.elemOf p) x ≤ 0 := by
  obtain ⟨q, hq, rfl⟩ := List.mem_map.mp hx
  obtain ⟨rest, rfl⟩ : ∃ rest, order = p :: rest := by
    cases order with
    | nil => exact nomatch hp
    | cons o os =>
        cases hp
        exact ⟨os, rfl⟩
  rcases List.mem_cons.mp hq with rfl | hq
  · rw [skComparator_eq, signOf_zero.mpr rfl]
  · exact ((List.pairwise_cons.mp h.increasing_comparator).1 q hq).le

/-- The last element is the greatest. -/
theorem Sorted.last_greatest {p : SKPtr} (hp : p ∈ order.getLast?) {x : SKElem}
    (hx : x ∈ s.elems order) : 0 ≤ skComparator (s.elemOf p) x := by
  obtain ⟨q, hq, rfl⟩ := List.mem_map.mp hx
  obtain ⟨front, rfl⟩ := List.getLast?_eq_some_iff.mp hp
  rcases List.mem_append.mp hq with hq | hq
  · have hlt := (List.pairwise_append.mp h.increasing).2.2 q hq p List.mem_cons_self
    rw [skComparator_eq]
    exact (signOf_pos.mpr hlt).le
  · rw [List.mem_singleton.mp hq, skComparator_eq, signOf_zero.mpr rfl]

end

/-- **The skiplist is a sorted set.** Every run of operations, with any random
levels, ends in a skiplist whose links are in order, returns what a set of
elements returns, and has the elements of that set; `Begin()` and `End()` are
the least and the greatest of them. -/
theorem skiplist_sorted_set (ops : List Op) : ∃ s order,
    Run.traceE step new ops = .ok (s, (Run.trace setStep ∅ ops).2) ∧ s.Sorted order ∧
      Chain (s.nextOf 0) s.head order ∧
      (order.Pairwise fun p q => skComparator (s.elemOf p) (s.elemOf q) < 0) ∧
      (∀ x, x ∈ (Run.trace setStep ∅ ops).1 ↔ x ∈ s.elems order) ∧
      s.begin_ = .ok order.head? ∧
      (∀ p ∈ order.head?, ∀ x ∈ s.elems order, skComparator (s.elemOf p) x ≤ 0) ∧
      s.end_ = .ok order.getLast? ∧
      ∀ p ∈ order.getLast?, ∀ x ∈ s.elems order, 0 ≤ skComparator (s.elemOf p) x := by
  obtain ⟨s, hrun, order, hsorted, hS⟩ := run_represents ops
  have hchain := hsorted.chain 0 (by decide)
  rw [hsorted.above_zero] at hchain
  exact ⟨s, order, hrun, hsorted, hchain, hsorted.increasing_comparator, hS, begin_spec hsorted,
    fun p hp x hx => hsorted.head_least hp hx, end_spec hsorted,
    fun p hp x hx => hsorted.last_greatest hp hx⟩

end Skiplist

end LiteKV
