/-
LiteKV.RangeTheorems — which slice `ListRange` returns, and when it walks off
the list.

The loops of `RANGE_FUNC_HELPER` read consecutive flat slots
(`rangeNodes_flat`), so a range that starts inside the list is the slice.
Two paths leave the list. A start behind the end is looked up all the same,
and `NodeAtIndex` follows `next` past the last node unless a redundant block
is still linked there (`reach`). And a negative start is set to 0 only when
the end is positive: with the end 0 the negative number reaches the block
arithmetic, which reads in front of the list.
-/
import LiteKV.CoreTheorems

namespace LiteKV

open Lib.Blocks Lib.Run

namespace DList

/-! ## Reading slots -/

theorem rangeBlock_ok (n : Node) (hn : n.data.length = 128) : ∀ (distance off : Nat), off ≤ 128 →
    rangeBlock n distance off
      = .ok ((n.data.drop off).take distance, distance - (128 - off))
  | 0, off, _ => by simp [rangeBlock]
  | distance + 1, off, h => by
      rw [rangeBlock]
      by_cases he : off = 128
      · have hcast : (off : Int) = (kBlockSize : Int) := by rw [he]
        rw [if_pos hcast, List.drop_eq_nil_of_le (by omega), List.take_nil, he, Nat.sub_self,
          Nat.sub_zero]
      · have hcast : ¬ (off : Int) = (kBlockSize : Int) := by
          rw [show ((kBlockSize : Nat) : Int) = 128 from rfl]
          omega
        have hlt : off < n.data.length := by omega
        have hnext : (off : Int) + 1 = ((off + 1 : Nat) : Int) := by omega
        rw [if_neg hcast, if_neg (by omega), Int.toNat_natCast, List.getElem?_eq_getElem hlt, hnext,
          rangeBlock_ok n hn distance (off + 1) (by omega)]
        simp only [ok_bind, pure_eq_ok]
        rw [List.drop_eq_getElem_cons hlt, List.take_succ_cons]
        congr 2
        omega

/-- The loops read consecutive flat slots while the blocks are in use. -/
theorem rangeNodes_flat : ∀ {nodes : List Node} {off distance : Nat},
    Uniform 128 (nodes.map Node.data) → off < 128 → off + distance ≤ nodes.length * 128 →
    (∀ i n, nodes[i]? = some n → 0 < distance → i * 128 < off + distance → n.occupied > 0) →
    rangeNodes nodes off distance = .ok (((flat nodes).drop off).take distance)
  | [], off, distance, _, _, hfit, _ => by
      rw [List.length_nil] at hfit
      simp [rangeNodes, show distance = 0 by omega]
  | n :: nodes, off, distance, hu, hoff, hfit, hocc => by
      have hn : n.data.length = 128 := hu.head
      rw [rangeNodes]
      by_cases hd : distance = 0
      · rw [if_neg (by omega), hd, List.take_zero]
      · have hpos : n.occupied > 0 := hocc 0 n rfl (by omega) (by omega)
        rw [List.length_cons] at hfit
        rw [if_pos ⟨hpos, by omega⟩, rangeBlock_ok n hn distance off (by omega)]
        have hrest : rangeNodes nodes ((0 : Nat) : Int) (distance - (128 - off))
            = .ok (((flat nodes).drop 0).take (distance - (128 - off))) := by
          refine rangeNodes_flat hu.tail (by omega) (by omega) fun i m hm _ hi => ?_
          exact hocc (i + 1) m (by simpa using hm) (by omega) (by omega)
        rw [Int.natCast_zero] at hrest
        simp only [ok_bind, pure_eq_ok, hrest]
        rw [List.drop_zero, Window.flat_cons, List.drop_append_of_le_length (by omega),
          List.take_append, List.length_drop, hn]

theorem rangeNodes_zero (nodes : List Node) (off : Int) : rangeNodes nodes off 0 = .ok [] := by
  cases nodes <;> simp [rangeNodes]

/-- A range inside the window, from the slot that holds its first element. -/
theorem rangeNodes_window {nodes : List Node} {s : Nat} {l : List Bytes} (h : Window nodes s l)
    {tmp off b distance : Nat} (hpos : tmp * 128 + off = s + b) (hoff : off < 128)
    (htmp : tmp ≤ nodes.length) (hfit : b + distance ≤ l.length) :
    rangeNodes (nodes.drop tmp) off distance = .ok (((l.drop b).take distance).map some) := by
  have hfits := h.fits
  have hu : Uniform 128 ((nodes.drop tmp).map Node.data) := by
    intro x hx
    obtain ⟨n, hn, rfl⟩ := List.mem_map.mp hx
    exact h.blocks n (List.mem_of_mem_drop hn)
  have hflat : flat (nodes.drop tmp) = (flat nodes).drop (tmp * 128) := by
    rw [flat, flat, List.map_drop, flatten_drop tmp h.uniform]
  rw [rangeNodes_flat hu hoff (by rw [List.length_drop]; omega) ?_, hflat, List.drop_drop, hpos,
    ← take_drop_window hfit, h.slots, List.map_take, List.map_drop]
  intro i n hn hd hi
  rw [List.getElem?_drop] at hn
  have hocc := h.occ _ n hn
  omega

/-! ## A start that is not negative -/

/-- How far `NodeAtIndex` gets: the elements of the first node, and all slots of
the blocks linked behind it. -/
def reach (d : DList) : Nat := d.frontCount + 128 * (d.nodes.length - 1 - d.begin_.node)

theorem deref_error {d : DList} {node : Nat} (h : d.nodes.length ≤ node) :
    d.deref node = .error .badAccess := by rw [deref, List.getElem?_eq_none h]

/-- Following `next` past the last node. -/
theorem advance_error {d : DList} : ∀ (k node : Nat), node ≤ d.nodes.length →
    d.nodes.length < node + k → d.advance k node = .error .badAccess
  | 0, _, _, h => by omega
  | k + 1, node, hle, h => by
      rw [advance]
      by_cases hn : node < d.nodes.length
      · rw [deref_ok (List.getElem?_eq_getElem hn), ok_bind]
        exact advance_error k (node + 1) (by omega) (by omega)
      · rw [deref_error (by omega), error_bind]

/-- The elements the loops are asked for are the slice. -/
theorem take_drop_slice {l : List Bytes} {b e : Nat} (hb : b < l.length) (hbe : b ≤ e) :
    (l.drop b).take (min e (l.length - 1) - b + 1) = (l.take (e + 1)).drop b := by
  rw [List.drop_take]
  by_cases he : e ≤ l.length - 1
  · rw [Nat.min_eq_left he]
    congr 1
    omega
  · rw [Nat.min_eq_right (by omega), List.take_of_length_le (by rw [List.length_drop]; omega),
      List.take_of_length_le (by rw [List.length_drop]; omega)]

/-- The number of elements a range asks for, with the end clamped. -/
theorem distance_toNat {n b e : Nat} (hn : n < 2 ^ 31) (hn0 : 0 < n) (hb : b < 2 ^ 31) (hbe : b ≤ e)
    (he : e < 2 ^ 31) :
    (toInt32 (min (e : Int) (toInt32 (n - 1 : Nat)) - b + 1)).toNat
      = if b < n then min e (n - 1) - b + 1 else 0 := by
  rw [toInt32_of_lt (by omega)]
  split <;> (simp only [toInt32]; omega)

theorem rangeBetween_nonneg {d : DList} {l : List Bytes} (h : Repr d l) (hl : l ≠ [])
    (hlen : l.length < 2 ^ 31) {b e : Nat} (hbe : b ≤ e) (he : e < 2 ^ 31) :
    d.rangeBetween b e
      = if b < d.reach then .ok (((l.take (e + 1)).drop b).map some) else .error .badAccess := by
  have hl0 : 0 < l.length := List.length_pos_iff.mpr hl
  obtain ⟨hw, hdlen, hnn, hbn, hen, hcur⟩ := h
  obtain ⟨n, hn, hnl⟩ := hw.node hbn
  have hocc := hw.occ _ n hn
  rcases hcur with ⟨rfl, -, -⟩ | ⟨bo, eo, hb, -, hbo, -, -, -⟩
  · exact absurd rfl hl
  have hs : d.start = d.begin_.node * 128 + bo := by simp [start, hb]
  rw [hs] at hocc hw
  have hcond : ¬ (d.len = 0 ∨ (b : Int) > (e : Int)) := by omega
  have hidx : ((b : Int) % 2 ^ 64).toNat = b := by omega
  have hdist := distance_toNat hlen hl0 (by omega) hbe he
  rw [← hdlen] at hdist
  simp only [rangeBetween, if_neg hcond, hidx, hdist, reach, frontCount_of_node hn]
  by_cases hfirst : b < n.occupied
  · -- in the node `begin_` is in
    have hat : d.nodeAtIndex b = .ok (d.begin_.node, -1, (b : Int)) := by
      simp only [nodeAtIndex, deref_ok hn, ok_bind, if_pos hfirst, pure_eq_ok]
    have hbl : b < l.length := by omega
    rw [if_pos (by omega : b < n.occupied + 128 * (d.nodes.length - 1 - d.begin_.node))]
    simp only [hat, ok_bind, deref_ok hn, if_true, hb, pure_eq_ok, hdlen, if_pos hbl]
    have hpos : d.begin_.node * 128 + (bo + b) = d.begin_.node * 128 + bo + b := by omega
    rw [← Int.natCast_add, rangeNodes_window hw hpos (by omega) (by omega) (by omega),
      take_drop_slice hbl hbe]
  · -- some nodes further on, if they are linked
    obtain ⟨j, hj⟩ : ∃ j, b = n.occupied + j := ⟨b - n.occupied, by omega⟩
    have hat := nodeAtIndex_behind hn j (by omega)
    rw [← hj] at hat
    rw [hat]
    by_cases hlink : d.begin_.node + (j / 128 + 1) < d.nodes.length
    · obtain ⟨m, hm, -⟩ := hw.node hlink
      have hne : ¬ d.begin_.node + (j / 128 + 1) = d.begin_.node := by omega
      rw [if_pos (by omega : b < n.occupied + 128 * (d.nodes.length - 1 - d.begin_.node)),
        advance_ok _ _ (by omega)]
      simp only [ok_bind, pure_eq_ok, deref_ok hm, if_neg hne]
      by_cases hbl : b < l.length
      · have hpos : (d.begin_.node + (j / 128 + 1)) * 128 + j % 128
            = d.begin_.node * 128 + bo + b := by omega
        rw [hdlen, if_pos hbl, rangeNodes_window hw hpos (by omega) (by omega) (by omega),
          take_drop_slice hbl hbe]
      · have hnil : (l.take (e + 1)).drop b = [] :=
          List.drop_eq_nil_of_le (by rw [List.length_take]; omega)
        rw [hdlen, if_neg hbl, hnil, rangeNodes_zero, List.map_nil]
    · rw [if_neg (by omega : ¬ b < n.occupied + 128 * (d.nodes.length - 1 - d.begin_.node))]
      by_cases hend : d.begin_.node + (j / 128 + 1) = d.nodes.length
      · rw [advance_ok _ _ (by omega)]
        simp only [ok_bind, pure_eq_ok, deref_error (Nat.le_of_eq hend.symm), error_bind]
      · rw [advance_error _ _ (by omega) (by omega)]
        simp only [error_bind]

/-! ## A negative start with the end 0 -/

/-- `NodeAtIndex` for a negative start: the block arithmetic goes backwards from
the first node's elements, `k` slots in all. -/
theorem nodeAtIndex_negative {d : DList} {n : Node} (hn : d.nodes[d.begin_.node]? = some n)
    {b : Int} (hb0 : b < 0) {k : Nat} (hk : (k : Int) = n.occupied - b) (hk31 : k ≤ 2 ^ 31)
    (hocc : n.occupied ≤ 128) :
    d.nodeAtIndex (b % 2 ^ 64).toNat
      = .ok (if k < 128 then d.begin_.node + 1 else d.begin_.node, -((k / 128 : Nat) : Int),
          -((k % 128 : Nat) : Int)) := by
  have hfirst : ¬ n.occupied > (b % 2 ^ 64).toNat := by omega
  have hdiff : toInt32 (((b % 2 ^ 64).toNat - n.occupied : Nat) : Int) = -(k : Int) := by
    simp only [toInt32]
    omega
  have hdiv : Int.tdiv (-(k : Int)) (kBlockSize : Int) = -((k / 128 : Nat) : Int) := by
    rw [Int.neg_tdiv, Int.tdiv_eq_ediv_of_nonneg (by omega)]; rfl
  have hmod : Int.tmod (-(k : Int)) (kBlockSize : Int) = -((k % 128 : Nat) : Int) := by
    rw [Int.neg_tmod, Int.tmod_eq_emod_of_nonneg (by omega)]; rfl
  have hadv : d.advance (-((k / 128 : Nat) : Int) + 1).toNat d.begin_.node
      = .ok (if k < 128 then d.begin_.node + 1 else d.begin_.node) := by
    by_cases hlt : k < 128
    · rw [if_pos hlt, show (-((k / 128 : Nat) : Int) + 1).toNat = 1 by omega, advance, deref_ok hn,
        ok_bind, advance]
    · rw [if_neg hlt, show (-((k / 128 : Nat) : Int) + 1).toNat = 0 by omega, advance]
  simp only [nodeAtIndex, deref_ok hn, ok_bind, if_neg hfirst, hdiff, hdiv, hmod, hadv, pure_eq_ok]

/-- Reading at least two slots from one at or in front of the first element
gives just that element only when it is alone, in the last slot of its block. -/
theorem rangeNodes_front {n : Node} {rest : List Node} {bo : Nat} {v : Bytes} {l : List Bytes}
    (h : Window (n :: rest) bo (v :: l)) (hbo : bo < 128) {off D : Nat} (hoff : off ≤ bo)
    (hD : 2 ≤ D) :
    rangeNodes (n :: rest) off D = .ok [some v] ↔ off = 127 ∧ l = [] := by
  have hn : n.data.length = 128 := h.blocks n List.mem_cons_self
  have ho := h.occ 0 n rfl
  rw [List.length_cons] at ho
  have hcond : n.occupied > 0 ∧ D > 0 := by omega
  simp only [rangeNodes, if_pos hcond, rangeBlock_ok n hn D off (by omega), ok_bind, pure_eq_ok]
  constructor
  · intro heq
    cases hys : rangeNodes rest 0 (D - (128 - off)) with
    | error e => simp [hys] at heq
    | ok ys =>
        simp only [hys, ok_bind, Except.ok.injEq] at heq
        have hlen := congrArg List.length heq
        rw [List.length_append, List.length_take, List.length_drop, hn,
          List.length_singleton] at hlen
        refine ⟨by omega, ?_⟩
        cases rest with
        | nil =>
            have hfits := h.fits
            simp only [List.length_cons, List.length_nil] at hfits
            exact List.eq_nil_of_length_eq_zero (by omega)
        | cons m ms =>
            by_contra hl
            have hl0 : 0 < l.length := List.length_pos_iff.mpr hl
            have hm : m.data.length = 128 := h.blocks m (by simp)
            have hmo := h.occ 1 m rfl
            rw [List.length_cons] at hmo
            have hcond' : m.occupied > 0 ∧ D - (128 - off) > 0 := by omega
            rw [rangeNodes, if_pos hcond', ← Int.natCast_zero,
              rangeBlock_ok m hm _ 0 (by omega)] at hys
            simp only [ok_bind, Int.natCast_zero] at hys
            cases hzs : rangeNodes ms 0 (D - (128 - off) - (128 - 0)) with
            | error e => simp [hzs] at hys
            | ok zs =>
                simp only [hzs, ok_bind, pure_eq_ok, Except.ok.injEq] at hys
                have hyl := congrArg List.length hys
                rw [List.length_append, List.length_take, List.length_drop, hm] at hyl
                omega
  · rintro ⟨rfl, rfl⟩
    have hread : n.data[127]? = some (some v) :=
      h.read (show 0 * 128 + 127 = bo + 0 by omega) (by simp) rfl (by omega)
    have hslot : (n.data.drop 127).take D = [some v] := by
      rw [List.drop_eq_getElem_cons (by omega), List.drop_eq_nil_of_le (by omega),
        List.take_of_length_le (by simp; omega)]
      simpa [List.getElem?_eq_getElem (show 127 < n.data.length by omega)] using hread
    have hrest : rangeNodes rest 0 (D - (128 - 127)) = .ok [] := by
      cases rest with
      | nil => rfl
      | cons m ms =>
          have hmo := h.occ 1 m rfl
          rw [List.length_singleton] at hmo
          rw [rangeNodes, if_neg (by omega)]
    rw [hrest, hslot]
    rfl

/-- A range that starts in front of its block reads nothing. -/
theorem rangeNodes_negative {off : Int} (hoff : off < 0) (nodes : List Node) (D : Nat)
    (x : DynamicString) : rangeNodes nodes off D ≠ .ok [x] := by
  cases nodes with
  | nil => simp [rangeNodes]
  | cons n rest =>
      rw [rangeNodes]
      split
      · rename_i hcond
        obtain ⟨D', rfl⟩ : ∃ D', D = D' + 1 := ⟨D - 1, by omega⟩
        have hend : ¬ off = (kBlockSize : Int) := by
          rw [show ((kBlockSize : Nat) : Int) = 128 from rfl]
          omega
        rw [rangeBlock, if_neg hend, if_pos hoff, error_bind]
        simp
      · simp

/-- The one way in which a negative start with the end 0 gives the first
element: it is alone, in the last slot of its block, and the block arithmetic
comes back to that slot. -/
def HitsFirst (d : DList) (b : Int) : Prop :=
  d.len = 1 ∧ d.begin_.ptr = some 127 ∧ (b - 1) % 128 = 0 ∧ b ≠ 1 - 2 ^ 31

theorem rangeBetween_negative {d : DList} {v : Bytes} {l : List Bytes} (h : Repr d (v :: l))
    (hlen : (v :: l).length < 2 ^ 31) {b : Int} (hb0 : b < 0)
    (hb : ((v :: l).length : Int) ≤ b + 2 ^ 31) :
    d.rangeBetween b 0 = .ok [some v] ↔ HitsFirst d b := by
  obtain ⟨hw, hdlen, hnn, hbn, hen, hcur⟩ := h
  obtain ⟨n, hn, hnl⟩ := hw.node hbn
  have hocc := hw.occ _ n hn
  rcases hcur with ⟨hnil, -, -⟩ | ⟨bo, eo, hptr, -, hbo, -, -, -⟩
  · cases hnil
  have hs : d.start = d.begin_.node * 128 + bo := by simp [start, hptr]
  rw [hs] at hocc hw
  rw [List.length_cons] at hlen hb hocc hdlen
  have ho128 : n.occupied ≤ 128 := by clear hlen hb hdlen; omega
  have hol : n.occupied ≤ l.length + 1 := by clear hlen hb hdlen; omega
  have hcond : ¬ (d.len = 0 ∨ b > 0) := by omega
  obtain ⟨k, hk⟩ : ∃ k : Nat, (k : Int) = n.occupied - b := ⟨(n.occupied - b).toNat, by omega⟩
  have hmin : min (0 : Int) (toInt32 (d.len - 1 : Nat)) = 0 := by
    rw [toInt32_of_lt (by omega)]
    omega
  have hk31 : k ≤ 2 ^ 31 := by clear hocc hmin hcond; omega
  have hat := nodeAtIndex_negative hn hb0 hk hk31 ho128
  obtain ⟨D, hD⟩ : ∃ D, (toInt32 (0 - b + 1)).toNat = D := ⟨_, rfl⟩
  have hD2 : if b = 1 - 2 ^ 31 then D = 0 else 2 ≤ D := by
    simp only [toInt32] at hD
    split <;> omega
  simp only [rangeBetween, if_neg hcond, hmin, hat, ok_bind, hD, HitsFirst, hptr,
    Option.some.injEq]
  have hback : (n.occupied : Int) = k + b := by omega
  by_cases hlt : k < 128
  · -- one node too far, at a negative offset
    refine iff_of_false ?_ (by rintro ⟨h1, rfl, h2, -⟩; omega)
    have hne : ¬ d.begin_.node + 1 = d.begin_.node := by omega
    simp only [if_pos hlt, if_neg hne, pure_eq_ok]
    cases hnext : d.deref (d.begin_.node + 1) with
    | error e => simp
    | ok m =>
        simp only [ok_bind]
        exact rangeNodes_negative (by omega) _ _ _
  · -- in the first node, at or in front of the first element
    simp only [if_neg hlt, deref_ok hn, ok_bind, if_true, pure_eq_ok]
    by_cases hoff : bo < k % 128
    · refine iff_of_false (rangeNodes_negative (by omega) _ _ _) ?_
      rintro ⟨-, rfl, -, -⟩
      omega
    · obtain ⟨off, hoff'⟩ : ∃ off : Nat, (bo : Int) + -((k % 128 : Nat) : Int) = off :=
        ⟨bo - k % 128, by omega⟩
      rw [hoff']
      by_cases hwrap : b = 1 - 2 ^ 31
      · rw [if_pos hwrap] at hD2
        rw [hD2, rangeNodes_zero]
        simp [hwrap]
      · rw [if_neg hwrap] at hD2
        have hfront := hw.drop d.begin_.node (Nat.le_of_lt hbn)
        rw [List.drop_eq_getElem_cons hbn] at hfront ⊢
        rw [rangeNodes_front hfront hbo (by omega) hD2]
        constructor
        · rintro ⟨h127, rfl⟩
          simp only [List.length_nil] at hdlen hocc
          exact ⟨hdlen, by omega, by omega, hwrap⟩
        · rintro ⟨h1, h127, hmod, -⟩
          have hl : l = [] := List.eq_nil_of_length_eq_zero (by omega)
          rw [hl, List.length_nil] at hocc
          refine ⟨?_, hl⟩
          clear hlen hb hk31 hD hD2 hwrap hmin hcond
          omega

end DList

namespace KVContainer

open DList

/-! ## `ListRange` -/

/-- The position an index stands for; a negative one counts from the end. -/
def position (index : Int32) (n : Nat) : Int :=
  if index.toInt < 0 then index.toInt + n else index.toInt

/-- The elements at the positions from `max b 0` to `min e (n - 1)`. -/
def slice (l : List Bytes) (b e : Int) : List Bytes := (l.take (e + 1).toNat).drop b.toNat

/-- Both forms of `ListRange` return the slice, and no dereference fails. -/
def ReturnsSlice (h : KVContainer) (now : Nat) (key : Key) (l : List Bytes) (begin_ end_ : Int32) :
    Prop :=
  let s := slice l (position begin_ l.length) (position end_ l.length)
  (h.listRange now key begin_.toInt end_.toInt).2.1 = .ok (s.map some) ∧
    (h.listRangeAsStdString now key begin_.toInt end_.toInt).2.1 = .ok s

/-- The list is empty; or the start is not negative, and the range is empty or
starts within `reach`; or the start is negative and the end is not 0 (up to
one stroke of luck). -/
def RangeFits (d : DList) (b e : Int) : Prop :=
  d.len = 0 ∨ 0 ≤ b ∧ (e < b ∨ b < d.reach) ∨ b < 0 ∧ (e ≠ 0 ∨ d.HitsFirst b)

theorem normIndex_eq {n : Nat} (hn : n < 2 ^ 31) (index : Int32) :
    normIndex index.toInt n = position index n := by
  have hl := index.le_toInt
  have hu := index.toInt_lt
  unfold normIndex position
  split
  · simp only [toInt32]
    omega
  · rfl

theorem rangeBetweenAsStdString_ok {d : DList} {b e : Int} {l : List Bytes}
    (h : d.rangeBetween b e = .ok (l.map some)) : d.rangeBetweenAsStdString b e = .ok l := by
  simp only [rangeBetweenAsStdString, h, ok_bind, pure_eq_ok, List.map_map]
  congr 1
  exact List.map_id'' (fun _ => rfl) l

/-- What the two forms have in common, once the key holds a list. -/
theorem listRangeCommonOperation_eq {β : Type}
    (range : DList → Int → Int → Except DListError (List β)) {h : KVContainer} {key : Key}
    {obj : ValueObject} {o : ListObject} (hf : h.find key = some obj)
    (ho : obj.payload.asList = some o) (hlen : o.toList.length < 2 ^ 31) (now : Nat)
    (begin_ end_ : Int32) :
    let b := position begin_ o.toList.length
    let e := position end_ o.toList.length
    (listRangeCommonOperation range h now key begin_.toInt end_.toInt).2.1
      = if (b > 0 ∧ e < 0) ∨ (b < 0 ∧ e < 0) then .ok []
        else range o.list (if b < 0 ∧ e > 0 then 0 else b) e := by
  simp only [listRangeCommonOperation, hf, ho, ListObject.length_eq, normIndex_eq hlen]
  split <;> rfl

theorem slice_of_neg {l : List Bytes} {b e : Int} (he : e < 0) : slice l b e = [] := by
  rw [slice, show (e + 1).toNat = 0 by omega, List.take_zero, List.drop_nil]

theorem slice_of_lt {l : List Bytes} {b e : Int} (hb : 0 ≤ b) (h : e < b) : slice l b e = [] :=
  List.drop_eq_nil_of_le (by rw [List.length_take]; omega)

theorem rangeBetween_empty {d : DList} {b e : Int} (h : d.len = 0 ∨ b > e) :
    d.rangeBetween b e = .ok [] := by simp only [rangeBetween, if_pos h, pure_eq_ok]

/-- The sign handling of the macro and the loops behind it give the slice
exactly when the range fits. -/
theorem range_slice_iff {d : DList} {l : List Bytes} (hr : Repr d l) (hlen : l.length < 2 ^ 31)
    {b e : Int} (hb : b < 0 → (l.length : Int) ≤ b + 2 ^ 31) (he : e < 2 ^ 31) :
    (if (b > 0 ∧ e < 0) ∨ (b < 0 ∧ e < 0) then .ok []
      else d.rangeBetween (if b < 0 ∧ e > 0 then 0 else b) e) = .ok ((slice l b e).map some) ↔
      RangeFits d b e := by
  have hdlen := hr.len
  cases l with
  | nil =>
      rw [List.length_nil] at hdlen
      have hnil : slice [] b e = [] := by simp [slice]
      refine iff_of_true ?_ (Or.inl hdlen)
      rw [hnil, rangeBetween_empty (Or.inl hdlen)]
      split <;> rfl
  | cons v t =>
      rw [List.length_cons] at hdlen
      have hfront := frontCount_pos hr (by simp)
      have hempty : d.len ≠ 0 := by omega
      by_cases hb0 : b < 0
      · rcases lt_trichotomy e 0 with he0 | rfl | he0
        · rw [if_pos (Or.inr ⟨hb0, he0⟩), slice_of_neg he0]
          exact iff_of_true rfl (Or.inr (Or.inr ⟨hb0, Or.inl (by omega)⟩))
        · -- the macro leaves the negative start as it is
          have hs : slice (v :: t) b 0 = [v] := by
            rw [slice, show b.toNat = 0 by omega]
            rfl
          rw [if_neg (by omega), if_neg (by omega), hs, List.map_singleton,
            rangeBetween_negative hr hlen hb0 (hb hb0)]
          constructor
          · intro hh
            exact Or.inr (Or.inr ⟨hb0, Or.inr hh⟩)
          · rintro (h0 | ⟨h0, -⟩ | ⟨-, h0 | hh⟩)
            · exact absurd h0 hempty
            · omega
            · exact absurd rfl h0
            · exact hh
        · obtain ⟨e', rfl⟩ : ∃ e' : Nat, e = e' := ⟨e.toNat, by omega⟩
          have hreach : 0 < d.reach := by simp only [reach]; omega
          have hnn := rangeBetween_nonneg hr (by simp) hlen (Nat.zero_le e') (by omega)
          rw [Int.natCast_zero, if_pos hreach] at hnn
          rw [if_neg (by omega), if_pos ⟨hb0, he0⟩, hnn, slice, show b.toNat = 0 by omega,
            show ((e' : Int) + 1).toNat = e' + 1 by omega]
          exact iff_of_true rfl (Or.inr (Or.inr ⟨hb0, Or.inl (by omega)⟩))
      · by_cases hlt : e < b
        · have hs : slice (v :: t) b e = [] := slice_of_lt (by omega) hlt
          refine iff_of_true ?_ (Or.inr (Or.inl ⟨by omega, Or.inl hlt⟩))
          rw [hs, if_neg (by omega : ¬ (b < 0 ∧ e > 0)), rangeBetween_empty (Or.inr hlt)]
          split <;> rfl
        · obtain ⟨b', rfl⟩ : ∃ b' : Nat, b = b' := ⟨b.toNat, by omega⟩
          obtain ⟨e', rfl⟩ : ∃ e' : Nat, e = e' := ⟨e.toNat, by omega⟩
          have hnn :=
            rangeBetween_nonneg hr (by simp) hlen (b := b') (e := e') (by omega) (by omega)
          rw [if_neg (by omega), if_neg (by omega), hnn, slice, Int.toNat_natCast,
            show ((e' : Int) + 1).toNat = e' + 1 by omega]
          split
          · rename_i hreach
            exact iff_of_true rfl (Or.inr (Or.inl ⟨by omega, Or.inr (by omega)⟩))
          · rename_i hreach
            refine iff_of_false (by simp) ?_
            rintro (h0 | ⟨-, h0 | h0⟩ | ⟨h0, -⟩) <;> omega

/-- **`ListRange` returns the right slice exactly when the range fits**, for
every list shorter than an `int` can count. -/
theorem listRange_slice_iff {h : KVContainer} {key : Key} {obj : ValueObject} {o : ListObject}
    (hf : h.find key = some obj) (ho : obj.payload.asList = some o)
    (hlen : o.toList.length < 2 ^ 31) (now : Nat) (begin_ end_ : Int32) :
    ReturnsSlice h now key o.toList begin_ end_ ↔
      RangeFits o.list (position begin_ o.toList.length) (position end_ o.toList.length) := by
  have hb : position begin_ o.toList.length < 0 →
      (o.toList.length : Int) ≤ position begin_ o.toList.length + 2 ^ 31 := by
    have := begin_.le_toInt
    unfold position
    split <;> omega
  have he : position end_ o.toList.length < 2 ^ 31 := by
    have := end_.toInt_lt
    unfold position
    split <;> omega
  simp only [ReturnsSlice, listRange, listRangeAsStdString,
    listRangeCommonOperation_eq _ hf ho hlen]
  rw [← range_slice_iff o.repr_toList hlen hb he]
  refine and_iff_left_of_imp fun heq => ?_
  split
  · rename_i hc
    rw [if_pos hc] at heq
    have hnil := List.map_eq_nil_iff.mp (Except.ok.inj heq).symm
    rw [hnil]
  · rename_i hc
    rw [if_neg hc] at heq
    exact rangeBetweenAsStdString_ok heq

/-- A list of one element, pushed from the left or from the right. -/
def oneElement (left : Bool) : KVContainer :=
  [(Op.listPush [108] left [[120]], 0)].foldl apply new

theorem listRange_slice_oneElement :
    (oneElement true).find ⟨[108]⟩ = some ⟨.list (ListObject.new.push true [120]), 0⟩ ∧
      (ReturnsSlice (oneElement true) 0 ⟨[108]⟩ (ListObject.new.push true [120]).toList (-1) 5 ↔
        RangeFits (ListObject.new.push true [120]).list
          (position (-1) (ListObject.new.push true [120]).toList.length)
          (position 5 (ListObject.new.push true [120]).toList.length)) :=
  ⟨rfl, listRange_slice_iff rfl rfl (by simp) 0 (-1) 5⟩

/-- A start behind the end follows a null pointer; a negative start with the end
0 misses the first element. -/
theorem listRange_walks_off :
    (oneElement false).Reachable ∧ (oneElement true).Reachable ∧
      ¬ ReturnsSlice (oneElement false) 0 ⟨[108]⟩ [[120]] 1 5 ∧
      ¬ ReturnsSlice (oneElement true) 0 ⟨[108]⟩ [[120]] (-5) 0 := by
  refine ⟨⟨_, rfl⟩, ⟨_, rfl⟩, fun hs => ?_, fun hs => ?_⟩
  · have hfault : ((oneElement false).listRange 0 ⟨[108]⟩ 1 5).2.1 = .error .badAccess := rfl
    exact absurd (hfault.symm.trans hs.1) (by simp)
  · have hempty : ((oneElement true).listRange 0 ⟨[108]⟩ (-5) 0).2.1 = .ok [] := rfl
    have hslice := hempty.symm.trans hs.1
    revert hslice
    decide +kernel

end KVContainer

end LiteKV
