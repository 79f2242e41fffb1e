/-
LiteKV.TrimTheorems — `FreeRedundantNodes` and the operations after it.

A chain with spare nodes at its ends is `e.pad p q`: `p` new nodes in front
and `q` behind. No operation can tell it from `e`, apart from a range read
that starts in one of the spare nodes: each has a `pad` lemma, and
`run_pad` collects them. The spare nodes of a list that was only pushed to,
popped from and trimmed are new nodes, since a pop leaves a null string in
the slot it empties; `Tidy` keeps that by counting the strings.

So trimming is right wherever it comes to an end. It does unless the list is
empty and the node a cursor is left in is the first or the last of the chain:
that node is deleted too, and the condition of the loop is read through it.
-/
import LiteKV.RangeTheorems

namespace LiteKV

open Lib.Blocks Lib.Run

namespace DList

/-! ## Spare nodes -/

/-- The list with `p` new nodes in front of its chain and `q` behind. -/
def pad (d : DList) (p q : Nat) : DList :=
  { nodes := List.replicate p Node.new ++ d.nodes ++ List.replicate q Node.new
    begin_ := { d.begin_ with node := d.begin_.node + p }
    end_ := { d.end_ with node := d.end_.node + p }
    len := d.len
    nNodes := d.nNodes + p + q }

section

variable {e : DList} {p q : Nat}

theorem nodes_pad {i : Nat} (hi : i < e.nodes.length) :
    (e.pad p q).nodes[i + p]? = e.nodes[i]? := by
  rw [pad, List.getElem?_append_left (by simp; omega),
    List.getElem?_append_right (by simp), List.length_replicate, Nat.add_sub_cancel]

theorem length_pad : (e.pad p q).nodes.length = p + e.nodes.length + q := by
  simp [pad, Nat.add_assoc]

theorem deref_pad {i : Nat} (hi : i < e.nodes.length) :
    (e.pad p q).deref (i + p) = e.deref i := by
  rw [deref, deref, nodes_pad hi]

theorem slot_pad {i : Nat} (hi : i < e.nodes.length) (off : Nat) :
    (e.pad p q).slot (i + p) off = e.slot i off := by
  rw [slot, slot, deref_pad hi]

theorem write_pad {i : Nat} (hi : i < e.nodes.length) (off : Nat) (x : DynamicString)
    (count : Node → Node) :
    (e.pad p q).write (i + p) off x count = (e.write i off x count).map (·.pad p q) := by
  have hset : ∀ n : Node, (e.pad p q).nodes.set (i + p) n
      = List.replicate p Node.new ++ e.nodes.set i n ++ List.replicate q Node.new := by
    intro n
    rw [pad, List.append_assoc, List.set_append_right _ _ (by simp), List.length_replicate,
      Nat.add_sub_cancel, List.set_append_left _ _ hi, List.append_assoc]
  rw [write, write, slot_pad hi, deref_pad hi]
  cases hs : e.slot i off with
  | error err => rfl
  | ok y =>
      cases hd : e.deref i with
      | error err => rfl
      | ok n =>
          simp only [ok_bind, pure_eq_ok, hset]
          rfl

/-! ## The operations on a padded list -/

theorem store_pad {it : Iterator} (hi : it.node < e.nodes.length) (v : Bytes) :
    (e.pad p q).store { it with node := it.node + p } v = (e.store it v).map (·.pad p q) := by
  rw [store, store]
  cases it.ptr with
  | none => rfl
  | some off =>
      simp only [write_pad hi]
      cases e.write it.node off (some v) Node.occupy <;> rfl

theorem stepLeft_pad (hb : e.begin_.node < e.nodes.length) :
    ∃ p' e', e.stepLeft = .ok e' ∧ (e.pad p q).stepLeft = .ok (e'.pad p' q) ∧
      e'.begin_.node < e'.nodes.length := by
  obtain ⟨n, hn⟩ : ∃ n, e.nodes[e.begin_.node]? = some n := ⟨_, List.getElem?_eq_getElem hb⟩
  have hd : (e.pad p q).deref (e.begin_.node + p) = .ok n := (deref_pad hb).trans (deref_ok hn)
  have hbegin : (e.pad p q).begin_ = ⟨e.begin_.node + p, e.begin_.ptr⟩ := rfl
  simp only [stepLeft, hbegin, hd, deref_ok hn, ok_bind, pure_eq_ok]
  cases hptr : e.begin_.ptr with
  | none =>
      refine ⟨p, _, rfl, ?_, hb⟩
      cases hend : e.end_.ptr <;> simp [pad, hptr, hend]
  | some off =>
      by_cases h0 : off = 0
      · by_cases hz : e.begin_.node = 0
        · simp only [if_pos h0, if_pos hz]
          cases p with
          | zero =>
              refine ⟨0, _, rfl, ?_, by simp⟩
              simp [pad, hz, Nat.add_right_comm]
          | succ p =>
              refine ⟨p, _, rfl, ?_, by simp⟩
              simp [pad, hz, List.replicate_succ', Nat.add_assoc, Nat.add_comm 1]
        · have hp : ¬ e.begin_.node + p = 0 := by omega
          have hm : e.begin_.node + p - 1 = e.begin_.node - 1 + p := by omega
          simp only [if_pos h0, if_neg hz, if_neg hp, hm]
          exact ⟨p, _, rfl, rfl, Nat.lt_of_le_of_lt (Nat.sub_le _ _) hb⟩
      · simp only [if_neg h0]
        exact ⟨p, _, rfl, rfl, hb⟩

theorem stepRight_pad (he : e.end_.node < e.nodes.length) :
    ∃ q' e', e.stepRight = .ok e' ∧ (e.pad p q).stepRight = .ok (e'.pad p q') ∧
      e'.end_.node < e'.nodes.length := by
  obtain ⟨n, hn⟩ : ∃ n, e.nodes[e.end_.node]? = some n := ⟨_, List.getElem?_eq_getElem he⟩
  have hd : (e.pad p q).deref (e.end_.node + p) = .ok n := (deref_pad he).trans (deref_ok hn)
  have hend : (e.pad p q).end_ = ⟨e.end_.node + p, e.end_.ptr⟩ := rfl
  have hnext : e.end_.node + p + 1 = e.end_.node + 1 + p := by omega
  simp only [stepRight, hend, hd, deref_ok hn, ok_bind, pure_eq_ok, length_pad, hnext]
  cases hptr : e.end_.ptr with
  | none =>
      refine ⟨q, _, rfl, ?_, he⟩
      cases hbegin : e.begin_.ptr <;> simp [pad, hptr, hbegin]
  | some off =>
      by_cases h1 : off = kBlockSize - 1
      · by_cases hz : e.end_.node + 1 = e.nodes.length
        · simp only [if_pos h1, if_pos hz]
          cases q with
          | zero =>
              refine ⟨0, _, rfl, ?_, by simp [hz]⟩
              simp [pad, hz, Nat.add_comm p, Nat.add_right_comm]
          | succ q =>
              have hlen : ¬ e.end_.node + 1 + p = p + e.nodes.length + (q + 1) := by omega
              have hnn : e.nNodes + p + (q + 1) = e.nNodes + 1 + p + q := by omega
              refine ⟨q, _, rfl, ?_, by simp [hz]⟩
              simp [pad, hlen, hnn, List.replicate_succ]
        · have hlen : ¬ e.end_.node + 1 + p = p + e.nodes.length + q := by omega
          simp only [if_pos h1, if_neg hz, if_neg hlen]
          exact ⟨q, _, rfl, rfl, by simp only; omega⟩
      · simp only [if_neg h1]
        exact ⟨q, _, rfl, rfl, he⟩

/-- A push in front uses a spare node where the bare list makes a new one. -/
theorem pushLeft_pad (hb : e.begin_.node < e.nodes.length) (v : Bytes) :
    ∃ p', (e.pad p q).pushLeft v = (e.pushLeft v).map (·.pad p' q) := by
  obtain ⟨p', e', he, hpad, hlt⟩ := stepLeft_pad hb
  refine ⟨p', ?_⟩
  rw [pushLeft_of_step v hpad, pushLeft_of_step v he]
  exact store_pad hlt v

/-- The same behind. -/
theorem pushRight_pad (he : e.end_.node < e.nodes.length) (v : Bytes) :
    ∃ q', (e.pad p q).pushRight v = (e.pushRight v).map (·.pad p q') := by
  obtain ⟨q', e', hstep, hpad, hlt⟩ := stepRight_pad he
  refine ⟨q', ?_⟩
  rw [pushRight_of_step v hpad, pushRight_of_step v hstep]
  exact store_pad hlt v

/-- More than one element, and the first in the last slot of its block: the next
node is linked. -/
theorem next_linked {l : List Bytes} (h : Repr e l) (h0 : e.len ≠ 0) {off : Nat}
    (hptr : e.begin_.ptr = some off) (hedge : off = kBlockSize - 1) (hmany : ¬ e.oneLeft = true) :
    e.begin_.node + 1 < e.nodes.length := by
  have hfits := h.win.fits
  have hlen := h.len
  rcases h.cursors with ⟨-, hb, -⟩ | ⟨bo, eo, hc⟩
  · rw [hptr] at hb
    cases hb
  · have hone := oneLeft_iff hc
    obtain ⟨hb, he, hbo, heo, hne, hpos⟩ := hc
    have hen := h.enode
    rw [hptr, Option.some.injEq] at hb
    have hl : l.length ≠ 1 := fun h1 => hmany (hone.mpr h1)
    have h127 : off = 127 := hedge
    omega

/-- The same for the last element in the first slot of its block. -/
theorem prev_linked {l : List Bytes} (h : Repr e l) (h0 : e.len ≠ 0) {off : Nat}
    (hptr : e.end_.ptr = some off) (hedge : off = 0) (hmany : ¬ e.oneLeft = true) :
    e.end_.node ≠ 0 := by
  have hlen := h.len
  rcases h.cursors with ⟨-, -, he⟩ | ⟨bo, eo, hc⟩
  · rw [hptr] at he
    cases he
  · have hone := oneLeft_iff hc
    obtain ⟨hb, he, hbo, heo, hne, hpos⟩ := hc
    rw [hptr, Option.some.injEq] at he
    have hl : l.length ≠ 1 := fun h1 => hmany (hone.mpr h1)
    omega

theorem oneLeft_pad : (e.pad p q).oneLeft = e.oneLeft := by
  rw [Bool.eq_iff_iff]
  simp [oneLeft, pad]

/-- Within the chain a pop does not come to a spare node. -/
theorem popLeft_pad {l : List Bytes} (h : Repr e l) :
    (e.pad p q).popLeft = e.popLeft.map fun r => (r.1.pad p q, r.2) := by
  have hb := h.bnode
  have hlen : (e.pad p q).len = e.len := rfl
  have hbegin : (e.pad p q).begin_ = ⟨e.begin_.node + p, e.begin_.ptr⟩ := rfl
  simp only [popLeft, hlen, hbegin, oneLeft_pad, slot_pad hb, write_pad hb, length_pad]
  by_cases h0 : e.len = 0
  · simp only [if_pos h0]
    rfl
  · simp only [if_neg h0]
    cases hptr : e.begin_.ptr with
    | none => rfl
    | some off =>
        cases hs : e.slot e.begin_.node off with
        | error err => simp only [hs]; rfl
        | ok ret =>
            simp only [hs, ok_bind]
            by_cases h1 : e.oneLeft = true
            · simp only [if_pos h1]
              cases e.write e.begin_.node off none Node.vacate <;> rfl
            · simp only [if_neg h1]
              by_cases hedge : off = kBlockSize - 1
              · have hnext := next_linked h h0 hptr hedge h1
                have hpad : e.begin_.node + 1 + p ≠ p + e.nodes.length + q := by omega
                have hne : e.begin_.node + 1 ≠ e.nodes.length := by omega
                have hplace : e.begin_.node + p + 1 = e.begin_.node + 1 + p := by omega
                simp only [if_pos hedge, if_pos hpad, if_pos hne, hplace]
                cases e.write e.begin_.node off none Node.vacate <;> rfl
              · simp only [if_neg hedge]
                cases e.write e.begin_.node off none Node.vacate <;> rfl

theorem popRight_pad {l : List Bytes} (h : Repr e l) :
    (e.pad p q).popRight = e.popRight.map fun r => (r.1.pad p q, r.2) := by
  have he := h.enode
  have hlen : (e.pad p q).len = e.len := rfl
  have hend : (e.pad p q).end_ = ⟨e.end_.node + p, e.end_.ptr⟩ := rfl
  simp only [popRight, hlen, hend, oneLeft_pad, slot_pad he, write_pad he]
  by_cases h0 : e.len = 0
  · simp only [if_pos h0]
    rfl
  · simp only [if_neg h0]
    cases hptr : e.end_.ptr with
    | none => rfl
    | some off =>
        cases hs : e.slot e.end_.node off with
        | error err => simp only [hs]; rfl
        | ok ret =>
            simp only [hs, ok_bind]
            by_cases h1 : e.oneLeft = true
            · simp only [if_pos h1]
              cases e.write e.end_.node off none Node.vacate <;> rfl
            · simp only [if_neg h1]
              by_cases hedge : off = 0
              · have hprev := prev_linked h h0 hptr hedge h1
                have hpad : e.end_.node + p ≠ 0 := by omega
                have hplace : e.end_.node + p - 1 = e.end_.node - 1 + p := by omega
                simp only [if_pos hedge, if_pos hpad, if_pos hprev, hplace]
                cases e.write e.end_.node off none Node.vacate <;> rfl
              · simp only [if_neg hedge]
                cases e.write e.end_.node off none Node.vacate <;> rfl

/-! ## Reading a padded list -/

/-- The node `NodeAtIndex` gives for a place in the chain. -/
theorem advance_pad : ∀ (k : Nat) {node tmp : Nat}, e.advance k node = .ok tmp →
    (e.pad p q).advance k (node + p) = .ok (tmp + p)
  | 0, node, tmp, h => by
      cases h
      rfl
  | k + 1, node, tmp, h => by
      rw [advance] at h
      by_cases hn : node < e.nodes.length
      · rw [deref_ok (List.getElem?_eq_getElem hn), ok_bind] at h
        rw [advance, deref_pad hn, deref_ok (List.getElem?_eq_getElem hn), ok_bind,
          Nat.add_right_comm]
        exact advance_pad k h
      · rw [deref_error (by omega), error_bind] at h
        cases h

theorem nodeAtIndex_pad (hb : e.begin_.node < e.nodes.length) {i : Nat} {at_ : Nat × Int × Int}
    (h : e.nodeAtIndex i = .ok at_) :
    (e.pad p q).nodeAtIndex i = .ok (at_.1 + p, at_.2) := by
  have hbegin : (e.pad p q).begin_ = ⟨e.begin_.node + p, e.begin_.ptr⟩ := rfl
  rw [nodeAtIndex] at h ⊢
  simp only [hbegin, deref_pad hb]
  cases hd : e.deref e.begin_.node with
  | error err => simp [hd] at h
  | ok b =>
      simp only [hd, ok_bind] at h ⊢
      by_cases hfirst : b.occupied > i
      · rw [if_pos hfirst] at h ⊢
        cases h
        rfl
      · rw [if_neg hfirst] at h ⊢
        cases hadv : e.advance ((toInt32 ((i - b.occupied : Nat) : Int)).tdiv kBlockSize + 1).toNat
            e.begin_.node with
        | error err =>
            rw [hadv, error_bind] at h
            cases h
        | ok tmp =>
            rw [hadv] at h
            cases h
            rw [advance_pad _ hadv]
            rfl

theorem toInt32_le (n : Nat) : toInt32 n ≤ n := by
  rcases Nat.lt_or_ge n (2 ^ 31) with h | h
  · rw [toInt32_of_lt h]
  · exact Int.le_of_lt (toInt32_ne_of_ge h)

/-- `NodeAtIndex` takes no more steps than the distance asks for. -/
theorem steps_le (n j : Nat) (h : n ≤ j) :
    ((toInt32 n).tdiv kBlockSize + 1).toNat ≤ j / 128 + 1 := by
  have hle := toInt32_le n
  generalize toInt32 n = diff at hle
  rw [show ((kBlockSize : Nat) : Int) = 128 from rfl]
  rcases Int.le_total 0 diff with h0 | h0
  · rw [Int.tdiv_eq_ediv_of_nonneg h0]
    omega
  · have hneg : diff.tdiv 128 ≤ 0 := by
      have hdiff := @Int.tdiv_eq_ediv_of_nonneg (-diff) 128 (by omega)
      rw [show diff = - -diff by omega, Int.neg_tdiv, hdiff]
      omega
    omega

/-- An index below the length leads to a node of the chain. -/
theorem nodeAtIndex_inside {l : List Bytes} (h : Repr e l) {i : Nat} (hi : i < l.length) :
    ∃ at_, e.nodeAtIndex i = .ok at_ ∧ at_.1 < e.nodes.length := by
  obtain ⟨hw, hlen, hnn, hbn, hen, hcur⟩ := h
  obtain ⟨n, hn, hnl⟩ := hw.node hbn
  have hocc := hw.occ _ n hn
  have hfits := hw.fits
  rcases hcur with ⟨rfl, -, -⟩ | ⟨bo, eo, hb, he, hbo, heo, hne, hpos⟩
  · simp at hi
  have hs : e.start = e.begin_.node * 128 + bo := by simp [start, hb]
  rw [hs] at hocc hfits
  simp only [nodeAtIndex, deref_ok hn, ok_bind]
  by_cases hfirst : n.occupied > i
  · rw [if_pos hfirst]
    exact ⟨_, rfl, hbn⟩
  · rw [if_neg hfirst]
    obtain ⟨j, hj⟩ : ∃ j, i = n.occupied + j := ⟨i - n.occupied, by omega⟩
    have hreach : e.begin_.node + (j / 128 + 1) < e.nodes.length := by omega
    have hsteps := steps_le (i - n.occupied) j (by omega)
    have hadv :=
      @advance_ok e _ e.begin_.node (Nat.le_trans (Nat.add_le_add_left hsteps _) hreach.le)
    rw [hadv, ok_bind]
    exact ⟨_, rfl, Nat.lt_of_le_of_lt (Nat.add_le_add_left hsteps _) hreach⟩

theorem index_pad {l : List Bytes} (h : Repr e l) (i : Nat) :
    (e.pad p q).index i = (e.index i).map fun loc => (loc.1 + p, loc.2) := by
  have hb := h.bnode
  have hlen : (e.pad p q).len = e.len := rfl
  have hbegin : (e.pad p q).begin_ = ⟨e.begin_.node + p, e.begin_.ptr⟩ := rfl
  simp only [index, hlen, hbegin, deref_pad hb]
  by_cases hi : i ≥ e.len
  · simp only [if_pos hi]
    rfl
  · simp only [if_neg hi]
    cases e.deref e.begin_.node with
    | error err => rfl
    | ok b =>
        simp only [ok_bind]
        by_cases hfirst : b.occupied > i
        · simp only [if_pos hfirst]
          cases e.begin_.ptr with
          | none => rfl
          | some off =>
              simp only [slot_pad hb]
              cases e.slot e.begin_.node (off + i) <;> rfl
        · obtain ⟨at_, hat, hin⟩ := nodeAtIndex_inside h (by have := h.len; omega : i < l.length)
          simp only [if_neg hfirst, hat, nodeAtIndex_pad hb hat, ok_bind]
          by_cases hneg : at_.2.2 < 0
          · simp only [if_pos hneg]
            rfl
          · simp only [if_neg hneg, slot_pad hin]
            cases e.slot at_.1 at_.2.2.toNat <;> rfl

theorem index_node {l : List Bytes} (h : Repr e l) {i : Nat} {loc : Nat × Nat}
    (hx : e.index i = .ok loc) : loc.1 < e.nodes.length := by
  have hin : i < e.len ∨ ¬ i < e.len := Nat.lt_or_ge i e.len |>.imp id Nat.not_lt.mpr
  rcases hin with hi | hi
  · obtain ⟨at_, hat, hlt⟩ := nodeAtIndex_inside h (by have := h.len; omega : i < l.length)
    have hb := h.bnode
    rw [index, if_neg (by omega)] at hx
    obtain ⟨n, hn, -⟩ := h.win.node hb
    simp only [deref_ok hn, ok_bind, hat] at hx
    by_cases hfirst : n.occupied > i
    · rw [if_pos hfirst] at hx
      cases hptr : e.begin_.ptr with
      | none => simp [hptr] at hx
      | some off =>
          simp only [hptr] at hx
          cases hs : e.slot e.begin_.node (off + i) with
          | error err => simp [hs] at hx
          | ok x =>
              simp only [hs, ok_bind, pure_eq_ok, Except.ok.injEq] at hx
              rw [← hx]
              exact hb
    · rw [if_neg hfirst] at hx
      by_cases hneg : at_.2.2 < 0
      · simp [hneg] at hx
      · simp only [if_neg hneg] at hx
        cases hs : e.slot at_.1 at_.2.2.toNat with
        | error err => simp [hs] at hx
        | ok x =>
            simp only [hs, ok_bind, pure_eq_ok, Except.ok.injEq] at hx
            rw [← hx]
            exact hlt
  · rw [index_throws h (by have := h.len; omega)] at hx
    cases hx

theorem getAt_pad {l : List Bytes} (h : Repr e l) (i : Nat) : (e.pad p q).getAt i = e.getAt i := by
  rw [getAt, getAt, index_pad h]
  cases hx : e.index i with
  | error err => rfl
  | ok loc => exact slot_pad (index_node h hx) loc.2

theorem setAt_pad {l : List Bytes} (h : Repr e l) (i : Nat) (v : Bytes) :
    (e.pad p q).setAt i v = (e.setAt i v).map (·.pad p q) := by
  rw [setAt, setAt, index_pad h]
  cases hx : e.index i with
  | error err => rfl
  | ok loc => exact write_pad (index_node h hx) loc.2 (some v) id

/-- The nodes from one of the chain on, followed by spare ones. -/
theorem drop_pad {i : Nat} (hi : i ≤ e.nodes.length) :
    (e.pad p q).nodes.drop (i + p) = e.nodes.drop i ++ List.replicate q Node.new := by
  rw [pad, List.append_assoc, Nat.add_comm, ← List.drop_drop,
    List.drop_left' List.length_replicate, List.drop_append_of_le_length hi]

/-- A traversal ends at a node that holds nothing. -/
theorem traverse_append_new (q : Nat) : ∀ (nodes : List Node) (off : Nat),
    traverse (nodes ++ List.replicate q Node.new) off = traverse nodes off
  | [], off => by
      cases q with
      | zero => rfl
      | succ q =>
          rw [List.nil_append, List.replicate_succ]
          exact if_neg (by decide)
  | n :: nodes, off => by
      rw [List.cons_append, traverse, traverse, traverse_append_new q nodes]

theorem rangeNodes_append_new (q : Nat) : ∀ (nodes : List Node) (off : Int) (distance : Nat),
    rangeNodes (nodes ++ List.replicate q Node.new) off distance = rangeNodes nodes off distance
  | [], off, distance => by
      cases q with
      | zero => rfl
      | succ q =>
          have hnew : ¬ (Node.new.occupied > 0 ∧ distance > 0) := fun h => absurd h.1 (by decide)
          rw [List.nil_append, List.replicate_succ]
          exact if_neg hnew
  | n :: nodes, off, distance => by
      simp only [List.cons_append, rangeNodes, rangeNodes_append_new q nodes]

theorem elements_pad {l : List Bytes} (h : Repr e l) : (e.pad p q).elements = e.elements := by
  have hlen : (e.pad p q).len = e.len := rfl
  have hbegin : (e.pad p q).begin_ = ⟨e.begin_.node + p, e.begin_.ptr⟩ := rfl
  rw [elements, elements, hlen, hbegin, drop_pad (Nat.le_of_lt h.bnode)]
  simp only [traverse_append_new]

/-- The range is empty, or `NodeAtIndex` leads to a linked node. -/
def RangeLinked (d : DList) (start finish : Int) : Prop :=
  d.len = 0 ∨ start > finish ∨
    ∃ at_, d.nodeAtIndex (start % 2 ^ 64).toNat = .ok at_ ∧ at_.1 < d.nodes.length

theorem rangeBetween_pad {l : List Bytes} (h : Repr e l) {start finish : Int}
    (hlinked : RangeLinked e start finish) :
    (e.pad p q).rangeBetween start finish = e.rangeBetween start finish := by
  have hlen : (e.pad p q).len = e.len := rfl
  have hbegin : (e.pad p q).begin_ = ⟨e.begin_.node + p, e.begin_.ptr⟩ := rfl
  by_cases hempty : e.len = 0 ∨ start > finish
  · rw [KVContainer.rangeBetween_empty hempty,
      KVContainer.rangeBetween_empty (by rw [hlen]; exact hempty)]
  · obtain ⟨at_, hat, hin⟩ : ∃ at_, e.nodeAtIndex (start % 2 ^ 64).toNat = .ok at_ ∧
        at_.1 < e.nodes.length := by
      rcases hlinked with h0 | h0 | hat
      · exact absurd (Or.inl h0) hempty
      · exact absurd (Or.inr h0) hempty
      · exact hat
    simp only [rangeBetween, hlen, if_neg hempty, hat, nodeAtIndex_pad h.bnode hat, ok_bind,
      deref_pad hin, hbegin, Nat.add_right_cancel_iff, drop_pad (Nat.le_of_lt hin),
      rangeNodes_append_new]

end

/-! ## The spare nodes are new -/

theorem strings_append (xs ys : List Node) : strings (xs ++ ys) = strings xs + strings ys := by
  rw [strings, flat, List.map_append, List.flatten_append, List.countP_append]
  rfl

theorem strings_new : strings [Node.new] = 0 := by decide +kernel

theorem stepLeft_nodes {d d₁ : DList} (h : d.stepLeft = .ok d₁) :
    d₁.nodes = d.nodes ∨ d₁.nodes = Node.new :: d.nodes := by
  rw [stepLeft] at h
  cases hd : d.deref d.begin_.node with
  | error err => simp [hd] at h
  | ok n =>
      simp only [hd, ok_bind, pure_eq_ok] at h
      split at h
      · cases h
        exact Or.inl rfl
      · split at h
        · split at h
          · cases h
            exact Or.inr rfl
          · cases h
            exact Or.inl rfl
        · cases h
          exact Or.inl rfl

theorem stepRight_nodes {d d₁ : DList} (h : d.stepRight = .ok d₁) :
    d₁.nodes = d.nodes ∨ d₁.nodes = d.nodes ++ [Node.new] := by
  rw [stepRight] at h
  cases hd : d.deref d.end_.node with
  | error err => simp [hd] at h
  | ok n =>
      simp only [hd, ok_bind, pure_eq_ok] at h
      split at h
      · cases h
        exact Or.inl rfl
      · split at h
        · split at h
          · cases h
            exact Or.inr rfl
          · cases h
            exact Or.inl rfl
        · cases h
          exact Or.inl rfl

theorem strings_store {d d' : DList} {it : Iterator} {v : Bytes}
    (hu : Uniform 128 (d.nodes.map Node.data)) (h : d.store it v = .ok d') :
    strings d'.nodes ≤ strings d.nodes + 1 := by
  rw [store] at h
  cases hptr : it.ptr with
  | none => simp [hptr] at h
  | some off =>
      simp only [hptr] at h
      cases hw : d.write it.node off (some v) Node.occupy with
      | error err => simp [hw] at h
      | ok d₁ =>
          obtain ⟨n, hn, hoff⟩ := write_inv hw
          have hs := strings_write hu occupy_data
            (slot_ok hn (List.getElem?_eq_getElem hoff)) hw
          simp only [hw, ok_bind, pure_eq_ok, Except.ok.injEq] at h
          subst h
          simp only [Option.isSome_some, Bool.toNat_true] at hs
          simp only
          omega

/-- A list that was only pushed to, popped from and trimmed: it holds no string
but its elements, and when it is empty its cursors are in one node, unless it
is new. -/
structure Tidy (d : DList) (l : List Bytes) : Prop extends Repr d l where
  strings_le : strings d.nodes ≤ l.length
  meet : l = [] → d.begin_.node = d.end_.node ∨ d.begin_.node = 0

theorem tidy_new : Tidy new [] where
  toRepr := repr_new
  strings_le := by decide +kernel
  meet := fun _ => Or.inr rfl

theorem Tidy.pushLeft {d : DList} {l : List Bytes} (h : Tidy d l) (v : Bytes) :
    ∃ d', d.pushLeft v = .ok d' ∧ Tidy d' (v :: l) := by
  obtain ⟨d', hd', hr⟩ := pushLeft_repr h.toRepr v
  refine ⟨d', hd', hr, ?_, fun hnil => by cases hnil⟩
  rw [DList.pushLeft] at hd'
  cases hstep : d.stepLeft with
  | error err => simp [hstep] at hd'
  | ok d₁ =>
      rw [hstep, ok_bind] at hd'
      have hle := h.strings_le
      have hnew := strings_append [Node.new] d.nodes
      rw [strings_new] at hnew
      rcases stepLeft_nodes hstep with hn | hn
      · have hstore := strings_store (hn ▸ h.win.uniform) hd'
        rw [hn] at hstore
        rw [List.length_cons]
        omega
      · have hstore := strings_store (hn ▸ h.win.new_head.uniform) hd'
        rw [hn] at hstore
        rw [List.singleton_append] at hnew
        rw [List.length_cons]
        omega

theorem Tidy.pushRight {d : DList} {l : List Bytes} (h : Tidy d l) (v : Bytes) :
    ∃ d', d.pushRight v = .ok d' ∧ Tidy d' (l ++ [v]) := by
  obtain ⟨d', hd', hr⟩ := pushRight_repr h.toRepr v
  refine ⟨d', hd', hr, ?_, fun hnil => by simp at hnil⟩
  rw [DList.pushRight] at hd'
  cases hstep : d.stepRight with
  | error err => simp [hstep] at hd'
  | ok d₁ =>
      rw [hstep, ok_bind] at hd'
      have hle := h.strings_le
      have hnew := strings_append d.nodes [Node.new]
      rw [strings_new] at hnew
      rcases stepRight_nodes hstep with hn | hn
      · have hstore := strings_store (hn ▸ h.win.uniform) hd'
        rw [hn] at hstore
        rw [List.length_append, List.length_singleton]
        omega
      · have hstore := strings_store (hn ▸ h.win.new_tail.uniform) hd'
        rw [hn] at hstore
        rw [List.length_append, List.length_singleton]
        omega

theorem Popped.tidy {d d' : DList} {l : List Bytes} {n : Nat} (h : Popped d d' l)
    (hle : strings d.nodes ≤ n) (hn : n = l.length + 1) : Tidy d' l where
  toRepr := h.repr
  strings_le := by
    have := h.fewer
    omega
  meet := fun hnil => Or.inl (h.meet hnil)

/-- A node that holds no element is as good as new. -/
theorem Tidy.spare {d : DList} {l : List Bytes} (h : Tidy d l) {i : Nat} {n : Node}
    (hn : d.nodes[i]? = some n)
    (hout : i * 128 + 128 ≤ d.start ∨ d.start + l.length ≤ i * 128) : n = Node.new := by
  have hw := h.win
  have hocc := hw.occ i n hn
  have hdata := hw.block hn
  have hsplit : flat d.nodes = (flat d.nodes).take d.start
      ++ window d.start l.length (flat d.nodes) ++ (flat d.nodes).drop (d.start + l.length) := by
    rw [window, List.append_assoc, ← List.drop_drop, List.take_append_drop, List.take_append_drop]
  have hcount := congrArg (List.countP Option.isSome) hsplit
  rw [List.countP_append, List.countP_append, hw.slots] at hcount
  have hall : (l.map some).countP Option.isSome = l.length := by
    rw [List.countP_map]
    exact List.countP_eq_length.mpr fun _ _ => rfl
  have hle := h.strings_le
  rw [strings] at hle
  have hnone : ∀ j, j < 128 → n.data[j]? = some none := by
    intro j hj
    have hb : (d.nodes.map Node.data)[i]? = some n.data := by rw [List.getElem?_map, hn]; rfl
    have hslot : (flat d.nodes)[i * 128 + j]? = n.data[j]? := getElem?_flatten hw.uniform hb hj
    obtain ⟨x, hx⟩ : ∃ x, n.data[j]? = some x := ⟨_, List.getElem?_eq_getElem (by omega)⟩
    rw [hx] at hslot ⊢
    cases x with
    | none => rfl
    | some y =>
        exfalso
        rcases hout with hlt | hge
        · have hmem : some y ∈ (flat d.nodes).take d.start :=
            List.mem_of_getElem? (i := i * 128 + j)
              (by rw [List.getElem?_take, if_pos (by omega), hslot])
          have hpos := List.countP_pos_iff.mpr ⟨_, hmem, Option.isSome_some⟩
          omega
        · have hmem : some y ∈ (flat d.nodes).drop (d.start + l.length) :=
            List.mem_of_getElem? (i := i * 128 + j - (d.start + l.length))
              (by rw [List.getElem?_drop, ← hslot]; congr 1; omega)
          have hpos := List.countP_pos_iff.mpr ⟨_, hmem, Option.isSome_some⟩
          omega
  have hrep : n.data = List.replicate 128 none :=
    List.eq_replicate_iff.mpr ⟨hdata, fun x hx => by
      obtain ⟨j, hj⟩ := List.mem_iff_getElem?.mp hx
      have hlt := (List.getElem?_eq_some_iff.mp hj).1
      rw [hnone j (by omega)] at hj
      exact (Option.some.inj hj).symm⟩
  have hzero : n.occupied = 0 := by omega
  cases n
  rw [Node.new, ← hrep, ← hzero]

/-! ## Trimming -/

/-- A loop of `FreeRedundantNodes` stops one node in front of its cursor. -/
theorem freeFrom_inside {cursor : Nat} : ∀ {nodes : List Node} {k : Nat}, k < cursor →
    cursor < k + nodes.length →
    (∀ i n, nodes[i]? = some n → k + i < cursor → n.occupied = 0) →
    freeFrom cursor k nodes = .ok (cursor - 1)
  | [], k, hk, hlen, _ => by
      rw [List.length_nil] at hlen
      omega
  | n :: rest, k, hk, hlen, hzero => by
      rw [List.length_cons] at hlen
      rw [freeFrom, if_pos (hzero 0 n rfl (by omega)), if_neg (by omega)]
      by_cases hstop : k + 1 = cursor
      · rw [if_pos hstop]
        congr 1
        omega
      · have hrest : rest ≠ [] := by
          rintro rfl
          rw [List.length_nil] at hlen
          omega
        rw [if_neg hstop, if_neg hrest]
        exact freeFrom_inside (by omega) (by omega) fun i m hm hi =>
          hzero (i + 1) m (by rwa [List.getElem?_cons_succ]) (by omega)

/-- With the cursor at the edge the loop deletes its node, unless the node is in use. -/
theorem freeFrom_edge {nodes : List Node} {n : Node} (hn : nodes[0]? = some n)
    (hpos : n.occupied ≠ 0) : freeFrom 0 0 nodes = .ok 0 := by
  cases nodes with
  | nil => cases hn
  | cons m rest =>
      rw [List.getElem?_cons_zero, Option.some.injEq] at hn
      rw [freeFrom, hn, if_neg hpos]

theorem freeFrom_fault {nodes : List Node} (hne : nodes ≠ [])
    (hzero : ∀ n ∈ nodes, n.occupied = 0) : freeFrom 0 0 nodes = .error .badAccess := by
  cases nodes with
  | nil => exact absurd rfl hne
  | cons n rest =>
      rw [freeFrom, if_pos (hzero n List.mem_cons_self), if_neg (by omega), if_neg (by omega)]
      cases rest with
      | nil => rw [if_pos rfl]
      | cons m rest =>
          rw [if_neg (by simp), freeFrom, if_pos (hzero m (by simp)), if_pos (by omega)]

/-- The list without the spare nodes, but one at each end. -/
def trimmed (d : DList) : DList :=
  let k := d.begin_.node - 1
  let j := d.nodes.length - 1 - d.end_.node - 1
  { nodes := (d.nodes.drop k).take (d.nodes.length - k - j)
    begin_ := { d.begin_ with node := d.begin_.node - k }
    end_ := { d.end_ with node := d.end_.node - k }
    len := d.len
    nNodes := d.nNodes - k - j }

/-- The list is empty, and the node of a cursor is the first or the last. -/
def AtEdge (d : DList) : Prop :=
  d.len = 0 ∧ (d.begin_.node = 0 ∨ d.end_.node + 1 = d.nodes.length)

/-- `begin_` is not behind `end_`. -/
theorem Tidy.ordered {d : DList} {l : List Bytes} (h : Tidy d l) (hedge : ¬ AtEdge d) :
    d.begin_.node ≤ d.end_.node := by
  rcases h.cursors with ⟨rfl, -, -⟩ | ⟨bo, eo, hb, he, hbo, heo, hne, hpos⟩
  · rcases h.meet rfl with hm | hm
    · omega
    · exact absurd ⟨h.len, Or.inl hm⟩ hedge
  · have hl : 0 < l.length := List.length_pos_iff.mpr hne
    omega

/-- The nodes in front of `begin_` and behind `end_` hold nothing. -/
theorem Tidy.outside {d : DList} {l : List Bytes} (h : Tidy d l) {i : Nat}
    (hi : i < d.begin_.node ∨ d.end_.node < i ∧ d.begin_.node ≤ d.end_.node) :
    i * 128 + 128 ≤ d.start ∨ d.start + l.length ≤ i * 128 := by
  rcases h.cursors with ⟨rfl, hb, -⟩ | ⟨bo, eo, hb, he, hbo, heo, hne, hpos⟩
  · have hs : d.start = d.begin_.node * 128 := by simp [start, hb]
    rw [hs, List.length_nil]
    omega
  · have hs : d.start = d.begin_.node * 128 + bo := by simp [start, hb]
    rw [hs]
    omega

theorem Tidy.occupied_zero {d : DList} {l : List Bytes} (h : Tidy d l) {i : Nat} {n : Node}
    (hn : d.nodes[i]? = some n)
    (hi : i < d.begin_.node ∨ d.end_.node < i ∧ d.begin_.node ≤ d.end_.node) :
    n.occupied = 0 := by
  rw [h.spare hn (h.outside hi), new_occupied]

/-- The nodes of the cursors of a list that is not empty are in use. -/
theorem Repr.inUse {d : DList} {l : List Bytes} (h : Repr d l) (hl : d.len ≠ 0) {i : Nat} {n : Node}
    (hn : d.nodes[i]? = some n) (hi : i = d.begin_.node ∨ i = d.end_.node) : n.occupied ≠ 0 := by
  have hocc := h.win.occ i n hn
  have hlen := h.len
  rcases h.cursors with ⟨rfl, -, -⟩ | ⟨bo, eo, hb, he, hbo, heo, hne, hpos⟩
  · exact absurd hlen hl
  · have hs : d.start = d.begin_.node * 128 + bo := by simp [start, hb]
    rw [hs] at hocc
    rcases hi with rfl | rfl <;> omega

/-- Where it is safe, `FreeRedundantNodes` gives the trimmed list. -/
theorem freeRedundantNodes_safe {d : DList} {l : List Bytes} (h : Tidy d l)
    (hred : d.isRedundant = true) (hedge : ¬ AtEdge d) :
    d.freeRedundantNodes = .ok d.trimmed := by
  have hbn := h.bnode
  have hen := h.enode
  have hbe := h.ordered hedge
  have hleft : freeFrom d.begin_.node 0 d.nodes = .ok (d.begin_.node - 1) := by
    rcases Nat.eq_zero_or_pos d.begin_.node with h0 | h0
    · obtain ⟨n, hn⟩ : ∃ n, d.nodes[0]? = some n := ⟨_, List.getElem?_eq_getElem (by omega)⟩
      have hl : d.len ≠ 0 := fun hl => hedge ⟨hl, Or.inl h0⟩
      rw [h0]
      exact freeFrom_edge hn (h.inUse hl hn (Or.inl h0.symm))
    · exact freeFrom_inside h0 (by omega) fun i n hn hi => h.occupied_zero hn (Or.inl (by omega))
  have hrev : ∀ i n, (d.nodes.drop (d.begin_.node - 1)).reverse[i]? = some n →
      i ≤ d.nodes.length - 1 - d.end_.node → d.nodes[d.nodes.length - 1 - i]? = some n := by
    intro i n hn hi
    have hplace : d.begin_.node - 1 + (d.nodes.length - (d.begin_.node - 1) - 1 - i)
        = d.nodes.length - 1 - i := by omega
    rwa [List.getElem?_reverse (by rw [List.length_drop]; omega), List.getElem?_drop,
      List.length_drop, hplace] at hn
  have hright : freeFrom (d.nodes.length - 1 - d.end_.node) 0
      (d.nodes.drop (d.begin_.node - 1)).reverse = .ok (d.nodes.length - 1 - d.end_.node - 1) := by
    rcases Nat.eq_zero_or_pos (d.nodes.length - 1 - d.end_.node) with h0 | h0
    · obtain ⟨n, hn⟩ : ∃ n, (d.nodes.drop (d.begin_.node - 1)).reverse[0]? = some n :=
        ⟨_, List.getElem?_eq_getElem (by rw [List.length_reverse, List.length_drop]; omega)⟩
      have hl : d.len ≠ 0 := fun hl => hedge ⟨hl, Or.inr (by omega)⟩
      have hlast := hrev 0 n hn (Nat.zero_le _)
      rw [h0]
      exact freeFrom_edge hn (h.inUse hl hlast (Or.inr (by omega)))
    · refine freeFrom_inside h0 (by rw [List.length_reverse, List.length_drop]; omega)
        fun i n hn hi => ?_
      exact h.occupied_zero (hrev i n hn (by omega)) (Or.inr ⟨by omega, hbe⟩)
  have hkept : ((d.nodes.drop (d.begin_.node - 1)).take
      (d.nodes.length - (d.begin_.node - 1) - (d.nodes.length - 1 - d.end_.node - 1))).length
      = d.nodes.length - (d.begin_.node - 1) - (d.nodes.length - 1 - d.end_.node - 1) := by
    rw [List.length_take, List.length_drop]
    omega
  have hb : relocate (d.begin_.node - 1)
      (d.nodes.length - (d.begin_.node - 1) - (d.nodes.length - 1 - d.end_.node - 1)) d.begin_.node
      = d.begin_.node - (d.begin_.node - 1) := if_pos (by omega)
  have he : relocate (d.begin_.node - 1)
      (d.nodes.length - (d.begin_.node - 1) - (d.nodes.length - 1 - d.end_.node - 1)) d.end_.node
      = d.end_.node - (d.begin_.node - 1) := if_pos (by omega)
  simp only [freeRedundantNodes, hred, if_true, hleft, hright, ok_bind, pure_eq_ok,
    List.length_drop, hkept, hb, he]
  rfl

/-- At the edge the cursor's own node is deleted, and used afterwards. -/
theorem freeRedundantNodes_fault {d : DList} {l : List Bytes} (h : Tidy d l)
    (hred : d.isRedundant = true) (hedge : AtEdge d) :
    d.freeRedundantNodes = .error .badAccess := by
  obtain ⟨hlen, hat⟩ := hedge
  have hbn := h.bnode
  have hnil : l = [] := List.eq_nil_of_length_eq_zero (h.len ▸ hlen)
  have hzero : ∀ n ∈ d.nodes, n.occupied = 0 := by
    intro n hn
    obtain ⟨i, hi⟩ := List.mem_iff_getElem?.mp hn
    have hocc := h.win.occ i n hi
    rw [hnil, List.length_nil] at hocc
    omega
  have hne : d.nodes ≠ [] := by
    intro hnodes
    rw [hnodes, List.length_nil] at hbn
    omega
  simp only [freeRedundantNodes, hred, if_true]
  by_cases h0 : d.begin_.node = 0
  · rw [h0, freeFrom_fault hne hzero, error_bind]
  · have hend := hat.resolve_left h0
    have hmeet := (h.meet hnil).resolve_right h0
    have hleft : freeFrom d.begin_.node 0 d.nodes = .ok (d.begin_.node - 1) :=
      freeFrom_inside (Nat.pos_of_ne_zero h0) (by omega)
        fun i n hn _ => hzero n (List.mem_of_getElem? hn)
    have hright : freeFrom (d.nodes.length - 1 - d.end_.node) 0
        (d.nodes.drop (d.begin_.node - 1)).reverse = .error .badAccess := by
      rw [show d.nodes.length - 1 - d.end_.node = 0 by omega]
      refine freeFrom_fault ?_ fun n hn => hzero n (List.mem_of_mem_drop (List.mem_reverse.mp hn))
      rw [List.reverse_ne_nil_iff]
      intro hdrop
      rw [List.drop_eq_nil_iff] at hdrop
      omega
    rw [hleft, ok_bind, hright, error_bind]

/-- Trimming takes away spare nodes. -/
theorem Tidy.eq_pad {d : DList} {l : List Bytes} (h : Tidy d l) (hedge : ¬ AtEdge d) :
    d = d.trimmed.pad (d.begin_.node - 1) (d.nodes.length - 1 - d.end_.node - 1) := by
  have hbn := h.bnode
  have hen := h.enode
  have hnn := h.nNodes
  have hbe := h.ordered hedge
  have hnew : ∀ i n, d.nodes[i]? = some n →
      i < d.begin_.node ∨ d.end_.node < i ∧ d.begin_.node ≤ d.end_.node → n = Node.new :=
    fun i n hn hi => h.spare hn (h.outside hi)
  have hleft : d.nodes.take (d.begin_.node - 1) = List.replicate (d.begin_.node - 1) Node.new := by
    refine List.eq_replicate_iff.mpr ⟨by rw [List.length_take]; omega, fun n hn => ?_⟩
    obtain ⟨i, hi⟩ := List.mem_iff_getElem?.mp hn
    rw [List.getElem?_take] at hi
    split at hi
    · exact hnew i n hi (Or.inl (by omega))
    · cases hi
  have hright : (d.nodes.drop (d.begin_.node - 1)).drop
      (d.nodes.length - (d.begin_.node - 1) - (d.nodes.length - 1 - d.end_.node - 1))
      = List.replicate (d.nodes.length - 1 - d.end_.node - 1) Node.new := by
    refine List.eq_replicate_iff.mpr ⟨by rw [List.length_drop, List.length_drop]; omega,
      fun n hn => ?_⟩
    obtain ⟨i, hi⟩ := List.mem_iff_getElem?.mp hn
    rw [List.getElem?_drop, List.getElem?_drop] at hi
    exact hnew _ n hi (Or.inr ⟨by omega, hbe⟩)
  have hnodes : d.nodes = List.replicate (d.begin_.node - 1) Node.new
      ++ (d.nodes.drop (d.begin_.node - 1)).take
        (d.nodes.length - (d.begin_.node - 1) - (d.nodes.length - 1 - d.end_.node - 1))
      ++ List.replicate (d.nodes.length - 1 - d.end_.node - 1) Node.new := by
    rw [← hleft, ← hright, List.append_assoc, List.take_append_drop, List.take_append_drop]
  have hbegin : d.begin_.node - (d.begin_.node - 1) + (d.begin_.node - 1) = d.begin_.node := by
    omega
  have hend : d.end_.node - (d.begin_.node - 1) + (d.begin_.node - 1) = d.end_.node := by omega
  have hcount : d.nNodes - (d.begin_.node - 1) - (d.nodes.length - 1 - d.end_.node - 1)
      + (d.begin_.node - 1) + (d.nodes.length - 1 - d.end_.node - 1) = d.nNodes := by omega
  rw [pad, trimmed]
  simp only [← hnodes, hbegin, hend, hcount]

/-- The window of a padded chain, in the chain. -/
theorem Window.of_pad {nodes : List Node} {p q s : Nat} {l : List Bytes}
    (h : Window (List.replicate p Node.new ++ nodes ++ List.replicate q Node.new) (p * 128 + s) l)
    (hfits : s + l.length ≤ nodes.length * 128) : Window nodes s l := by
  have hdrop := h.drop p (by simp)
  rw [List.append_assoc, List.drop_left' List.length_replicate] at hdrop
  have hu : Uniform 128 (nodes.map Node.data) := fun b hb => by
    obtain ⟨n, hn, rfl⟩ := List.mem_map.mp hb
    exact hdrop.blocks n (List.mem_append_left _ hn)
  have hflat : flat (nodes ++ List.replicate q Node.new)
      = flat nodes ++ flat (List.replicate q Node.new) := by
    rw [flat, List.map_append, List.flatten_append, flat, flat]
  refine ⟨fun n hn => hdrop.blocks n (List.mem_append_left _ hn), hfits, fun i n hn => ?_, ?_⟩
  · have hi := (List.getElem?_eq_some_iff.mp hn).1
    exact hdrop.occ i n (by rw [List.getElem?_append_left hi]; exact hn)
  · have hs := hdrop.slots
    rw [hflat,
      window_append_right _ (by rw [flat, length_flatten hu, List.length_map]; exact hfits)]
      at hs
    exact hs

theorem tidy_of_pad {e : DList} {p q : Nat} {l : List Bytes} (h : Tidy (e.pad p q) l)
    (hb : e.begin_.node < e.nodes.length) (he : e.end_.node < e.nodes.length)
    (hmeet : l = [] → e.begin_.node = e.end_.node ∨ e.begin_.node = 0) : Tidy e l := by
  have hstart : (e.pad p q).start = p * 128 + e.start := by
    simp only [start, pad]
    omega
  have hnn := h.nNodes
  rw [length_pad] at hnn
  have hnn' : (e.pad p q).nNodes = e.nNodes + p + q := rfl
  have hstr : strings e.nodes ≤ strings (e.pad p q).nodes := by
    rw [pad, strings_append, strings_append]
    omega
  have hcur :
      (l = [] ∧ e.begin_.ptr = none ∧ e.end_.ptr = none) ∨ ∃ bo eo, CursorsAt e l bo eo := by
    rcases h.cursors with hnil | ⟨bo, eo, hbp, hep, hbo, heo, hne, hpos⟩
    · exact Or.inl hnil
    · have hbn : (e.pad p q).begin_.node = e.begin_.node + p := rfl
      have hen : (e.pad p q).end_.node = e.end_.node + p := rfl
      exact Or.inr ⟨bo, eo, hbp, hep, hbo, heo, hne, by omega⟩
  have hfits : e.start + l.length ≤ e.nodes.length * 128 := by
    rcases hcur with ⟨rfl, hbp, -⟩ | ⟨bo, eo, hbp, hep, hbo, heo, hne, hpos⟩
    · have hs : e.start = e.begin_.node * 128 := by simp [start, hbp]
      rw [hs, List.length_nil]
      omega
    · have hs : e.start = e.begin_.node * 128 + bo := by simp [start, hbp]
      rw [hs]
      omega
  exact
    { win := Window.of_pad (p := p) (q := q) (by rw [← hstart]; exact h.win) hfits
      len := h.len
      nNodes := by omega
      bnode := hb
      enode := he
      cursors := hcur
      strings_le := Nat.le_trans hstr h.strings_le
      meet := hmeet }

theorem Tidy.trimmed {d : DList} {l : List Bytes} (h : Tidy d l) (hedge : ¬ AtEdge d) :
    Tidy d.trimmed l := by
  have hbn := h.bnode
  have hen := h.enode
  have hbe := h.ordered hedge
  have hlen : d.trimmed.nodes.length
      = d.nodes.length - (d.begin_.node - 1) - (d.nodes.length - 1 - d.end_.node - 1) := by
    simp only [DList.trimmed, List.length_take, List.length_drop]
    omega
  have hb : d.trimmed.begin_.node = d.begin_.node - (d.begin_.node - 1) := rfl
  have he : d.trimmed.end_.node = d.end_.node - (d.begin_.node - 1) := rfl
  have hpad := h
  rw [h.eq_pad hedge] at hpad
  refine tidy_of_pad hpad (by omega) (by omega) fun hnil => ?_
  rcases h.meet hnil with hm | hm <;> omega

/-! ## The operations afterwards -/

/-- A call on a list. -/
inductive Call where
  | op (op : Op)
  | read (idx : Nat)
  | range
  | rangeBetween (start finish : Int)
  | length

/-- What a call gives. -/
inductive Answer where
  | out (out : Out)
  | elem (val : DynamicString)
  | thrown
  | items (vals : List DynamicString)
  | number (n : Nat)

def Call.run (d : DList) : Call → Except DListError (DList × Answer)
  | .op o => do
      let r ← step d o
      return (r.1, .out r.2)
  | .read i =>
      match d.getAt i with
      | .ok x => .ok (d, .elem x)
      | .error .outOfRange => .ok (d, .thrown)
      | .error .badAccess => .error .badAccess
  | .range => do return (d, .items (← d.rangeAsDynaStringVector))
  | .rangeBetween start finish => do return (d, .items (← d.rangeBetween start finish))
  | .length => .ok (d, .number d.len)

/-- A range read finds its first node linked. -/
def Call.Linked (d : DList) : Call → Prop
  | .rangeBetween start finish => RangeLinked d start finish
  | _ => True

/-- A list and the same with spare nodes. -/
def SameButSpare (e d : DList) : Prop := (∃ l, Repr e l) ∧ ∃ p q, d = e.pad p q

theorem step_pad {e : DList} {p q : Nat} {l : List Bytes} (h : Repr e l) (op : Op) :
    (∃ err, step e op = .error err ∧ step (e.pad p q) op = .error err) ∨
    ∃ e' d' o, step e op = .ok (e', o) ∧ step (e.pad p q) op = .ok (d', o) ∧
      SameButSpare e' d' := by
  cases op with
  | pushLeft v =>
      obtain ⟨e', he', hr⟩ := pushLeft_repr h v
      obtain ⟨p', hpad⟩ := pushLeft_pad (p := p) (q := q) h.bnode v
      rw [he'] at hpad
      refine Or.inr ⟨e', e'.pad p' q, .done, ?_, ?_, ⟨_, hr⟩, p', q, rfl⟩
      · simp only [step, he', ok_bind, pure_eq_ok]
      · simp only [step, hpad, Except.map, ok_bind, pure_eq_ok]
  | pushRight v =>
      obtain ⟨e', he', hr⟩ := pushRight_repr h v
      obtain ⟨q', hpad⟩ := pushRight_pad (p := p) (q := q) h.enode v
      rw [he'] at hpad
      refine Or.inr ⟨e', e'.pad p q', .done, ?_, ?_, ⟨_, hr⟩, p, q', rfl⟩
      · simp only [step, he', ok_bind, pure_eq_ok]
      · simp only [step, hpad, Except.map, ok_bind, pure_eq_ok]
  | popLeft =>
      obtain ⟨e', x, he', hr⟩ : ∃ e' x, e.popLeft = .ok (e', x) ∧ ∃ l', Repr e' l' := by
        cases l with
        | nil => exact ⟨e, none, popLeft_empty h, [], h⟩
        | cons v l =>
            obtain ⟨e', he', hr⟩ := popLeft_repr h
            exact ⟨e', some v, he', l, hr⟩
      have hpad := popLeft_pad (p := p) (q := q) h
      rw [he'] at hpad
      refine Or.inr ⟨e', e'.pad p q, .popped x.toStdString, ?_, ?_, hr, p, q, rfl⟩
      · simp only [step, he', ok_bind, pure_eq_ok]
      · simp only [step, hpad, Except.map, ok_bind, pure_eq_ok]
  | popRight =>
      obtain ⟨e', x, he', hr⟩ : ∃ e' x, e.popRight = .ok (e', x) ∧ ∃ l', Repr e' l' := by
        rcases List.eq_nil_or_concat l with rfl | ⟨l', v, rfl⟩
        · exact ⟨e, none, popRight_empty h, [], h⟩
        · rw [List.concat_eq_append] at h
          obtain ⟨e', he', hr⟩ := popRight_repr h
          exact ⟨e', some v, he', l', hr⟩
      have hpad := popRight_pad (p := p) (q := q) h
      rw [he'] at hpad
      refine Or.inr ⟨e', e'.pad p q, .popped x.toStdString, ?_, ?_, hr, p, q, rfl⟩
      · simp only [step, he', ok_bind, pure_eq_ok]
      · simp only [step, hpad, Except.map, ok_bind, pure_eq_ok]
  | reset i v =>
      have hpad := setAt_pad (p := p) (q := q) h i v
      cases hset : e.setAt i v with
      | ok e' =>
          rw [hset] at hpad
          refine Or.inr ⟨e', e'.pad p q, .done, ?_, ?_, setAt_any h hset, p, q, rfl⟩
          · simp only [step, hset]
          · simp only [step, hpad, Except.map]
      | error err =>
          rw [hset] at hpad
          cases err with
          | outOfRange =>
              refine Or.inr ⟨e, e.pad p q, .thrown, ?_, ?_, ⟨l, h⟩, p, q, rfl⟩
              · simp only [step, hset]
              · simp only [step, hpad, Except.map]
          | badAccess =>
              refine Or.inl ⟨.badAccess, ?_, ?_⟩
              · simp only [step, hset]
              · simp only [step, hpad, Except.map]

/-- No call tells a list from the same with spare nodes. -/
theorem run_pad (e d : DList) (c : Call) (h : SameButSpare e d) (hlinked : Call.Linked e c) :
    (∃ err, Call.run e c = .error err ∧ Call.run d c = .error err) ∨
    ∃ e' d' a, Call.run e c = .ok (e', a) ∧ Call.run d c = .ok (d', a) ∧ SameButSpare e' d' := by
  obtain ⟨⟨l, hr⟩, p, q, rfl⟩ := h
  have hsame : SameButSpare e (e.pad p q) := ⟨⟨l, hr⟩, p, q, rfl⟩
  cases c with
  | op op =>
      rcases step_pad (p := p) (q := q) hr op with ⟨err, he, hd⟩ | ⟨e', d', o, he, hd, hs⟩
      · exact Or.inl ⟨err, by simp only [Call.run, he, error_bind], by
          simp only [Call.run, hd, error_bind]⟩
      · exact Or.inr ⟨e', d', .out o, by simp only [Call.run, he, ok_bind, pure_eq_ok], by
          simp only [Call.run, hd, ok_bind, pure_eq_ok], hs⟩
  | read i =>
      simp only [Call.run, getAt_pad hr]
      cases e.getAt i with
      | ok x => exact Or.inr ⟨e, _, _, rfl, rfl, hsame⟩
      | error err =>
          cases err with
          | outOfRange => exact Or.inr ⟨e, _, _, rfl, rfl, hsame⟩
          | badAccess => exact Or.inl ⟨_, rfl, rfl⟩
  | range =>
      simp only [Call.run, rangeAsDynaStringVector, elements_pad hr]
      cases e.elements with
      | ok xs => exact Or.inr ⟨e, _, _, rfl, rfl, hsame⟩
      | error err => exact Or.inl ⟨_, rfl, rfl⟩
  | rangeBetween start finish =>
      simp only [Call.run, rangeBetween_pad hr hlinked]
      cases e.rangeBetween start finish with
      | ok xs => exact Or.inr ⟨e, _, _, rfl, rfl, hsame⟩
      | error err => exact Or.inl ⟨_, rfl, rfl⟩
  | length => exact Or.inr ⟨e, _, _, rfl, rfl, hsame⟩

/-- Trimming comes to an end with both cursors in the chain and the nodes counted
right, and nothing but the spare nodes has changed: contents, length, and the
answers of all calls made later. -/
def KeepsList (d : DList) : Prop :=
  ∃ d', d.freeRedundantNodes = .ok d' ∧
    d'.begin_.node < d'.nodes.length ∧ d'.end_.node < d'.nodes.length ∧
    d'.nNodes = d'.nodes.length ∧ d'.len = d.len ∧
    d'.rangeAsDynaStringVector = d.rangeAsDynaStringVector ∧
    ∀ later : List Call, GuardedE Call.run Call.Linked d' later →
      (traceE Call.run d later).map Prod.snd = (traceE Call.run d' later).map Prod.snd

/-- There is nothing to trim, or no cursor of an empty list is at an edge. -/
def TrimSafe (d : DList) : Prop := d.isRedundant = true → ¬ AtEdge d

theorem Tidy.keepsList_iff {d : DList} {l : List Bytes} (h : Tidy d l) :
    KeepsList d ↔ TrimSafe d := by
  constructor
  · rintro ⟨d', hd', -⟩ hred hedge
    rw [freeRedundantNodes_fault h hred hedge] at hd'
    cases hd'
  · intro hsafe
    by_cases hred : d.isRedundant = true
    · have htrim := h.trimmed (hsafe hred)
      have hpad := h.eq_pad (hsafe hred)
      refine ⟨d.trimmed, freeRedundantNodes_safe h hred (hsafe hred), htrim.bnode, htrim.enode,
        htrim.nNodes, rfl, ?_, fun later hlater => ?_⟩
      · rw [rangeAsDynaStringVector_repr htrim.toRepr, rangeAsDynaStringVector_repr h.toRepr]
      · exact traceE_bisimulates SameButSpare run_pad later _ _ ⟨⟨l, htrim.toRepr⟩, _, _,
          hpad⟩ hlater
    · refine ⟨d, ?_, h.bnode, h.enode, h.nNodes, rfl, rfl, fun _ _ => rfl⟩
      simp only [freeRedundantNodes, if_neg hred, pure_eq_ok]

/-! ## Runs -/

/-- The operations that make and trim a list. -/
inductive TrimOp where
  | pushLeft (val : Bytes)
  | pushRight (val : Bytes)
  | popLeft
  | popRight
  | freeRedundantNodes

def TrimOp.run (d : DList) : TrimOp → Except DListError (DList × Out)
  | .pushLeft v => step d (.pushLeft v)
  | .pushRight v => step d (.pushRight v)
  | .popLeft => step d .popLeft
  | .popRight => step d .popRight
  | .freeRedundantNodes => do return (← d.freeRedundantNodes, .done)

/-- The same on the abstract list, where trimming does nothing. -/
def TrimOp.onList (l : List Bytes) : TrimOp → List Bytes × Out
  | .pushLeft v => listStep l (.pushLeft v)
  | .pushRight v => listStep l (.pushRight v)
  | .popLeft => listStep l .popLeft
  | .popRight => listStep l .popRight
  | .freeRedundantNodes => (l, .done)

def TrimOp.Safe (d : DList) : TrimOp → Prop
  | .freeRedundantNodes => TrimSafe d
  | _ => True

/-- One operation. -/
theorem Tidy.step (d : DList) (l : List Bytes) (op : TrimOp) (h : Tidy d l)
    (hsafe : TrimOp.Safe d op) :
    ∃ d', TrimOp.run d op = .ok (d', (TrimOp.onList l op).2) ∧ Tidy d' (TrimOp.onList l op).1 := by
  cases op with
  | pushLeft v =>
      obtain ⟨d', hd', ht⟩ := h.pushLeft v
      exact ⟨d', by simp only [TrimOp.run, DList.step, hd', ok_bind, pure_eq_ok]; rfl, ht⟩
  | pushRight v =>
      obtain ⟨d', hd', ht⟩ := h.pushRight v
      exact ⟨d', by simp only [TrimOp.run, DList.step, hd', ok_bind, pure_eq_ok]; rfl, ht⟩
  | popLeft =>
      have hle := h.strings_le
      cases l with
      | nil =>
          refine ⟨d, ?_, h⟩
          simp only [TrimOp.run, DList.step, popLeft_empty h.toRepr, ok_bind, pure_eq_ok]
          rfl
      | cons v l =>
          obtain ⟨d', hd', hpop⟩ := popLeft_popped h.toRepr
          refine ⟨d', ?_, hpop.tidy hle rfl⟩
          simp only [TrimOp.run, DList.step, hd', ok_bind, pure_eq_ok]
          rfl
  | popRight =>
      have hle := h.strings_le
      rcases List.eq_nil_or_concat l with rfl | ⟨l', v, rfl⟩
      · refine ⟨d, ?_, h⟩
        simp only [TrimOp.run, DList.step, popRight_empty h.toRepr, ok_bind, pure_eq_ok]
        rfl
      · rw [List.concat_eq_append] at h hle ⊢
        obtain ⟨d', hd', hpop⟩ := popRight_popped h.toRepr
        refine ⟨d', ?_, ?_⟩
        · simp only [TrimOp.run, DList.step, hd', ok_bind, pure_eq_ok, TrimOp.onList, listStep,
            List.getLast?_append_cons, List.getLast?_singleton]
          rfl
        · have ht := hpop.tidy hle List.length_append
          simpa [TrimOp.onList, listStep] using ht
  | freeRedundantNodes =>
      by_cases hred : d.isRedundant = true
      · refine ⟨d.trimmed, ?_, h.trimmed (hsafe hred)⟩
        simp only [TrimOp.run, freeRedundantNodes_safe h hred (hsafe hred), ok_bind, pure_eq_ok]
        rfl
      · refine ⟨d, ?_, h⟩
        simp only [TrimOp.run, freeRedundantNodes, if_neg hred, ok_bind, pure_eq_ok]
        rfl

/-- **Trimming keeps the list, unless it is empty with a cursor at an edge of the
chain.** In every run of pushes, pops and safe trims no operation fails and all
outputs are those of the list that is never trimmed; the next trim keeps the
list exactly when it is safe. -/
theorem trimming_keeps_list (ops : List TrimOp) (hsafe : GuardedE TrimOp.run TrimOp.Safe new ops) :
    ∃ d, traceE TrimOp.run new ops = .ok (d, (trace TrimOp.onList [] ops).2) ∧
      d.rangeAsStdStringVector = .ok (trace TrimOp.onList [] ops).1 ∧
      d.nNodes = d.nodes.length ∧ (KeepsList d ↔ TrimSafe d) := by
  obtain ⟨d, hd, ht⟩ := traceE_simulates Tidy Tidy.step ops new [] tidy_new hsafe
  exact ⟨d, hd, rangeAsStdStringVector_repr ht.toRepr, ht.nNodes, ht.keepsList_iff⟩

theorem trimming_keeps_list_pushed :
    ∃ d, traceE TrimOp.run new [.pushLeft [1], .freeRedundantNodes, .pushRight [2]]
        = .ok (d, [.done, .done, .done]) ∧
      d.rangeAsStdStringVector = .ok [[1], [2]] ∧
      d.nNodes = d.nodes.length ∧ (KeepsList d ↔ TrimSafe d) := by
  refine trimming_keeps_list [.pushLeft [1], .freeRedundantNodes, .pushRight [2]]
    ⟨trivial, fun d _ hd => ⟨fun _ hedge => ?_, fun _ _ _ => ⟨trivial, fun _ _ _ => trivial⟩⟩⟩
  obtain ⟨d', hd', ht⟩ := tidy_new.pushLeft [1]
  simp only [TrimOp.run, DList.step, hd', ok_bind, pure_eq_ok, Except.ok.injEq,
    Prod.mk.injEq] at hd
  obtain ⟨rfl, -⟩ := hd
  have hone : d'.len = 1 := ht.len
  exact absurd hedge.1 (by omega)

/-- A new list, and one whose only element was pushed and popped on the left:
the node of the cursors is deleted and used. -/
theorem trimming_empty_list_faults :
    new.freeRedundantNodes = .error .badAccess ∧ ¬ KeepsList new ∧
      traceE TrimOp.run new [.pushLeft [1], .popLeft, .freeRedundantNodes]
        = .error .badAccess := by
  have hnew : new.freeRedundantNodes = .error .badAccess :=
    freeRedundantNodes_fault tidy_new (by decide) ⟨rfl, Or.inl rfl⟩
  refine ⟨hnew, ?_, by decide +kernel⟩
  rintro ⟨d', hd', -⟩
  rw [hnew] at hd'
  cases hd'

end DList

end LiteKV
