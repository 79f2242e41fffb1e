/-
LiteKV.DListTheorems — the block list is a double-ended queue.

The proof separates the chain from the cursors. `Window nodes s l` says
that the chain holds the list `l` in the flat slots from `s` on and that
every node's `occupied` counter is the number of its slots inside that
window; it knows nothing about `begin_` and `end_`. Each operation is one
slot write plus a change of the window's ends, so each has one `Window`
lemma (`push_left` … `set_inside`). `Repr d l` adds the cursors: they sit
on the ends of the window, or are null when it is empty.

The one place where the representation is not trusted but computed with is
`NodeAtIndex`. `index_near` says that `operator[]` gives the right slot while
the distance to the first node's last element fits an `int`, and `index_far`
what it gives beyond.
-/
import LiteKV.DList
import LiteKV.Lib.Blocks
import LiteKV.Lib.Run

namespace LiteKV

open Lib.Blocks Lib.Run

namespace DList

/-! ## The chain -/

@[simp] theorem occupy_data (n : Node) : n.occupy.data = n.data := rfl

@[simp] theorem vacate_data (n : Node) : n.vacate.data = n.data := rfl

theorem new_data : Node.new.data = List.replicate 128 none := by rw [Node.new]

theorem new_occupied : Node.new.occupied = 0 := by rw [Node.new]

/-- All slots of a chain, block after block. -/
def flat (nodes : List Node) : List DynamicString := (nodes.map Node.data).flatten

/-- The chain holds `l` in the flat slots from `s` on, and `occupied` counts
each node's share of them. -/
structure Window (nodes : List Node) (s : Nat) (l : List Bytes) : Prop where
  blocks : ∀ n ∈ nodes, n.data.length = 128
  fits : s + l.length ≤ nodes.length * 128
  occ : ∀ i n, nodes[i]? = some n →
    n.occupied = min (s + l.length) (128 * i + 128) - max s (128 * i)
  slots : window s l.length (flat nodes) = l.map some

namespace Window

variable {nodes : List Node} {s : Nat} {l : List Bytes}

theorem uniform (h : Window nodes s l) : Uniform 128 (nodes.map Node.data) := by
  intro b hb
  obtain ⟨n, hn, rfl⟩ := List.mem_map.mp hb
  exact h.blocks n hn

theorem length_flat (h : Window nodes s l) : (flat nodes).length = nodes.length * 128 := by
  rw [flat, length_flatten h.uniform, List.length_map]

/-- A node found in the chain has a full block. -/
theorem block (h : Window nodes s l) {i : Nat} {n : Node} (hn : nodes[i]? = some n) :
    n.data.length = 128 := h.blocks n (List.mem_of_getElem? hn)

/-- Rewriting a slot of node `i` rewrites one flat slot. -/
theorem flat_set (h : Window nodes s l) {i off : Nat} {n : Node} (hn : nodes[i]? = some n)
    (hoff : off < 128) (x : DynamicString) (count : Node → Node)
    (hc : ∀ m : Node, (count m).data = m.data) :
    flat (nodes.set i (count { n with data := n.data.set off x }))
      = (flat nodes).set (i * 128 + off) x := by
  have hb : (nodes.map Node.data)[i]? = some n.data := by simp [hn]
  rw [flat, List.map_set, hc, flatten_set x h.uniform hb hoff, flat]

/-- The nodes after a rewrite of node `i` still have full blocks. -/
theorem blocks_set (h : Window nodes s l) {i off : Nat} {n : Node} (hn : nodes[i]? = some n)
    (x : DynamicString) (count : Node → Node) (hc : ∀ m : Node, (count m).data = m.data) :
    ∀ m ∈ nodes.set i (count { n with data := n.data.set off x }), m.data.length = 128 := by
  intro m hm
  rcases List.mem_or_eq_of_mem_set hm with hm | rfl
  · exact h.blocks m hm
  · rw [hc, List.length_set, h.block hn]

/-- A window with nothing in it may start anywhere in the chain. -/
theorem reanchor (h : Window nodes s []) {s' : Nat} (hs : s' ≤ nodes.length * 128) :
    Window nodes s' [] := by
  refine ⟨h.blocks, by simpa using hs, fun i n hn => ?_, by simp [window]⟩
  have := h.occ i n hn
  simp only [List.length_nil, Nat.add_zero] at this ⊢
  omega

/-- A node put in front of the chain moves the window by one block. -/
theorem new_head (h : Window nodes s l) : Window (Node.new :: nodes) (128 + s) l := by
  have hf : flat (Node.new :: nodes) = List.replicate 128 none ++ flat nodes := by
    rw [flat, List.map_cons, List.flatten_cons, new_data, flat]
  refine ⟨?_, ?_, ?_, ?_⟩
  · intro n hn
    rcases List.mem_cons.mp hn with rfl | hn
    · rw [new_data, List.length_replicate]
    · exact h.blocks n hn
  · have := h.fits
    simp only [List.length_cons]
    omega
  · intro i n hn
    cases i with
    | zero =>
        simp only [List.getElem?_cons_zero, Option.some.injEq] at hn
        subst hn
        rw [new_occupied]
        omega
    | succ i =>
        have := h.occ i n (by simpa using hn)
        omega
  · rw [hf]
    have hw : window ((List.replicate 128 (none : DynamicString)).length + s) l.length
        (List.replicate 128 none ++ flat nodes) = window s l.length (flat nodes) :=
      window_append_left _ _
    rw [List.length_replicate] at hw
    rw [hw, h.slots]

/-- A node put behind the chain leaves the window where it is. -/
theorem new_tail (h : Window nodes s l) : Window (nodes ++ [Node.new]) s l := by
  have hf : flat (nodes ++ [Node.new]) = flat nodes ++ List.replicate 128 none := by
    rw [flat, List.map_append, List.flatten_append, List.map_singleton, List.flatten_singleton,
      new_data, flat]
  refine ⟨?_, ?_, ?_, ?_⟩
  · intro n hn
    rcases List.mem_append.mp hn with hn | hn
    · exact h.blocks n hn
    · rw [List.mem_singleton] at hn
      rw [hn, new_data, List.length_replicate]
  · have := h.fits
    simp only [List.length_append, List.length_singleton]
    omega
  · intro i n hn
    by_cases hi : i < nodes.length
    · rw [List.getElem?_append_left hi] at hn
      exact h.occ i n hn
    · rw [List.getElem?_append_right (by omega)] at hn
      have hi' : i = nodes.length := by
        have hlt := (List.getElem?_eq_some_iff.mp hn).1
        simp only [List.length_singleton] at hlt
        omega
      subst hi'
      simp only [Nat.sub_self, List.getElem?_cons_zero, Option.some.injEq] at hn
      subst hn
      have := h.fits
      rw [new_occupied]
      omega
  · rw [hf, window_append_right _ (by rw [h.length_flat]; exact h.fits), h.slots]

/-- The counters after node `i` was rewritten, given its own new counter. -/
theorem occ_set {s' len' i : Nat} {m : Node} (h : Window nodes s l)
    (hm : m.occupied = min (s' + len') (128 * i + 128) - max s' (128 * i))
    (hother : ∀ j, j ≠ i → min (s' + len') (128 * j + 128) - max s' (128 * j)
      = min (s + l.length) (128 * j + 128) - max s (128 * j)) :
    ∀ j k, (nodes.set i m)[j]? = some k →
      k.occupied = min (s' + len') (128 * j + 128) - max s' (128 * j) := by
  intro j k hk
  rw [List.getElem?_set] at hk
  split at hk
  · rename_i hij
    split at hk
    · simp only [Option.some.injEq] at hk
      rw [← hij, ← hk]
      exact hm
    · cases hk
  · rename_i hij
    rw [hother j (fun e => hij e.symm)]
    exact h.occ j k hk

/-- The element is stored in the slot before the window. -/
theorem push_left {i off : Nat} {n : Node} (h : Window nodes (i * 128 + off + 1) l)
    (hn : nodes[i]? = some n) (hoff : off < 128) (v : Bytes) :
    Window (nodes.set i ({ n with data := n.data.set off (some v) } : Node).occupy)
      (i * 128 + off) (v :: l) := by
  have hi := (List.getElem?_eq_some_iff.mp hn).1
  have hfits := h.fits
  have hocc := h.occ i n hn
  refine ⟨h.blocks_set hn (some v) Node.occupy occupy_data, ?_, ?_, ?_⟩
  · rw [List.length_set, List.length_cons]; omega
  · refine h.occ_set ?_ fun j hj => ?_
    · simp only [Node.occupy, List.length_cons]; split <;> omega
    · simp only [List.length_cons]; omega
  · have hlt : i * 128 + off < (flat nodes).length := by rw [h.length_flat]; omega
    rw [h.flat_set hn hoff (some v) Node.occupy occupy_data, List.length_cons,
      window_set_before (some v) hlt, h.slots, List.map_cons]

/-- The element is stored in the slot behind the window. -/
theorem push_right {i off : Nat} {n : Node} (h : Window nodes s l)
    (hp : s + l.length = i * 128 + off) (hn : nodes[i]? = some n) (hoff : off < 128) (v : Bytes) :
    Window (nodes.set i ({ n with data := n.data.set off (some v) } : Node).occupy)
      s (l ++ [v]) := by
  have hi := (List.getElem?_eq_some_iff.mp hn).1
  have hocc := h.occ i n hn
  refine ⟨h.blocks_set hn (some v) Node.occupy occupy_data, ?_, ?_, ?_⟩
  · rw [List.length_set, List.length_append, List.length_singleton]; omega
  · refine h.occ_set ?_ fun j hj => ?_
    · simp only [Node.occupy, List.length_append, List.length_singleton]; split <;> omega
    · simp only [List.length_append, List.length_singleton]; omega
  · have hlt : s + l.length < (flat nodes).length := by rw [h.length_flat]; omega
    rw [h.flat_set hn hoff (some v) Node.occupy occupy_data, List.length_append,
      List.length_singleton, ← hp, window_set_behind (some v) hlt, h.slots, List.map_append,
      List.map_singleton]

/-- The first element is moved out. -/
theorem pop_left {i off : Nat} {n : Node} {v : Bytes} (h : Window nodes (i * 128 + off) (v :: l))
    (hn : nodes[i]? = some n) (hoff : off < 128) :
    Window (nodes.set i ({ n with data := n.data.set off none } : Node).vacate)
      (i * 128 + off + 1) l := by
  have hi := (List.getElem?_eq_some_iff.mp hn).1
  have hocc := h.occ i n hn
  have hfits := h.fits
  rw [List.length_cons] at hocc hfits
  refine ⟨h.blocks_set hn none Node.vacate vacate_data, ?_, ?_, ?_⟩
  · rw [List.length_set]; omega
  · refine h.occ_set ?_ fun j hj => ?_
    · simp only [Node.vacate]; split <;> omega
    · simp only [List.length_cons]; omega
  · have hs := h.slots
    rw [List.length_cons, window, List.map_cons] at hs
    have hlt : i * 128 + off < (flat nodes).length := by rw [h.length_flat]; omega
    rw [List.drop_eq_getElem_cons hlt, List.take_succ_cons, List.cons.injEq] at hs
    rw [h.flat_set hn hoff none Node.vacate vacate_data,
      window_set_outside none (Or.inl (by omega)), window, hs.2]

/-- The last element is moved out. -/
theorem pop_right {i off : Nat} {n : Node} {v : Bytes} (h : Window nodes s (l ++ [v]))
    (hp : s + l.length = i * 128 + off) (hn : nodes[i]? = some n) (hoff : off < 128) :
    Window (nodes.set i ({ n with data := n.data.set off none } : Node).vacate) s l := by
  have hi := (List.getElem?_eq_some_iff.mp hn).1
  have hocc := h.occ i n hn
  have hfits := h.fits
  have hs := h.slots
  rw [List.length_append, List.length_singleton] at hocc hfits hs
  refine ⟨h.blocks_set hn none Node.vacate vacate_data, ?_, ?_, ?_⟩
  · rw [List.length_set]; omega
  · refine h.occ_set ?_ fun j hj => ?_
    · simp only [Node.vacate]; split <;> omega
    · simp only [List.length_append, List.length_singleton]; omega
  · rw [h.flat_set hn hoff none Node.vacate vacate_data,
      window_set_outside none (Or.inr (by omega))]
    have ht := congrArg (List.take l.length) hs
    rw [window, List.take_take, Nat.min_eq_left (by omega), List.map_append,
      List.take_left' (by simp)] at ht
    exact ht

/-- An element is overwritten. -/
theorem set_inside {i off k : Nat} {n : Node} (h : Window nodes s l)
    (hp : i * 128 + off = s + k) (hk : k < l.length) (hn : nodes[i]? = some n) (hoff : off < 128)
    (v : Bytes) :
    Window (nodes.set i { n with data := n.data.set off (some v) }) s (l.set k v) := by
  have hocc := h.occ i n hn
  refine ⟨h.blocks_set hn (some v) id fun _ => rfl, ?_, ?_, ?_⟩
  · rw [List.length_set, List.length_set]; exact h.fits
  · rw [List.length_set]
    exact h.occ_set hocc fun j _ => rfl
  · have hf := h.flat_set hn hoff (some v) id fun _ => rfl
    rw [id] at hf
    rw [List.length_set, hf, hp, window_set_inside (some v) hk, h.slots, List.map_set]

/-- The slot at place `k` of the window holds element `k`. -/
theorem read {i off k : Nat} {n : Node} (h : Window nodes s l) (hp : i * 128 + off = s + k)
    (hk : k < l.length) (hn : nodes[i]? = some n) (hoff : off < 128) :
    n.data[off]? = some (some l[k]) := by
  have hb : (nodes.map Node.data)[i]? = some n.data := by simp [hn]
  have hg : (flat nodes)[i * 128 + off]? = n.data[off]? := getElem?_flatten h.uniform hb hoff
  have hw := getElem?_window s l.length k (flat nodes)
  rw [h.slots, if_pos hk] at hw
  rw [← hg, hp, ← hw]
  simp [hk]

end Window

/-! ## The cursors -/

/-- The flat slot `begin_` points at. -/
def start (d : DList) : Nat := d.begin_.node * 128 + d.begin_.ptr.getD 0

/-- `begin_` and `end_` sit on the ends of a non-empty window. -/
def CursorsAt (d : DList) (l : List Bytes) (bo eo : Nat) : Prop :=
  d.begin_.ptr = some bo ∧ d.end_.ptr = some eo ∧ bo < 128 ∧ eo < 128 ∧ l ≠ [] ∧
    d.end_.node * 128 + eo + 1 = d.begin_.node * 128 + bo + l.length

/-- `d` represents the list `l`. -/
structure Repr (d : DList) (l : List Bytes) : Prop where
  win : Window d.nodes d.start l
  len : d.len = l.length
  nNodes : d.nNodes = d.nodes.length
  bnode : d.begin_.node < d.nodes.length
  enode : d.end_.node < d.nodes.length
  cursors : (l = [] ∧ d.begin_.ptr = none ∧ d.end_.ptr = none) ∨ ∃ bo eo, CursorsAt d l bo eo

theorem repr_new : Repr new [] := by
  have hb : ∀ n ∈ new.nodes, n = Node.new := by simp [new]
  refine ⟨⟨?_, by simp [new, start], ?_, by simp [window]⟩, rfl, rfl, by simp [new],
    by simp [new], Or.inl ⟨rfl, rfl, rfl⟩⟩
  · intro n hn
    rw [hb n hn, new_data, List.length_replicate]
  · intro i n hn
    rw [hb n (List.mem_of_getElem? hn), new_occupied]
    simp only [new, start, List.length_nil, Option.getD_none]
    omega

theorem deref_ok {d : DList} {i : Nat} {n : Node} (hn : d.nodes[i]? = some n) :
    d.deref i = .ok n := by rw [deref, hn]

theorem slot_ok {d : DList} {i off : Nat} {n : Node} {x : DynamicString}
    (hn : d.nodes[i]? = some n) (hx : n.data[off]? = some x) : d.slot i off = .ok x := by
  simp only [slot, deref_ok hn, ok_bind, hx]

theorem write_ok {d : DList} {i off : Nat} {n : Node} (x : DynamicString) (count : Node → Node)
    (hn : d.nodes[i]? = some n) (hoff : off < n.data.length) :
    d.write i off x count
      = .ok { d with nodes := d.nodes.set i (count { n with data := n.data.set off x }) } := by
  simp only [write, slot_ok hn (List.getElem?_eq_getElem hoff), deref_ok hn, ok_bind, pure_eq_ok]

theorem slot_inv {d : DList} {node off : Nat} {x : DynamicString} (h : d.slot node off = .ok x) :
    ∃ n, d.nodes[node]? = some n ∧ n.data[off]? = some x := by
  simp only [slot, deref] at h
  cases hn : d.nodes[node]? with
  | none => simp [hn] at h
  | some n =>
      simp only [hn, ok_bind] at h
      cases hx : n.data[off]? with
      | none => simp [hx] at h
      | some y => simpa [hx] using h

/-- How many slots hold a string. -/
def strings (nodes : List Node) : Nat := (flat nodes).countP Option.isSome

/-- What a write does to the number of strings. -/
theorem strings_write {d d' : DList} {i off : Nat} {x y : DynamicString} {count : Node → Node}
    (hu : Uniform 128 (d.nodes.map Node.data)) (hc : ∀ m : Node, (count m).data = m.data)
    (hy : d.slot i off = .ok y) (hw : d.write i off x count = .ok d') :
    strings d'.nodes + y.isSome.toNat = strings d.nodes + x.isSome.toNat := by
  obtain ⟨n, hn, hx⟩ := slot_inv hy
  obtain ⟨hoff, hget⟩ := List.getElem?_eq_some_iff.mp hx
  rw [write_ok x count hn hoff, Except.ok.injEq] at hw
  subst hw
  have hb : (d.nodes.map Node.data)[i]? = some n.data := by rw [List.getElem?_map, hn]; rfl
  have hoff128 : off < 128 := (hu n.data (List.mem_of_getElem? hb)) ▸ hoff
  have hflat : (flat d.nodes)[i * 128 + off]? = some y :=
    (getElem?_flatten hu hb hoff128).trans hx
  have hset : flat (d.nodes.set i (count { n with data := n.data.set off x }))
      = (flat d.nodes).set (i * 128 + off) x := by
    rw [flat, List.map_set, hc]
    exact flatten_set x hu hb hoff128
  simp only [strings, hset]
  exact countP_set_add hflat x

/-- A node position inside the chain, as a node. -/
theorem Window.node {nodes : List Node} {s : Nat} {l : List Bytes} (h : Window nodes s l) {i : Nat}
    (hi : i < nodes.length) : ∃ n, nodes[i]? = some n ∧ n.data.length = 128 :=
  ⟨nodes[i], List.getElem?_eq_getElem hi, h.block (List.getElem?_eq_getElem hi)⟩

/-! ## Pushing -/

/-- Storing through `begin_`, once it has been moved to the free slot before
the window. -/
theorem store_left {d : DList} {l : List Bytes} (i off eo : Nat) (v : Bytes)
    (hb : d.begin_ = ⟨i, some off⟩) (hw : Window d.nodes (i * 128 + off + 1) l)
    (hi : i < d.nodes.length) (hoff : off < 128) (hlen : d.len = l.length)
    (hn : d.nNodes = d.nodes.length) (he : d.end_.ptr = some eo) (heo : eo < 128)
    (hen : d.end_.node < d.nodes.length)
    (hpos : d.end_.node * 128 + eo + 1 = i * 128 + off + (l.length + 1)) :
    ∃ d', d.store d.begin_ v = .ok d' ∧ Repr d' (v :: l) := by
  obtain ⟨n, hni, hnl⟩ := hw.node hi
  refine ⟨{ d with
      nodes := d.nodes.set i ({ n with data := n.data.set off (some v) } : Node).occupy,
      len := d.len + 1 }, ?_, ?_⟩
  · simp only [store, hb, write_ok (some v) Node.occupy hni (by rw [hnl]; exact hoff), ok_bind,
      pure_eq_ok]
  · refine ⟨?_, ?_, ?_, ?_, ?_, Or.inr ⟨off, eo, ?_⟩⟩
    · have := hw.push_left hni hoff v
      simpa [start, hb] using this
    · simp [hlen]
    · simp [hn]
    · simpa [hb] using hi
    · simpa using hen
    · refine ⟨by simp [hb], he, hoff, heo, by simp, ?_⟩
      simp only [hb, List.length_cons]
      omega

theorem pushLeft_of_step {d d' : DList} (v : Bytes) (h : d.stepLeft = .ok d') :
    d.pushLeft v = d'.store d'.begin_ v := by
  simp only [pushLeft, h, ok_bind]

/-- `PushLeft` puts the value in front. -/
theorem pushLeft_repr {d : DList} {l : List Bytes} (h : Repr d l) (v : Bytes) :
    ∃ d', d.pushLeft v = .ok d' ∧ Repr d' (v :: l) := by
  obtain ⟨hw, hlen, hnn, hbn, hen, hcur⟩ := h
  obtain ⟨nb, hnb, hnbl⟩ := hw.node hbn
  rcases hcur with ⟨rfl, hb, he⟩ | ⟨bo, eo, hb, he, hbo, heo, hne, hpos⟩
  · -- empty: both cursors go to the last slot of `begin_`'s node
    rw [pushLeft_of_step v (by simp [stepLeft, deref_ok hnb, hb, he]; rfl)]
    refine store_left d.begin_.node 127 127 v rfl
      (hw.reanchor (by omega)) hbn (by omega) hlen hnn rfl (by omega) hbn ?_
    simp
  · have hs : d.start = d.begin_.node * 128 + bo := by simp [start, hb]
    rw [hs] at hw
    by_cases h0 : bo = 0
    · subst h0
      by_cases hz : d.begin_.node = 0
      · -- left edge of the chain: a new node
        rw [pushLeft_of_step v (by simp [stepLeft, deref_ok (hz ▸ hnb), hb, hz]; rfl)]
        refine store_left 0 127 eo v rfl ?_ (by simp) (by omega) hlen
          (by simp [hnn]) he heo (by simpa using hen) ?_
        · have := hw.new_head
          simpa [hz] using this
        · simp only [hz] at hpos ⊢
          omega
      · -- the previous node of the chain
        rw [pushLeft_of_step v (by simp [stepLeft, deref_ok hnb, hb, hz]; rfl)]
        have hprev : (d.begin_.node - 1) * 128 + 127 + 1 = d.begin_.node * 128 + 0 := by omega
        refine store_left (d.begin_.node - 1) 127 eo v rfl
          (by rw [hprev]; exact hw) (Nat.lt_of_le_of_lt (Nat.sub_le _ _) hbn) (by omega) hlen hnn
          he heo hen ?_
        simp only
        omega
    · -- one slot to the left in the same block
      rw [pushLeft_of_step v (by simp [stepLeft, deref_ok hnb, hb, h0]; rfl)]
      have hprev : d.begin_.node * 128 + (bo - 1) + 1 = d.begin_.node * 128 + bo := by omega
      refine store_left d.begin_.node (bo - 1) eo v rfl
        (by rw [hprev]; exact hw) hbn (by omega) hlen hnn he heo hen ?_
      simp only
      omega

/-- Storing through `end_`, once it has been moved to the free slot behind the
window. -/
theorem store_right {d : DList} {l : List Bytes} (i off bo : Nat) (v : Bytes)
    (he : d.end_ = ⟨i, some off⟩) (hw : Window d.nodes d.start l)
    (hi : i < d.nodes.length) (hoff : off < 128) (hlen : d.len = l.length)
    (hn : d.nNodes = d.nodes.length) (hb : d.begin_.ptr = some bo) (hbo : bo < 128)
    (hbn : d.begin_.node < d.nodes.length)
    (hpos : d.begin_.node * 128 + bo + l.length = i * 128 + off) :
    ∃ d', d.store d.end_ v = .ok d' ∧ Repr d' (l ++ [v]) := by
  obtain ⟨n, hni, hnl⟩ := hw.node hi
  have hs : d.start = d.begin_.node * 128 + bo := by simp [start, hb]
  refine ⟨{ d with
      nodes := d.nodes.set i ({ n with data := n.data.set off (some v) } : Node).occupy,
      len := d.len + 1 }, ?_, ?_⟩
  · simp only [store, he, write_ok (some v) Node.occupy hni (by rw [hnl]; exact hoff), ok_bind,
      pure_eq_ok]
  · refine ⟨?_, ?_, ?_, ?_, ?_, Or.inr ⟨bo, off, ?_⟩⟩
    · exact hw.push_right (by rw [hs]; exact hpos) hni hoff v
    · simp [hlen]
    · simp [hn]
    · simpa using hbn
    · simpa [he] using hi
    · refine ⟨hb, by simp [he], hbo, hoff, by simp, ?_⟩
      simp only [he, List.length_append, List.length_singleton]
      omega

theorem pushRight_of_step {d d' : DList} (v : Bytes) (h : d.stepRight = .ok d') :
    d.pushRight v = d'.store d'.end_ v := by
  simp only [pushRight, h, ok_bind]

/-- `PushRight` puts the value at the end. -/
theorem pushRight_repr {d : DList} {l : List Bytes} (h : Repr d l) (v : Bytes) :
    ∃ d', d.pushRight v = .ok d' ∧ Repr d' (l ++ [v]) := by
  obtain ⟨hw, hlen, hnn, hbn, hen, hcur⟩ := h
  obtain ⟨ne, hne', hnel⟩ := hw.node hen
  rcases hcur with ⟨rfl, hb, he⟩ | ⟨bo, eo, hb, he, hbo, heo, hne, hpos⟩
  · -- empty: both cursors go to the first slot of `end_`'s node
    rw [pushRight_of_step v (by simp [stepRight, deref_ok hne', hb, he]; rfl)]
    refine store_right d.end_.node 0 0 v rfl ?_ hen (by omega) hlen hnn rfl
      (by omega) hen ?_
    · exact hw.reanchor (by simp only [start, Option.getD_some]; omega)
    · simp
  · by_cases hedge : eo = 127
    · by_cases hlast : d.end_.node + 1 = d.nodes.length
      · -- right edge of the chain: a new node
        rw [pushRight_of_step v (by simp [stepRight, deref_ok hne', he, hedge, hlast]; rfl)]
        refine store_right (d.end_.node + 1) 0 bo v (by simp [hlast]) ?_ ?_
          (by omega) hlen (by simp [hnn]) hb hbo ?_ ?_
        · exact hw.new_tail
        · simp [hlast]
        · simp only [List.length_append, List.length_singleton]; omega
        · simp only; omega
      · -- the next node of the chain
        rw [pushRight_of_step v (by simp [stepRight, deref_ok hne', he, hedge, hlast]; rfl)]
        refine store_right (d.end_.node + 1) 0 bo v rfl hw ?_
          (by omega) hlen hnn hb hbo hbn ?_
        · simp only; omega
        · simp only; omega
    · -- one slot to the right in the same block
      rw [pushRight_of_step v (by simp [stepRight, deref_ok hne', he, hedge]; rfl)]
      refine store_right d.end_.node (eo + 1) bo v rfl hw hen
        (by omega) hlen hnn hb hbo hbn ?_
      simp only
      omega

/-! ## Popping -/

theorem popLeft_empty {d : DList} (h : Repr d []) : d.popLeft = .ok (d, none) := by
  have := h.len
  simp [popLeft, show d.len = 0 by simpa using this]

theorem popRight_empty {d : DList} (h : Repr d []) : d.popRight = .ok (d, none) := by
  have := h.len
  simp [popRight, show d.len = 0 by simpa using this]

/-- `begin_.ptr == end_.ptr` exactly when one element is left. -/
theorem oneLeft_iff {d : DList} {l : List Bytes} {bo eo : Nat} (h : CursorsAt d l bo eo) :
    d.oneLeft = true ↔ l.length = 1 := by
  obtain ⟨hb, he, hbo, heo, hne, hpos⟩ := h
  have hl : 0 < l.length := List.length_pos_iff.mpr hne
  simp only [oneLeft, hb, he, Bool.and_eq_true, beq_iff_eq, Option.some.injEq]
  omega

/-- The list after its only element was moved out of `ns`: both cursors are
null. -/
theorem repr_popped_last {d : DList} {v : Bytes} (h : Repr d [v]) {ns : List Node} {s : Nat}
    (hpop : Window ns s []) (hns : ns.length = d.nodes.length) :
    Repr { d with nodes := ns, begin_ := ⟨d.begin_.node, none⟩, end_ := ⟨d.end_.node, none⟩,
                  len := d.len - 1 } [] := by
  have hbn := h.bnode
  refine ⟨?_, by simp [h.len], by simp [h.nNodes, hns], by simpa [hns] using hbn,
    by simpa [hns] using h.enode, Or.inl ⟨rfl, rfl, rfl⟩⟩
  exact hpop.reanchor (by simp only [start, Option.getD_none]; omega)

/-- The list after one of several elements was moved out of `ns`, with the
cursors where they are now. -/
theorem repr_popped {d : DList} {l : List Bytes} {ns : List Node} {i bo j eo : Nat}
    (hpop : Window ns (i * 128 + bo) l) (hns : ns.length = d.nodes.length)
    (hlen : d.len = l.length + 1) (hnn : d.nNodes = d.nodes.length) (hi : i < d.nodes.length)
    (hj : j < d.nodes.length) (hbo : bo < 128) (heo : eo < 128) (hne : l ≠ [])
    (hpos : j * 128 + eo + 1 = i * 128 + bo + l.length) :
    Repr { d with nodes := ns, begin_ := ⟨i, some bo⟩, end_ := ⟨j, some eo⟩, len := d.len - 1 } l :=
  ⟨hpop, by simp [hlen], by simp [hnn, hns], by simpa [hns] using hi, by simpa [hns] using hj,
    Or.inr ⟨bo, eo, rfl, rfl, hbo, heo, hne, hpos⟩⟩

/-- What a pop of a non-empty list leaves: the rest, in a slot less, and both
cursors in one node when nothing is left. -/
structure Popped (d d' : DList) (l : List Bytes) : Prop where
  repr : Repr d' l
  fewer : strings d'.nodes + 1 = strings d.nodes
  meet : l = [] → d'.begin_.node = d'.end_.node

/-- `PopLeft` moves the first element out. -/
theorem popLeft_popped {d : DList} {v : Bytes} {l : List Bytes} (h : Repr d (v :: l)) :
    ∃ d', d.popLeft = .ok (d', some v) ∧ Popped d d' l := by
  have hrepr := h
  obtain ⟨hw, hlen, hnn, hbn, hen, hcur⟩ := h
  obtain ⟨nb, hnb, hnbl⟩ := hw.node hbn
  have hlen0 : d.len ≠ 0 := by rw [hlen]; simp
  rcases hcur with ⟨hnil, -, -⟩ | ⟨bo, eo, hc⟩
  · simp at hnil
  have hone := oneLeft_iff hc
  obtain ⟨hb, he, hbo, heo, hne, hpos⟩ := hc
  have hs : d.start = d.begin_.node * 128 + bo := by simp [start, hb]
  rw [hs] at hw
  rw [List.length_cons] at hpos hlen hone
  have hslot : d.slot d.begin_.node bo = .ok (some v) :=
    slot_ok hnb (hw.read (k := 0) (Nat.add_zero _).symm (by simp) hnb hbo)
  obtain ⟨ns, hwrite, hpop, hns⟩ : ∃ ns,
      d.write d.begin_.node bo none Node.vacate = .ok { d with nodes := ns } ∧
      Window ns (d.begin_.node * 128 + bo + 1) l ∧ ns.length = d.nodes.length :=
    ⟨_, write_ok none Node.vacate hnb (by rw [hnbl]; exact hbo), hw.pop_left hnb hbo,
      List.length_set⟩
  have hstr : strings ns + 1 = strings d.nodes := strings_write hw.uniform vacate_data hslot hwrite
  by_cases h1 : l = []
  · -- the only element: both cursors become null
    subst h1
    have hmeet : d.begin_.node = d.end_.node := by
      rw [List.length_nil] at hpos
      omega
    refine ⟨_, ?_, repr_popped_last hrepr hpop hns, hstr, fun _ => hmeet⟩
    simp only [popLeft, if_neg hlen0, hb, hslot, ok_bind, hone.mpr rfl, if_true, hwrite,
      pure_eq_ok]
  · have hl : 0 < l.length := List.length_pos_iff.mpr h1
    have hmany : ¬ d.oneLeft = true := fun h => absurd (hone.mp h) (by omega)
    have hend : d.end_ = ⟨d.end_.node, some eo⟩ := by rw [← he]
    by_cases hedge : bo = 128 - 1
    · -- right edge of the block: on to the next node, which the window reaches
      have hnext : d.begin_.node + 1 ≠ d.nodes.length := by omega
      have hst : (d.begin_.node + 1) * 128 + 0 = d.begin_.node * 128 + bo + 1 := by omega
      rw [← hst] at hpop
      refine ⟨_, ?_, repr_popped hpop hns hlen hnn (by omega) hen (by omega) heo h1 (by omega),
        hstr, fun h => absurd h h1⟩
      simp only [popLeft, if_neg hlen0, hb, hslot, ok_bind, if_neg hmany, if_pos hedge,
        if_pos hnext, hwrite, pure_eq_ok, ← hend]
    · -- one slot to the right in the same block
      rw [Nat.add_assoc] at hpop
      refine ⟨_, ?_, repr_popped hpop hns hlen hnn hbn hen (by omega) heo h1 (by omega), hstr,
        fun h => absurd h h1⟩
      simp only [popLeft, if_neg hlen0, hb, hslot, ok_bind, if_neg hmany, if_neg hedge, hwrite,
        pure_eq_ok, ← hend]

theorem popLeft_repr {d : DList} {v : Bytes} {l : List Bytes} (h : Repr d (v :: l)) :
    ∃ d', d.popLeft = .ok (d', some v) ∧ Repr d' l := by
  obtain ⟨d', hd', hpop⟩ := popLeft_popped h
  exact ⟨d', hd', hpop.repr⟩

/-- `PopRight` moves the last element out. -/
theorem popRight_popped {d : DList} {v : Bytes} {l : List Bytes} (h : Repr d (l ++ [v])) :
    ∃ d', d.popRight = .ok (d', some v) ∧ Popped d d' l := by
  have hrepr := h
  obtain ⟨hw, hlen, hnn, hbn, hen, hcur⟩ := h
  obtain ⟨ne, hne', hnel⟩ := hw.node hen
  have hlen0 : d.len ≠ 0 := by rw [hlen]; simp
  rcases hcur with ⟨hnil, -, -⟩ | ⟨bo, eo, hc⟩
  · simp at hnil
  have hone := oneLeft_iff hc
  obtain ⟨hb, he, hbo, heo, hne, hpos⟩ := hc
  have hs : d.start = d.begin_.node * 128 + bo := by simp [start, hb]
  rw [hs] at hw
  rw [List.length_append, List.length_singleton] at hpos hlen hone
  have hend : d.begin_.node * 128 + bo + l.length = d.end_.node * 128 + eo := by omega
  have hslot : d.slot d.end_.node eo = .ok (some v) :=
    slot_ok hne' (by simpa using hw.read (k := l.length) hend.symm (by simp) hne' heo)
  obtain ⟨ns, hwrite, hpop, hns⟩ : ∃ ns,
      d.write d.end_.node eo none Node.vacate = .ok { d with nodes := ns } ∧
      Window ns (d.begin_.node * 128 + bo) l ∧ ns.length = d.nodes.length :=
    ⟨_, write_ok none Node.vacate hne' (by rw [hnel]; exact heo), hw.pop_right hend hne' heo,
      List.length_set⟩
  have hstr : strings ns + 1 = strings d.nodes := strings_write hw.uniform vacate_data hslot hwrite
  by_cases h1 : l = []
  · -- the only element: both cursors become null
    subst h1
    have hmeet : d.begin_.node = d.end_.node := by
      rw [List.length_nil] at hpos
      omega
    refine ⟨_, ?_, repr_popped_last hrepr hpop hns, hstr, fun _ => hmeet⟩
    simp only [popRight, if_neg hlen0, he, hslot, ok_bind, hone.mpr rfl, if_true, hwrite,
      pure_eq_ok]
  · have hl : 0 < l.length := List.length_pos_iff.mpr h1
    have hmany : ¬ d.oneLeft = true := fun h => absurd (hone.mp h) (by omega)
    have hbegin : d.begin_ = ⟨d.begin_.node, some bo⟩ := by rw [← hb]
    by_cases hedge : eo = 0
    · -- left edge of the block: back to the previous node, which the window reaches
      have hprev : d.end_.node ≠ 0 := by omega
      refine ⟨_, ?_, repr_popped hpop hns hlen hnn hbn (j := d.end_.node - 1) (by omega) hbo
        (show 128 - 1 < 128 by omega) h1 (by omega), hstr, fun h => absurd h h1⟩
      simp only [popRight, if_neg hlen0, he, hslot, ok_bind, if_neg hmany, if_pos hedge,
        if_pos hprev, hwrite, pure_eq_ok, ← hbegin]
    · -- one slot to the left in the same block
      refine ⟨_, ?_, repr_popped hpop hns hlen hnn hbn hen hbo (show eo - 1 < 128 by omega) h1
        (by omega), hstr, fun h => absurd h h1⟩
      simp only [popRight, if_neg hlen0, he, hslot, ok_bind, if_neg hmany, if_neg hedge, hwrite,
        pure_eq_ok, ← hbegin]

theorem popRight_repr {d : DList} {v : Bytes} {l : List Bytes} (h : Repr d (l ++ [v])) :
    ∃ d', d.popRight = .ok (d', some v) ∧ Repr d' l := by
  obtain ⟨d', hd', hpop⟩ := popRight_popped h
  exact ⟨d', hd', hpop.repr⟩

/-! ## Traversing -/

namespace Window

variable {n : Node} {nodes : List Node} {s : Nat} {l : List Bytes}

theorem flat_cons : flat (n :: nodes) = n.data ++ flat nodes := by
  rw [flat, List.map_cons, List.flatten_cons, flat]

/-- A window that starts behind the first block is one of the other blocks. -/
theorem tail_of_ge (h : Window (n :: nodes) (128 + s) l) : Window nodes s l := by
  have hn : n.data.length = 128 := h.blocks n List.mem_cons_self
  refine ⟨fun m hm => h.blocks m (List.mem_cons_of_mem n hm), ?_, fun i m hm => ?_, ?_⟩
  · have := h.fits
    rw [List.length_cons] at this
    omega
  · have := h.occ (i + 1) m (by simpa using hm)
    omega
  · have hs := h.slots
    rw [flat_cons, ← hn, window_append_left] at hs
    exact hs

/-- A window that starts in the first block: what the other blocks hold. -/
theorem tail_of_lt (h : Window (n :: nodes) s l) (hs : s < 128) :
    Window nodes 0 (l.drop n.occupied) := by
  have hn : n.data.length = 128 := h.blocks n List.mem_cons_self
  have ho : n.occupied = min (s + l.length) 128 - s := by
    have := h.occ 0 n (by simp)
    omega
  have hfits := h.fits
  rw [List.length_cons] at hfits
  refine ⟨fun m hm => h.blocks m (List.mem_cons_of_mem n hm), ?_, fun i m hm => ?_, ?_⟩
  · rw [List.length_drop]; omega
  · have := h.occ (i + 1) m (by simpa using hm)
    rw [List.length_drop]
    omega
  · have hd := congrArg (List.drop n.occupied) h.slots
    rw [window, flat_cons, List.drop_append, hn, List.drop_take, List.drop_append,
      List.length_drop, hn, ← List.map_drop] at hd
    rw [← hd, window, List.drop_zero, List.length_drop]
    by_cases hc : s + l.length ≤ 128
    · rw [show l.length - n.occupied = 0 by omega, List.take_zero, List.take_zero]
    · rw [List.drop_eq_nil_of_le (by rw [List.length_drop, hn]; omega), List.nil_append,
        List.drop_drop, show s - 128 + (n.occupied - (128 - s)) = 0 by omega, List.drop_zero]

/-- The first block's share of the window. -/
theorem head_slots (h : Window (n :: nodes) s l) (hs : s < 128) :
    (n.data.drop s).take n.occupied = (l.take n.occupied).map some := by
  have hn : n.data.length = 128 := h.blocks n List.mem_cons_self
  have ho : n.occupied = min (s + l.length) 128 - s := by
    have := h.occ 0 n (by simp)
    omega
  have ht := congrArg (List.take n.occupied) h.slots
  rw [window, flat_cons, List.take_take, Nat.min_eq_left (by omega), List.drop_append, hn,
    List.take_append_of_le_length (by rw [List.length_drop, hn]; omega), ← List.map_take] at ht
  exact ht

/-- The counters of all nodes add up to the number of elements. -/
theorem sum_occupied : ∀ {nodes : List Node} {s : Nat} {l : List Bytes}, Window nodes s l →
    (nodes.map Node.occupied).sum = l.length
  | [], s, l, h => by
      have := h.fits
      simp only [List.length_nil] at this
      simp only [List.map_nil, List.sum_nil]
      omega
  | n :: nodes, s, l, h => by
      have ho : n.occupied = min (s + l.length) 128 - s := by
        have := h.occ 0 n (by simp)
        omega
      rw [List.map_cons, List.sum_cons]
      by_cases hs : s < 128
      · rw [sum_occupied (h.tail_of_lt hs), List.length_drop]
        omega
      · have h' : Window (n :: nodes) (128 + (s - 128)) l := by
          rw [show 128 + (s - 128) = s by omega]; exact h
        rw [sum_occupied h'.tail_of_ge]
        omega

/-- Dropping whole blocks in front of a window. -/
theorem drop : ∀ (k : Nat) {nodes : List Node} {s : Nat} {l : List Bytes},
    Window nodes (k * 128 + s) l → k ≤ nodes.length → Window (nodes.drop k) s l
  | 0, nodes, s, l, h, _ => by simpa using h
  | k + 1, [], _, _, _, hk => by simp at hk
  | k + 1, n :: nodes, s, l, h, hk => by
      have h' : Window (n :: nodes) (128 + (k * 128 + s)) l := by
        rw [show 128 + (k * 128 + s) = (k + 1) * 128 + s by ring]; exact h
      rw [List.drop_succ_cons]
      exact drop k h'.tail_of_ge (by simpa using hk)

end Window

theorem readBlock_ok (n : Node) : ∀ (count off : Nat), off + count ≤ n.data.length →
    readBlock n count off = .ok ((n.data.drop off).take count)
  | 0, _, _ => by simp [readBlock]
  | count + 1, off, h => by
      have hoff : off < n.data.length := by omega
      rw [readBlock, List.getElem?_eq_getElem hoff]
      simp only [readBlock_ok n count (off + 1) (by omega), ok_bind, pure_eq_ok]
      rw [List.drop_eq_getElem_cons hoff, List.take_succ_cons]

theorem traverse_window : ∀ {nodes : List Node} {s : Nat} {l : List Bytes}, Window nodes s l →
    s < 128 → traverse nodes s = .ok (l.map some)
  | [], s, l, h, _ => by
      have hf := h.fits
      rw [List.length_nil] at hf
      have hl : l = [] := List.eq_nil_of_length_eq_zero (by omega)
      rw [traverse, hl, List.map_nil]
  | n :: nodes, s, l, h, hs => by
      have hn : n.data.length = 128 := h.blocks n List.mem_cons_self
      have ho : n.occupied = min (s + l.length) 128 - s := by
        have := h.occ 0 n (by simp)
        omega
      rw [traverse]
      by_cases hpos : n.occupied > 0
      · rw [if_pos hpos, readBlock_ok n _ _ (by omega), h.head_slots hs]
        simp only [ok_bind, traverse_window (h.tail_of_lt hs) (by omega), pure_eq_ok]
        rw [← List.map_append, List.take_append_drop]
      · have hl : l = [] := List.eq_nil_of_length_eq_zero (by omega)
        rw [if_neg hpos, hl, List.map_nil]

/-- The traversals visit exactly the represented list. -/
theorem elements_repr {d : DList} {l : List Bytes} (h : Repr d l) :
    d.elements = .ok (l.map some) := by
  obtain ⟨hw, hlen, hnn, hbn, hen, hcur⟩ := h
  rcases hcur with ⟨rfl, hb, he⟩ | ⟨bo, eo, hb, he, hbo, heo, hne, hpos⟩
  · rw [elements, if_pos (by simpa using hlen), List.map_nil]
  · have hl : 0 < l.length := List.length_pos_iff.mpr hne
    have hs : d.start = d.begin_.node * 128 + bo := by simp [start, hb]
    rw [hs] at hw
    rw [elements, if_neg (by omega), hb]
    exact traverse_window (hw.drop d.begin_.node (Nat.le_of_lt hbn)) hbo

theorem rangeAsStdStringVector_repr {d : DList} {l : List Bytes} (h : Repr d l) :
    d.rangeAsStdStringVector = .ok l := by
  simp only [rangeAsStdStringVector, elements_repr h, ok_bind, pure_eq_ok, List.map_map]
  congr 1
  exact List.map_id'' (fun _ => rfl) l

theorem rangeAsDynaStringVector_repr {d : DList} {l : List Bytes} (h : Repr d l) :
    d.rangeAsDynaStringVector = .ok (l.map some) := elements_repr h

/-! ## Indexing -/

/-- How many elements the node `begin_` is in holds. -/
def frontCount (d : DList) : Nat := (d.nodes[d.begin_.node]?.map Node.occupied).getD 0

theorem frontCount_of_node {d : DList} {n : Node} (hn : d.nodes[d.begin_.node]? = some n) :
    d.frontCount = n.occupied := by simp [frontCount, hn]

theorem frontCount_le {d : DList} {l : List Bytes} (h : Repr d l) : d.frontCount ≤ 128 := by
  obtain ⟨n, hn, -⟩ := h.win.node h.bnode
  have := h.win.occ _ n hn
  rw [frontCount_of_node hn]
  omega

/-- Following `next` inside the chain. -/
theorem advance_ok {d : DList} : ∀ (k node : Nat), node + k ≤ d.nodes.length →
    d.advance k node = .ok (node + k)
  | 0, _, _ => rfl
  | k + 1, node, h => by
      have hn : node < d.nodes.length := by omega
      rw [advance, deref_ok (List.getElem?_eq_getElem hn), ok_bind,
        advance_ok k (node + 1) (by omega)]
      congr 1
      omega

/-- Where `advance` leads, if it leads anywhere. -/
theorem advance_inv {d : DList} : ∀ (k : Nat) {node node' : Nat},
    d.advance k node = .ok node' → node' = node + k
  | 0, node, node', h => by
      simp only [advance, Except.ok.injEq] at h
      omega
  | k + 1, node, node', h => by
      rw [advance] at h
      cases hn : d.deref node with
      | error e => simp [hn] at h
      | ok n =>
          simp only [hn, ok_bind] at h
          have := advance_inv k h
          omega

theorem toInt32_of_lt {n : Nat} (h : n < 2 ^ 31) : toInt32 n = n := by
  rw [toInt32]; omega

theorem toInt32_ne_of_ge {n : Nat} (h : 2 ^ 31 ≤ n) : toInt32 n < n := by
  rw [toInt32]; omega

/-- `NodeAtIndex` behind the elements of the first node. -/
theorem nodeAtIndex_behind {d : DList} {n : Node} (hn : d.nodes[d.begin_.node]? = some n) (j : Nat)
    (hj : j < 2 ^ 31) :
    d.nodeAtIndex (n.occupied + j) = (do
      let tmp ← d.advance (j / 128 + 1) d.begin_.node
      return (tmp, ((j / 128 : Nat) : Int), ((j % 128 : Nat) : Int))) := by
  have hfirst : ¬ n.occupied > n.occupied + j := by omega
  have hdiv : Int.tdiv (j : Int) (kBlockSize : Int) = ((j / 128 : Nat) : Int) := by
    rw [Int.tdiv_eq_ediv_of_nonneg (by omega)]; rfl
  have hmod : Int.tmod (j : Int) (kBlockSize : Int) = ((j % 128 : Nat) : Int) := by
    rw [Int.tmod_eq_emod_of_nonneg (by omega)]; rfl
  have hk : ((j / 128 : Nat) + 1 : Int).toNat = j / 128 + 1 := by omega
  simp only [nodeAtIndex, deref_ok hn, ok_bind, if_neg hfirst,
    show n.occupied + j - n.occupied = j by omega, toInt32_of_lt hj, hdiv, hmod, hk]

theorem index_throws {d : DList} {l : List Bytes} (h : Repr d l) {i : Nat} (hi : l.length ≤ i) :
    d.index i = .error .outOfRange := by
  have hlen := h.len
  rw [index, if_pos (by omega)]
  rfl

/-- An index within an `int` of the first node's last element. -/
theorem index_near {d : DList} {l : List Bytes} (h : Repr d l) {i : Nat} (hi : i < l.length)
    (hnear : i < d.frontCount + 2 ^ 31) :
    ∃ node off, d.index i = .ok (node, off) ∧ off < 128 ∧ node < d.nodes.length ∧
      node * 128 + off = d.start + i := by
  obtain ⟨hw, hlen, hnn, hbn, hen, hcur⟩ := h
  obtain ⟨n, hn, hnl⟩ := hw.node hbn
  have hocc := hw.occ _ n hn
  have hfits := hw.fits
  rw [frontCount_of_node hn] at hnear
  rcases hcur with ⟨rfl, -, -⟩ | ⟨bo, eo, hb, he, hbo, heo, hne, hpos⟩
  · simp at hi
  have hs : d.start = d.begin_.node * 128 + bo := by simp [start, hb]
  rw [hs] at hocc hfits ⊢
  have hlen' : ¬ i ≥ d.len := by omega
  by_cases hfirst : n.occupied > i
  · -- in the node `begin_` is in
    have hoff : bo + i < 128 := by omega
    have hx : ∃ x, n.data[bo + i]? = some x := ⟨_, List.getElem?_eq_getElem (by omega)⟩
    obtain ⟨x, hx⟩ := hx
    refine ⟨d.begin_.node, bo + i, ?_, hoff, hbn, by omega⟩
    simp only [index, if_neg hlen', deref_ok hn, ok_bind, if_pos hfirst, hb, slot_ok hn hx,
      pure_eq_ok]
  · -- `n_cross + 1` nodes further on
    obtain ⟨j, hj⟩ : ∃ j, i = n.occupied + j := ⟨i - n.occupied, by omega⟩
    have hj31 : j < 2 ^ 31 := by omega
    have hq : j / 128 * 128 + j % 128 = j := by omega
    have hr : j % 128 < 128 := Nat.mod_lt _ (by omega)
    have hnode : d.begin_.node + (j / 128 + 1) < d.nodes.length := by omega
    obtain ⟨m, hm, hml⟩ := hw.node hnode
    obtain ⟨x, hx⟩ : ∃ x, m.data[j % 128]? = some x := ⟨_, List.getElem?_eq_getElem (by omega)⟩
    have hat : d.nodeAtIndex i
        = .ok (d.begin_.node + (j / 128 + 1), ((j / 128 : Nat) : Int),
          ((j % 128 : Nat) : Int)) := by
      rw [hj, nodeAtIndex_behind hn j hj31, advance_ok _ _ (by omega), ok_bind, pure_eq_ok]
    refine ⟨d.begin_.node + (j / 128 + 1), j % 128, ?_, hr, hnode, by omega⟩
    have hnn' : ¬ ((j % 128 : Nat) : Int) < 0 := by omega
    simp only [index, if_neg hlen', deref_ok hn, ok_bind, if_neg hfirst, hat, if_neg hnn',
      Int.toNat_natCast, slot_ok hm hx, pure_eq_ok]

/-- Any other index is taken for an earlier one, or faults. -/
theorem index_far {d : DList} {l : List Bytes} (h : Repr d l) {i : Nat} (hi : i < l.length)
    (hfar : d.frontCount + 2 ^ 31 ≤ i) {node off : Nat} (hx : d.index i = .ok (node, off)) :
    node * 128 + off < d.start + i := by
  obtain ⟨hw, hlen, hnn, hbn, hen, hcur⟩ := h
  obtain ⟨n, hn, hnl⟩ := hw.node hbn
  have hocc := hw.occ _ n hn
  rw [frontCount_of_node hn] at hfar
  rcases hcur with ⟨rfl, -, -⟩ | ⟨bo, eo, hb, he, hbo, heo, hne, hpos⟩
  · simp at hi
  have hs : d.start = d.begin_.node * 128 + bo := by simp [start, hb]
  rw [hs] at hocc ⊢
  have hlen' : ¬ i ≥ d.len := by omega
  have hfirst : ¬ n.occupied > i := by omega
  obtain ⟨j, hj⟩ : ∃ j, i = n.occupied + j := ⟨i - n.occupied, by omega⟩
  have hlt := toInt32_ne_of_ge (n := j) (by omega)
  clear hfar
  simp only [index, if_neg hlen', nodeAtIndex, deref_ok hn, ok_bind, if_neg hfirst,
    show i - n.occupied = j by omega] at hx
  rw [show ((kBlockSize : Nat) : Int) = 128 from rfl] at hx
  obtain ⟨diff, hdiff⟩ : ∃ diff, toInt32 (j : Int) = diff := ⟨_, rfl⟩
  rw [hdiff] at hx hlt
  cases hadv : d.advance (Int.tdiv diff 128 + 1).toNat d.begin_.node with
  | error e => simp only [hadv, error_bind, reduceCtorEq] at hx
  | ok tmp =>
      have htmp := advance_inv _ hadv
      simp only [hadv, ok_bind, pure_eq_ok] at hx
      by_cases hneg : Int.tmod diff 128 < 0
      · simp only [if_pos hneg, throw_eq_error, error_bind, reduceCtorEq] at hx
      · rw [if_neg hneg] at hx
        cases hslot : d.slot tmp (Int.tmod diff 128).toNat with
        | error e => simp only [hslot, error_bind, reduceCtorEq] at hx
        | ok x =>
            simp only [hslot, ok_bind, Except.ok.injEq, Prod.mk.injEq] at hx
            have hqr : (128 : Int) * Int.tdiv diff 128 + Int.tmod diff 128 = diff :=
              Int.mul_tdiv_add_tmod diff 128
            have hr : Int.tmod diff 128 < 128 := Int.tmod_lt_of_pos diff (by omega)
            have hocc' : n.occupied = 128 - bo := by omega
            clear hdiff hocc hadv hslot
            omega

/-- Reading through `operator[]`. -/
theorem getAt_repr {d : DList} {l : List Bytes} (h : Repr d l) {i : Nat} (hi : i < l.length)
    (hnear : i < d.frontCount + 2 ^ 31) : d.getAt i = .ok (some l[i]) := by
  obtain ⟨node, off, hx, hoff, hnode, hpos⟩ := index_near h hi hnear
  obtain ⟨n, hn, -⟩ := h.win.node hnode
  simp only [getAt, hx, ok_bind, slot_ok hn (h.win.read hpos hi hn hoff)]

/-- Writing a slot that holds element `k`. -/
theorem write_repr {d : DList} {l : List Bytes} (h : Repr d l) {node off k : Nat} (v : Bytes)
    (hnode : node < d.nodes.length) (hoff : off < 128) (hk : k < l.length)
    (hpos : node * 128 + off = d.start + k) :
    ∃ d', d.write node off (some v) id = .ok d' ∧ Repr d' (l.set k v) := by
  obtain ⟨n, hn, hnl⟩ := h.win.node hnode
  refine ⟨_, write_ok (some v) id hn (by omega), ?_⟩
  refine ⟨h.win.set_inside hpos hk hn hoff v, by simp [h.len], by simp [h.nNodes],
    by simpa using h.bnode, by simpa using h.enode, ?_⟩
  rcases h.cursors with ⟨rfl, hb, he⟩ | ⟨bo, eo, hb, he, hbo, heo, hne, hp⟩
  · simp at hk
  · refine Or.inr ⟨bo, eo, hb, he, hbo, heo, ?_, by simpa using hp⟩
    intro hnil
    exact hne (by simpa using hnil)

/-- Writing through `operator[]`. -/
theorem setAt_repr {d : DList} {l : List Bytes} (h : Repr d l) {i : Nat} (hi : i < l.length)
    (hnear : i < d.frontCount + 2 ^ 31) (v : Bytes) :
    ∃ d', d.setAt i v = .ok d' ∧ Repr d' (l.set i v) := by
  obtain ⟨node, off, hx, hoff, hnode, hpos⟩ := index_near h hi hnear
  obtain ⟨d', hd', hr⟩ := write_repr h v hnode hoff hi hpos
  exact ⟨d', by simp only [setAt, hx, ok_bind, hd'], hr⟩

theorem write_inv {d d' : DList} {node off : Nat} {x : DynamicString} {count : Node → Node}
    (h : d.write node off x count = .ok d') :
    ∃ n, d.nodes[node]? = some n ∧ off < n.data.length := by
  cases hs : d.slot node off with
  | error e => simp [write, hs] at h
  | ok y =>
      obtain ⟨n, hn, hy⟩ := slot_inv hs
      exact ⟨n, hn, (List.getElem?_eq_some_iff.mp hy).1⟩

/-- A write lands on an element or on a free slot. -/
theorem write_cases {d d' : DList} {l : List Bytes} (h : Repr d l) {node off : Nat} {v : Bytes}
    (hw : d.write node off (some v) id = .ok d') :
    (∃ k, node * 128 + off = d.start + k ∧ Repr d' (l.set k v)) ∨
    (∀ k < l.length, node * 128 + off ≠ d.start + k) ∧ Repr d' l := by
  obtain ⟨n, hn, hoff⟩ := write_inv hw
  have hnl : n.data.length = 128 := h.win.block hn
  have hnode := (List.getElem?_eq_some_iff.mp hn).1
  by_cases hin : d.start ≤ node * 128 + off ∧ node * 128 + off < d.start + l.length
  · obtain ⟨k, hk⟩ : ∃ k, node * 128 + off = d.start + k := ⟨node * 128 + off - d.start, by omega⟩
    obtain ⟨d'', hd'', hr''⟩ := write_repr h v hnode (show off < 128 by omega)
      (show k < l.length by omega) hk
    rw [hw] at hd''
    obtain rfl : d' = d'' := by simpa using hd''
    exact Or.inl ⟨k, hk, hr''⟩
  · -- a free slot
    rw [write_ok (some v) id hn hoff] at hw
    obtain rfl :
        { d with nodes := d.nodes.set node (id { n with data := n.data.set off (some v) }) }
          = d' := by simpa using hw
    refine Or.inr ⟨fun k hk he => hin (by omega), ⟨⟨h.win.blocks_set hn (some v) id fun _ => rfl,
      ?_, ?_, ?_⟩, h.len, by simp [h.nNodes], by simpa using h.bnode, by simpa using h.enode,
      h.cursors⟩⟩
    · simpa only [start, List.length_set] using h.win.fits
    · exact h.win.occ_set (h.win.occ node n hn) fun j _ => rfl
    · have hs := h.win.slots
      rw [h.win.flat_set hn (by omega) (some v) id fun _ => rfl]
      rw [window_set_outside (some v) (by simp only [start] at hin ⊢; omega)]
      exact hs

/-- A write into another slot leaves element `i` as it is. -/
theorem write_elsewhere {d d' : DList} {l r : List Bytes} (h : Repr d l) {node off i : Nat}
    {v : Bytes} (hpos : node * 128 + off ≠ d.start + i)
    (hw : d.write node off (some v) id = .ok d') (hr : d'.rangeAsStdStringVector = .ok r) :
    r[i]? = l[i]? := by
  rcases write_cases h hw with ⟨k, hk, hrep⟩ | ⟨-, hrep⟩
  · rw [rangeAsStdStringVector_repr hrep] at hr
    obtain rfl : l.set k v = r := by simpa using hr
    rw [List.getElem?_set_ne (by omega)]
  · rw [rangeAsStdStringVector_repr hrep] at hr
    obtain rfl : l = r := by simpa using hr
    rfl

/-- Whatever slot `operator[]` gives, a write through it leaves a list. -/
theorem setAt_any {d d' : DList} {l : List Bytes} (h : Repr d l) {i : Nat} {v : Bytes}
    (hs : d.setAt i v = .ok d') : ∃ l', Repr d' l' := by
  cases hx : d.index i with
  | error e => simp [setAt, hx] at hs
  | ok loc =>
      simp only [setAt, hx, ok_bind] at hs
      rcases write_cases h hs with ⟨k, -, hrep⟩ | ⟨-, hrep⟩
      · exact ⟨_, hrep⟩
      · exact ⟨_, hrep⟩

/-- A non-empty list has an element in the node `begin_` is in. -/
theorem frontCount_pos {d : DList} {l : List Bytes} (h : Repr d l) (hl : l ≠ []) :
    0 < d.frontCount := by
  obtain ⟨n, hn, -⟩ := h.win.node h.bnode
  have hocc := h.win.occ _ n hn
  have hpos : 0 < l.length := List.length_pos_iff.mpr hl
  rw [frontCount_of_node hn]
  rcases h.cursors with ⟨rfl, -, -⟩ | ⟨bo, eo, hb, he, hbo, heo, hne, hp⟩
  · exact absurd rfl hl
  · have hs : d.start = d.begin_.node * 128 + bo := by simp [start, hb]
    omega

/-! ## The deque -/

/-- Everything a `DList` says about itself, against the list it should be. -/
structure IsDeque (d : DList) (l : List Bytes) : Prop where
  length : d.len = l.length
  range : d.rangeAsStdStringVector = .ok l
  rangeDyna : d.rangeAsDynaStringVector = .ok (l.map some)
  throws : ∀ i, l.length ≤ i → d.index i = .error .outOfRange
  read : ∀ i (h : i < l.length), d.getAt i = .ok (some l[i])
  write : ∀ i v, i < l.length →
    ∃ d', d.setAt i v = .ok d' ∧ d'.rangeAsStdStringVector = .ok (l.set i v)
  nodeNum : d.nNodes = d.nodes.length
  occupied : (d.nodes.map Node.occupied).sum = l.length

/-- The indexes are right exactly while each of them is within an `int` of the
first node's last element. -/
theorem isDeque_iff {d : DList} {l : List Bytes} (h : Repr d l) :
    IsDeque d l ↔ l.length ≤ d.frontCount + 2 ^ 31 := by
  constructor
  · intro hd
    by_contra hc
    -- the last index is beyond an `int`: a write through it lands elsewhere
    obtain ⟨i, hi⟩ : ∃ i, l.length = i + 1 := ⟨l.length - 1, by omega⟩
    have hil : i < l.length := by omega
    obtain ⟨d', hset, hr⟩ := hd.write i (l[i] ++ [0]) hil
    cases hx : d.index i with
    | error e => simp [setAt, hx] at hset
    | ok loc =>
        have hfar := index_far h hil (by omega) hx
        simp only [setAt, hx, ok_bind] at hset
        have hsame := write_elsewhere h (i := i) (by omega) hset hr
        rw [List.getElem?_set_self hil, List.getElem?_eq_getElem hil] at hsame
        simp at hsame
  · intro hfit
    exact
      { length := h.len
        range := rangeAsStdStringVector_repr h
        rangeDyna := rangeAsDynaStringVector_repr h
        throws := fun i hi => index_throws h hi
        read := fun i hi => getAt_repr h hi (by omega)
        write := fun i v hi => by
          obtain ⟨d', hd', hr⟩ := setAt_repr h hi (by omega) v
          exact ⟨d', hd', rangeAsStdStringVector_repr hr⟩
        nodeNum := h.nNodes
        occupied := h.win.sum_occupied }

/-- The operations, `reset` being a write through `operator[]`. -/
inductive Op where
  | pushLeft (val : Bytes)
  | pushRight (val : Bytes)
  | popLeft
  | popRight
  | reset (idx : Nat) (val : Bytes)
  deriving DecidableEq

/-- What an operation gives its caller. -/
inductive Out where
  | done
  | popped (val : Bytes)
  | thrown
  deriving DecidableEq

/-- One operation; the exception of `operator[]` is caught by the caller. -/
def step (d : DList) : Op → Except DListError (DList × Out)
  | .pushLeft v => do return (← d.pushLeft v, .done)
  | .pushRight v => do return (← d.pushRight v, .done)
  | .popLeft => do
      let r ← d.popLeft
      return (r.1, .popped r.2.toStdString)
  | .popRight => do
      let r ← d.popRight
      return (r.1, .popped r.2.toStdString)
  | .reset i v =>
      match d.setAt i v with
      | .ok d' => .ok (d', .done)
      | .error .outOfRange => .ok (d, .thrown)
      | .error .badAccess => .error .badAccess

/-- The same operation on the list a `DList` stands for. -/
def listStep (l : List Bytes) : Op → List Bytes × Out
  | .pushLeft v => (v :: l, .done)
  | .pushRight v => (l ++ [v], .done)
  | .popLeft => (l.tail, .popped (l.head?.getD []))
  | .popRight => (l.dropLast, .popped (l.getLast?.getD []))
  | .reset i v => if i < l.length then (l.set i v, .done) else (l, .thrown)

/-- A write goes to an index that `NodeAtIndex` can compute with. -/
def OpFits (d : DList) : Op → Prop
  | .reset i _ => i < d.len → i < d.frontCount + 2 ^ 31
  | _ => True

/-- One operation is the list operation. -/
theorem step_repr {d : DList} {l : List Bytes} (h : Repr d l) (op : Op) (hfit : OpFits d op) :
    ∃ d', step d op = .ok (d', (listStep l op).2) ∧ Repr d' (listStep l op).1 := by
  cases op with
  | pushLeft v =>
      obtain ⟨d', hd', hr⟩ := pushLeft_repr h v
      exact ⟨d', by simp only [step, hd', ok_bind, pure_eq_ok, listStep], hr⟩
  | pushRight v =>
      obtain ⟨d', hd', hr⟩ := pushRight_repr h v
      exact ⟨d', by simp only [step, hd', ok_bind, pure_eq_ok, listStep], hr⟩
  | popLeft =>
      cases l with
      | nil => exact ⟨d, by simp only [step, popLeft_empty h, ok_bind, pure_eq_ok]; rfl, h⟩
      | cons v l =>
          obtain ⟨d', hd', hr⟩ := popLeft_repr h
          exact ⟨d', by simp only [step, hd', ok_bind, pure_eq_ok]; rfl, hr⟩
  | popRight =>
      rcases List.eq_nil_or_concat l with rfl | ⟨l', v, rfl⟩
      · exact ⟨d, by simp only [step, popRight_empty h, ok_bind, pure_eq_ok]; rfl, h⟩
      · rw [List.concat_eq_append] at h ⊢
        obtain ⟨d', hd', hr⟩ := popRight_repr h
        refine ⟨d', ?_, by simpa [listStep] using hr⟩
        simp only [step, hd', ok_bind, pure_eq_ok, listStep, List.getLast?_append_cons,
          List.getLast?_singleton]
        rfl
  | reset i v =>
      by_cases hi : i < l.length
      · obtain ⟨d', hd', hr⟩ := setAt_repr h hi (hfit (by rw [h.len]; exact hi)) v
        exact ⟨d', by simp only [step, hd', listStep, if_pos hi], by simpa [listStep, hi] using hr⟩
      · have hx : d.setAt i v = .error .outOfRange := by
          simp only [setAt, index_throws h (Nat.le_of_not_lt hi), error_bind]
        exact ⟨d, by simp only [step, hx, listStep, if_neg hi], by simpa [listStep, hi] using h⟩

/-- Every run from a new list whose writes fit is a run on lists. -/
theorem run_repr (ops : List Op) (hfits : GuardedE step OpFits new ops) :
    ∃ d, traceE step new ops = .ok (d, (trace listStep [] ops).2) ∧
      Repr d (trace listStep [] ops).1 :=
  traceE_simulates Repr (fun _ _ op h => step_repr h op) ops new [] repr_new hfits

/-- **A `DList` is a double-ended queue while its indexes fit.** Every run from
a new list whose writes fit ends without a bad access, with the outputs the
abstract list gives; the list reached is the abstract one in every respect
exactly when all its indexes fit. -/
theorem dlist_deque_iff (ops : List Op) (hfits : GuardedE step OpFits new ops) :
    ∃ d, traceE step new ops = .ok (d, (trace listStep [] ops).2) ∧
      (IsDeque d (trace listStep [] ops).1 ↔
        (trace listStep [] ops).1.length ≤ d.frontCount + 2 ^ 31) := by
  obtain ⟨d, hd, hr⟩ := run_repr ops hfits
  exact ⟨d, hd, isDeque_iff hr⟩

theorem dlist_deque_iff_mixed :
    ∃ d, traceE step new [.pushLeft [1], .pushRight [], .reset 1 [2], .popLeft]
        = .ok (d, [.done, .done, .done, .popped [1]]) ∧
      (IsDeque d [[2]] ↔ 1 ≤ d.frontCount + 2 ^ 31) :=
  dlist_deque_iff [.pushLeft [1], .pushRight [], .reset 1 [2], .popLeft]
    ⟨trivial, fun _ _ _ => ⟨trivial, fun _ _ _ => ⟨fun _ => by omega, fun _ _ _ => ⟨trivial,
      fun _ _ _ => trivial⟩⟩⟩⟩

/-- Pushing never needs the guard. -/
theorem pushes_fit (v : Bytes) : ∀ (k : Nat) (d : DList),
    GuardedE step OpFits d (List.replicate k (.pushRight v))
  | 0, _ => trivial
  | k + 1, _ => ⟨trivial, fun d' _ _ => pushes_fit v k d'⟩

theorem pushes_length (v : Bytes) : ∀ (k : Nat) (l : List Bytes),
    (trace listStep l (List.replicate k (.pushRight v))).1.length = l.length + k
  | 0, _ => rfl
  | k + 1, l => by
      rw [List.replicate_succ, trace_cons, pushes_length v k]
      simp only [listStep, List.length_append, List.length_singleton]
      omega

/-- One element more than an `int` can reach: the list is not the abstract one. -/
theorem dlist_not_deque_beyond_int :
    ¬ ∃ d, traceE step new (List.replicate (2 ^ 31 + 129) (.pushRight [97]))
        = .ok (d, (trace listStep [] (List.replicate (2 ^ 31 + 129) (.pushRight [97]))).2) ∧
      IsDeque d (trace listStep [] (List.replicate (2 ^ 31 + 129) (.pushRight [97]))).1 := by
  rintro ⟨d, hd, hdeque⟩
  generalize hk : 2 ^ 31 + 129 = k at hd hdeque
  obtain ⟨d', hd', hr⟩ := run_repr (List.replicate k (.pushRight [97])) (pushes_fit [97] k new)
  rw [hd] at hd'
  obtain rfl : d = d' := by simpa using hd'
  have hfit := (isDeque_iff hr).mp hdeque
  have hfront := frontCount_le hr
  rw [pushes_length, List.length_nil] at hfit
  omega

end DList

end LiteKV
