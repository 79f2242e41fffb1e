/-
LiteKV.Lib.Blocks — a sequence kept in blocks of one size, and windows of it.

A list of blocks of `n` slots each is read as one flat list of slots. Slot
`j` of block `i` is flat slot `i * n + j`, and writing the one is writing
the other (`flatten_set`). A window is a run of consecutive flat slots; the
lemmas say what a write in front of it, behind it and inside it does to it,
which is all a deque over blocks needs.
-/
import Mathlib.Data.List.Basic
import Mathlib.Data.List.TakeDrop
import Mathlib.Tactic.Ring

namespace LiteKV.Lib.Blocks

variable {α : Type}

/-- Every block has `n` slots. -/
def Uniform (n : Nat) (bs : List (List α)) : Prop := ∀ b ∈ bs, b.length = n

theorem Uniform.tail {n : Nat} {b : List α} {bs : List (List α)} (h : Uniform n (b :: bs)) :
    Uniform n bs := fun x hx => h x (List.mem_cons_of_mem b hx)

theorem Uniform.head {n : Nat} {b : List α} {bs : List (List α)} (h : Uniform n (b :: bs)) :
    b.length = n := h b List.mem_cons_self

theorem length_flatten {n : Nat} : ∀ {bs : List (List α)}, Uniform n bs →
    bs.flatten.length = bs.length * n
  | [], _ => by simp
  | b :: bs, h => by
      rw [List.flatten_cons, List.length_append, length_flatten h.tail, h.head, List.length_cons]
      ring

/-- Writing slot `j` of block `i` writes flat slot `i * n + j`. -/
theorem flatten_set {n : Nat} : ∀ {bs : List (List α)} {i j : Nat} {b : List α} (v : α),
    Uniform n bs → bs[i]? = some b → j < n →
    (bs.set i (b.set j v)).flatten = bs.flatten.set (i * n + j) v
  | [], i, _, _, _, _, hb, _ => by simp at hb
  | b₀ :: bs, 0, j, b, v, hu, hb, hj => by
      simp only [List.getElem?_cons_zero, Option.some.injEq] at hb
      subst hb
      rw [List.set_cons_zero, List.flatten_cons, List.flatten_cons, Nat.zero_mul, Nat.zero_add,
        List.set_append_left _ _ (by rw [hu.head]; exact hj)]
  | b₀ :: bs, i + 1, j, b, v, hu, hb, hj => by
      rw [List.getElem?_cons_succ] at hb
      have hle : b₀.length ≤ (i + 1) * n + j := by rw [hu.head]; ring_nf; omega
      have hidx : (i + 1) * n + j - b₀.length = i * n + j := by rw [hu.head]; ring_nf; omega
      rw [List.set_cons_succ, List.flatten_cons, List.flatten_cons, flatten_set v hu.tail hb hj,
        List.set_append_right _ _ hle, hidx]

/-- Slot `j` of block `i` is flat slot `i * n + j`. -/
theorem getElem?_flatten {n : Nat} : ∀ {bs : List (List α)} {i j : Nat} {b : List α},
    Uniform n bs → bs[i]? = some b → j < n → bs.flatten[i * n + j]? = b[j]?
  | [], i, _, _, _, hb, _ => by simp at hb
  | b₀ :: bs, 0, j, b, hu, hb, hj => by
      simp only [List.getElem?_cons_zero, Option.some.injEq] at hb
      subst hb
      rw [List.flatten_cons, Nat.zero_mul, Nat.zero_add,
        List.getElem?_append_left (by rw [hu.head]; exact hj)]
  | b₀ :: bs, i + 1, j, b, hu, hb, hj => by
      rw [List.getElem?_cons_succ] at hb
      have hle : b₀.length ≤ (i + 1) * n + j := by rw [hu.head]; ring_nf; omega
      have hidx : (i + 1) * n + j - b₀.length = i * n + j := by rw [hu.head]; ring_nf; omega
      rw [List.flatten_cons, List.getElem?_append_right hle, hidx, getElem?_flatten hu.tail hb hj]

/-- Dropping whole blocks drops their slots. -/
theorem flatten_drop {n : Nat} : ∀ (k : Nat) {bs : List (List α)}, Uniform n bs →
    (bs.drop k).flatten = bs.flatten.drop (k * n)
  | 0, bs, _ => by simp
  | k + 1, [], _ => by simp
  | k + 1, b :: bs, hu => by
      rw [List.drop_succ_cons, flatten_drop k hu.tail, List.flatten_cons, Nat.succ_mul,
        Nat.add_comm, ← List.drop_drop, List.drop_append_of_le_length (by rw [hu.head]), ← hu.head,
        List.drop_length, List.nil_append]

/-- A write changes how many slots have a property by what it takes out and puts in. -/
theorem countP_set_add {p : α → Bool} {xs : List α} {i : Nat} {y : α}
    (h : xs[i]? = some y) (x : α) :
    (xs.set i x).countP p + (p y).toNat = xs.countP p + (p x).toNat := by
  obtain ⟨hlt, hget⟩ := List.getElem?_eq_some_iff.mp h
  have hle := List.boole_getElem_le_countP (p := p) hlt
  rw [List.countP_set hlt]
  rw [hget] at hle ⊢
  cases p x <;> cases hy : p y <;>
    simp only [hy, if_true, Bool.false_eq_true, if_false, Bool.toNat_true,
      Bool.toNat_false] at hle ⊢ <;>
    omega

/-! ## Windows -/

/-- The `len` slots from `s` on. -/
def window (s len : Nat) (xs : List α) : List α := (xs.drop s).take len

theorem length_window {s len : Nat} {xs : List α} (h : s + len ≤ xs.length) :
    (window s len xs).length = len := by
  rw [window, List.length_take, List.length_drop]
  omega

theorem getElem?_window (s len i : Nat) (xs : List α) :
    (window s len xs)[i]? = if i < len then xs[s + i]? else none := by
  rw [window, List.getElem?_take, List.getElem?_drop]

/-- A slice of a window is a slice of the flat list. -/
theorem take_drop_window {s len b d : Nat} {xs : List α} (h : b + d ≤ len) :
    ((window s len xs).drop b).take d = (xs.drop (s + b)).take d := by
  rw [window, List.drop_take, List.drop_drop, List.take_take, Nat.min_eq_left (by omega)]

/-- A write in the slot before a window puts its value in front. -/
theorem window_set_before {s len : Nat} {xs : List α} (v : α) (h : s < xs.length) :
    window s (len + 1) (xs.set s v) = v :: window (s + 1) len xs := by
  apply List.ext_getElem?
  intro i
  rw [getElem?_window]
  cases i with
  | zero => simp [h]
  | succ i =>
      have hidx : s + (i + 1) = s + 1 + i := by omega
      have hne : s ≠ s + 1 + i := by omega
      rw [List.getElem?_cons_succ, getElem?_window, hidx, List.getElem?_set_ne hne]
      simp only [Nat.add_lt_add_iff_right]

/-- A write in the slot behind a window puts its value at the end. -/
theorem window_set_behind {s len : Nat} {xs : List α} (v : α) (h : s + len < xs.length) :
    window s (len + 1) (xs.set (s + len) v) = window s len xs ++ [v] := by
  have hlen : (window s len xs).length = len := length_window (by omega)
  apply List.ext_getElem?
  intro i
  rw [getElem?_window, List.getElem?_append, hlen, getElem?_window]
  by_cases hi : i < len
  · rw [if_pos (by omega), if_pos hi, if_pos hi, List.getElem?_set_ne (by omega)]
  · by_cases he : i = len
    · subst he
      simp [h]
    · rw [if_neg (by omega), if_neg hi]
      symm
      simp only [List.getElem?_eq_none_iff, List.length_singleton]
      omega

/-- A write inside a window is the write at that place of it. -/
theorem window_set_inside {s len i : Nat} {xs : List α} (v : α) (hi : i < len) :
    window s len (xs.set (s + i) v) = (window s len xs).set i v := by
  apply List.ext_getElem?
  intro j
  rw [getElem?_window, List.getElem?_set, List.getElem?_set, getElem?_window]
  by_cases hj : j < len
  · by_cases he : i = j
    · subst he
      rw [if_pos hj, if_pos rfl, if_pos rfl]
      simp only [window, List.length_take, List.length_drop]
      by_cases hl : s + i < xs.length
      · rw [if_pos hl, if_pos (by omega)]
      · rw [if_neg hl, if_neg (by omega)]
    · rw [if_pos hj, if_neg (by omega), if_neg he, if_pos hj]
  · rw [if_neg hj, if_neg (by omega), if_neg hj]

/-- A write outside a window leaves it alone. -/
theorem window_set_outside {s len p : Nat} {xs : List α} (v : α) (h : p < s ∨ s + len ≤ p) :
    window s len (xs.set p v) = window s len xs := by
  apply List.ext_getElem?
  intro i
  rw [getElem?_window, getElem?_window]
  split
  · exact List.getElem?_set_ne (by omega)
  · rfl

/-- Slots put in front of the flat list shift a window. -/
theorem window_append_left {s len : Nat} (ys xs : List α) :
    window (ys.length + s) len (ys ++ xs) = window s len xs := by
  rw [window, window, List.drop_append, List.drop_eq_nil_of_le (by omega), List.nil_append]
  congr 2
  omega

/-- Slots put behind the flat list do not reach a window inside it. -/
theorem window_append_right {s len : Nat} {xs : List α} (ys : List α) (h : s + len ≤ xs.length) :
    window s len (xs ++ ys) = window s len xs := by
  apply List.ext_getElem?
  intro i
  rw [getElem?_window, getElem?_window]
  split
  · rw [List.getElem?_append_left (by omega)]
  · rfl

end LiteKV.Lib.Blocks
