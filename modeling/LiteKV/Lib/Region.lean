/-
LiteKV.Lib.Region — blocks of the heap, and writes that may leave them.

A block is the list of its items; its length is its real size, whatever a
program believes that to be. `store` fails where a write leaves the block.
`malloc` and `realloc` are given their answer: null, or what the new items
are, for nothing may be assumed of them.
-/
import Mathlib.Data.List.Basic

namespace LiteKV.Lib.Region

variable {α : Type}

/-- A write outside of a block. -/
inductive Overrun where
  | outside
  deriving DecidableEq, Repr

/-- The answer of an allocation: null, or the items of the memory it finds. -/
abbrev Answer (α : Type) := Option (Nat → α)

/-- `malloc(size)`. -/
def malloc (answer : Answer α) (size : Nat) : Option (List α) :=
  answer.map fun junk => (List.range size).map junk

/-- `realloc(block, size)`; on null the block stays. -/
def realloc (answer : Answer α) (block : List α) (size : Nat) : Option (List α) :=
  answer.map fun junk => block.take size ++ (List.range (size - block.length)).map junk

/-- `memcpy(block + index, src, src.length)`. -/
def store (block : List α) (index : Nat) (src : List α) : Except Overrun (List α) :=
  if index + src.length ≤ block.length then
    .ok (block.take index ++ src ++ block.drop (index + src.length))
  else .error .outside

theorem malloc_some (junk : Nat → α) (size : Nat) :
    ∃ block, malloc (some junk) size = some block ∧ block.length = size :=
  ⟨_, rfl, by rw [List.length_map, List.length_range]⟩

theorem realloc_some (junk : Nat → α) (block : List α) (size : Nat) :
    ∃ block', realloc (some junk) block size = some block' ∧ block'.length = size ∧
      ∀ n ≤ min size block.length, block'.take n = block.take n := by
  refine ⟨_, rfl, ?_, fun n hn => ?_⟩
  · rw [List.length_append, List.length_take, List.length_map, List.length_range]
    omega
  · rw [List.take_append_of_le_length (by rw [List.length_take]; exact hn), List.take_take,
      Nat.min_eq_left (by omega)]

/-- A write inside of the block. -/
theorem store_ok (block : List α) (index : Nat) (src : List α)
    (h : index + src.length ≤ block.length) :
    ∃ block', store block index src = .ok block' ∧ block'.length = block.length ∧
      block'.take index = block.take index ∧
      block'.take (index + src.length) = block.take index ++ src ∧
      block'.drop (index + src.length) = block.drop (index + src.length) := by
  have hlen : (block.take index ++ src).length = index + src.length := by
    rw [List.length_append, List.length_take]
    omega
  refine ⟨_, if_pos h, ?_, ?_, List.take_left' hlen, List.drop_left' hlen⟩
  · rw [List.length_append, hlen, List.length_drop]
    omega
  · rw [List.append_assoc, List.take_append_of_le_length (by rw [List.length_take]; omega),
      List.take_take, Nat.min_self]

end LiteKV.Lib.Region
