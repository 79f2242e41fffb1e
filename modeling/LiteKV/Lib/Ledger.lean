/-
LiteKV.Lib.Ledger — a queue that remembers everything that entered it.

A ledger is the list of all items that ever entered and the number of those
that have left; the pending items are the rest, in the order in which they
entered. A queue that agrees with a ledger at every step loses nothing,
doubles nothing and reorders nothing.
-/
import Mathlib.Data.List.Basic

namespace LiteKV.Lib

/-- The items that entered, oldest first, and how many of them are gone. -/
structure Ledger (α : Type) where
  entered : List α
  left : Nat
  left_le : left ≤ entered.length

namespace Ledger

variable {α : Type}

/-- A ledger in which nothing is written. -/
def empty : Ledger α := ⟨[], 0, Nat.zero_le _⟩

/-- The items that are still there. -/
def pending (l : Ledger α) : List α := l.entered.drop l.left

theorem length_pending (l : Ledger α) : l.pending.length = l.entered.length - l.left :=
  List.length_drop

/-- Items enter. -/
def push (l : Ledger α) (items : List α) : Ledger α where
  entered := l.entered ++ items
  left := l.left
  left_le := by
    have := l.left_le
    rw [List.length_append]
    omega

/-- The oldest `n` items leave, or all of them when there are fewer. -/
def take (l : Ledger α) (n : Nat) : Ledger α where
  entered := l.entered
  left := l.left + min n l.pending.length
  left_le := by
    have := l.left_le
    rw [length_pending]
    omega

@[simp] theorem entered_push (l : Ledger α) (items : List α) :
    (l.push items).entered = l.entered ++ items := rfl

@[simp] theorem entered_take (l : Ledger α) (n : Nat) : (l.take n).entered = l.entered := rfl

@[simp] theorem pending_push (l : Ledger α) (items : List α) :
    (l.push items).pending = l.pending ++ items :=
  List.drop_append_of_le_length l.left_le

@[simp] theorem pending_take (l : Ledger α) (n : Nat) :
    (l.take n).pending = l.pending.drop n := by
  have hdrop : (l.take n).pending = l.pending.drop (min n l.pending.length) := by
    rw [pending, pending, List.drop_drop]
    rfl
  rw [hdrop]
  rcases Nat.le_total n l.pending.length with h | h
  · rw [Nat.min_eq_left h]
  · rw [Nat.min_eq_right h, List.drop_length, List.drop_eq_nil_of_le h]

end Ledger

end LiteKV.Lib
