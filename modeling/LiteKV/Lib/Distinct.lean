/-
LiteKV.Lib.Distinct — how many different items of a list have a property.

A loop that removes the items of a list from a collection one after the
other, or puts them in, does something at an item only the first time, and
only if the item was there, or was not. `distinct_cons` is one turn of such
a loop; `ncard_without` and `ncard_with` say that the total is the change in
the size of the collection.
-/
import Mathlib.Data.Set.Card
import Mathlib.Data.Finset.Card

namespace LiteKV.Lib.Distinct

variable {α : Type} [DecidableEq α]

/-- The number of different items with the property. -/
def distinct (items : List α) (p : α → Bool) : Nat :=
  (items.toFinset.filter fun x => p x = true).card

@[simp] theorem distinct_nil (p : α → Bool) : distinct [] p = 0 := rfl

theorem distinct_false (items : List α) : distinct items (fun _ => false) = 0 := by
  simp [distinct]

/-- The first item is counted here, and not again further on. -/
theorem distinct_cons (x : α) (items : List α) (p : α → Bool) :
    distinct (x :: items) p
      = (if p x then 1 else 0) + distinct items fun y => decide (y ≠ x) && p y := by
  have herase : (items.toFinset.filter fun y => (decide (y ≠ x) && p y) = true)
      = (items.toFinset.filter fun y => p y = true).erase x := by
    ext y
    simp only [Finset.mem_filter, Finset.mem_erase, Bool.and_eq_true, decide_eq_true_eq]
    exact and_left_comm
  rw [distinct, distinct, herase, List.toFinset_cons, Finset.filter_insert]
  by_cases hx : p x = true
  · have hinsert (s : Finset α) : insert x s = insert x (s.erase x) := by
      ext y
      by_cases hy : y = x <;> simp [hy]
    rw [if_pos hx, if_pos hx, hinsert, Finset.card_insert_of_notMem (Finset.notMem_erase _ _),
      Nat.add_comm]
  · rw [if_neg hx, if_neg hx, Finset.erase_eq_of_notMem, Nat.zero_add]
    simp [hx]

/-- Taking the items away makes the collection smaller by those it held. -/
theorem ncard_without (items : List α) {p : α → Bool} (hfin : {x | p x = true}.Finite) :
    Set.ncard {x | p x = true}
      = distinct items p + Set.ncard {x | x ∉ items ∧ p x = true} := by
  have hsplit : {x | p x = true} = ↑(items.toFinset.filter fun x => p x = true)
      ∪ {x | x ∉ items ∧ p x = true} := by
    ext x
    by_cases hx : x ∈ items <;> simp [hx]
  have hrest : {x | x ∉ items ∧ p x = true}.Finite :=
    hfin.subset fun x hx => hx.2
  have hdisjoint : Disjoint (↑(items.toFinset.filter fun x => p x = true) : Set α)
      {x | x ∉ items ∧ p x = true} := by
    rw [Set.disjoint_left]
    intro x hx hx'
    simp_all
  rw [hsplit, Set.ncard_union_eq hdisjoint (Finset.finite_toSet _) hrest, Set.ncard_coe_finset,
    distinct]

/-- Putting the items in makes it larger by those it did not hold. -/
theorem ncard_with (items : List α) {p : α → Bool} (hfin : {x | p x = true}.Finite) :
    Set.ncard {x | x ∈ items ∨ p x = true}
      = Set.ncard {x | p x = true} + distinct items fun x => !p x := by
  have hsplit : {x | x ∈ items ∨ p x = true} = {x | p x = true}
      ∪ ↑(items.toFinset.filter fun x => (!p x) = true) := by
    ext x
    by_cases hx : p x = true <;> simp [hx]
  have hdisjoint : Disjoint {x | p x = true}
      (↑(items.toFinset.filter fun x => (!p x) = true) : Set α) := by
    rw [Set.disjoint_left]
    intro x hx hx'
    simp_all
  rw [hsplit, Set.ncard_union_eq hdisjoint hfin (Finset.finite_toSet _), Set.ncard_coe_finset,
    distinct]

end LiteKV.Lib.Distinct
