/-
LiteKV.Lib.Chain — singly and doubly linked chains.

A chain is given by its link function and the list of the places it goes
through: `Chain next a l` says that following `next` from `a` visits exactly
`l` and ends there. `Back prev a l` is the same list read through the links
back. Both are by recursion on the list, so that a change of one link is an
induction on the part in front of it.

The two changes a linked list knows are `splice`, which puts a new place
behind one of the chain, and `unlink`, which takes the place behind one out.
Each is stated for any two link functions that differ as the change says on
the places of the chain; what they do elsewhere does not matter.
-/
import Mathlib.Data.List.Nodup

namespace LiteKV.Lib

variable {P : Type} {next next' : P → Option P}

/-- Following the links from `a` visits `l`, and ends there. -/
def Chain (next : P → Option P) : P → List P → Prop
  | a, [] => next a = none
  | a, b :: l => next a = some b ∧ Chain next b l

namespace Chain

theorem getLastD_mem : ∀ (xs : List P) (a : P), xs.getLastD a ∈ a :: xs
  | [], _ => List.mem_cons_self
  | x :: xs, a => by
      rw [List.getLastD_cons]
      exact List.mem_cons_of_mem a (getLastD_mem xs x)

/-- The part of a chain behind one of its places. -/
theorem behind : ∀ {xs : List P} {a : P} {ys : List P}, Chain next a (xs ++ ys) →
    Chain next (xs.getLastD a) ys
  | [], _, _, h => h
  | x :: xs, a, ys, h => by
      rw [List.getLastD_cons]
      have htail : Chain next x (xs ++ ys) := h.2
      exact htail.behind

/-- The chain from a place of its first part on. -/
theorem from_mem {cur : P} : ∀ {xs : List P} {a : P} {ys : List P}, Chain next a (xs ++ ys) →
    cur ∈ a :: xs → ∃ suf, suf <:+ xs ∧ Chain next cur (suf ++ ys) ∧
      suf.getLastD cur = xs.getLastD a
  | [], a, ys, h, hcur => by
      obtain rfl : cur = a := List.mem_singleton.mp hcur
      exact ⟨[], List.suffix_rfl, h, rfl⟩
  | x :: xs, a, ys, h, hcur => by
      rcases List.mem_cons.mp hcur with rfl | hcur
      · exact ⟨x :: xs, List.suffix_rfl, h, rfl⟩
      · have htail : Chain next x (xs ++ ys) := h.2
        obtain ⟨suf, hsuf, hchain, hlast⟩ := htail.from_mem hcur
        exact ⟨suf, hsuf.trans (List.suffix_cons x xs), hchain, by rw [hlast, List.getLastD_cons]⟩

/-- The link at its start. -/
theorem next_start {a : P} {xs : List P} (h : Chain next a xs) : next a = xs.head? := by
  cases xs with
  | nil => exact h
  | cons x xs => exact h.1

/-- The same places from another start. -/
theorem congr_start {a b : P} : ∀ {l : List P}, Chain next a l → next' b = next a →
    (∀ p ∈ l, next' p = next p) → Chain next' b l
  | [], h, hb, _ => hb.trans h
  | c :: l, h, hb, hl =>
      ⟨hb.trans h.1, congr_start (l := l) h.2 (hl c List.mem_cons_self) fun p hp =>
        hl p (List.mem_cons_of_mem c hp)⟩

theorem congr {a : P} {l : List P} (h : Chain next a l) (hl : ∀ p ∈ a :: l, next' p = next p) :
    Chain next' a l :=
  h.congr_start (hl a List.mem_cons_self) fun p hp => hl p (List.mem_cons_of_mem a hp)

/-- A place `n` put behind the last place of `xs`. -/
theorem splice {n : P} : ∀ {xs : List P} {a : P} {ys : List P}, Chain next a (xs ++ ys) →
    (a :: (xs ++ ys)).Nodup → next' n = next (xs.getLastD a) → next' (xs.getLastD a) = some n →
    (∀ p ∈ a :: (xs ++ ys), p ≠ xs.getLastD a → next' p = next p) → Chain next' a (xs ++ n :: ys)
  | [], a, ys, h, hnodup, hn, hlast, helse => by
      refine ⟨hlast, h.congr_start hn fun p hp => ?_⟩
      refine helse p (List.mem_cons_of_mem a hp) ?_
      rintro rfl
      exact (List.nodup_cons.mp hnodup).1 hp
  | x :: xs, a, ys, h, hnodup, hn, hlast, helse => by
      rw [List.getLastD_cons] at hn hlast helse
      have hne : a ≠ xs.getLastD x := by
        intro ha
        refine (List.nodup_cons.mp hnodup).1 ?_
        exact List.mem_append_left ys (ha ▸ getLastD_mem xs x)
      refine ⟨(helse a List.mem_cons_self hne).trans h.1, ?_⟩
      exact splice h.2 (List.nodup_cons.mp hnodup).2 hn hlast fun p hp =>
        helse p (List.mem_cons_of_mem a hp)

/-- The place `d` behind the last place of `xs` taken out. -/
theorem unlink {d : P} : ∀ {xs : List P} {a : P} {ys : List P}, Chain next a (xs ++ d :: ys) →
    (a :: (xs ++ d :: ys)).Nodup → next' (xs.getLastD a) = next d →
    (∀ p ∈ a :: (xs ++ ys), p ≠ xs.getLastD a → next' p = next p) → Chain next' a (xs ++ ys)
  | [], a, ys, h, hnodup, hlast, helse => by
      refine h.2.congr_start hlast fun p hp => helse p (List.mem_cons_of_mem a hp) ?_
      rintro rfl
      exact (List.nodup_cons.mp hnodup).1 (List.mem_cons_of_mem d hp)
  | x :: xs, a, ys, h, hnodup, hlast, helse => by
      rw [List.getLastD_cons] at hlast helse
      have hne : a ≠ xs.getLastD x := by
        intro ha
        refine (List.nodup_cons.mp hnodup).1 ?_
        exact List.mem_append_left (d :: ys) (ha ▸ getLastD_mem xs x)
      refine ⟨(helse a List.mem_cons_self hne).trans h.1, ?_⟩
      exact unlink h.2 (List.nodup_cons.mp hnodup).2 hlast fun p hp =>
        helse p (List.mem_cons_of_mem a hp)

end Chain

/-- The links back from the places of `l`, which `a` stands in front of. -/
def Back (prev : P → Option P) : P → List P → Prop
  | _, [] => True
  | a, b :: l => prev b = some a ∧ Back prev b l

namespace Back

variable {prev prev' : P → Option P}

theorem congr : ∀ {l : List P} {a : P}, Back prev a l → (∀ p ∈ l, prev' p = prev p) →
    Back prev' a l
  | [], _, _, _ => trivial
  | b :: l, _, h, hl =>
      ⟨(hl b List.mem_cons_self).trans h.1, congr (l := l) h.2 fun p hp =>
        hl p (List.mem_cons_of_mem b hp)⟩

/-- A place put behind the last place of `xs`. -/
theorem splice {n : P} : ∀ {xs : List P} {a : P} {ys : List P}, Back prev a (xs ++ ys) →
    (xs ++ ys).Nodup → prev' n = some (xs.getLastD a) → (∀ y ∈ ys.head?, prev' y = some n) →
    (∀ p ∈ xs ++ ys, p ∉ ys.head? → prev' p = prev p) → Back prev' a (xs ++ n :: ys)
  | [], a, [], _, _, hn, _, _ => ⟨hn, trivial⟩
  | [], a, y :: ys, h, hnodup, hn, hy, helse => by
      refine ⟨hn, hy y rfl, h.2.congr fun p hp => helse p (List.mem_cons_of_mem y hp) ?_⟩
      intro hhead
      obtain rfl : y = p := by simpa using hhead
      exact (List.nodup_cons.mp hnodup).1 hp
  | x :: xs, a, ys, h, hnodup, hn, hy, helse => by
      rw [List.getLastD_cons] at hn
      have hx : x ∉ ys.head? := fun hhead => (List.nodup_cons.mp hnodup).1
        (List.mem_append_right xs (List.mem_of_mem_head? hhead))
      refine ⟨(helse x List.mem_cons_self hx).trans h.1, ?_⟩
      exact splice h.2 (List.nodup_cons.mp hnodup).2 hn hy fun p hp =>
        helse p (List.mem_cons_of_mem x hp)

/-- The place behind the last place of `xs` taken out. -/
theorem unlink {d : P} : ∀ {xs : List P} {a : P} {ys : List P}, Back prev a (xs ++ d :: ys) →
    (xs ++ d :: ys).Nodup → (∀ y ∈ ys.head?, prev' y = some (xs.getLastD a)) →
    (∀ p ∈ xs ++ ys, p ∉ ys.head? → prev' p = prev p) → Back prev' a (xs ++ ys)
  | [], a, [], _, _, _, _ => trivial
  | [], a, y :: ys, h, hnodup, hy, helse => by
      refine ⟨hy y rfl, h.2.2.congr fun p hp => helse p (List.mem_cons_of_mem y hp) ?_⟩
      intro hhead
      obtain rfl : y = p := by simpa using hhead
      exact (List.nodup_cons.mp (List.nodup_cons.mp hnodup).2).1 hp
  | x :: xs, a, ys, h, hnodup, hy, helse => by
      rw [List.getLastD_cons] at hy
      have hx : x ∉ ys.head? := fun hhead => (List.nodup_cons.mp hnodup).1
        (List.mem_append_right xs (List.mem_cons_of_mem d (List.mem_of_mem_head? hhead)))
      refine ⟨(helse x List.mem_cons_self hx).trans h.1, ?_⟩
      exact unlink h.2 (List.nodup_cons.mp hnodup).2 hy fun p hp =>
        helse p (List.mem_cons_of_mem x hp)

end Back

end LiteKV.Lib
