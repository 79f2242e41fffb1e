/-
LiteKV.Lib.Buckets — association lists spread over numbered buckets.

A table is a list of buckets, each an association list. It is `Placed` for
a slot function when every pair sits in the bucket its key belongs to and
no bucket lists a key twice. The content of the table is then one
association list, the buckets read one after another, and everything that
happens to it happens in one bucket: a lookup reads it, an update replaces
it. Both facts are stated once here, for any slot function and for any
replacement bucket.
-/
import LiteKV.Lib.AssocList

namespace LiteKV.Lib.Buckets

open LiteKV.Lib.AssocList

variable {K V : Type}

/-- Bucket `i`, empty when there is none. -/
def bucketAt (t : List (List (K × V))) (i : Nat) : List (K × V) := t[i]?.getD []

theorem bucketAt_set {t : List (List (K × V))} {i : Nat} (h : i < t.length) (b : List (K × V))
    (j : Nat) : bucketAt (t.set i b) j = if j = i then b else bucketAt t j := by
  simp only [bucketAt, List.getElem?_set]
  by_cases hj : j = i
  · simp [hj, h]
  · simp [hj, Ne.symm hj]

/-- Every pair is in its key's bucket, and no bucket lists a key twice. -/
structure Placed (slot : K → Nat) (t : List (List (K × V))) : Prop where
  inRange : ∀ k, slot k < t.length
  placed : ∀ i, ∀ e ∈ bucketAt t i, slot e.1 = i
  nodup : ∀ i, (keys (bucketAt t i)).Nodup

theorem bucketAt_replicate (n i : Nat) :
    bucketAt (List.replicate n ([] : List (K × V))) i = [] := by
  rw [bucketAt, List.getElem?_replicate]
  split <;> rfl

theorem placed_replicate {slot : K → Nat} {n : Nat} (h : ∀ k, slot k < n) :
    Placed slot (List.replicate n ([] : List (K × V))) := by
  refine ⟨by simpa using h, fun i e he => ?_, fun i => ?_⟩
  · simp [bucketAt_replicate] at he
  · simp [bucketAt_replicate]

/-- A pair of the content sits in some bucket. -/
theorem mem_flatten {t : List (List (K × V))} {e : K × V} :
    e ∈ t.flatten ↔ ∃ i, e ∈ bucketAt t i := by
  constructor
  · intro h
    obtain ⟨b, hb, he⟩ := List.mem_flatten.mp h
    obtain ⟨i, hi, rfl⟩ := List.getElem_of_mem hb
    exact ⟨i, by rw [bucketAt, List.getElem?_eq_getElem hi]; exact he⟩
  · rintro ⟨i, he⟩
    by_cases hi : i < t.length
    · rw [bucketAt, List.getElem?_eq_getElem hi, Option.getD_some] at he
      exact List.mem_flatten.mpr ⟨t[i], List.getElem_mem hi, he⟩
    · rw [bucketAt, List.getElem?_eq_none (by omega)] at he
      simp at he

/-- The content of a table changes in length as the replaced bucket does. -/
theorem length_flatten_set {t : List (List (K × V))} {i : Nat} (h : i < t.length)
    (b : List (K × V)) :
    (t.set i b).flatten.length + (bucketAt t i).length = t.flatten.length + b.length := by
  induction t generalizing i with
  | nil => simp at h
  | cons c t ih =>
    cases i with
    | zero => simp [bucketAt]; omega
    | succ i =>
      have := ih (i := i) (by simpa using h)
      simp only [bucketAt, List.getElem?_cons_succ, List.set_cons_succ, List.flatten_cons,
        List.length_append] at this ⊢
      omega

/-- Keys of different buckets differ, so the whole content has distinct keys. -/
theorem Placed.nodup_flatten {slot : K → Nat} {t : List (List (K × V))} (h : Placed slot t) :
    (keys t.flatten).Nodup := by
  have hk : keys t.flatten = (t.map keys).flatten := by
    simp [keys, List.map_flatten]
    rfl
  rw [hk, List.nodup_flatten]
  constructor
  · intro l hl
    obtain ⟨b, hb, rfl⟩ := List.mem_map.mp hl
    obtain ⟨i, hi, rfl⟩ := List.getElem_of_mem hb
    simpa [bucketAt, hi] using h.nodup i
  · rw [List.pairwise_map, List.pairwise_iff_getElem]
    intro i j hi hj hij k hki hkj
    obtain ⟨e, he, rfl⟩ := List.mem_map.mp hki
    obtain ⟨e', he', hke⟩ := List.mem_map.mp hkj
    have h1 := h.placed i e (by simpa [bucketAt, hi] using he)
    have h2 := h.placed j e' (by simpa [bucketAt, hj] using he')
    rw [hke] at h2
    omega

/-- Replacing a bucket by one whose keys belong there. -/
theorem Placed.set {slot : K → Nat} {t : List (List (K × V))} (h : Placed slot t) {i : Nat}
    (hi : i < t.length) {b : List (K × V)} (hb : ∀ e ∈ b, slot e.1 = i) (hn : (keys b).Nodup) :
    Placed slot (t.set i b) := by
  refine ⟨by simpa using h.inRange, fun j => ?_, fun j => ?_⟩
  · rw [bucketAt_set hi]
    split
    · rename_i hj; rw [hj]; exact hb
    · exact h.placed j
  · rw [bucketAt_set hi]
    split
    · exact hn
    · exact h.nodup j

variable [DecidableEq K]

/-- A lookup in the content is a lookup in the key's own bucket. -/
theorem Placed.find?_flatten {slot : K → Nat} {t : List (List (K × V))} (h : Placed slot t)
    (k : K) : find? k t.flatten = find? k (bucketAt t (slot k)) := by
  cases hf : find? k (bucketAt t (slot k)) with
  | some v =>
      exact find?_of_mem h.nodup_flatten (mem_flatten.mpr ⟨slot k, mem_of_find? hf⟩)
  | none =>
      rw [find?_eq_none] at hf ⊢
      intro hk
      obtain ⟨e, he, rfl⟩ := List.mem_map.mp hk
      obtain ⟨i, hi⟩ := mem_flatten.mp he
      have hs := h.placed i e hi
      rw [← hs] at hi
      exact hf (List.mem_map.mpr ⟨e, hi, rfl⟩)

/-- What a lookup finds after bucket `i` was replaced. -/
theorem Placed.find?_set {slot : K → Nat} {t : List (List (K × V))} (h : Placed slot t) {i : Nat}
    (hi : i < t.length) {b : List (K × V)} (hb : ∀ e ∈ b, slot e.1 = i) (hn : (keys b).Nodup)
    (k : K) : find? k (t.set i b).flatten
      = if slot k = i then find? k b else find? k t.flatten := by
  rw [(h.set hi hb hn).find?_flatten, bucketAt_set hi]
  split
  · rfl
  · rw [h.find?_flatten]

end LiteKV.Lib.Buckets
