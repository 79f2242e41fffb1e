/-
LiteKV.Lib.AssocList — association lists read as finite maps.

A chain of a hash table, the content of an `unordered_map` and the body of
a static map are all lists of key-value pairs in which a key occurs at most
once. This module gives the four operations such a list supports — look a
key up, overwrite a value in place, put a new pair in front, take a pair
out — and says what each does to the map the list stands for.

Replacement happens IN PLACE and insertion at the front, so the order of
the pairs is a property of the operations. The statements about `find?`
and about `keys` are independent of that order, which is what a caller with
an unspecified iteration order needs.
-/
import Mathlib.Data.List.Perm.Basic
import Mathlib.Data.List.Nodup

namespace LiteKV.Lib.AssocList

variable {K V : Type}

/-- The keys, in list order. -/
def keys (l : List (K × V)) : List K := l.map Prod.fst

@[simp] theorem keys_nil : keys ([] : List (K × V)) = [] := rfl

@[simp] theorem keys_cons (e : K × V) (l : List (K × V)) :
    keys (e :: l) = e.1 :: keys l := rfl

@[simp] theorem keys_append (l₁ l₂ : List (K × V)) :
    keys (l₁ ++ l₂) = keys l₁ ++ keys l₂ := by simp [keys]

variable [DecidableEq K]

/-- The value stored under `k`. -/
def find? (k : K) (l : List (K × V)) : Option V :=
  (l.find? (fun e => e.1 = k)).map Prod.snd

/-- Overwrite the value under `k`, leaving every pair where it is. -/
def reset (k : K) (v : V) (l : List (K × V)) : List (K × V) :=
  l.map (fun e => if e.1 = k then (e.1, v) else e)

/-- Take the first pair with key `k` out. -/
def erase (k : K) (l : List (K × V)) : List (K × V) :=
  l.eraseP (fun e => e.1 = k)

@[simp] theorem find?_nil (k : K) : find? k ([] : List (K × V)) = none := rfl

theorem find?_cons (k : K) (e : K × V) (l : List (K × V)) :
    find? k (e :: l) = if e.1 = k then some e.2 else find? k l := by
  by_cases h : e.1 = k <;> simp [find?, h]

theorem find?_append (k : K) (l₁ l₂ : List (K × V)) :
    find? k (l₁ ++ l₂) = (find? k l₁).or (find? k l₂) := by
  simp [find?, List.find?_append, Option.map_or]

/-- A key is listed exactly when a lookup finds it. -/
theorem find?_isSome {k : K} {l : List (K × V)} : (find? k l).isSome ↔ k ∈ keys l := by
  induction l with
  | nil => simp
  | cons e l ih =>
    rw [find?_cons, keys_cons, List.mem_cons]
    split
    · rename_i h; simp [h]
    · rename_i h
      rw [ih]
      constructor
      · exact Or.inr
      · rintro (rfl | hm)
        · exact absurd rfl h
        · exact hm

theorem find?_eq_none {k : K} {l : List (K × V)} : find? k l = none ↔ k ∉ keys l := by
  rw [← find?_isSome]
  cases find? k l <;> simp

/-- A found value is one of the listed pairs. -/
theorem mem_of_find? {k : K} {v : V} {l : List (K × V)} (h : find? k l = some v) :
    (k, v) ∈ l := by
  induction l with
  | nil => simp at h
  | cons e l ih =>
    rw [find?_cons] at h
    split at h
    · rename_i hk
      simp only [Option.some.injEq] at h
      rw [← hk, ← h]
      exact List.mem_cons_self
    · exact List.mem_cons_of_mem _ (ih h)

/-- With distinct keys, every listed pair is the one a lookup finds. -/
theorem find?_of_mem {k : K} {v : V} {l : List (K × V)} (hn : (keys l).Nodup)
    (h : (k, v) ∈ l) : find? k l = some v := by
  induction l with
  | nil => simp at h
  | cons e l ih =>
    rw [keys_cons, List.nodup_cons] at hn
    rw [find?_cons]
    rcases List.mem_cons.mp h with rfl | hm
    · simp
    · have hk : k ∈ keys l := List.mem_map.mpr ⟨(k, v), hm, rfl⟩
      have hne : e.1 ≠ k := fun he => hn.1 (he ▸ hk)
      rw [if_neg hne, ih hn.2 hm]

/-- Lookups do not depend on the order of the pairs. -/
theorem find?_perm {l₁ l₂ : List (K × V)} (hp : l₁.Perm l₂) (hn : (keys l₁).Nodup) (k : K) :
    find? k l₁ = find? k l₂ := by
  have hn₂ : (keys l₂).Nodup := (hp.map Prod.fst).nodup_iff.mp hn
  cases h : find? k l₁ with
  | some v => exact (find?_of_mem hn₂ (hp.mem_iff.mp (mem_of_find? h))).symm
  | none =>
    rw [find?_eq_none] at h
    symm
    rw [find?_eq_none]
    exact fun hk => h ((hp.map Prod.fst).mem_iff.mpr hk)

/-! ## Overwriting -/

@[simp] theorem keys_reset (k : K) (v : V) (l : List (K × V)) :
    keys (reset k v l) = keys l := by
  induction l with
  | nil => rfl
  | cons e l ih =>
    simp only [reset, List.map_cons, keys_cons]
    rw [show keys (l.map _) = keys l from ih]
    split <;> rfl

@[simp] theorem length_reset (k : K) (v : V) (l : List (K × V)) :
    (reset k v l).length = l.length := by simp [reset]

theorem find?_reset (k k' : K) (v : V) (l : List (K × V)) :
    find? k' (reset k v l) = if k' = k then (find? k l).map (fun _ => v) else find? k' l := by
  induction l with
  | nil => simp [reset]
  | cons e l ih =>
    have hr : reset k v (e :: l) = (if e.1 = k then (e.1, v) else e) :: reset k v l := rfl
    rw [hr, find?_cons, find?_cons, find?_cons, ih]
    by_cases h1 : e.1 = k <;> by_cases h2 : k' = k <;> by_cases h3 : e.1 = k' <;>
      simp_all

/-! ## Assigning -/

/-- Overwrite the value under `k`, or put a new pair in front. -/
def put (k : K) (v : V) (l : List (K × V)) : List (K × V) :=
  if k ∈ keys l then reset k v l else (k, v) :: l

theorem find?_put (k k' : K) (v : V) (l : List (K × V)) :
    find? k' (put k v l) = if k' = k then some v else find? k' l := by
  unfold put
  split
  · rename_i hk
    rw [find?_reset]
    obtain ⟨w, hw⟩ := Option.isSome_iff_exists.mp (find?_isSome.mpr hk)
    rw [hw, Option.map_some]
  · rw [find?_cons]
    simp only [eq_comm]

theorem nodup_put {k : K} {v : V} {l : List (K × V)} (hn : (keys l).Nodup) :
    (keys (put k v l)).Nodup := by
  unfold put
  split
  · rw [keys_reset]
    exact hn
  · rename_i hk
    rw [keys_cons]
    exact List.nodup_cons.mpr ⟨hk, hn⟩

/-! ## Taking a pair out -/

theorem keys_erase (k : K) (l : List (K × V)) : keys (erase k l) = (keys l).erase k := by
  induction l with
  | nil => rfl
  | cons e l ih =>
    by_cases h : e.1 = k
    · simp [erase, h]
    · have he : erase k (e :: l) = e :: erase k l := by simp [erase, h]
      rw [he, keys_cons, keys_cons, ih, List.erase_cons, if_neg (by simpa using h)]

theorem nodup_erase {k : K} {l : List (K × V)} (hn : (keys l).Nodup) :
    (keys (erase k l)).Nodup := by
  rw [keys_erase]
  exact hn.erase k

theorem find?_erase {l : List (K × V)} (hn : (keys l).Nodup) (k k' : K) :
    find? k' (erase k l) = if k' = k then none else find? k' l := by
  induction l with
  | nil => simp [erase]
  | cons e l ih =>
    rw [keys_cons, List.nodup_cons] at hn
    by_cases h : e.1 = k
    · have he : erase k (e :: l) = l := by simp [erase, h]
      rw [he, find?_cons]
      by_cases hk : k' = k
      · rw [if_pos hk, hk, find?_eq_none, ← h]; exact hn.1
      · rw [if_neg hk, if_neg (fun e' => hk (e'.symm.trans h))]
    · have he : erase k (e :: l) = e :: erase k l := by simp [erase, h]
      rw [he, find?_cons, find?_cons, ih hn.2]
      by_cases hk : k' = k
      · rw [if_pos hk, if_pos hk, if_neg (fun e' => h (e'.trans hk))]
      · rw [if_neg hk, if_neg hk]

/-- Where an image determines its element, taking the first one out takes all
of them out. -/
theorem eraseP_eq_filter {α β : Type} [DecidableEq β] {f : α → β} {l : List α}
    (hn : (l.map f).Nodup) (b : β) :
    l.eraseP (fun a => f a = b) = l.filter fun a => f a ≠ b := by
  induction l with
  | nil => rfl
  | cons a l ih =>
    rw [List.map_cons, List.nodup_cons] at hn
    by_cases h : f a = b
    · have hrest : ∀ a' ∈ l, f a' ≠ b := fun a' ha' heq =>
        hn.1 (List.mem_map.mpr ⟨a', ha', heq.trans h.symm⟩)
      have hall : (l.filter fun a => f a ≠ b) = l :=
        List.filter_eq_self.mpr fun a' ha' => decide_eq_true (hrest a' ha')
      rw [List.eraseP_cons_of_pos (by simpa using h), List.filter_cons_of_neg (by simpa using h),
        hall]
    · rw [List.eraseP_cons_of_neg (by simpa using h), List.filter_cons_of_pos (by simpa using h),
        ih hn.2]

/-- Where an image determines its element, at most one element has an image. -/
theorem filter_eq_toList_find? {α β : Type} [DecidableEq β] {f : α → β} {l : List α}
    (hn : (l.map f).Nodup) (b : β) :
    l.filter (fun a => f a = b) = (l.find? fun a => f a = b).toList := by
  induction l with
  | nil => rfl
  | cons a l ih =>
    rw [List.map_cons, List.nodup_cons] at hn
    by_cases h : f a = b
    · have hrest : (l.filter fun a => f a = b) = [] := by
        refine List.filter_eq_nil_iff.mpr fun a' ha' heq => ?_
        have heq : f a' = b := by simpa using heq
        exact hn.1 (List.mem_map.mpr ⟨a', ha', heq.trans h.symm⟩)
      rw [List.filter_cons_of_pos (by simpa using h), List.find?_cons_of_pos (by simpa using h),
        hrest]
      rfl
    · rw [List.filter_cons_of_neg (by simpa using h), List.find?_cons_of_neg (by simpa using h),
        ih hn.2]

/-- What keeps the images of the elements it keeps acts on the one that is
found. -/
theorem find?_filterMap_of_nodup {α β : Type} [DecidableEq β] {f : α → β} {l : List α}
    (hn : (l.map f).Nodup) {g : α → Option α} (hg : ∀ a a', g a = some a' → f a' = f a) (b : β) :
    (l.filterMap g).find? (fun a => f a = b) = (l.find? fun a => f a = b).bind g := by
  have hsame : (fun a => Option.filter (fun a' => f a' = b) (g a))
      = fun a => if decide (f a = b) then g a else none := by
    funext a
    cases hga : g a with
    | none => simp
    | some a' => simp [hg a a' hga, Option.filter]
  have hcomm :
      (l.filterMap g).filter (fun a => f a = b) = (l.filter fun a => f a = b).filterMap g := by
    rw [List.filter_filterMap, List.filterMap_filter, hsame]
  rw [← List.head?_filter, hcomm, filter_eq_toList_find? hn]
  cases l.find? fun a => f a = b with
  | none => rfl
  | some a =>
      rw [Option.toList_some, List.filterMap_cons, Option.bind_some]
      cases g a <;> rfl

/-- What keeps the images of the elements it keeps makes no new ones. -/
theorem map_filterMap_sublist {α β : Type} {f : α → β} {g : α → Option α}
    (hg : ∀ a a', g a = some a' → f a' = f a) (l : List α) :
    ((l.filterMap g).map f).Sublist (l.map f) := by
  induction l with
  | nil => exact List.nil_sublist _
  | cons a l ih =>
    rw [List.filterMap_cons, List.map_cons]
    cases h : g a with
    | none => exact ih.cons _
    | some a' =>
        rw [List.map_cons, hg a a' h]
        exact ih.cons_cons _

theorem erase_eq_filter {l : List (K × V)} (hn : (keys l).Nodup) (k : K) :
    erase k l = l.filter fun e => e.1 ≠ k :=
  eraseP_eq_filter hn k

theorem mem_keys_erase {l : List (K × V)} (hn : (keys l).Nodup) {k k' : K} :
    k' ∈ keys (erase k l) ↔ k' ≠ k ∧ k' ∈ keys l := by
  rw [← find?_isSome, find?_erase hn, ← find?_isSome]
  split
  · rename_i h
    simp [h]
  · rename_i h
    simp [h]

theorem length_erase_of_mem {k : K} {l : List (K × V)} (h : k ∈ keys l) :
    (erase k l).length = l.length - 1 := by
  obtain ⟨e, he, hk⟩ := List.mem_map.mp h
  rw [erase]
  exact List.length_eraseP_of_mem (p := fun e => decide (e.1 = k)) he (by simp [hk])

theorem mem_of_mem_erase {k : K} {e : K × V} {l : List (K × V)} (h : e ∈ erase k l) : e ∈ l :=
  List.mem_of_mem_eraseP h

end LiteKV.Lib.AssocList
