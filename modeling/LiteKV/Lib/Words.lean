/-
LiteKV.Lib.Words — the words of a text.

`words sep s` are the maximal runs of `s` without a separator, in order.
The lemmas say what a reader of the text needs: separators in front do not
matter, a word is what stands up to the next separator, the words hold
exactly the characters that are no separators.
-/
import Mathlib.Data.List.TakeWhile

namespace LiteKV.Lib

variable {α : Type} {sep : α → Bool}

/-- Put `c` in front of the words of `s`: into the first of them, or as a word of
its own when `s` does not start with one. -/
def putFront (sep : α → Bool) (c : α) (s : List α) (ws : List (List α)) : List (List α) :=
  match s with
  | [] => [c] :: ws
  | d :: _ => if sep d then [c] :: ws else ws.modifyHead (c :: ·)

/-- The maximal runs without a separator. -/
def words (sep : α → Bool) : List α → List (List α)
  | [] => []
  | c :: s => if sep c then words sep s else putFront sep c s (words sep s)

theorem words_cons_sep {c : α} (hc : sep c = true) (s : List α) :
    words sep (c :: s) = words sep s := by rw [words, if_pos hc]

/-- Separators in front. -/
theorem words_append_sep : ∀ {g : List α}, (∀ c ∈ g, sep c = true) → ∀ s,
    words sep (g ++ s) = words sep s
  | [], _, s => rfl
  | c :: g, hg, s => by
      rw [List.cons_append, words_cons_sep (hg c List.mem_cons_self)]
      exact words_append_sep (fun d hd => hg d (List.mem_cons_of_mem c hd)) s

theorem words_of_sep {g : List α} (hg : ∀ c ∈ g, sep c = true) : words sep g = [] := by
  have h := words_append_sep hg []
  rwa [List.append_nil] at h

/-- A word, and what stands behind its end. -/
theorem words_append_word : ∀ {w : List α} (rest : List α), w ≠ [] → (∀ c ∈ w, sep c = false) →
    (∀ d r, rest = d :: r → sep d = true) → words sep (w ++ rest) = w :: words sep rest
  | [], _, hne, _, _ => absurd rfl hne
  | [c], rest, _, hw, hrest => by
      have hc : ¬ sep c = true := Bool.eq_false_iff.mp (hw c List.mem_cons_self)
      rw [List.singleton_append, words, if_neg hc]
      cases rest with
      | nil => rfl
      | cons d r => exact if_pos (hrest d r rfl)
  | c :: e :: w, rest, _, hw, hrest => by
      have hc : ¬ sep c = true := Bool.eq_false_iff.mp (hw c List.mem_cons_self)
      have he : ¬ sep e = true := Bool.eq_false_iff.mp (hw e (by simp))
      have ih := words_append_word (w := e :: w) rest (by simp)
        (fun d hd => hw d (List.mem_cons_of_mem c hd)) hrest
      rw [List.cons_append] at ih
      rw [List.cons_append, List.cons_append, words, if_neg hc, putFront, if_neg he, ih,
        List.modifyHead_cons]

/-- Reading one word: skip the separators, take what is none. -/
theorem words_eq (sep : α → Bool) (s : List α) :
    words sep s =
      if s.dropWhile sep = [] then []
      else (s.dropWhile sep).takeWhile (fun c => !sep c)
        :: words sep ((s.dropWhile sep).dropWhile fun c => !sep c) := by
  have hskip : words sep s = words sep (s.dropWhile sep) := by
    have hsep : words sep (s.takeWhile sep ++ s.dropWhile sep) = words sep (s.dropWhile sep) :=
      words_append_sep (fun c hc => List.mem_takeWhile_imp hc) (s.dropWhile sep)
    rwa [List.takeWhile_append_dropWhile] at hsep
  rw [hskip]
  cases hd : s.dropWhile sep with
  | nil => rfl
  | cons c t =>
      have hc : sep c = false := by
        have hnot := List.head_dropWhile_not (p := sep) (l := s) (by rw [hd]; simp)
        simpa [hd] using hnot
      have hword : words sep ((c :: t).takeWhile (fun c => !sep c)
            ++ (c :: t).dropWhile fun c => !sep c)
          = (c :: t).takeWhile (fun c => !sep c)
            :: words sep ((c :: t).dropWhile fun c => !sep c) := by
        refine words_append_word _ (by simp [hc]) (fun d hd => ?_) fun d r hr => ?_
        · simpa using List.mem_takeWhile_imp hd
        · have hnot := List.head_dropWhile_not (p := fun c => !sep c) (l := c :: t)
            (by rw [hr]; simp)
          simpa [hr] using hnot
      rw [List.takeWhile_append_dropWhile] at hword
      rw [if_neg (by simp), hword]

/-- The words hold the characters that are no separators. -/
theorem flatten_words : ∀ s : List α, (words sep s).flatten = s.filter fun c => !sep c
  | [] => rfl
  | c :: s => by
      have ih := flatten_words s
      rw [words]
      by_cases hc : sep c = true
      · rw [if_pos hc, ih]
        simp [hc]
      · rw [if_neg hc]
        cases s with
        | nil => simp [hc, words, putFront]
        | cons d t =>
            rw [putFront]
            by_cases hd : sep d = true
            · simp [hd, hc, ih]
            · have hw : words sep (d :: t) ≠ [] := by
                intro hnil
                rw [hnil] at ih
                simp [hd] at ih
              obtain ⟨w, ws, hws⟩ := List.exists_cons_of_ne_nil hw
              rw [hws] at ih ⊢
              simp only [if_neg hd, List.modifyHead_cons, List.flatten_cons,
                List.cons_append] at ih ⊢
              simp [hc, ih]

theorem words_eq_nil_iff {s : List α} : words sep s = [] ↔ ∀ c ∈ s, sep c = true := by
  refine ⟨fun h c hc => ?_, words_of_sep⟩
  have hf : (words sep s).flatten = s.filter fun c => !sep c := flatten_words s
  rw [h, List.flatten_nil] at hf
  by_contra hsep
  exact absurd (List.filter_eq_nil_iff.mp hf.symm c hc) (by simp [hsep])

theorem ne_nil_of_mem_words : ∀ {s w : List α}, w ∈ words sep s → w ≠ []
  | [], w, h => by cases h
  | c :: s, w, h => by
      rw [words] at h
      by_cases hc : sep c = true
      · rw [if_pos hc] at h
        exact ne_nil_of_mem_words h
      · rw [if_neg hc] at h
        cases hw : words sep s with
        | nil =>
            rw [hw] at h
            cases s with
            | nil =>
                rw [putFront, List.mem_singleton] at h
                rw [h]
                exact List.cons_ne_nil c []
            | cons d t =>
                rw [putFront] at h
                split at h
                · rw [List.mem_singleton] at h
                  rw [h]
                  exact List.cons_ne_nil c []
                · cases h
        | cons x ws =>
            have hmem : ∀ y ∈ x :: ws, y ≠ [] := fun y hy => ne_nil_of_mem_words (hw ▸ hy)
            rw [hw] at h
            cases s with
            | nil => cases hw
            | cons d t =>
                rw [putFront] at h
                split at h
                · rcases List.mem_cons.mp h with rfl | h
                  · exact List.cons_ne_nil c []
                  · exact hmem w h
                · rw [List.modifyHead_cons] at h
                  rcases List.mem_cons.mp h with rfl | h
                  · exact List.cons_ne_nil c x
                  · exact hmem w (List.mem_cons_of_mem x h)

/-- Only separators in front leave the words as they are. -/
theorem words_append_eq_iff {g s : List α} :
    words sep (g ++ s) = words sep s ↔ ∀ c ∈ g, sep c = true := by
  refine ⟨fun h => ?_, fun hg => words_append_sep hg s⟩
  have hf := congrArg (fun ws => ws.flatten.length) h
  simp only [flatten_words, List.filter_append, List.length_append] at hf
  have hnil : (g.filter fun c => !sep c) = [] := List.eq_nil_of_length_eq_zero (by omega)
  intro c hc
  by_contra hsep
  exact absurd (List.filter_eq_nil_iff.mp hnil c hc) (by simp [hsep])

end LiteKV.Lib
