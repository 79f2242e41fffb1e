/-
LiteKV.ScanTheorems — the number scanner on a buffer that grows.

A number the scanner has read is white space, a sign, digits and what stops
it (`Scans`). More bytes behind it change nothing when something stopped the
scan; when the digits ran to the end of the buffer, more digits may follow,
and the value can only move away from zero. Where no number was found, a
byte that no number contains does not make one.
-/
import LiteKV.NumTheorems

namespace LiteKV

/-- A scan that found the digits `ds`, in front of `rest`. -/
structure Scans (s sp sg ds rest : Bytes) (neg : Bool) : Prop where
  eq : s = sp ++ (sg ++ (ds ++ rest))
  spaces : ∀ b ∈ sp, isSpace b = true
  sign : (sg = [] ∧ neg = false) ∨ (sg = [45] ∧ neg = true) ∨ (sg = [43] ∧ neg = false)
  digits : ∀ b ∈ ds, isDigit b = true
  nonempty : ds ≠ []
  stop : NoDigitStart rest

/-- `takeWhile` in front of an element that fails the test. -/
theorem takeWhile_append_stop {α : Type} {p : α → Bool} {xs ys : List α} (hx : ∀ x ∈ xs, p x = true)
    (hy : ∀ y ∈ ys.head?, p y = false) : (xs ++ ys).takeWhile p = xs := by
  rw [List.takeWhile_append_of_pos hx]
  cases ys with
  | nil => simp
  | cons y ys => simp [hy y (by simp)]

theorem head_drop_takeWhile {α : Type} (p : α → Bool) (l : List α) :
    ∀ x ∈ (l.drop (l.takeWhile p).length).head?, p x = false := by
  induction l with
  | nil => simp
  | cons a l ih =>
      intro x hx
      cases hp : p a with
      | false =>
          simp only [List.takeWhile_cons, hp, Bool.false_eq_true, if_false, List.length_nil,
            List.drop_zero, List.head?_cons, Option.mem_def, Option.some.injEq] at hx
          rw [← hx, hp]
      | true =>
          rw [List.takeWhile_cons, if_pos hp, List.length_cons, List.drop_succ_cons] at hx
          exact ih x hx

theorem scanSign_cases (s : Bytes) :
    (s.take (scanSign s).2 = [] ∧ scanSign s = (false, 0)) ∨
      (s.take (scanSign s).2 = [45] ∧ scanSign s = (true, 1)) ∨
      (s.take (scanSign s).2 = [43] ∧ scanSign s = (false, 1)) := by
  cases s with
  | nil => exact .inl ⟨rfl, rfl⟩
  | cons b s =>
      by_cases h45 : b = 45
      · subst h45
        exact .inr (.inl ⟨rfl, rfl⟩)
      · by_cases h43 : b = 43
        · subst h43
          exact .inr (.inr ⟨rfl, rfl⟩)
        · have hs : scanSign (b :: s) = (false, 0) := by simp [scanSign, h45, h43]
          exact .inl ⟨by rw [hs]; rfl, hs⟩

section

variable {s sp sg ds rest : Bytes} {neg : Bool}

theorem Scans.scanInteger (h : Scans s sp sg ds rest neg) :
    scanInteger s = some (neg, digitsVal ds, sp.length + sg.length + ds.length) := by
  obtain ⟨d, ds', hds⟩ := List.exists_cons_of_ne_nil h.nonempty
  have hd : isDigit d = true := h.digits d (hds ▸ List.mem_cons_self)
  have hspace : s.takeWhile isSpace = sp := by
    rw [h.eq]
    refine takeWhile_append_stop h.spaces fun b hb => ?_
    obtain ⟨hsg, -⟩ | ⟨hsg, -⟩ | ⟨hsg, -⟩ := h.sign
    · rw [hsg, hds] at hb
      cases hb
      exact not_isSpace_of_isDigit hd
    · rw [hsg] at hb
      cases hb
      decide
    · rw [hsg] at hb
      cases hb
      decide
  have hdrop : s.drop sp.length = sg ++ (ds ++ rest) := by rw [h.eq, List.drop_left]
  have hsign : scanSign (sg ++ (ds ++ rest)) = (neg, sg.length) := by
    obtain ⟨hsg, hneg⟩ | ⟨hsg, hneg⟩ | ⟨hsg, hneg⟩ := h.sign
    · simp [hsg, hneg, hds, scanSign, not_sign_of_isDigit hd]
    · simp [hsg, hneg, scanSign]
    · simp [hsg, hneg, scanSign]
  have hdigits : (s.drop (sp.length + sg.length)).takeWhile isDigit = ds := by
    rw [← List.drop_drop, hdrop, List.drop_left]
    exact takeWhile_isDigit_append h.digits h.stop
  simp only [LiteKV.scanInteger, hspace, hdrop, hsign, hdigits, List.isEmpty_iff, h.nonempty,
    if_false]

/-- Every number the scanner reads has this form. -/
theorem exists_scans {m used : Nat} (h : LiteKV.scanInteger s = some (neg, m, used)) :
    ∃ sp sg ds rest, Scans s sp sg ds rest neg ∧ m = digitsVal ds ∧
      used = sp.length + sg.length + ds.length := by
  let sp := s.takeWhile isSpace
  let s₁ := s.drop sp.length
  let sg := s₁.take (scanSign s₁).2
  let s₂ := s₁.drop (scanSign s₁).2
  let ds := s₂.takeWhile isDigit
  have hsg : (sg = [] ∧ scanSign s₁ = (false, 0)) ∨ (sg = [45] ∧ scanSign s₁ = (true, 1)) ∨
      (sg = [43] ∧ scanSign s₁ = (false, 1)) := by
    have hcases := scanSign_cases s₁
    simpa only [sg] using hcases
  have hlen : sg.length = (scanSign s₁).2 := by
    obtain ⟨hsg, hsc⟩ | ⟨hsg, hsc⟩ | ⟨hsg, hsc⟩ := hsg <;> rw [hsg, hsc] <;> rfl
  have hds : s₂ = s.drop (sp.length + (scanSign s₁).2) := List.drop_drop
  simp only [LiteKV.scanInteger] at h
  rw [← hds] at h
  split at h
  · cases h
  · rename_i hne
    simp only [Option.some.injEq, Prod.mk.injEq] at h
    obtain ⟨hneg, hm, hused⟩ := h
    refine ⟨sp, sg, ds, s₂.drop ds.length, ?_, hm.symm, by rw [hlen]; exact hused.symm⟩
    constructor
    · rw [List.prefix_iff_eq_append.mp (List.takeWhile_prefix isDigit), List.take_append_drop,
        List.prefix_iff_eq_append.mp (List.takeWhile_prefix isSpace)]
    · exact fun b hb => List.mem_takeWhile_imp hb
    · rw [← hneg]
      obtain ⟨hsg, hsc⟩ | ⟨hsg, hsc⟩ | ⟨hsg, hsc⟩ := hsg
      · exact .inl ⟨hsg, by simp only [s₁, sp] at hsc; rw [hsc]⟩
      · exact .inr (.inl ⟨hsg, by simp only [s₁, sp] at hsc; rw [hsc]⟩)
      · exact .inr (.inr ⟨hsg, by simp only [s₁, sp] at hsc; rw [hsc]⟩)
    · exact fun b hb => List.mem_takeWhile_imp hb
    · simpa [ds] using hne
    · exact head_drop_takeWhile isDigit s₂

/-- The scan is the same behind more bytes, unless they go on with the digits. -/
theorem Scans.append (h : Scans s sp sg ds rest neg) {t : Bytes}
    (ht : rest ≠ [] ∨ NoDigitStart t) : Scans (s ++ t) sp sg ds (rest ++ t) neg := by
  refine ⟨by rw [h.eq]; simp, h.spaces, h.sign, h.digits, h.nonempty, ?_⟩
  cases rest with
  | nil => simpa using ht
  | cons b rest => simpa [NoDigitStart] using h.stop

/-- More digits may follow digits at the end. -/
theorem Scans.append_digits (h : Scans s sp sg ds [] neg) (t : Bytes) :
    Scans (s ++ t) sp sg (ds ++ t.takeWhile isDigit) (t.drop (t.takeWhile isDigit).length) neg := by
  refine ⟨?_, h.spaces, h.sign, ?_, by simp [h.nonempty], head_drop_takeWhile isDigit t⟩
  · rw [h.eq, List.append_nil, List.append_assoc ds,
      List.prefix_iff_eq_append.mp (List.takeWhile_prefix isDigit)]
    simp
  · intro b hb
    obtain hb | hb := List.mem_append.mp hb
    · exact h.digits b hb
    · exact List.mem_takeWhile_imp hb

end

theorem le_foldl_digits (es : Bytes) :
    ∀ a : Nat, a ≤ es.foldl (fun a b => a * 10 + (b.toNat - 48)) a := by
  induction es with
  | nil => exact fun a => Nat.le_refl a
  | cons b es ih =>
      intro a
      have := ih (a * 10 + (b.toNat - 48))
      rw [List.foldl_cons]
      omega

theorem digitsVal_le_append (ds es : Bytes) : digitsVal ds ≤ digitsVal (ds ++ es) := by
  rw [digitsVal, digitsVal, List.foldl_append]
  exact le_foldl_digits es _

/-! ## `strtoll` -/

/-- The value a scan gives, in 64 bits. -/
def clamped (neg : Bool) (m : Nat) : Int := max (-2 ^ 63) (min (2 ^ 63 - 1) (signedVal neg m))

section

variable {s : Bytes}

/-- A number `strtoll` has read. -/
theorem strtoll_scans (h : (strtoll s).2 ≠ 0) :
    ∃ sp sg ds rest neg, Scans s sp sg ds rest neg ∧
      strtoll s = (clamped neg (digitsVal ds), sp.length + sg.length + ds.length) := by
  unfold strtoll at h ⊢
  cases hs : scanInteger s with
  | none => simp [hs] at h
  | some r =>
      obtain ⟨neg, m, used⟩ := r
      obtain ⟨sp, sg, ds, rest, hscan, rfl, rfl⟩ := exists_scans hs
      exact ⟨sp, sg, ds, rest, neg, hscan, rfl⟩

theorem Scans.strtoll {sp sg ds rest : Bytes} {neg : Bool} (h : Scans s sp sg ds rest neg) :
    strtoll s = (clamped neg (digitsVal ds), sp.length + sg.length + ds.length) := by
  rw [LiteKV.strtoll, h.scanInteger]
  rfl

theorem Scans.length {sp sg ds rest : Bytes} {neg : Bool} (h : Scans s sp sg ds rest neg) :
    s.length = sp.length + sg.length + ds.length + rest.length := by
  have := congrArg List.length h.eq
  simp only [List.length_append] at this
  omega

theorem strtoll_used_le (s : Bytes) : (strtoll s).2 ≤ s.length := by
  by_cases h : (strtoll s).2 = 0
  · omega
  · obtain ⟨sp, sg, ds, rest, neg, hscan, heq⟩ := strtoll_scans h
    have := hscan.length
    rw [heq]
    omega

/-- A number with something behind it, or in front of no digit. -/
theorem strtoll_append (h : (strtoll s).2 ≠ 0) {t : Bytes}
    (ht : (strtoll s).2 < s.length ∨ NoDigitStart t) : strtoll (s ++ t) = strtoll s := by
  obtain ⟨sp, sg, ds, rest, neg, hscan, heq⟩ := strtoll_scans h
  have hlen := hscan.length
  have hrest : rest ≠ [] ∨ NoDigitStart t := by
    obtain hlt | ht := ht
    · rw [heq] at hlt
      refine .inl fun hnil => ?_
      subst hnil
      simp only [List.length_nil] at hlen
      omega
    · exact .inr ht
  rw [(hscan.append hrest).strtoll, heq]

/-- More bytes never take a number back: its sign stays, and a value that is not
negative does not get smaller. -/
theorem strtoll_append_le (h : (strtoll s).2 ≠ 0) (t : Bytes) :
    (strtoll s).2 ≤ (strtoll (s ++ t)).2 ∧ ((strtoll s).1 < 0 → (strtoll (s ++ t)).1 < 0) ∧
      (0 ≤ (strtoll (s ++ t)).1 → (strtoll s).1 ≤ (strtoll (s ++ t)).1) := by
  obtain ⟨sp, sg, ds, rest, neg, hscan, heq⟩ := strtoll_scans h
  by_cases hrest : rest = []
  · subst hrest
    have hle := digitsVal_le_append ds (t.takeWhile isDigit)
    rw [(hscan.append_digits t).strtoll, heq]
    simp only [List.length_append, clamped, signedVal]
    cases neg <;> simp <;> omega
  · rw [strtoll_append h (.inl ?_)]
    · exact ⟨Nat.le_refl _, id, fun _ => Int.le_refl _⟩
    · have hlen := hscan.length
      have := List.length_pos_iff.mpr hrest
      rw [heq]
      omega

/-- No number appears in front of a `*`. -/
theorem strtoll_append_star (h : (strtoll s).2 = 0) (t : Bytes) :
    (strtoll (s ++ 42 :: t)).2 = 0 := by
  by_contra hne
  obtain ⟨sp, sg, ds, rest, neg, hscan, -⟩ := strtoll_scans hne
  have hstar : (42 : UInt8) ∉ sp ++ sg ++ ds := by
    intro hmem
    obtain hmem | hmem := List.mem_append.mp hmem
    · obtain hmem | hmem := List.mem_append.mp hmem
      · exact absurd (hscan.spaces 42 hmem) (by decide)
      · obtain ⟨rfl, -⟩ | ⟨rfl, -⟩ | ⟨rfl, -⟩ := hscan.sign <;> simp at hmem
    · exact absurd (hscan.digits 42 hmem) (by decide)
  have heq : (sp ++ sg ++ ds) ++ rest = s ++ 42 :: t := by
    rw [hscan.eq]
    simp
  -- the number ends before the `*`, so `s` holds all of it
  obtain ⟨x, hs, hrest⟩ : ∃ x, s = (sp ++ sg ++ ds) ++ x ∧ rest = x ++ 42 :: t := by
    obtain ⟨x, hx, hx'⟩ | ⟨x, hx, hx'⟩ := List.append_eq_append_iff.mp heq
    · exact ⟨x, hx, hx'⟩
    · cases x with
      | nil => exact ⟨[], by simpa using hx.symm, by simpa using hx'.symm⟩
      | cons b x =>
          cases hx'
          exact absurd (by rw [hx]; simp) hstar
  have hstop : NoDigitStart x := by
    cases x with
    | nil => simp [NoDigitStart]
    | cons b x => simpa [NoDigitStart, hrest] using hscan.stop
  have hscan' : Scans s sp sg ds x neg :=
    ⟨by rw [hs]; simp, hscan.spaces, hscan.sign, hscan.digits, hscan.nonempty, hstop⟩
  have hpos := List.length_pos_iff.mpr hscan.nonempty
  rw [hscan'.strtoll] at h
  simp only at h
  omega

end

end LiteKV
