/-
LiteKV.NumTheorems — the scanners read back what `std::to_string` prints.

`natDigits` is an ordinary recursion on the number, so its value and its
length come by induction. `scanInteger_natToString` is the form every
caller needs: a printed number followed by anything that does not start
with a digit is scanned exactly, whatever comes behind it.
`canConvertToInt64_eq_some` then says what the canonical-decimal test of
the source accepts: precisely the printed 64-bit values.
-/
import LiteKV.Num
import Mathlib.Tactic.Ring
import Mathlib.Data.List.TakeDrop

namespace LiteKV

/-! ## Printed digits -/

theorem toNat_digit {d : Nat} (h : d < 10) : (UInt8.ofNat (48 + d)).toNat = 48 + d := by
  rw [UInt8.toNat_ofNat']
  omega

theorem isDigit_digit {d : Nat} (h : d < 10) : isDigit (UInt8.ofNat (48 + d)) = true := by
  simp only [isDigit, Bool.and_eq_true, decide_eq_true_eq, UInt8.le_iff_toNat_le, toNat_digit h,
    UInt8.reduceToNat]
  omega

theorem digitsVal_append_singleton (ds : Bytes) (b : UInt8) :
    digitsVal (ds ++ [b]) = digitsVal ds * 10 + (b.toNat - 48) := by
  simp [digitsVal, List.foldl_append]

theorem digitsVal_natDigits : ∀ (fuel n : Nat), n < fuel → digitsVal (natDigits fuel n) = n
  | 0, _, h => by omega
  | fuel + 1, n, h => by
      rw [natDigits]
      split
      · rename_i hn
        simp only [digitsVal, List.foldl_cons, List.foldl_nil, toNat_digit hn]
        omega
      · rename_i hn
        rw [digitsVal_append_singleton, digitsVal_natDigits fuel (n / 10) (by omega),
          toNat_digit (Nat.mod_lt n (by decide))]
        omega

theorem natDigits_all_digit : ∀ (fuel n : Nat), ∀ b ∈ natDigits fuel n, isDigit b = true
  | 0, _, b, h => by simp [natDigits] at h
  | fuel + 1, n, b, h => by
      rw [natDigits] at h
      split at h
      · rename_i hn
        rw [List.mem_singleton] at h
        rw [h]
        exact isDigit_digit hn
      · rcases List.mem_append.mp h with h | h
        · exact natDigits_all_digit fuel (n / 10) b h
        · rw [List.mem_singleton] at h
          rw [h]
          exact isDigit_digit (Nat.mod_lt n (by decide))

theorem natDigits_ne_nil (fuel n : Nat) : natDigits (fuel + 1) n ≠ [] := by
  rw [natDigits]
  split <;> simp

/-- A number below `10 ^ k` has at most `k` digits. -/
theorem length_natDigits_le : ∀ (k fuel n : Nat), n < 10 ^ (k + 1) →
    (natDigits fuel n).length ≤ k + 1
  | _, 0, _, _ => by simp [natDigits]
  | 0, fuel + 1, n, h => by
      rw [natDigits, if_pos (by simpa using h)]
      simp
  | k + 1, fuel + 1, n, h => by
      rw [natDigits]
      split
      · simp
      · have := length_natDigits_le k fuel (n / 10) (by rw [Nat.pow_succ] at h; omega)
        simp only [List.length_append, List.length_singleton]
        omega

theorem digitsVal_natToString (n : Nat) : digitsVal (natToString n) = n :=
  digitsVal_natDigits (n + 1) n (Nat.lt_succ_self n)

theorem natToString_all_digit (n : Nat) : ∀ b ∈ natToString n, isDigit b = true :=
  natDigits_all_digit (n + 1) n

theorem natToString_ne_nil (n : Nat) : natToString n ≠ [] := natDigits_ne_nil n n

theorem natToString_injective {m n : Nat} (h : natToString m = natToString n) : m = n := by
  rw [← digitsVal_natToString m, h, digitsVal_natToString]

/-! ## Scanning a printed number -/

theorem not_isSpace_of_isDigit {b : UInt8} (h : isDigit b = true) : isSpace b = false := by
  simp only [isDigit, isSpace, Bool.and_eq_true, decide_eq_true_eq, Bool.or_eq_false_iff,
    beq_eq_false_iff_ne, Bool.and_eq_false_iff, decide_eq_false_iff_not,
    UInt8.le_iff_toNat_le, UInt8.reduceToNat, ne_eq, ← UInt8.toNat_inj] at h ⊢
  omega

theorem not_sign_of_isDigit {b : UInt8} (h : isDigit b = true) : b ≠ 45 ∧ b ≠ 43 := by
  simp only [isDigit, Bool.and_eq_true, decide_eq_true_eq, UInt8.le_iff_toNat_le,
    UInt8.reduceToNat, ne_eq, ← UInt8.toNat_inj] at h ⊢
  omega

/-- What follows a number: nothing, or a byte that is not a digit. -/
def NoDigitStart (rest : Bytes) : Prop := ∀ b ∈ rest.head?, isDigit b = false

theorem takeWhile_isDigit_append {ds rest : Bytes} (hd : ∀ b ∈ ds, isDigit b = true)
    (hr : NoDigitStart rest) : (ds ++ rest).takeWhile isDigit = ds := by
  rw [List.takeWhile_append_of_pos hd]
  cases rest with
  | nil => simp
  | cons b rest => simp [hr b (by simp)]

/-- Digits in front of a non-digit are scanned exactly. -/
theorem scanInteger_digits {ds rest : Bytes} (hne : ds ≠ [])
    (hd : ∀ b ∈ ds, isDigit b = true) (hr : NoDigitStart rest) :
    scanInteger (ds ++ rest) = some (false, digitsVal ds, ds.length) := by
  obtain ⟨b, ds', rfl⟩ := List.exists_cons_of_ne_nil hne
  have hb := hd b List.mem_cons_self
  have hws : ((b :: ds') ++ rest).takeWhile isSpace = [] := by
    simp [not_isSpace_of_isDigit hb]
  have hsign : scanSign ((b :: ds') ++ rest) = (false, 0) := by
    simp [scanSign, not_sign_of_isDigit hb]
  simp only [scanInteger, hws, List.length_nil, List.drop_zero, hsign, Nat.add_zero, Nat.zero_add]
  rw [takeWhile_isDigit_append hd hr]
  simp

/-- The same behind a minus sign. -/
theorem scanInteger_neg_digits {ds rest : Bytes} (hne : ds ≠ [])
    (hd : ∀ b ∈ ds, isDigit b = true) (hr : NoDigitStart rest) :
    scanInteger (45 :: ds ++ rest) = some (true, digitsVal ds, ds.length + 1) := by
  have hws : ((45 :: ds) ++ rest).takeWhile isSpace = [] := by
    simp [isSpace]
  have hsign : scanSign ((45 :: ds) ++ rest) = (true, 1) := by simp [scanSign]
  simp only [scanInteger, hws, List.length_nil, List.drop_zero, hsign, Nat.zero_add]
  rw [List.cons_append, List.drop_succ_cons, List.drop_zero, takeWhile_isDigit_append hd hr]
  simp [hne, Nat.add_comm]

theorem scanInteger_natToString (n : Nat) {rest : Bytes} (hr : NoDigitStart rest) :
    scanInteger (natToString n ++ rest) = some (false, n, (natToString n).length) := by
  rw [scanInteger_digits (natToString_ne_nil n) (natToString_all_digit n) hr,
    digitsVal_natToString]

/-- A printed value is scanned back to itself, sign included. -/
theorem scanInteger_intToString (v : Int) :
    ∃ neg m used, scanInteger (intToString v) = some (neg, m, used) ∧ signedVal neg m = v := by
  have hr : NoDigitStart [] := by simp [NoDigitStart]
  by_cases h : v < 0
  · refine ⟨true, v.natAbs, (natToString v.natAbs).length + 1, ?_, ?_⟩
    · have hs := scanInteger_neg_digits (natToString_ne_nil v.natAbs)
        (natToString_all_digit v.natAbs) hr
      rw [List.append_nil, digitsVal_natToString] at hs
      rw [intToString, if_pos h, hs]
    · simp only [signedVal, if_true]; omega
  · refine ⟨false, v.natAbs, (natToString v.natAbs).length, ?_, ?_⟩
    · have hs := scanInteger_natToString v.natAbs hr
      rw [List.append_nil] at hs
      rw [intToString, if_neg h, hs]
    · simp only [signedVal, Bool.false_eq_true, if_false]; omega

theorem strtoll_natToString {n : Nat} (hn : n < 2 ^ 63) {rest : Bytes} (hr : NoDigitStart rest) :
    strtoll (natToString n ++ rest) = ((n : Int), (natToString n).length) := by
  simp only [strtoll, scanInteger_natToString n hr, signedVal, Bool.false_eq_true, if_false]
  congr 1
  omega

theorem stoll_intToString {v : Int} (hl : -2 ^ 63 ≤ v) (hu : v < 2 ^ 63) :
    stoll (intToString v) = some v := by
  obtain ⟨neg, m, used, hs, hv⟩ := scanInteger_intToString v
  simp only [stoll, hs, hv]
  rw [if_pos ⟨hl, hu⟩]

theorem stoi_intToString {v : Int} (hl : -2 ^ 31 ≤ v) (hu : v < 2 ^ 31) :
    stoi (intToString v) = some v := by
  obtain ⟨neg, m, used, hs, hv⟩ := scanInteger_intToString v
  simp only [stoi, hs, hv]
  rw [if_pos ⟨hl, hu⟩]

theorem stoull_intToString {v : Int} (hl : -2 ^ 64 < v) (hu : v < 2 ^ 64) :
    stoull (intToString v) = some (v % 2 ^ 64).toNat := by
  obtain ⟨neg, m, used, hs, hv⟩ := scanInteger_intToString v
  simp only [stoull, hs]
  cases neg with
  | false =>
      simp only [signedVal, Bool.false_eq_true, if_false] at hv ⊢
      rw [if_pos (by omega), ← hv]
      congr 1
      omega
  | true =>
      simp only [signedVal, if_true] at hv ⊢
      rw [if_pos (by omega), ← hv]
      congr 1
      omega

@[simp] theorem intToString_natCast (n : Nat) : intToString (n : Int) = natToString n := by
  rw [intToString, if_neg (by omega), Int.natAbs_natCast]

theorem canConvertToUInt64_natToString {n : Nat} (h : n < 2 ^ 64) :
    canConvertToUInt64 (natToString n) = some n := by
  have hne : (natToString n).isEmpty = false := by simp [natToString_ne_nil n]
  rw [canConvertToUInt64, hne, ← intToString_natCast, stoull_intToString (by omega) (by omega)]
  simp only [Bool.false_eq_true, if_false]
  congr 1
  omega

theorem intToString_injective {v w : Int} (h : intToString v = intToString w) : v = w := by
  obtain ⟨neg, m, used, hs, hv⟩ := scanInteger_intToString v
  obtain ⟨neg', m', used', hs', hw⟩ := scanInteger_intToString w
  rw [h, hs'] at hs
  simp only [Option.some.injEq, Prod.mk.injEq] at hs
  rw [← hv, ← hw, hs.1, hs.2.1]

theorem intToString_ne_nil (v : Int) : intToString v ≠ [] := by
  rw [intToString]
  split
  · simp
  · exact natToString_ne_nil _

/-- A 64-bit value prints in at most 20 characters. -/
theorem length_intToString_le {v : Int} (hl : -2 ^ 63 ≤ v) (hu : v < 2 ^ 63) :
    (intToString v).length ≤ 20 := by
  have := length_natDigits_le 18 (v.natAbs + 1) v.natAbs (by omega)
  rw [intToString]
  split <;> simp only [natToString, List.length_cons] <;> omega

/-! ## What `CanConvertTo…` accepts -/

/-- The canonical-decimal test accepts exactly the printed 64-bit values. -/
theorem canConvertToInt64_eq_some {s : Bytes} {v : Int64} :
    canConvertToInt64 s = some v ↔ s = intToString v.toInt := by
  constructor
  · intro h
    rw [canConvertToInt64] at h
    split at h
    · cases h
    · cases ht : stoll s with
      | none => simp [ht] at h
      | some tmp =>
        simp only [ht, Option.ite_none_right_eq_some, Option.some.injEq] at h
        obtain ⟨hs, rfl⟩ := h
        have hr : -2 ^ 63 ≤ tmp ∧ tmp < 2 ^ 63 := by
          rw [stoll] at ht
          split at ht
          · cases ht
          · simp only [Option.ite_none_right_eq_some, Option.some.injEq] at ht
            exact ht.2 ▸ ht.1
        rw [Int64.toInt_ofInt_of_le (by simpa using hr.1) (by simpa using hr.2), hs]
  · rintro rfl
    have hl := Int64.le_toInt v
    have hu := Int64.toInt_lt v
    have hlen := length_intToString_le hl hu
    have hne := intToString_ne_nil v.toInt
    rw [canConvertToInt64, if_neg (by simp [hne]; omega), stoll_intToString hl hu]
    simp

/-- The 32-bit test accepts exactly the printed 32-bit values. -/
theorem canConvertToInt32_eq_some {s : Bytes} {v : Int} :
    canConvertToInt32 s = some v ↔ (-2 ^ 31 ≤ v ∧ v < 2 ^ 31) ∧ s = intToString v := by
  constructor
  · intro h
    rw [canConvertToInt32] at h
    split at h
    · cases h
    · cases ht : stoi s with
      | none => simp [ht] at h
      | some tmp =>
        simp only [ht, Option.ite_none_right_eq_some, Option.some.injEq] at h
        obtain ⟨hs, rfl⟩ := h
        refine ⟨?_, hs.symm⟩
        rw [stoi] at ht
        split at ht
        · cases ht
        · simp only [Option.ite_none_right_eq_some, Option.some.injEq] at ht
          exact ht.2 ▸ ht.1
  · rintro ⟨⟨hl, hu⟩, rfl⟩
    have hlen := length_intToString_le (v := v) (by omega) (by omega)
    have hne := intToString_ne_nil v
    rw [canConvertToInt32, if_neg (by simp [hne]; omega), stoi_intToString hl hu]
    simp

end LiteKV
