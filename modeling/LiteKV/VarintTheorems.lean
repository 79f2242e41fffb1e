/-
LiteKV.VarintTheorems — the variable-length integers are exact, and end where
they say they end.

There is one encoder, `storeVarLoop`, and there are two decoders that were
written apart: `DecodeVarUnsignedInt64` is given a pointer and no length,
`DecodeInteger` of `src/lkvdb.cpp` a pointer and the number of bytes that
remain. `decodeVarLoop_eq` says that the two compute the same number from
bytes in which some group ends, so the group-by-group induction is
`decodeLoop_encodeVarLoop`, done once.

The number of groups is where the thresholds of `EstimateUnsignedIntBytes`
come in: `length_encodeVarLoop`. The tenth group holds one bit.
-/
import LiteKV.LkvdbTheorems
import LiteKV.MappingTheorems
import Mathlib.Tactic.IntervalCases

namespace LiteKV

open Lib.Cursors

/-! ## The encoder and its counter -/

/-- What is stored for one group, `value | 0b10000000` cut to a byte. -/
theorem toUInt8_or (value : UInt64) :
    (value ||| 0b10000000).toUInt8 = UInt8.ofNat (value.toNat ||| 0b10000000) := by
  apply UInt8.toNat_inj.mp
  rw [UInt64.toNat_toUInt8, UInt64.toNat_or, UInt8.toNat_ofNat']
  rfl

theorem toUInt8_eq_ofNat (value : UInt64) : value.toUInt8 = UInt8.ofNat value.toNat := by
  apply UInt8.toNat_inj.mp
  rw [UInt64.toNat_toUInt8, UInt8.toNat_ofNat']

theorem toNat_shiftRight_seven (value : UInt64) : (value >>> 7).toNat = value.toNat >>> 7 := by
  rw [UInt64.toNat_shiftRight]
  rfl

/-- The loop stores the groups behind what is there, and counts them. -/
theorem storeVarLoop_eq (n : Nat) : ∀ (value : UInt64) (stored : Bytes) (cnt : UInt8),
    value.toNat < 2 ^ (7 * (n + 1)) →
    storeVarLoop (n + 1) value stored cnt
      = some (stored ++ encodeVarLoop n value.toNat,
          cnt + UInt8.ofNat (encodeVarLoop n value.toNat).length) := by
  induction n with
  | zero =>
    intro value stored cnt hv
    have hlast : ¬ value ≥ 0b10000000 := by
      rw [ge_iff_le, UInt64.le_iff_toNat_le]
      exact Nat.not_le.mpr hv
    rw [storeVarLoop, if_neg hlast, encodeVarLoop, toUInt8_eq_ofNat]
    rfl
  | succ n ih =>
    intro value stored cnt hv
    rw [storeVarLoop, encodeVarLoop]
    by_cases hmore : value.toNat ≥ 0b10000000
    · have hmore' : value ≥ 0b10000000 := UInt64.le_iff_toNat_le.mpr hmore
      have hrest : (value >>> 7).toNat < 2 ^ (7 * (n + 1)) := by
        rw [toNat_shiftRight_seven, Nat.shiftRight_eq_div_pow]
        exact div_lt_of_groups hv
      have hcnt (m : Nat) : cnt + 1 + UInt8.ofNat m = cnt + UInt8.ofNat (m + 1) := by
        rw [UInt8.ofNat_add, UInt8.add_assoc, UInt8.add_comm 1]
        rfl
      rw [if_pos hmore', if_pos hmore, ih _ _ _ hrest, toUInt8_or, toNat_shiftRight_seven,
        List.append_assoc, List.singleton_append, List.length_cons, hcnt]
    · have hmore' : ¬ value ≥ 0b10000000 := fun h => hmore (UInt64.le_iff_toNat_le.mp h)
      rw [if_neg hmore', if_neg hmore, toUInt8_eq_ofNat]
      rfl

/-! ## The number of groups -/

/-- A value of more than `7 * k` bits and at most `7 * (k + 1)` has `k + 1` groups. -/
theorem length_encodeVarLoop (k : Nat) : ∀ {n value : Nat}, k ≤ n →
    (k = 0 ∨ 2 ^ (7 * k) ≤ value) → value < 2 ^ (7 * (k + 1)) →
    (encodeVarLoop n value).length = k + 1 := by
  induction k with
  | zero =>
    intro n value _ _ hhi
    cases n with
    | zero => rfl
    | succ n =>
        have hlast : value < 128 := hhi
        rw [encodeVarLoop_succ, if_pos hlast]
        rfl
  | succ k ih =>
    intro n value hk hlo hhi
    obtain ⟨n, rfl⟩ : ∃ m, n = m + 1 := ⟨n - 1, by omega⟩
    have hlo : 2 ^ (7 * k) * 128 ≤ value := by
      rw [show 2 ^ (7 * k) * 128 = 2 ^ (7 * (k + 1)) by rw [Nat.mul_add, Nat.pow_add]]
      omega
    have hpos : 0 < 2 ^ (7 * k) := Nat.two_pow_pos _
    have hmore : ¬ value < 128 := by omega
    have hdiv : 2 ^ (7 * k) ≤ value / 128 := (Nat.le_div_iff_mul_le (by decide)).mpr hlo
    rw [encodeVarLoop_succ, if_neg hmore, List.length_cons,
      ih (Nat.le_of_succ_le_succ hk) (Or.inr hdiv) (div_lt_of_groups hhi)]

theorem toNat_le_byteMax {value : UInt64} {k : Nat} (hk : 7 * k < 64) :
    value ≤ uint64ByteMax k ↔ value.toNat < 2 ^ (7 * k) := by
  have hpow : 2 ^ (7 * k) < 2 ^ 64 := Nat.pow_lt_pow_right (by decide) hk
  have hpos : 0 < 2 ^ (7 * k) := Nat.two_pow_pos _
  have hshift : ((1 : UInt64) <<< UInt64.ofNat (7 * k)).toNat = 2 ^ (7 * k) := by
    rw [UInt64.toNat_shiftLeft, UInt64.toNat_ofNat', Nat.mod_eq_of_lt (by omega : 7 * k < 2 ^ 64),
      Nat.mod_eq_of_lt hk, Nat.shiftLeft_eq]
    show 1 * 2 ^ (7 * k) % 2 ^ 64 = _
    rw [Nat.one_mul, Nat.mod_eq_of_lt hpow]
  have hmax : (uint64ByteMax k).toNat = 2 ^ (7 * k) - 1 := by
    rw [uint64ByteMax, UInt64.toNat_sub_of_le _ _ (UInt64.le_iff_toNat_le.mpr (by
      rw [hshift]; exact hpos)), hshift]
    rfl
  rw [UInt64.le_iff_toNat_le, hmax]
  omega

/-- The value has `k + 1` groups. -/
def HasGroups (value k : Nat) : Prop :=
  (k = 0 ∨ 2 ^ (7 * k) ≤ value) ∧ value < 2 ^ (7 * (k + 1))

theorem exists_hasGroups (n : Nat) {value : Nat} (h : value < 2 ^ (7 * (n + 1))) :
    ∃ k ≤ n, HasGroups value k := by
  induction n with
  | zero => exact ⟨0, Nat.le_refl 0, Or.inl rfl, h⟩
  | succ n ih =>
      by_cases hlo : value < 2 ^ (7 * (n + 1))
      · obtain ⟨k, hk, hgroups⟩ := ih hlo
        exact ⟨k, Nat.le_succ_of_le hk, hgroups⟩
      · exact ⟨n + 1, Nat.le_refl _, Or.inr (Nat.not_lt.mp hlo), h⟩

/-- A threshold lies above the value exactly when the value has no more groups. -/
theorem HasGroups.lt_iff {value k : Nat} (h : HasGroups value k) {j : Nat} (hj : 0 < j) :
    value < 2 ^ (7 * j) ↔ k < j := by
  obtain ⟨hlo, hhi⟩ := h
  constructor
  · intro hlt
    by_contra hk
    have hle : 2 ^ (7 * j) ≤ 2 ^ (7 * k) := Nat.pow_le_pow_right (by decide) (by omega)
    rcases hlo with rfl | hlo
    · exact hk hj
    · omega
  · intro hk
    exact Nat.lt_of_lt_of_le hhi (Nat.pow_le_pow_right (by decide) (by omega))

theorem estimate_of_hasGroups {value : UInt64} {k : Nat} (hk : k ≤ 9)
    (h : HasGroups value.toNat k) : estimateUnsignedIntBytes value = UInt8.ofNat (k + 1) := by
  have hmax (j : Nat) (hj : 0 < j ∧ 7 * j < 64) : value ≤ uint64ByteMax j ↔ k < j :=
    (toNat_le_byteMax hj.2).trans (h.lt_iff hj.1)
  simp only [estimateUnsignedIntBytes, hmax 1 (by decide), hmax 2 (by decide),
    hmax 3 (by decide), hmax 4 (by decide), hmax 5 (by decide), hmax 6 (by decide),
    hmax 7 (by decide), hmax 8 (by decide), hmax 9 (by decide)]
  clear hmax h
  interval_cases k <;> rfl

/-- `EstimateUnsignedIntBytes` is the number of bytes written. -/
theorem estimateUnsignedIntBytes_eq (value : UInt64) :
    estimateUnsignedIntBytes value = UInt8.ofNat (encodeVarUnsignedInt64 value).length ∧
      1 ≤ (encodeVarUnsignedInt64 value).length ∧ (encodeVarUnsignedInt64 value).length ≤ 10 := by
  have hlt := value.toNat_lt
  obtain ⟨k, hk, hgroups⟩ := exists_hasGroups 9 (show value.toNat < 2 ^ (7 * (9 + 1)) by omega)
  have hlen : (encodeVarUnsignedInt64 value).length = k + 1 :=
    length_encodeVarLoop k hk hgroups.1 hgroups.2
  rw [hlen]
  exact ⟨estimate_of_hasGroups hk hgroups, by omega, by omega⟩

/-! ## The two decoders -/

/-- Some group ends in the bytes. -/
def Ends (enc : Bytes) : Prop := ∃ b ∈ enc, b.toNat < 0b10000000

theorem ends_encodeVarLoop (n : Nat) : ∀ (value : Nat), value < 2 ^ (7 * (n + 1)) →
    Ends (encodeVarLoop n value) := by
  have hone (value : Nat) (hv : value < 128) : Ends [UInt8.ofNat value] := by
    refine ⟨_, List.mem_singleton_self _, ?_⟩
    rw [UInt8.toNat_ofNat']
    omega
  induction n with
  | zero => exact hone
  | succ n ih =>
    intro value hv
    rw [encodeVarLoop_succ]
    by_cases hlast : value < 128
    · rw [if_pos hlast]
      exact hone value hlast
    · rw [if_neg hlast]
      obtain ⟨b, hb, hlt⟩ := ih _ (div_lt_of_groups hv)
      exact ⟨b, List.mem_cons_of_mem _ hb, hlt⟩

theorem and_ne_zero_iff (b : UInt8) :
    b.toUInt64 &&& 0b10000000 ≠ 0 ↔ b.toNat ≥ 0b10000000 := by
  have hbits := (by decide +kernel : ∀ x : Fin 256, x.val &&& 128 ≠ 0 ↔ x.val ≥ 128)
  have hb := hbits ⟨b.toNat, b.toNat_lt⟩
  rw [← hb, Ne, ← UInt64.toNat_inj, UInt64.toNat_and, UInt8.toNat_toUInt64]
  rfl

theorem toNat_and_low (b : UInt8) : (b.toUInt64 &&& 0b01111111).toNat = b.toNat % 128 := by
  rw [UInt64.toNat_and, UInt8.toNat_toUInt64]
  exact Nat.and_two_pow_sub_one_eq_mod b.toNat 7

/-- A group is put above the ones before it. -/
theorem toNat_or_shiftLeft (value byte : UInt64) {shift : Nat} (h : shift < 64) :
    (value ||| (byte <<< UInt64.ofNat shift)).toNat
      = value.toNat ||| ((byte.toNat <<< shift) % 2 ^ 64) := by
  rw [UInt64.toNat_or, UInt64.toNat_shiftLeft, UInt64.toNat_ofNat',
    Nat.mod_eq_of_lt (by omega : shift < 2 ^ 64), Nat.mod_eq_of_lt h]

/-- The decoder without a length gives the number of the other one, when the
bytes do not run out. -/
theorem decodeVarLoop_eq (enc : Bytes) : ∀ (n i : Nat) (value : UInt64), i + n = 10 → Ends enc →
    decodeVarLoop (7 * i) i value enc
      = some (UInt64.ofNat (decodeLoop n (7 * i) value.toNat enc).1) := by
  induction enc with
  | nil =>
      intro n i value _ hends
      obtain ⟨b, hb, -⟩ := hends
      exact absurd hb List.not_mem_nil
  | cons b enc ih =>
      intro n i value hi hends
      rw [decodeVarLoop]
      cases n with
      | zero =>
          rw [if_neg (by omega), decodeLoop, UInt64.ofNat_toNat]
      | succ n =>
          rw [if_pos (by omega), decodeLoop]
          dsimp only
          by_cases hmore : b.toNat ≥ 0b10000000
          · have hrest : Ends enc := by
              obtain ⟨c, hc, hlt⟩ := hends
              rcases List.mem_cons.mp hc with rfl | hc
              · exact absurd hlt (Nat.not_lt.mpr hmore)
              · exact ⟨c, hc, hlt⟩
            rw [if_pos ((and_ne_zero_iff b).mpr hmore), if_pos hmore, ← Nat.mul_succ,
              ih n (i + 1) _ (by omega) hrest, toNat_or_shiftLeft _ _ (by omega), toNat_and_low]
          · rw [if_neg (mt (and_ne_zero_iff b).mp hmore), if_neg hmore]
            congr 1
            rw [← UInt8.toNat_toUInt64, ← toNat_or_shiftLeft _ _ (by omega), UInt64.ofNat_toNat]

theorem decodeVarUnsignedInt64_encode (value : UInt64) (tail : Bytes) :
    decodeVarUnsignedInt64 (encodeVarUnsignedInt64 value ++ tail) = some value := by
  have hlt := value.toNat_lt
  have hends : Ends (encodeVarUnsignedInt64 value ++ tail) := by
    obtain ⟨b, hb, hend⟩ := ends_encodeVarLoop 9 value.toNat (by omega)
    exact ⟨b, List.mem_append_left _ hb, hend⟩
  rw [decodeVarUnsignedInt64, show decodeVarLoop 0 0 0 _ = _ from
    decodeVarLoop_eq _ 10 0 0 rfl hends]
  show some (UInt64.ofNat (decodeInteger (encodeVarUnsignedInt64 value ++ tail)).1) = _
  rw [decodeInteger_encode, UInt64.ofNat_toNat]

/-! ## The codec -/

/-- An encoding that another begins with is the other one. -/
theorem encodeVar_prefixFree {value value' : UInt64}
    (h : encodeVarUnsignedInt64 value <+: encodeVarUnsignedInt64 value') : value = value' := by
  obtain ⟨tail, htail⟩ := h
  have hdec := decodeVarUnsignedInt64_encode value tail
  rw [htail, ← List.append_nil (encodeVarUnsignedInt64 value'),
    decodeVarUnsignedInt64_encode] at hdec
  exact (Option.some.inj hdec).symm

/-- `DecodeInteger` in a mapping: the value, and where the cursor is then. -/
theorem mapping_decodeInteger_encode {m : Mapping} {c : Cursor} {value : UInt64} {tail : Bytes}
    (h : At m.bytes c (encodeVarUnsignedInt64 value ++ tail)) :
    (m.decodeInteger c).1 = value.toNat ∧
      (m.decodeInteger c).2.pos = c.pos + (encodeVarUnsignedInt64 value).length ∧
      (m.decodeInteger c).2.remain = c.remain - (encodeVarUnsignedInt64 value).length := by
  obtain ⟨hval, hat⟩ := Mapping.decodeInteger_at h
  rw [decodeInteger_encode] at hval hat
  have hbefore := h.remain
  have hafter : (m.decodeInteger c).2.remain = tail.length := hat.remain
  have hexact := h.exact
  have hexact' := hat.exact
  rw [List.length_append] at hbefore
  exact ⟨hval, by omega, by omega⟩

/-- **The variable-length integers are exact and self-delimiting**, for both
decoders and whatever stands behind them. -/
theorem varint_codec_exact (value : UInt64) (tail : Bytes) :
    let enc := encodeVarUnsignedInt64 value
    (1 ≤ enc.length ∧ enc.length ≤ 10) ∧
      storeVarUnsignedInt64 10 value false = some (enc, UInt8.ofNat enc.length) ∧
      estimateUnsignedIntBytes value = UInt8.ofNat enc.length ∧
      decodeVarUnsignedInt64 (enc ++ tail) = some value ∧
      (∀ (m : Mapping) (c : Cursor), At m.bytes c (enc ++ tail) →
        (m.decodeInteger c).1 = value.toNat ∧
          (m.decodeInteger c).2.pos = c.pos + enc.length ∧
          (m.decodeInteger c).2.remain = c.remain - enc.length) ∧
      (∀ value', enc <+: encodeVarUnsignedInt64 value' → value = value') ∧
      ∀ v : Int64, decodeVarSignedInt64 (encodeVarSignedInt64 v ++ tail) = some v := by
  intro enc
  have hlt := value.toNat_lt
  obtain ⟨hestimate, hlo, hhi⟩ := estimateUnsignedIntBytes_eq value
  refine ⟨⟨hlo, hhi⟩, ?_, hestimate, decodeVarUnsignedInt64_encode value tail,
    fun m c h => mapping_decodeInteger_encode h, fun value' h => encodeVar_prefixFree h,
    fun v => ?_⟩
  · have hstore := storeVarLoop_eq 9 value [] 0 (by omega)
    rw [UInt8.zero_add] at hstore
    exact hstore
  · rw [decodeVarSignedInt64, encodeVarSignedInt64, decodeVarUnsignedInt64_encode, Option.map_some]
    rfl

/-- 300 in front of another byte of a mapped file. -/
theorem varint_codec_exact_300 :
    let m : Mapping := ⟨[0xAC, 0x02, 0x07], by decide⟩
    encodeVarUnsignedInt64 300 = [0xAC, 0x02] ∧ (m.decodeInteger (.start 3)).1 = 300 ∧
      (m.decodeInteger (.start 3)).2.pos = 2 ∧ (m.decodeInteger (.start 3)).2.remain = 1 := by
  intro m
  exact ⟨by decide, (varint_codec_exact 300 [0x07]).2.2.2.2.1 m (.start 3) (At.start m.bytes)⟩

end LiteKV
