/-
LiteKV.Encoding — the integer encoders of `src/encoding.cpp`.

A variable-length integer is written in groups of seven bits, least
significant first; every byte but the last carries the bit `0x80`. A fixed
integer is its eight bytes in memory order, little endian on the machines
the source runs on.

The encoders are recursions on the remaining value. Nine shifts by seven
leave less than one group of a 64-bit value, so the recursion bound of
`encodeVarUnsignedInt64` is never what ends it. It is the bytes alone;
`storeVarUnsignedInt64` is the function with its pointer and its counter.
-/
import LiteKV.Str

namespace LiteKV

/-- The loop of `EncodeVarUnsignedInt64`: `while (value >= 0b10000000)` write
`value | 0b10000000` and shift by seven. -/
def encodeVarLoop : (fuel : Nat) → (value : Nat) → Bytes
  | 0, value => [UInt8.ofNat value]
  | fuel + 1, value =>
      if value ≥ 0b10000000 then
        UInt8.ofNat (value ||| 0b10000000) :: encodeVarLoop fuel (value >>> 7)
      else [UInt8.ofNat value]

/-- `EncodeVarUnsignedInt64`: the bytes put into the buffer. -/
def encodeVarUnsignedInt64 (value : UInt64) : Bytes := encodeVarLoop 9 value.toNat

/-- `EncodeVarSignedInt64`: the argument is converted to `uint64_t`. -/
def encodeVarSignedInt64 (value : Int64) : Bytes := encodeVarUnsignedInt64 value.toUInt64

/-- The same loop with the variables of the source: the bytes `*(ptr++)` has
stored so far, and `cnt`. -/
def storeVarLoop : (fuel : Nat) → (value : UInt64) → (stored : Bytes) → (cnt : UInt8) →
    Option (Bytes × UInt8)
  | 0, _, _, _ => none
  | fuel + 1, value, stored, cnt =>
      if value ≥ 0b10000000 then
        storeVarLoop fuel (value >>> 7) (stored ++ [(value ||| 0b10000000).toUInt8]) (cnt + 1)
      else some (stored ++ [value.toUInt8], cnt + 1)

/-- `EncodeVarUnsignedInt64` as it stands: what is stored, and what is
returned. A null buffer gives 0. -/
def storeVarUnsignedInt64 (fuel : Nat) (value : UInt64) (bufIsNull : Bool) :
    Option (Bytes × UInt8) :=
  if bufIsNull then some ([], 0) else storeVarLoop fuel value [] 0

/-- The loop of `DecodeVarUnsignedInt64`. It is given no length; `none` is a
read behind the last byte of `enc`. -/
def decodeVarLoop : (shift i : Nat) → (value : UInt64) → (enc : Bytes) → Option UInt64
  | shift, i, value, [] => if shift ≤ 63 ∧ i < 10 then none else some value
  | shift, i, value, b :: enc =>
      if shift ≤ 63 ∧ i < 10 then
        let byte := b.toUInt64
        if byte &&& 0b10000000 ≠ 0 then
          decodeVarLoop (shift + 7) (i + 1)
            (value ||| ((byte &&& 0b01111111) <<< UInt64.ofNat shift)) enc
        else some (value ||| (byte <<< UInt64.ofNat shift))
      else some value

/-- `DecodeVarUnsignedInt64`. -/
def decodeVarUnsignedInt64 (enc : Bytes) : Option UInt64 := decodeVarLoop 0 0 0 enc

/-- `DecodeVarSignedInt64`. -/
def decodeVarSignedInt64 (buf : Bytes) : Option Int64 :=
  (decodeVarUnsignedInt64 buf).map UInt64.toInt64

/-- `UINT64_BYTE_k_MAX`, the largest value of `7 * k` bits. -/
def uint64ByteMax (k : Nat) : UInt64 := (1 <<< UInt64.ofNat (7 * k)) - 1

/-- `EstimateUnsignedIntBytes`. -/
def estimateUnsignedIntBytes (value : UInt64) : UInt8 :=
  if value ≤ uint64ByteMax 1 then 1
  else if value ≤ uint64ByteMax 2 then 2
  else if value ≤ uint64ByteMax 3 then 3
  else if value ≤ uint64ByteMax 4 then 4
  else if value ≤ uint64ByteMax 5 then 5
  else if value ≤ uint64ByteMax 6 then 6
  else if value ≤ uint64ByteMax 7 then 7
  else if value ≤ uint64ByteMax 8 then 8
  else if value ≤ uint64ByteMax 9 then 9
  else 10

/-- The low `n` bytes of a value, least significant first. -/
def littleEndian : (n : Nat) → (value : Nat) → Bytes
  | 0, _ => []
  | n + 1, value => UInt8.ofNat value :: littleEndian n (value / 256)

/-- `EncodeFixed64BitInteger`. -/
def encodeFixed64BitInteger (value : UInt64) : Bytes := littleEndian 8 value.toNat

/-- The value of bytes in memory order. -/
def ofLittleEndian (bs : Bytes) : Nat := bs.foldr (fun b v => b.toNat + 256 * v) 0

/-- `*(uint64_t*)(cursor)`: the value of the eight bytes in front. -/
def decodeFixed64BitInteger (bs : Bytes) : UInt64 := UInt64.ofNat (ofLittleEndian (bs.take 8))

theorem length_littleEndian (n value : Nat) : (littleEndian n value).length = n := by
  induction n generalizing value with
  | zero => rfl
  | succ n ih => simp [littleEndian, ih]

theorem ofLittleEndian_littleEndian (n value : Nat) :
    ofLittleEndian (littleEndian n value) = value % 256 ^ n := by
  induction n generalizing value with
  | zero => simp [littleEndian, ofLittleEndian, Nat.mod_one]
  | succ n ih =>
    have hc : ofLittleEndian (littleEndian (n + 1) value)
        = (UInt8.ofNat value).toNat + 256 * ofLittleEndian (littleEndian n (value / 256)) := rfl
    rw [hc, ih, UInt8.toNat_ofNat', Nat.pow_succ 256 n, Nat.mul_comm (256 ^ n) 256, Nat.mod_mul]

/-- Eight bytes give back the 64-bit value they were written from. -/
theorem decodeFixed64BitInteger_append (value : UInt64) (tail : Bytes) :
    decodeFixed64BitInteger (encodeFixed64BitInteger value ++ tail) = value := by
  have hlen : (encodeFixed64BitInteger value).length = 8 := length_littleEndian 8 value.toNat
  rw [decodeFixed64BitInteger, List.take_left' hlen, encodeFixed64BitInteger,
    ofLittleEndian_littleEndian]
  apply UInt64.toNat_inj.mp
  rw [UInt64.toNat_ofNat']
  have := value.toNat_lt
  omega

/-- One step of the variable-length encoder, in terms of groups of seven bits. -/
theorem encodeVarLoop_succ (fuel value : Nat) :
    encodeVarLoop (fuel + 1) value =
      if value < 128 then [UInt8.ofNat value]
      else UInt8.ofNat (value % 128 + 128) :: encodeVarLoop fuel (value / 128) := by
  rw [encodeVarLoop]
  by_cases h : value < 128
  · rw [if_neg (by omega), if_pos h]
  · rw [if_pos (by omega), if_neg h, Nat.shiftRight_eq_div_pow]
    congr 1
    apply UInt8.toNat_inj.mp
    rw [UInt8.toNat_ofNat', UInt8.toNat_ofNat', Nat.or_mod_two_pow]
    have hor : value % 2 ^ 8 ||| 0b10000000 % 2 ^ 8 = value % 128 + 128 := by
      have hv : value % 2 ^ 8 < 256 := Nat.mod_lt _ (by decide)
      have hm : value % 128 = value % 2 ^ 8 % 128 := by omega
      rw [hm]
      generalize value % 2 ^ 8 = x at hv
      have hx := (by decide +kernel : ∀ i : Fin 256, i.val ||| 128 = i.val % 128 + 128)
      exact hx ⟨x, hv⟩
    rw [hor]
    omega

end LiteKV
