/-
LiteKV.Str — byte strings, `src/str.h`, `src/str.cpp` and the hash of
`src/encoding.cpp`.

A `std::string` is its list of bytes. The two string classes differ in what
they do with a NUL byte. `DynamicString` carries its length, so it is a byte
list with one more value, the null buffer (`none`) that a default-constructed
or moved-from object has. `StaticString` carries a length too, but it is
built from a `std::string` through `c_str()`, compared with `strcmp` and read
back through `std::string(buf_)`: all three stop at the first NUL.

Lengths are unbounded here; the classes store them in 32-bit fields.
-/
import Mathlib.Algebra.Ring.Int.Defs
import Mathlib.Algebra.Ring.Nat
import Mathlib.Data.List.Basic
import Mathlib.Data.List.TakeWhile

namespace LiteKV

/-- The bytes of a `std::string`, or of a raw buffer. -/
abbrev Bytes := List UInt8

/-- The comparison that membership in a list of byte strings is decided with. -/
instance Bytes.lawfulBEq : LawfulBEq Bytes := inferInstance

/-- The bytes of a string literal of the source (all of them ASCII). -/
def ascii (s : String) : Bytes := s.toList.map (fun c => c.toNat.toUInt8)

/-! ## `Time33Hash` -/

/-- `(unsigned)str[i]`: a plain `char` is signed, so a byte from 128 on is
sign-extended to 32 bits before it is added. -/
def charToUnsigned (b : UInt8) : Nat :=
  if b.toNat < 128 then b.toNat else 2 ^ 32 - 256 + b.toNat

/-- `Time33Hash`: Bernstein's hash in an `unsigned long`. -/
def time33Hash (str : Bytes) : Nat :=
  str.foldl (fun hash b => ((hash <<< 5) + hash + charToUnsigned b) % 2 ^ 64) 5381

/-- `::tolower` in the C locale. -/
def toLower (b : UInt8) : UInt8 := if 65 ≤ b ∧ b ≤ 90 then b + 32 else b

/-! ## C strings -/

/-- What a C string function sees of a buffer: the bytes before the first NUL. -/
def cStr (b : Bytes) : Bytes := b.takeWhile (· ≠ 0)

/-- No byte of the string is NUL. -/
def NoNul (b : Bytes) : Prop := (0 : UInt8) ∉ b

instance (b : Bytes) : Decidable (NoNul b) := inferInstanceAs (Decidable (_ ∉ _))

theorem cStr_noNul (b : Bytes) : NoNul (cStr b) := by
  intro h
  simpa using List.mem_takeWhile_imp h

theorem cStr_of_noNul {b : Bytes} (h : NoNul b) : cStr b = b := by
  rw [cStr, List.takeWhile_eq_self_iff]
  intro x hx
  simpa using fun hx0 : x = 0 => h (hx0 ▸ hx)

/-- A C string as long as its buffer is the whole buffer. -/
theorem cStr_eq_self_of_length {b : Bytes} (h : (cStr b).length = b.length) : cStr b = b :=
  (List.takeWhile_prefix _).eq_of_length h

/-! ## `StaticString` -/

/-- A `StaticString` with a non-null buffer: `len_` bytes and the NUL the
constructors put behind them. -/
structure StaticString where
  buf : Bytes
  deriving DecidableEq, Repr

namespace StaticString

/-- `StaticString(const std::string &str) : StaticString(str.c_str())`. -/
def ofStdString (str : Bytes) : StaticString := ⟨cStr str⟩

/-- `Length()`. -/
def length (s : StaticString) : Nat := s.buf.length

/-- `ToStdString()`: `std::string(buf_)`. -/
def toStdString (s : StaticString) : Bytes := cStr s.buf

/-- `operator==`: `strcmp(buf_, other.buf_) == 0 && len_ == other.len_`. -/
def eq (a b : StaticString) : Bool := cStr a.buf == cStr b.buf && a.length == b.length

/-- `Hash()`. -/
def hash (s : StaticString) : Nat := time33Hash s.buf

/-- No byte of the key is NUL; `ofStdString` never gives another key. -/
def Clean (s : StaticString) : Prop := NoNul s.buf

instance (s : StaticString) : Decidable s.Clean := inferInstanceAs (Decidable (NoNul _))

theorem ofStdString_clean (str : Bytes) : (ofStdString str).Clean := cStr_noNul str

theorem toStdString_of_clean {s : StaticString} (h : s.Clean) : s.toStdString = s.buf :=
  cStr_of_noNul h

/-- Against a key without NUL, `operator==` is equality. -/
theorem eq_iff_of_clean {a b : StaticString} (ha : a.Clean) : a.eq b = true ↔ a = b := by
  constructor
  · intro h
    simp only [eq, Bool.and_eq_true, beq_iff_eq, length] at h
    obtain ⟨hs, hl⟩ := h
    rw [cStr_of_noNul ha] at hs
    have hb : (cStr b.buf).length = b.buf.length := by rw [← hs, hl]
    have hbuf : a.buf = b.buf := by rw [hs, cStr_eq_self_of_length hb]
    cases a; cases b; simp_all
  · rintro rfl
    simp [eq]

/-- A key without NUL is what its own text gives back. -/
theorem ofStdString_toStdString {s : StaticString} (h : s.Clean) :
    ofStdString s.toStdString = s := by
  rw [toStdString_of_clean h, ofStdString, cStr_of_noNul h]

end StaticString

/-! ## `DynamicString` -/

/-- A `DynamicString`: its `len_` bytes, or the null buffer. -/
abbrev DynamicString := Option Bytes

namespace DynamicString

/-- `ToStdString()`: the null buffer reads as the empty string. -/
def toStdString (s : DynamicString) : Bytes := s.getD []

/-- `Empty()`: `len_ == 0`, which the null buffer satisfies as well. -/
def empty (s : DynamicString) : Bool := s.toStdString.isEmpty

end DynamicString

end LiteKV
